import LlmScaler.Core.Sorting
import LlmScaler.Ledger.State

/-!
# Reversal holds and swings read off the move history

A role's last move each way and its swing are derived from its recorded moves and cancels. What
they say at a time depends only on the entries recent then: those within the reversal hold or two
swing windows. The entries the ledger drops by age are therefore never missed.
-/

namespace LlmScaler.Ledger

open LlmScaler.Core List

/-- The entries no older than `d` at time `now`. -/
def recent (d now : Int) (ms : List ShareMove) : List ShareMove :=
  ms.filter fun m => now - m.time ≤ d

/-- How long a move is kept: as long as a hold or a swing can read it. -/
def ShareTimings.keep (tm : ShareTimings) : Int := max tm.reversalHold (2 * tm.swingWindow)

variable {d now : Int} {m : ShareMove} {ms : List ShareMove}

theorem mem_recent : m ∈ recent d now ms ↔ m ∈ ms ∧ now - m.time ≤ d := by
  rw [recent, mem_filter, decide_eq_true_eq]

theorem recent_recent {d' now' : Int} (hd : d' ≤ d) (hnow : now ≤ now') (ms : List ShareMove) :
    recent d' now' (recent d now ms) = recent d' now' ms := by
  rw [recent, recent, recent, filter_filter]
  refine filter_congr fun m _ => ?_
  by_cases h : now' - m.time ≤ d'
  · simp only [h, decide_true, Bool.true_and, decide_eq_true_eq]
    omega
  · simp [h]

theorem recent_congr {d' now' : Int} (hd : d' ≤ d) (hnow : now ≤ now') {ms' : List ShareMove}
    (h : recent d now ms = recent d now ms') : recent d' now' ms = recent d' now' ms' := by
  rw [← recent_recent hd hnow ms, h, recent_recent hd hnow]

theorem recent_append (d now : Int) (ms ms' : List ShareMove) :
    recent d now (ms ++ ms') = recent d now ms ++ recent d now ms' :=
  filter_append ..

theorem recent_filter (d now : Int) (p : ShareMove → Bool) (ms : List ShareMove) :
    recent d now (ms.filter p) = (recent d now ms).filter p :=
  filter_comm ..

/-- Some move in one direction is younger than the reversal hold at time `time`. -/
def HeldBy (tm : ShareTimings) (received : Bool) (time : Int) (ms : List ShareMove) : Prop :=
  ∃ m ∈ ms, m.received = received ∧ time - m.time < tm.reversalHold

variable {time : Int} {tm : ShareTimings}

theorem heldBy_recent {received : Bool} (h : now ≤ time) :
    HeldBy tm received time (recent tm.keep now ms) ↔ HeldBy tm received time ms := by
  constructor
  · rintro ⟨m, hm, hr, hlt⟩
    exact ⟨m, (mem_recent.mp hm).1, hr, hlt⟩
  · rintro ⟨m, hm, hr, hlt⟩
    refine ⟨m, mem_recent.mpr ⟨hm, ?_⟩, hr, hlt⟩
    have hkeep : tm.reversalHold ≤ tm.keep := le_max_left ..
    omega

theorem getLast?_held {received : Bool} (hsorted : ms.Pairwise fun a b => a.time ≤ b.time) :
    (((ms.filter fun m => m.received == received).getLast?.map (·.time)).any
        fun t => time - t < tm.reversalHold) = true ↔
      HeldBy tm received time ms := by
  have hfilter := hsorted.filter fun m => m.received == received
  rcases eq_nil_or_concat (ms.filter fun m => m.received == received) with hnil | ⟨as, a, ha⟩
  · rw [hnil]
    simp only [getLast?_nil, Option.map_none, Option.any_none, Bool.false_eq_true, false_iff]
    rintro ⟨m, hm, hr, -⟩
    exact not_mem_nil (hnil ▸ mem_filter.mpr ⟨hm, by simp [hr]⟩)
  · rw [concat_eq_append] at ha
    rw [ha] at hfilter
    rw [ha, getLast?_concat, Option.map_some, Option.any_some, decide_eq_true_eq]
    have hlast : a ∈ ms.filter fun m => m.received == received := by
      rw [ha]
      simp
    have hmem := mem_filter.mp hlast
    constructor
    · intro hlt
      exact ⟨a, hmem.1, by simpa using hmem.2, hlt⟩
    · rintro ⟨m, hm, hr, hlt⟩
      have hin : m ∈ as ++ [a] := ha ▸ mem_filter.mpr ⟨hm, by simp [hr]⟩
      rcases mem_append.mp hin with hin | hin
      · have hle := (pairwise_append.mp hfilter).2.2 m hin a (by simp)
        omega
      · rw [mem_singleton.mp hin] at hlt
        exact hlt

/-- The moves and cancels of a role, in time order. -/
def inOrder (ms : List ShareMove) : List ShareMove := ms.insertionSort fun a b => a.time ≤ b.time

/-- The sorted moves begin a swing that has not ended at time `time`. -/
def Swings (tm : ShareTimings) (time : Int) (ms : List ShareMove) : Prop :=
  ∃ m ∈ ms, tm.reversals ≤ reversalsAt tm ms m.time ∧ time < m.time + tm.swingWindow

private theorem foldl_swing (tm : ShareTimings) (all ms : List ShareMove) (acc : Option Int)
    (time : Int) :
    ((ms.foldl (fun acc m =>
        if tm.reversals ≤ reversalsAt tm all m.time ∧
            acc.all (· < m.time + tm.swingWindow) then some (m.time + tm.swingWindow)
        else acc) acc).any (time < ·)) = true ↔
      acc.any (time < ·) = true ∨
        ∃ m ∈ ms, tm.reversals ≤ reversalsAt tm all m.time ∧ time < m.time + tm.swingWindow := by
  induction ms generalizing acc with
  | nil => simp
  | cons m ms ih =>
    rw [foldl_cons, ih, exists_mem_cons_iff, ← or_assoc]
    refine or_congr_left ?_
    -- the end marked at `m` replaces an earlier one only when it is later
    by_cases hrev : tm.reversals ≤ reversalsAt tm all m.time
    · cases acc with
      | none => simp [hrev]
      | some u =>
        by_cases hu : u < m.time + tm.swingWindow
        · simp only [hrev, Option.all_some, hu, decide_true, and_self, if_true, Option.any_some,
            decide_eq_true_eq, true_and]
          omega
        · simp only [hrev, Option.all_some, hu, decide_false, Bool.false_eq_true, and_false,
            if_false, Option.any_some, decide_eq_true_eq, true_and]
          omega
    · simp [hrev]

theorem swingEnd_any (tm : ShareTimings) (ms : List ShareMove) (time : Int) :
    (swingEnd tm ms).any (time < ·) = true ↔ Swings tm time ms := by
  rw [swingEnd, foldl_swing]
  simp [Swings]

private theorem reversalsAt_cons (hsorted : (m :: ms).Pairwise fun a b => a.time ≤ b.time)
    (hold : m.time < time - tm.swingWindow) :
    reversalsAt tm (m :: ms) time = reversalsAt tm ms time := by
  cases ms with
  | nil => simp [reversalsAt]
  | cons n ms =>
    simp only [reversalsAt, tail_cons, zip_cons_cons]
    by_cases hn : n.time ≤ time
    · rw [takeWhile_cons_of_pos (by simpa using hn), countP_cons]
      have hfar : ¬ time - m.time ≤ tm.swingWindow := by omega
      simp [hfar]
    · -- past `time` no later pair is read either
      rw [takeWhile_cons_of_neg (by simpa using hn)]
      cases ms with
      | nil => simp
      | cons k ms =>
        have hk : n.time ≤ k.time :=
          (pairwise_cons.mp (pairwise_cons.mp hsorted).2).1 k (by simp)
        rw [zip_cons_cons, takeWhile_cons_of_neg]
        simp only [decide_eq_true_eq]
        omega

theorem reversalsAt_recent (hsorted : ms.Pairwise fun a b => a.time ≤ b.time)
    (hcut : now - d ≤ time - tm.swingWindow) :
    reversalsAt tm (recent d now ms) time = reversalsAt tm ms time := by
  induction ms with
  | nil => rfl
  | cons m ms ih =>
    obtain ⟨hm, hrest⟩ := pairwise_cons.mp hsorted
    by_cases hrecent : now - m.time ≤ d
    · have hall : recent d now (m :: ms) = m :: ms := by
        rw [recent, filter_eq_self]
        intro n hn
        rw [decide_eq_true_eq]
        rcases mem_cons.mp hn with rfl | hn
        · exact hrecent
        · have := hm n hn
          omega
      rw [hall]
    · have hdrop : recent d now (m :: ms) = recent d now ms := by
        rw [recent, filter_cons_of_neg (by simpa using hrecent)]
        rfl
      rw [hdrop, ih hrest, reversalsAt_cons hsorted (by omega)]

theorem swings_recent (hsorted : ms.Pairwise fun a b => a.time ≤ b.time)
    (hpast : ∀ m ∈ ms, m.time ≤ now) (h : now ≤ time) :
    Swings tm time (recent (2 * tm.swingWindow) now ms) ↔ Swings tm time ms := by
  have hcut (m : ShareMove) (hlt : time < m.time + tm.swingWindow) :
      now - 2 * tm.swingWindow ≤ m.time - tm.swingWindow := by omega
  constructor
  · rintro ⟨m, hm, hrev, hlt⟩
    rw [reversalsAt_recent hsorted (hcut m hlt)] at hrev
    exact ⟨m, (mem_recent.mp hm).1, hrev, hlt⟩
  · rintro ⟨m, hm, hrev, hlt⟩
    have hle := hpast m hm
    refine ⟨m, mem_recent.mpr ⟨hm, by omega⟩, ?_, hlt⟩
    rwa [reversalsAt_recent hsorted (hcut m hlt)]

theorem inOrder_sorted (ms : List ShareMove) : (inOrder ms).Pairwise fun a b => a.time ≤ b.time :=
  pairwise_insertionSort_key ShareMove.time ms

@[simp] theorem mem_inOrder : m ∈ inOrder ms ↔ m ∈ ms :=
  (perm_insertionSort _ ms).mem_iff

theorem swings_congr {ms' cs cs' : List ShareMove}
    (hms : recent (2 * tm.swingWindow) now ms = recent (2 * tm.swingWindow) now ms')
    (hcs : recent (2 * tm.swingWindow) now cs = recent (2 * tm.swingWindow) now cs')
    (hpast : ∀ m ∈ ms ++ cs, m.time ≤ now) (hpast' : ∀ m ∈ ms' ++ cs', m.time ≤ now)
    (h : now ≤ time) :
    Swings tm time (inOrder (ms ++ cs)) ↔ Swings tm time (inOrder (ms' ++ cs')) := by
  have hsame : recent (2 * tm.swingWindow) now (inOrder (ms ++ cs)) =
      recent (2 * tm.swingWindow) now (inOrder (ms' ++ cs')) := by
    have hcomm (l : List ShareMove) : recent (2 * tm.swingWindow) now (inOrder l) =
        inOrder (recent (2 * tm.swingWindow) now l) :=
      filter_insertionSort ShareMove.time _ l
    rw [hcomm, hcomm, recent_append, recent_append, hms, hcs]
  rw [← swings_recent (inOrder_sorted _) (fun m hm => hpast m (mem_inOrder.mp hm)) h, hsame,
    swings_recent (inOrder_sorted _) (fun m hm => hpast' m (mem_inOrder.mp hm)) h]

end LlmScaler.Ledger
