import LlmScaler.Ledger.ObserveSpec

/-!
# Observe beside a transfer that stays

A transfer that is in no donor set, that the cycle neither releases nor ends, and that takes no
part in the other transfers' scan, might as well not be there: the cycle leaves every other
transfer and every back-off as it would without it.
-/

namespace LlmScaler.Ledger

open LlmScaler.Core List Row

/-- The part of the ledger the release loop writes beside the transfers. -/
structure Effects where
  releases : List Int
  wakeHolds : List ShareWakeHold
  aborts : GoMap String Nat
  giveAfter : GoMap String Int
  busyUntil : GoMap String Int

def Effects.release (now : Int) (e : Effects) (t : ShareTransfer) : Effects where
  releases := (e.releases ++ [now - t.started]).drop
    ((e.releases ++ [now - t.started]).length - shareReleaseSamples)
  wakeHolds := e.wakeHolds.map fun h =>
    if h.id = t.id ∧ h.untilTime = none then { h with untilTime := some (now + h.hold) } else h
  aborts := e.aborts.delete t.donor
  giveAfter := e.giveAfter.delete t.donor
  busyUntil := e.busyUntil.delete t.donor

def ReleaseLoop.effects (s : ReleaseLoop) : Effects :=
  ⟨s.releases, s.wakeHolds, s.aborts, s.giveAfter, s.busyUntil⟩

def ShareLedger.effects (l : ShareLedger) : Effects :=
  ⟨l.releases, l.wakeHolds, l.aborts, l.giveAfter, l.busyUntil⟩

private theorem releaseStep_effects (c : Cycle) (s : ReleaseLoop) :
    ∃ new, (releaseStep c s).released = s.released ++ new ∧
      (releaseStep c s).effects = new.foldl (Effects.release c.now) s.effects := by
  unfold releaseStep
  split
  · exact ⟨[], by simp, rfl⟩
  split
  · exact ⟨[], by simp, rfl⟩
  · exact ⟨_, rfl, rfl⟩

private theorem iterate_effects (c : Cycle) (n : Nat) (s : ReleaseLoop) :
    ∃ new, ((releaseStep c)^[n] s).released = s.released ++ new ∧
      ((releaseStep c)^[n] s).effects = new.foldl (Effects.release c.now) s.effects := by
  induction n generalizing s with
  | zero => exact ⟨[], by simp, rfl⟩
  | succ n ih =>
    obtain ⟨new, hnew, hstep⟩ := releaseStep_effects c s
    obtain ⟨later, hlater, heff⟩ := ih (releaseStep c s)
    refine ⟨new ++ later, ?_, ?_⟩
    · rw [Function.iterate_succ_apply, hlater, hnew, append_assoc]
    · rw [Function.iterate_succ_apply, heff, hstep, foldl_append]

theorem releaseLoop_effects (c : Cycle) (l : ShareLedger) (rows : List Row) :
    (releaseLoop c l rows).effects =
      (releasedFrom c [] rows).foldl (Effects.release c.now) l.effects := by
  obtain ⟨new, hnew, heff⟩ := iterate_effects c rows.length
    { rest := rows, releases := l.releases, wakeHolds := l.wakeHolds, aborts := l.aborts
      giveAfter := l.giveAfter, busyUntil := l.busyUntil }
  have hreleased := (releaseLoop_eq c l rows).1
  rw [nil_append] at hnew
  rw [releaseLoop, hnew] at hreleased
  rw [← hreleased]
  exact heff

variable {rs : List Row}

section Passed
variable {c : Cycle} {p : String → Bool}

/-- A row in no donor set that the cycle neither releases nor ends. -/
structure Row.Stays (c : Cycle) (r : Row) : Prop where
  apart : r.t.setID = ""
  releasing : r.t.state = .releasing
  skipped : c.skips r = true
  kept : c.releasingEnd r = none

variable {t : ShareTransfer}

private theorem isSetPrimary_of_apart (h : t.setID = "") : t.isSetPrimary = false := by
  simp [ShareTransfer.isSetPrimary, h]

theorem isContributor_of_apart (h : t.setID = "") : t.isContributor = false := by
  simp [ShareTransfer.isContributor, h]

private theorem broken_of_apart (h : t.setID = "") : c.broken t = false := by
  simp [Cycle.broken, isSetPrimary_of_apart h]

variable {r : Row}

theorem skips_of_apart (h : r.t.setID = "") :
    c.skips r = (!r.ok || r.wrongPod || r.t.plannedUnknown) := by
  simp [Cycle.skips, isSetPrimary_of_apart h, broken_of_apart h]

theorem releasingEnd_of_apart (h : r.t.setID = "") :
    c.releasingEnd r = none ↔
      (r.wrongPod && !r.t.plannedUnknown) = false ∧ c.now < r.t.deadline := by
  rw [Cycle.releasingEnd, if_neg (by simp [broken_of_apart h]), isSetPrimary_of_apart h]
  cases hwrong : r.wrongPod && !r.t.plannedUnknown with
  | true => simp
  | false =>
    by_cases hlate : r.t.deadline ≤ c.now
    · simp [hlate]
    · simp [hlate, not_le.mp hlate]

private theorem apart_after (h : r.t.setID = "") (ts : List ShareTransfer) (now : Int) :
    (r.after ts now).t.setID = "" := by
  rw [after_t]
  exact h

/-- Outside a donor set, other releases do not change whether the loop passes over a row. -/
theorem skips_after_of_apart (h : r.t.setID = "") (ts : List ShareTransfer) :
    c.skips (r.after ts c.now) = c.skips r := by
  rw [skips_of_apart (apart_after h ts c.now), skips_of_apart h, after_ok, after_wrongPod, after_t]
  rfl

theorem releasingEnd_after_of_apart (h : r.t.setID = "") (ts : List ShareTransfer) :
    c.releasingEnd (r.after ts c.now) = none ↔ c.releasingEnd r = none := by
  rw [releasingEnd_of_apart (apart_after h ts c.now), releasingEnd_of_apart h,
    after_wrongPod, after_t]
  rfl

theorem Row.Stays.after (h : r.Stays c) (ts : List ShareTransfer) :
    (r.after ts c.now).Stays c where
  apart := apart_after h.apart ts c.now
  releasing := by
    rw [after_t]
    exact h.releasing
  skipped := (skips_after_of_apart h.apart ts).trans h.skipped
  kept := (releasingEnd_after_of_apart h.apart ts).mpr h.kept

/-- The loop releases the same and leaves the same rows without those that stay. -/
theorem rowsAfter_filter (h : ∀ r ∈ rs, p r.t.id = false → r.Stays c) (rel : List ShareTransfer) :
    releasedFrom c rel (rs.filter (p ·.t.id)) = releasedFrom c rel rs ∧
      rowsAfter c rel (rs.filter (p ·.t.id)) = (rowsAfter c rel rs).filter (p ·.t.id) := by
  induction rs generalizing rel with
  | nil => exact ⟨rfl, rfl⟩
  | cons r rs ih =>
    have hrest (rel) := ih (fun r' hr' => h r' (mem_cons_of_mem _ hr')) rel
    cases hp : p r.t.id with
    | false =>
      have hskip : c.skips (r.after rel c.now) = true :=
        ((h r mem_cons_self hp).after rel).skipped
      rw [filter_cons_of_neg (by simp [hp]), releasedFrom_skip hskip]
      exact ⟨(hrest rel).1, by simp [rowsAfter, hskip, hp, hrest]⟩
    | true =>
      rw [filter_cons_of_pos (by simp [hp])]
      cases hskip : c.skips (r.after rel c.now) with
      | true =>
        rw [releasedFrom_skip hskip, releasedFrom_skip hskip]
        exact ⟨(hrest rel).1, by simp [rowsAfter, hskip, hp, hrest]⟩
      | false =>
        rw [releasedFrom_release hskip, releasedFrom_release hskip, (hrest _).1]
        exact ⟨rfl, by simp [rowsAfter, hskip, hp, hrest, enterFilling]⟩

theorem stays_of_mem_rowsAfter (h : ∀ r ∈ rs, p r.t.id = false → r.Stays c)
    {rel : List ShareTransfer} (hr : r ∈ rowsAfter c rel rs) (hp : p r.t.id = false) :
    r.Stays c := by
  obtain ⟨as, r₀, bs, rfl, ⟨-, rfl⟩ | ⟨hskip, rfl⟩⟩ := exists_of_mem_rowsAfter hr
  · exact (h r₀ (by simp) (by simpa using hp)).after _
  · have hstays := (h r₀ (by simp) (by simpa [enterFilling] using hp)).after
      (rel ++ releasedFrom c rel as)
    rw [hstays.skipped] at hskip
    exact absurd hskip (by simp)

/-- The filter's state with only the kept transfers that pass the test. -/
def Filter.only (p : String → Bool) (s : Filter) : Filter :=
  { s with keep := s.keep.filter (p ·.id) }

private theorem keeps_only (s : Filter) (h : p t.id = true) :
    (s.only p).keeps t = (s.keeps t).only p := by
  simp [Filter.only, Filter.keeps, h]

private theorem backOff_only (s : Filter) (donor : String) (now : Int) (tm : ShareTimings) :
    (s.only p).backOff donor now tm = (s.backOff donor now tm).only p := by
  unfold Filter.backOff
  by_cases h : donor ≠ "" ∧ donor ∉ s.abortedNow
  · rw [if_pos h, if_pos (show donor ≠ "" ∧ donor ∉ (s.only p).abortedNow from h)]
    rfl
  · rw [if_neg h, if_neg (show ¬(donor ≠ "" ∧ donor ∉ (s.only p).abortedNow) from h)]

private theorem filterReleasing_only (s : Filter) (h : p r.t.id = true) :
    filterReleasing c (s.only p) r = (filterReleasing c s r).only p := by
  unfold filterReleasing
  dsimp only
  split
  · rfl
  split
  · rfl
  split
  · rfl
  split
  · exact backOff_only (s.ends r.t .aborted false) r.t.donor c.now c.tm
  · exact keeps_only s h

private theorem filterFilling_only (s : Filter) (h : p t.id = true) :
    filterFilling c (s.only p) t = (filterFilling c s t).only p := by
  have hlanded : ((s.only p).tally t).landed c.rheld t.receiver =
      (s.tally t).landed c.rheld t.receiver := rfl
  unfold filterFilling
  dsimp only
  rw [hlanded]
  split
  · split
    · exact keeps_only s (show p ({ t with
        receiverBase := c.rheld.get t.receiver
        receiverBaseUnset := false
        fillingSince := c.now } : ShareTransfer).id = true from h)
    split
    · rfl
    split
    · rfl
    · exact keeps_only (s.tally t) h
  split
  · rfl
  · exact keeps_only s h

theorem filterStep_only (s : Filter) (h : p r.t.id = true) :
    filterStep c (s.only p) r = (filterStep c s r).only p := by
  cases hstate : r.t.state with
  | releasing =>
    rw [filterStep_releasing _ hstate, filterStep_releasing _ hstate, filterReleasing_only s h]
  | filling =>
    rw [filterStep_filling _ hstate, filterStep_filling _ hstate, filterFilling_only s h]

private theorem filterReleasing_of_stays (s : Filter) (h : r.Stays c) :
    filterReleasing c s r = s.keeps r.t := by
  have hkept := h.kept
  unfold Cycle.releasingEnd at hkept
  unfold filterReleasing
  dsimp only
  split at hkept
  · cases hkept
  split at hkept
  · cases hkept
  split at hkept
  · cases hkept
  split at hkept
  · cases hkept
  · next h1 h2 h3 h4 => rw [if_neg h1, if_neg h2, if_neg h3, if_neg h4]

theorem foldl_filterStep_only (h : ∀ r ∈ rs, p r.t.id = false → r.Stays c) (s : Filter) :
    (rs.filter (p ·.t.id)).foldl (filterStep c) (s.only p) =
      (rs.foldl (filterStep c) s).only p := by
  induction rs generalizing s with
  | nil => rfl
  | cons r rs ih =>
    have hrest := fun r' hr' => h r' (mem_cons_of_mem _ hr')
    rw [foldl_cons, ← ih hrest]
    cases hp : p r.t.id with
    | false =>
      have hstays := h r mem_cons_self hp
      rw [filter_cons_of_neg (by simp [hp]), filterStep_releasing s hstays.releasing,
        filterReleasing_of_stays s hstays]
      have hsame : (s.keeps r.t).only p = s.only p := by simp [Filter.only, Filter.keeps, hp]
      rw [hsame]
    | true => rw [filter_cons_of_pos (by simp [hp]), foldl_cons, filterStep_only s hp]

end Passed

namespace ShareLedger

/-- The ledger with only the transfers whose identifiers pass the test. -/
def only (p : String → Bool) (l : ShareLedger) : ShareLedger :=
  { l with transfers := l.transfers.filter (p ·.id) }

/-- The other transfers' releases are read off the donors' counts as they would be alone. -/
def Undisturbed (l : ShareLedger) (p : String → Bool) (held : Held) : Prop :=
  (l.rows held).filter (p ·.t.id) = (l.only p).rows held

instance (l : ShareLedger) (p : String → Bool) (held : Held) :
    Decidable (l.Undisturbed p held) :=
  inferInstanceAs (Decidable (_ = _))

section Observe
variable {l : ShareLedger} {p : String → Bool} {held : Held} {now : Int} {tm : ShareTimings}

private theorem filter_any_of {f : Row → Bool} (h : ∀ r ∈ rs, p r.t.id = false → f r = false) :
    (rs.filter (p ·.t.id)).any f = rs.any f := by
  rw [Bool.eq_iff_iff, any_eq_true, any_eq_true]
  refine ⟨fun ⟨r, hr, hf⟩ => ⟨r, mem_of_mem_filter hr, hf⟩, fun ⟨r, hr, hf⟩ =>
    ⟨r, mem_filter.mpr ⟨hr, ?_⟩, hf⟩⟩
  rw [← Bool.not_eq_false]
  intro hp
  rw [h r hr hp] at hf
  cases hf

private theorem filter_countP_of {f : Row → Bool} (h : ∀ r ∈ rs, p r.t.id = false → f r = false) :
    (rs.filter (p ·.t.id)).countP f = rs.countP f := by
  rw [countP_filter]
  refine countP_congr fun r hr => ?_
  cases hp : p r.t.id with
  | false => simp [h r hr hp]
  | true => simp

theorem cycle_only (now : Int) (tm : ShareTimings) (hrows : l.Undisturbed p held)
    (hapart : ∀ t ∈ l.transfers, p t.id = false → t.setID = "") :
    (l.only p).cycle held now tm = l.cycle held now tm := by
  have hrow : ∀ r ∈ l.rows held, p r.t.id = false → r.t.isContributor = false := by
    intro r hr hp
    have hmem := l.row_mem hr
    exact isContributor_of_apart (hapart r.t hmem hp)
  unfold cycle Cycle.of
  rw [← hrows]
  congr 1
  · funext id
    apply filter_any_of
    intro r hr hp
    simp [Row.holdsBack, hrow r hr hp]
  · funext id
    apply filter_countP_of
    intro r hr hp
    simp [Row.isLive, hrow r hr hp]

/-- A cycle beside transfers that stay does to the others what it would do without them. -/
theorem observe_only (hrows : l.Undisturbed p held)
    (hstays : ∀ r ∈ l.rows held, p r.t.id = false → r.Stays (l.cycle held now tm)) :
    ((l.only p).observe held now tm).ledger = (l.observe held now tm).ledger.only p := by
  have hapart : ∀ t ∈ l.transfers, p t.id = false → t.setID = "" := by
    intro t ht hp
    rw [← rows_map_t l held] at ht
    obtain ⟨r, hr, rfl⟩ := mem_map.mp ht
    exact (hstays r hr hp).apart
  have hcycle := cycle_only now tm hrows hapart
  have hreleased : ((l.only p).releasePass held now tm).released =
      (l.releasePass held now tm).released := by
    rw [releasePass, releasePass, (releaseLoop_eq ..).1, (releaseLoop_eq ..).1, hcycle, ← hrows,
      (rowsAfter_filter hstays _).1]
  have heffects : ((l.only p).releasePass held now tm).effects =
      (l.releasePass held now tm).effects := by
    rw [releasePass, releasePass, releaseLoop_effects, releaseLoop_effects, hcycle, ← hrows,
      (rowsAfter_filter hstays _).1]
    rfl
  have hpassed : ((l.only p).releasePass held now tm).rows =
      (l.releasePass held now tm).rows.filter (p ·.t.id) := by
    rw [releasePass, releasePass, (releaseLoop_eq ..).2, (releaseLoop_eq ..).2, hcycle, ← hrows,
      (rowsAfter_filter hstays _).2]
  obtain ⟨hreleases, hwakes, haborts, hgive, hbusy⟩ := Effects.mk.inj heffects
  have hfilter : (l.only p).filterPass held now tm = (l.filterPass held now tm).only p := by
    unfold filterPass
    dsimp only
    rw [hcycle, hpassed, haborts, hgive, ← foldl_filterStep_only]
    · rfl
    · intro r hr hp
      rw [releasePass, (releaseLoop_eq ..).2] at hr
      exact stays_of_mem_rowsAfter hstays hr hp
  have hsettled : settled ((l.filterPass held now tm).only p) now =
      (settled (l.filterPass held now tm) now).filter (p ·.id) := by
    rw [settled_eq, settled_eq, filter_map]
    rfl
  unfold observe
  dsimp only
  rw [hfilter, hsettled, hreleases, hwakes, hbusy, hreleased]
  unfold only
  dsimp only
  rw [filter_filter, filter_filter]
  congr 1
  congr 1
  funext t
  exact Bool.and_comm ..

end Observe

end ShareLedger

end LlmScaler.Ledger
