import LlmScaler.Ledger.Needs

/-!
# What a restore keeps of the peaks

Every stored bucket holds the highest level of the readings in a row that end in it, so the restored
peak is the highest level of the buckets stored. A restored start is never before the recorded one,
so a peak known after a restore was known before.
-/

namespace LlmScaler.Ledger

open LlmScaler.Core List GoMap

variable {s : List NeedSample}

theorem peakOf_le {x : ℚ} : peakOf s ≤ x ↔ 0 ≤ x ∧ ∀ p ∈ inARow s, levelOf p ≤ x := by
  have hfold : ∀ (ps : List (NeedSample × NeedSample)) (y : ℚ),
      ps.foldl (fun peak p => max peak (levelOf p)) y ≤ x ↔ y ≤ x ∧ ∀ p ∈ ps, levelOf p ≤ x := by
    intro ps
    induction ps with
    | nil => simp
    | cons p ps ih =>
      intro y
      rw [foldl_cons, ih, max_le_iff, forall_mem_cons, and_assoc]
  exact hfold _ 0

variable {p : NeedSample × NeedSample}

theorem levelOf_le_peakOf (hp : p ∈ inARow s) : levelOf p ≤ peakOf s :=
  (peakOf_le.mp le_rfl).2 p hp

theorem peakOf_nonneg (s : List NeedSample) : 0 ≤ peakOf s := (peakOf_le.mp le_rfl).1

theorem exists_levelOf_eq_peakOf (h : peakOf s ≠ 0) : ∃ p ∈ inARow s, levelOf p = peakOf s := by
  have hpeak : peakOf s = 0 ∨ ∃ p ∈ inARow s, levelOf p = peakOf s := by
    refine foldlRecOn (motive := fun y => y = 0 ∨ ∃ p ∈ inARow s, levelOf p = y) _ _ (.inl rfl)
      fun y hy p hp => ?_
    rcases max_choice y (levelOf p) with heq | heq
    · rwa [heq]
    · exact .inr ⟨p, hp, heq.symm⟩
  exact hpeak.resolve_left h

theorem peakOf_twice_le {l : List NeedSample} {x : ℚ} :
    peakOf (twice l) ≤ x ↔ 0 ≤ x ∧ ∀ y ∈ l, y.need ≤ x := by
  rw [peakOf_le]
  refine and_congr_right fun _ => ?_
  induction l with
  | nil => simp [twice, inARow]
  | cons a l ih =>
    have hself : ∀ y : NeedSample, levelOf (y, y) = y.need := fun y => min_self _
    rw [forall_mem_cons, ← ih]
    cases l with
    | nil => simp [twice, inARow, hself]
    | cons b l =>
      have htwice : inARow (twice (a :: b :: l)) = (a, a) :: (a, b) :: inARow (twice (b :: l)) := rfl
      have hb : (b, b) ∈ inARow (twice (b :: l)) := by
        cases l <;> exact mem_cons_self
      rw [htwice, forall_mem_cons, forall_mem_cons, hself]
      refine and_congr_right fun _ => ⟨And.right, fun h => ⟨?_, h⟩⟩
      -- between two samples no higher level arises
      have hlevel : levelOf (b, b) ≤ x := h _ hb
      rw [hself] at hlevel
      exact le_trans (min_le_right a.need b.need) hlevel

variable {x : NeedSample}

section Buckets

variable {bucket : Int}

theorem shareHistoryBucket_pos (window : Int) : 0 < shareHistoryBucket window := by
  have hminute : 0 < minute := by decide
  unfold shareHistoryBucket
  simp only
  split_ifs <;> omega

/-- The levels of some readings in a row, bucket by bucket. -/
structure Levels (bucket : Int) (ps : List (NeedSample × NeedSample)) (levels : List NeedSample) :
    Prop where
  ordered : levels.Pairwise fun x y => truncate bucket x.time < truncate bucket y.time
  attained : ∀ x ∈ levels, ∃ p ∈ ps,
    truncate bucket p.2.time = truncate bucket x.time ∧ levelOf p = x.need
  covers : ∀ p ∈ ps, ∃ x ∈ levels,
    truncate bucket x.time = truncate bucket p.2.time ∧ levelOf p ≤ x.need
  stamped : ∀ x ∈ levels, ∃ p ∈ ps, p.2.time = x.time

variable {ps : List (NeedSample × NeedSample)}

/-- Another pair's level stored last, in place of the levels it joins. -/
theorem Levels.concat {levels init : List NeedSample} {need : ℚ} (h : Levels bucket ps levels)
    (hinit : init.Sublist levels)
    (hlater : ∀ x ∈ init, truncate bucket x.time < truncate bucket p.2.time)
    (hattained : ∃ p' ∈ ps ++ [p],
      truncate bucket p'.2.time = truncate bucket p.2.time ∧ levelOf p' = need)
    (hcovers : ∀ x ∈ levels,
      x ∈ init ∨ truncate bucket p.2.time = truncate bucket x.time ∧ x.need ≤ need)
    (hneed : levelOf p ≤ need) : Levels bucket (ps ++ [p]) (init ++ [⟨p.2.time, need⟩]) := by
  have hold {P : NeedSample × NeedSample → Prop} : (∃ p' ∈ ps, P p') → ∃ p' ∈ ps ++ [p], P p' :=
    fun ⟨p', hp', hP⟩ => ⟨p', mem_append_left _ hp', hP⟩
  have hlast : ∀ y : NeedSample, y ∈ init ++ [y] := fun y => mem_append_right _ mem_cons_self
  refine ⟨pairwise_append.mpr ⟨h.ordered.sublist hinit, pairwise_singleton _ _, fun x hx =>
    forall_mem_singleton.mpr (hlater x hx)⟩, ?_, ?_, ?_⟩
  · exact forall_mem_append.mpr
      ⟨fun x hx => hold (h.attained x (hinit.subset hx)), forall_mem_singleton.mpr hattained⟩
  · refine forall_mem_append.mpr
      ⟨fun p' hp' => ?_, forall_mem_singleton.mpr ⟨_, hlast _, rfl, hneed⟩⟩
    obtain ⟨x, hx, htime, hlevel⟩ := h.covers p' hp'
    rcases hcovers x hx with hx | ⟨hsame, hle⟩
    · exact ⟨x, mem_append_left _ hx, htime, hlevel⟩
    · exact ⟨_, hlast _, hsame.trans htime, hlevel.trans hle⟩
  · exact forall_mem_append.mpr ⟨fun x hx => hold (h.stamped x (hinit.subset hx)),
      forall_mem_singleton.mpr ⟨p, mem_append_right _ mem_cons_self, rfl⟩⟩

theorem Levels.store (hb : 0 < bucket) {levels : List NeedSample} (h : Levels bucket ps levels)
    (hp : ∀ p' ∈ ps, p'.2.time ≤ p.2.time) :
    Levels bucket (ps ++ [p]) (storeLevel bucket levels p) := by
  have hnew : ∃ p' ∈ ps ++ [p],
      truncate bucket p'.2.time = truncate bucket p.2.time ∧ levelOf p' = levelOf p :=
    ⟨p, mem_append_right _ mem_cons_self, rfl, rfl⟩
  unfold storeLevel
  cases hlast : levels.getLast? with
  | none =>
    rw [getLast?_eq_none_iff] at hlast
    subst hlast
    have hnil : ([] : List NeedSample).Sublist [] := .slnil
    exact h.concat hnil nofun hnew nofun le_rfl
  | some last =>
    obtain ⟨init, rfl⟩ := getLast?_eq_some_iff.mp hlast
    have hbefore := (pairwise_append.mp h.ordered).2.2
    have hmem : last ∈ init ++ [last] := mem_append_right _ mem_cons_self
    by_cases hsame : truncate bucket last.time = truncate bucket p.2.time
    · -- the pair ends in the last bucket, whose level it may raise
      simp only [hsame, if_true, dropLast_concat]
      refine h.concat (sublist_append_left _ _) ?_ ?_ ?_ (le_max_right _ _)
      · exact fun x hx => hsame ▸ hbefore x hx last mem_cons_self
      · rcases max_choice last.need (levelOf p) with hmax | hmax <;> rw [hmax]
        · obtain ⟨p', hp', htime, hlevel⟩ := h.attained last hmem
          exact ⟨p', mem_append_left _ hp', htime.trans hsame, hlevel⟩
        · exact hnew
      · exact forall_mem_append.mpr ⟨fun x hx => .inl hx,
          forall_mem_singleton.mpr (.inr ⟨hsame.symm, le_max_left _ _⟩)⟩
    · simp only [hsame, if_false]
      have hlt : truncate bucket last.time < truncate bucket p.2.time := by
        obtain ⟨p', hp', htime⟩ := h.stamped last hmem
        exact lt_of_le_of_ne (htime ▸ truncate_mono hb (hp p' hp')) hsame
      refine h.concat (.refl _) ?_ hnew (fun x hx => .inl hx) le_rfl
      exact forall_mem_append.mpr ⟨fun x hx => (hbefore x hx last mem_cons_self).trans hlt,
        forall_mem_singleton.mpr hlt⟩

theorem levels_foldl (hb : 0 < bucket) (h : ps.Pairwise fun p q => p.2.time ≤ q.2.time) :
    Levels bucket ps (ps.foldl (storeLevel bucket) []) := by
  induction ps using reverseRecOn with
  | nil => exact ⟨.nil, nofun, nofun, nofun⟩
  | append_singleton ps p ih =>
    obtain ⟨hps, _, hlast⟩ := pairwise_append.mp h
    rw [foldl_append, foldl_cons, foldl_nil]
    exact (ih hps).store hb fun p' hp' => hlast p' hp' p (mem_singleton.mpr rfl)

variable {n : ℕ} {α : Type*}

theorem newest_eq_self {l : List α} (h : l.length ≤ n) : newest n l = l := by
  rw [newest, Nat.sub_eq_zero_of_le h, drop_zero]

theorem length_newest_le (n : ℕ) (l : List α) : (newest n l).length ≤ n := by
  rw [newest, length_drop]
  omega

/-- With its figures in order an element is among the newest when few figures are larger. -/
theorem mem_newest_iff {f : α → Int} {l : List α} (hl : l.Pairwise fun x y => f x < f y) {x : α}
    (hx : x ∈ l) : x ∈ newest n l ↔ (l.filter fun y => f x < f y).length < n := by
  obtain ⟨before, after, rfl⟩ := append_of_mem hx
  obtain ⟨_, hafter, hbefore⟩ := pairwise_append.mp hl
  obtain ⟨hafter, _⟩ := pairwise_cons.mp hafter
  have hfilter : (before ++ x :: after).filter (fun y => f x < f y) = after := by
    have hnone : before.filter (fun y => f x < f y) = [] := by
      rw [filter_eq_nil_iff]
      intro y hy
      have := hbefore y hy x mem_cons_self
      simp only [decide_eq_true_eq]
      omega
    rw [filter_append, hnone, nil_append, filter_cons_of_neg (by simp),
      filter_eq_self]
    exact fun y hy => decide_eq_true (hafter y hy)
  have hnot : x ∉ after := fun hmem => absurd (hafter x hmem) (lt_irrefl _)
  rw [hfilter, newest, length_append, length_cons]
  by_cases hn : after.length < n
  · have hdrop : before.length + (after.length + 1) - n ≤ before.length := by omega
    rw [drop_append_of_le_length hdrop]
    exact iff_of_true (mem_append_right _ mem_cons_self) hn
  · refine iff_of_false (fun hmem => hnot ?_) hn
    obtain ⟨k, hk⟩ : ∃ k, before.length + (after.length + 1) - n = (before ++ [x]).length + k :=
      ⟨after.length - n, by rw [length_append, length_singleton]; omega⟩
    have hsplit : before ++ x :: after = (before ++ [x]) ++ after := by simp
    rw [hk, hsplit, drop_append, drop_eq_nil_of_le (by omega), nil_append] at hmem
    exact mem_of_mem_drop hmem

/-- The buckets after the one some readings end in. -/
def laterBuckets (bucket : Int) (ps : List (NeedSample × NeedSample))
    (p : NeedSample × NeedSample) : List Int :=
  ((ps.map fun q => truncate bucket q.2.time).filter fun b => truncate bucket p.2.time < b).dedup

theorem nodup_laterBuckets (ps : List (NeedSample × NeedSample)) (p : NeedSample × NeedSample) :
    (laterBuckets bucket ps p).Nodup :=
  nodup_dedup _

theorem mem_laterBuckets {b : Int} : b ∈ laterBuckets bucket ps p ↔
      (∃ q ∈ ps, truncate bucket q.2.time = b) ∧ truncate bucket p.2.time < b := by
  simp only [laterBuckets, mem_dedup, mem_filter, mem_map, decide_eq_true_eq]

theorem Levels.mem_newest {levels : List NeedSample} (h : Levels bucket ps levels) (hx : x ∈ levels)
    (hp : truncate bucket p.2.time = truncate bucket x.time) :
    x ∈ newest n levels ↔ (laterBuckets bucket ps p).length < n := by
  rw [mem_newest_iff h.ordered hx]
  -- the later levels and the later buckets are each other's
  have hnodup : ((levels.filter fun y => truncate bucket x.time < truncate bucket y.time).map
      fun y => truncate bucket y.time).Nodup := by
    have hsorted : (levels.map fun y => truncate bucket y.time).Pairwise (· < ·) :=
      pairwise_map.mpr h.ordered
    exact (hsorted.imp fun hlt => ne_of_lt hlt).sublist (filter_sublist.map _)
  have hperm : ((levels.filter fun y => truncate bucket x.time < truncate bucket y.time).map
      fun y => truncate bucket y.time).Perm (laterBuckets bucket ps p) := by
    rw [perm_ext_iff_of_nodup hnodup (nodup_laterBuckets ps p)]
    intro b
    simp only [mem_laterBuckets, mem_map, mem_filter, decide_eq_true_eq, hp]
    constructor
    · rintro ⟨y, ⟨hy, hlt⟩, rfl⟩
      obtain ⟨q, hq, htime, _⟩ := h.attained y hy
      exact ⟨⟨q, hq, htime⟩, hlt⟩
    · rintro ⟨⟨q, hq, rfl⟩, hlt⟩
      obtain ⟨y, hy, htime, _⟩ := h.covers q hq
      exact ⟨y, ⟨hy, htime ▸ hlt⟩, htime⟩
  rw [← hperm.length_eq, length_map]

end Buckets

/-- Readings as they are recorded: usable needs, at increasing times up to now. -/
structure Readings (now : Int) (s : List NeedSample) : Prop where
  increasing : s.Pairwise fun x y => x.time < y.time
  past : ∀ x ∈ s, x.time ≤ now
  valid : ∀ x ∈ s, 0 ≤ x.need ∧ x.need ≤ maxShareBudgetGPUs

section Readings

variable {now window : Int} {s : List NeedSample}

theorem mem_inARow (hp : p ∈ inARow s) : p.1 ∈ s ∧ p.2 ∈ s :=
  ⟨(of_mem_zip hp).1, mem_of_mem_tail (of_mem_zip hp).2⟩

theorem Readings.lt_of_inARow (h : Readings now s) (hp : p ∈ inARow s) : p.1.time < p.2.time := by
  obtain ⟨i, hi, rfl⟩ := getElem_of_mem hp
  have hlength : i + 1 < s.length := by
    rw [inARow, length_zip, length_tail] at hi
    omega
  simpa [inARow] using pairwise_iff_getElem.mp h.increasing i (i + 1) _ hlength i.lt_succ_self

theorem Readings.pairs_increasing (h : Readings now s) :
    (inARow s).Pairwise fun p q => p.2.time < q.2.time := by
  have hsnd : (inARow s).map Prod.snd = s.tail :=
    map_snd_zip (by rw [length_tail]; omega)
  have htail : s.tail.Pairwise fun x y => x.time < y.time := h.increasing.sublist s.tail_sublist
  rw [← hsnd, pairwise_map] at htail
  exact htail

theorem Readings.levels (h : Readings now s) :
    Levels (shareHistoryBucket window) (storedPairs now window s) (bucketLevels now window s) :=
  levels_foldl (shareHistoryBucket_pos window)
    ((h.pairs_increasing.sublist filter_sublist).imp le_of_lt)

theorem mem_storedPairs (hp : p ∈ storedPairs now window s) :
    p ∈ inARow s ∧ now - p.1.time ≤ window := by
  obtain ⟨hmem, hstores⟩ := mem_filter.mp hp
  simp only [stores, Bool.and_eq_true, Bool.not_eq_true', decide_eq_false_iff_not, not_lt]
    at hstores
  exact ⟨hmem, hstores.1.1⟩

theorem Readings.of_mem_storedLevels (h : Readings now s) (hx : x ∈ storedLevels now window s) :
    now - x.time ≤ window ∧ x.time ≤ now ∧
      0 ≤ x.need ∧ x.need ≤ maxShareBudgetGPUs := by
  have hmem : x ∈ bucketLevels now window s := mem_of_mem_drop hx
  obtain ⟨p, hp, htime⟩ := h.levels.stamped x hmem
  obtain ⟨q, hq, _, hlevel⟩ := h.levels.attained x hmem
  obtain ⟨hrow, hwindow⟩ := mem_storedPairs hp
  obtain ⟨hrow', _⟩ := mem_storedPairs hq
  have hlt := h.lt_of_inARow hrow
  have hpast := h.past p.2 (mem_inARow hrow).2
  obtain ⟨hlow, hhigh⟩ := h.valid q.1 (mem_inARow hrow').1
  obtain ⟨hlow', _⟩ := h.valid q.2 (mem_inARow hrow').2
  refine ⟨by omega, by omega, ?_, ?_⟩
  · rw [← hlevel]
    exact le_min hlow hlow'
  · rw [← hlevel]
    exact (min_le_left _ _).trans hhigh

theorem Readings.storedLevels_increasing (h : Readings now s) :
    (storedLevels now window s).Pairwise fun x y => x.time < y.time := by
  refine (h.levels.ordered.sublist (drop_sublist _ _)).imp fun {x y} hlt => ?_
  by_contra hle
  exact absurd (truncate_mono (shareHistoryBucket_pos window) (not_lt.mp hle)) (not_le.mpr hlt)

theorem sort_of_pairwise {l : List NeedSample} (h : l.Pairwise fun x y => x.time ≤ y.time) :
    (Sorting.byKey NeedSample.time).sort l = l :=
  Pairwise.insertionSort_eq h

def stored (x : NeedSample) : StoredSample := ⟨some x.time, x.need⟩

theorem readSample_stored (hwindow : now - x.time ≤ window) (hpast : x.time ≤ now)
    (hvalid : 0 ≤ x.need) (hmax : x.need ≤ maxShareBudgetGPUs) :
    readSample now window (stored x) = some x := by
  have hskew : 0 ≤ shareHistorySkew := by decide
  have hnot : (!shareNeedValid x.need || decide (window < now - x.time) ||
      decide (shareHistorySkew < x.time - now)) = false := by
    simp only [shareNeedValid, hvalid, decide_true, Bool.not_true, Bool.false_or,
      Bool.or_eq_false_iff, decide_eq_false_iff_not]
    omega
  simp only [readSample, stored, hnot, min_eq_left hmax, Bool.false_eq_true, if_false]

theorem Readings.readSamples_stored (h : Readings now s) (window : Int) (since : Time) :
    readSamples now window ⟨since, (storedLevels now window s).map stored⟩ =
      storedLevels now window s := by
  have hread : ((storedLevels now window s).map stored).filterMap (readSample now window) =
      storedLevels now window s := by
    rw [filterMap_map]
    have hsome : ∀ x ∈ storedLevels now window s, (readSample now window ∘ stored) x = some x := by
      intro x hx
      obtain ⟨hwindow, hpast, hvalid, hmax⟩ := h.of_mem_storedLevels hx
      exact readSample_stored hwindow hpast hvalid hmax
    rw [filterMap_congr hsome, filterMap_some]
  rw [readSamples, hread, sort_of_pairwise (h.storedLevels_increasing.imp le_of_lt)]
  exact newest_eq_self (length_newest_le _ _)

/-- Some pair of readings that reaches the peak is stored: it is within the window, and fewer than
180 later buckets hold a pair. -/
def StoresPeak (now window : Int) (s : List NeedSample) : Prop :=
  ∃ p ∈ storedPairs now window s, levelOf p = peakOf s ∧
    (laterBuckets (shareHistoryBucket window) (storedPairs now window s) p).length <
      shareHistoryMaxSamples

theorem Readings.need_le_peakOf (h : Readings now s) (hx : x ∈ bucketLevels now window s) :
    x.need ≤ peakOf s := by
  obtain ⟨q, hq, _, hlevel⟩ := h.levels.attained x hx
  rw [← hlevel]
  exact levelOf_le_peakOf (mem_storedPairs hq).1

theorem Readings.storesPeak_iff (h : Readings now s) :
    StoresPeak now window s ↔ ∃ x ∈ storedLevels now window s, x.need = peakOf s := by
  constructor
  · rintro ⟨p, hp, hlevel, hlater⟩
    obtain ⟨x, hx, htime, hle⟩ := h.levels.covers p hp
    refine ⟨x, (h.levels.mem_newest hx htime.symm).mpr hlater, ?_⟩
    exact le_antisymm (h.need_le_peakOf hx) (hlevel ▸ hle)
  · rintro ⟨x, hx, hneed⟩
    have hmem : x ∈ bucketLevels now window s := mem_of_mem_drop hx
    obtain ⟨q, hq, htime, hlevel⟩ := h.levels.attained x hmem
    exact ⟨q, hq, hlevel.trans hneed, (h.levels.mem_newest hmem htime).mp hx⟩

theorem length_twice (l : List NeedSample) : (twice l).length = 2 * l.length := by
  simp [twice, length_flatMap, map_const', Nat.mul_comm]

theorem Readings.peak_twice_iff (h : Readings now s) :
    (storedLevels now window s ≠ [] ∧ peakOf (twice (storedLevels now window s)) = peakOf s) ↔
      StoresPeak now window s := by
  rw [h.storesPeak_iff]
  have hle : peakOf (twice (storedLevels now window s)) ≤ peakOf s :=
    peakOf_twice_le.mpr ⟨peakOf_nonneg s, fun x hx => h.need_le_peakOf (mem_of_mem_drop hx)⟩
  constructor
  · rintro ⟨hne, hpeak⟩
    by_contra! hnone
    -- every stored level is below the peak, so the restored peak would be too
    obtain ⟨x, hx⟩ := exists_mem_of_ne_nil _ hne
    have hlt : ∀ y ∈ storedLevels now window s, y.need < peakOf s := fun y hy =>
      lt_of_le_of_ne (h.need_le_peakOf (mem_of_mem_drop hy)) (hnone y hy)
    have hpos : peakOf (twice (storedLevels now window s)) ≠ 0 := by
      rw [hpeak]
      exact ((h.of_mem_storedLevels hx).2.2.1.trans_lt (hlt x hx)).ne'
    obtain ⟨p, hp, hlevel⟩ := exists_levelOf_eq_peakOf hpos
    obtain ⟨y, hy, hmem⟩ := mem_flatMap.mp (mem_inARow hp).1
    have hp1 : p.1 = y := by simpa using hmem
    have := (min_le_left p.1.need p.2.need).trans_lt (hp1 ▸ hlt y hy)
    rw [← hpeak, ← hlevel] at this
    exact absurd this (lt_irrefl _)
  · rintro ⟨x, hx, hneed⟩
    refine ⟨ne_nil_of_mem hx, le_antisymm hle ?_⟩
    rw [← hneed]
    exact (peakOf_twice_le.mp le_rfl).2 x hx

end Readings

/-- What a ledger has of one role: its readings and since when they are recorded. -/
def NeedLedger.role (l : NeedLedger) (role : String) : List NeedSample × Option Int :=
  (l.needs.get role, l.needsSince.find? role)

def recordedRole (now window : Int) (need : ℚ) (st : List NeedSample × Option Int) :
    List NeedSample × Option Int :=
  let kept := st.1.filter fun x => ¬ window < now - x.time
  (kept ++ [⟨now, need⟩], if st.2.isNone || kept.isEmpty then some now else st.2)

/-- A role's stored history merged. -/
def restoredRole (now window : Int) (rh : RoleNeedHistory) (st : List NeedSample × Option Int) :
    List NeedSample × Option Int :=
  match readSamples now window rh with
  | [] => st
  | oldest :: rest =>
    ((Sorting.byKey NeedSample.time).sort (st.1 ++ twice (oldest :: rest)),
      if shareHistoryMaxGap < now - ((oldest :: rest).getLast (cons_ne_nil _ _)).time then st.2
      else some (earlierSince (restoredSince (shareHistoryBucket window) rh.since oldest.time) st.2))

theorem role_recordNeed (l : NeedLedger) (role role' : String) (need : ℚ) (now window : Int) :
    (recordNeed now window l role need).role role' =
      if role' = role then recordedRole now window need (l.role role') else l.role role' := by
  by_cases hrole : role' = role
  · subst hrole
    have hnone : (l.needsSince.find? role').isNone = !l.needsSince.has role' :=
      (Option.not_isSome _).symm
    simp only [if_true, NeedLedger.role, recordNeed, recordedRole, get_set_self, hnone]
    split_ifs with hfresh
    · rw [find?_set, if_pos rfl]
    · rfl
  · simp only [hrole, if_false, NeedLedger.role, recordNeed, get_set_of_ne _ _ hrole]
    split_ifs with hfresh
    · rw [find?_set, if_neg hrole]
    · rfl

theorem role_recordNeeds (l : NeedLedger) (needs : GoMap String ℚ) (now window : Int)
    (role : String) : (recordNeeds l needs now window).role role =
      (needs.find? role).elim (l.role role) fun need =>
        recordedRole now window need (l.role role) := by
  have hstep : ∀ (l : NeedLedger) (e : Sigma fun _ : String => ℚ) (role : String),
      (recordNeed now window l e.1 e.2).role role =
        if role = e.1 then recordedRole now window e.2 (l.role role) else l.role role :=
    fun l e role => role_recordNeed l e.1 role e.2 now window
  exact view_foldl_entries (m := NeedLedger.role)
    (f := fun _ need st => recordedRole now window need st) hstep needs l role

theorem role_restoreRole (now window : Int) (st : NeedLedger × NeedRestore) (role role' : String)
    (rh : RoleNeedHistory) : (restoreRole now window st role rh).1.role role' =
      if role' = role then restoredRole now window rh (st.1.role role') else st.1.role role' := by
  unfold restoreRole restoredRole
  cases readSamples now window rh with
  | nil => exact (ite_self _).symm
  | cons oldest rest =>
    by_cases hgap : shareHistoryMaxGap <
        now - ((oldest :: rest).getLast (cons_ne_nil oldest rest)).time
    · simp only [hgap, if_true, NeedLedger.role, get_set]
      split_ifs with hrole
      · rw [hrole]
      · rfl
    · simp only [hgap, if_false, NeedLedger.role, get_set, find?_set]
      split_ifs with hrole
      · rw [hrole]
      · rfl

theorem role_restoreNeedHistory (l : NeedLedger) (h : GoMap String RoleNeedHistory)
    (now window : Int) (role : String) : (restoreNeedHistory l h now window).1.role role =
      (h.find? role).elim (l.role role) fun rh => restoredRole now window rh (l.role role) := by
  have hstep : ∀ (st : NeedLedger × NeedRestore) (e : Sigma fun _ : String => RoleNeedHistory)
      (role : String), (restoreRole now window st e.1 e.2).1.role role =
        if role = e.1 then restoredRole now window e.2 (st.1.role role) else st.1.role role :=
    fun st e role => role_restoreRole now window st e.1 role e.2
  exact view_foldl_entries (m := fun st : NeedLedger × NeedRestore => st.1.role)
    (f := fun _ rh st => restoredRole now window rh st) hstep h (l, ⟨0, 0, none⟩) role

structure Recording where
  needs : GoMap String ℚ
  now : Int
  window : Int

def recordings (rs : List Recording) : NeedLedger :=
  rs.foldl (fun l r => recordNeeds l r.needs r.now r.window) NeedLedger.fresh

/-- Recordings of usable needs, one after another. -/
structure InOrder (rs : List Recording) : Prop where
  increasing : rs.Pairwise fun r r' => r.now < r'.now
  valid : ∀ r ∈ rs, ∀ role need, r.needs.find? role = some need →
    0 ≤ need ∧ need ≤ maxShareBudgetGPUs

/-- What a ledger has of a role it has readings of: when they start is recorded too. -/
structure Recorded (now : Int) (st : List NeedSample × Option Int) : Prop where
  readings : Readings now st.1
  started : st.1 ≠ [] → st.2 ≠ none
  since : ∀ since, st.2 = some since → ∀ x ∈ st.1, since ≤ x.time

variable {now : Int} {st : List NeedSample × Option Int}

theorem Recorded.later {now' : Int} (h : Recorded now st) (hle : now ≤ now') : Recorded now' st :=
  { h with
    readings := { h.readings with past := fun x hx => (h.readings.past x hx).trans hle } }

theorem Recorded.recordedRole {now' window : Int} {need : ℚ} (h : Recorded now st)
    (hlt : now < now') (hneed : 0 ≤ need ∧ need ≤ maxShareBudgetGPUs) :
    Recorded now' (recordedRole now' window need st) := by
  have hkept : ∀ x ∈ st.1.filter fun x => ¬ window < now' - x.time, x ∈ st.1 :=
    fun x hx => mem_of_mem_filter hx
  have hpast : ∀ x ∈ st.1.filter fun x => ¬ window < now' - x.time, x.time < now' :=
    fun x hx => (h.readings.past x (hkept x hx)).trans_lt hlt
  simp only [Ledger.recordedRole]
  refine ⟨⟨?_, ?_, ?_⟩, fun _ => ?_, ?_⟩
  · exact pairwise_append.mpr ⟨h.readings.increasing.sublist filter_sublist,
      pairwise_singleton _ _, fun x hx => forall_mem_singleton.mpr (hpast x hx)⟩
  · exact forall_mem_append.mpr ⟨fun x hx => (hpast x hx).le, forall_mem_singleton.mpr le_rfl⟩
  · exact forall_mem_append.mpr
      ⟨fun x hx => h.readings.valid x (hkept x hx), forall_mem_singleton.mpr hneed⟩
  · split_ifs with hfresh
    · nofun
    · intro hnone
      rw [hnone] at hfresh
      exact hfresh rfl
  · intro since hsince
    split_ifs at hsince with hfresh
    · -- a history without a reading left starts again
      have hempty : (st.1.filter fun x => ¬ window < now' - x.time) = [] := by
        rcases Bool.or_eq_true_iff.mp hfresh with hnone | hempty
        · by_contra hne
          obtain ⟨x, hx⟩ := exists_mem_of_ne_nil _ hne
          exact h.started (ne_nil_of_mem (hkept x hx)) (Option.isNone_iff_eq_none.mp hnone)
        · exact isEmpty_iff.mp hempty
      rw [hempty, ← Option.some.inj hsince]
      exact forall_mem_singleton.mpr le_rfl
    · have hold := fun x hx => h.since since hsince x (hkept x hx)
      rw [Bool.or_eq_true_iff, not_or, List.isEmpty_iff] at hfresh
      obtain ⟨y, hy⟩ := exists_mem_of_ne_nil _ hfresh.2
      exact forall_mem_append.mpr
        ⟨hold, forall_mem_singleton.mpr ((hold y hy).trans (hpast y hy).le)⟩

theorem role_recordings_concat (rs : List Recording) (r : Recording) (role : String) :
    (recordings (rs ++ [r])).role role = (r.needs.find? role).elim ((recordings rs).role role)
      fun need => recordedRole r.now r.window need ((recordings rs).role role) := by
  rw [recordings, foldl_concat]
  exact role_recordNeeds ..

theorem recorded_recordings {rs : List Recording} (h : InOrder rs) (hnow : ∀ r ∈ rs, r.now ≤ now)
    (role : String) : Recorded now ((recordings rs).role role) := by
  induction rs using reverseRecOn generalizing now with
  | nil => exact ⟨⟨.nil, nofun, nofun⟩, fun hne => absurd rfl hne, nofun⟩
  | append_singleton rs r ih =>
    obtain ⟨hrs, _, hlast⟩ := pairwise_append.mp h.increasing
    have hr : r ∈ rs ++ [r] := mem_append_right _ (mem_singleton.mpr rfl)
    have hbefore : ∀ r' ∈ rs, r'.now ≤ r.now - 1 := by
      intro r' hr'
      have := hlast r' hr' r (mem_singleton.mpr rfl)
      omega
    have hrec : Recorded (r.now - 1) ((recordings rs).role role) :=
      ih ⟨hrs, fun r' hr' => h.valid r' (mem_append_left _ hr')⟩ hbefore
    rw [role_recordings_concat]
    cases hneed : r.needs.find? role with
    | none => exact hrec.later ((Int.sub_le_self r.now (by decide)).trans (hnow r hr))
    | some need =>
      exact (hrec.recordedRole (by omega) (h.valid r hr role need hneed)).later (hnow r hr)

def readingsOf (role : String) (rs : List Recording) : List NeedSample :=
  rs.filterMap fun r => (r.needs.find? role).map fun need => ⟨r.now, need⟩

theorem needs_recordings {rs : List Recording} {start : Int}
    (h : ∀ r ∈ rs, start ≤ r.now ∧ r.now ≤ start + r.window) (role : String) :
    (recordings rs).needs.get role = readingsOf role rs := by
  induction rs using reverseRecOn with
  | nil => rfl
  | append_singleton rs r ih =>
    have hrs := forall_mem_append.mp h
    have ih' : ((recordings rs).role role).1 = readingsOf role rs := ih hrs.1
    change ((recordings (rs ++ [r])).role role).1 = _
    rw [role_recordings_concat, readingsOf, filterMap_append]
    cases hneed : r.needs.find? role with
    | none =>
      rw [Option.elim_none, ih']
      simp [readingsOf, hneed]
    | some need =>
      have hkept : (readingsOf role rs).filter (fun x => ¬ r.window < r.now - x.time) =
          readingsOf role rs := by
        rw [filter_eq_self]
        intro x hx
        obtain ⟨r', hr', hsome⟩ := mem_filterMap.mp hx
        obtain ⟨_, _, rfl⟩ := Option.map_eq_some_iff.mp hsome
        have hstart := (hrs.1 r' hr').1
        have hend := (forall_mem_singleton.mp hrs.2).2
        simp only [decide_eq_true_eq, not_lt]
        omega
      rw [Option.elim_some, recordedRole, ih', hkept]
      simp [readingsOf, hneed]

section Restore

variable {now window : Int} {l : NeedLedger} {role : String}

/-- The ledger after its history is stored and restored into a fresh one. -/
def restarted (l : NeedLedger) (now window : Int) : NeedLedger :=
  (restoreNeedHistory NeedLedger.fresh (needHistory l now window) now window).1

theorem twice_pairwise {samples : List NeedSample}
    (h : samples.Pairwise fun x y => x.time ≤ y.time) :
    (twice samples).Pairwise fun x y => x.time ≤ y.time := by
  rw [twice, pairwise_flatMap]
  exact ⟨fun x _ => by simp, h.imp fun hle => by simpa using hle⟩

theorem le_restoredSince {bucket since oldest : Int} (h : since ≤ oldest) :
    since ≤ restoredSince bucket (some since) oldest := by
  simp only [restoredSince]
  split_ifs <;> omega

theorem Readings.exists_time (h : Readings now s) (hx : x ∈ storedLevels now window s) :
    ∃ y ∈ s, y.time = x.time := by
  obtain ⟨p, hp, htime⟩ := h.levels.stamped x (mem_of_mem_drop hx)
  exact ⟨p.2, (mem_inARow (mem_storedPairs hp).1).2, htime⟩

theorem Readings.restoredRole_stored (h : Readings now s) (window : Int) {since : Int}
    (hle : ∀ x ∈ s, since ≤ x.time)
    (hst : st = restoredRole now window ⟨some since, (storedLevels now window s).map stored⟩ ([],
      none)) :
    st.1 = twice (storedLevels now window s) ∧ ∀ since', st.2 = some since' → since ≤ since' := by
  have hincreasing : (storedLevels now window s).Pairwise fun x y => x.time < y.time :=
    h.storedLevels_increasing
  have hsorted := twice_pairwise (hincreasing.imp le_of_lt)
  have holdest : ∀ x ∈ storedLevels now window s, since ≤ x.time := by
    intro x hx
    obtain ⟨y, hy, htime⟩ := h.exists_time hx
    exact htime ▸ hle y hy
  unfold restoredRole at hst
  rw [h.readSamples_stored] at hst
  generalize storedLevels now window s = levels at hst hsorted holdest
  cases levels with
  | nil =>
    rw [hst]
    exact ⟨rfl, nofun⟩
  | cons oldest rest =>
    rw [hst]
    refine ⟨sort_of_pairwise hsorted, fun since' hsince' => ?_⟩
    simp only at hsince'
    split_ifs at hsince'
    rw [← Option.some.inj hsince']
    exact le_restoredSince (holdest oldest mem_cons_self)

theorem role_restarted (l : NeedLedger) (now window : Int) (role : String) :
    (restarted l now window).role role =
      (l.needsSince.find? role).elim ([], none) fun since => restoredRole now window
        ⟨some since, (storedLevels now window (l.needs.get role)).map stored⟩ ([], none) := by
  rw [restarted, role_restoreNeedHistory, needHistory, find?_mapValues]
  cases l.needsSince.find? role with
  | none => rfl
  | some since => rfl

theorem Recorded.role_restarted (h : Recorded now (l.role role)) (window : Int) :
    ((restarted l now window).role role).1 =
        twice (storedLevels now window (l.needs.get role)) ∧
      ∀ since, ((restarted l now window).role role).2 = some since →
        ∃ since', l.needsSince.find? role = some since' ∧ since' ≤ since := by
  have hrole := Ledger.role_restarted l now window role
  cases hfind : l.needsSince.find? role with
  | none =>
    -- a role without a start has no readings either
    have hnil : l.needs.get role = [] := by
      by_contra hne
      exact h.started hne hfind
    have hstored : storedLevels now window [] = [] := drop_nil
    rw [hfind, Option.elim_none] at hrole
    rw [hrole, hnil, hstored]
    exact ⟨rfl, nofun⟩
  | some since =>
    have hreadings : Readings now (l.needs.get role) := h.readings
    rw [hfind, Option.elim_some] at hrole
    obtain ⟨hneeds, hstart⟩ := hreadings.restoredRole_stored window (h.since since hfind) hrole
    exact ⟨hneeds, fun later hlater => ⟨since, rfl, hstart later hlater⟩⟩

end Restore

/-- A need of 5 read twice, then a need of 1 once a minute until the window is over. -/
def fadingNeed : List Recording :=
  ⟨GoMap.ofList [("m", 5)], 30 * second, 180 * minute⟩ ::
    ⟨GoMap.ofList [("m", 5)], 40 * second, 180 * minute⟩ ::
    (List.range 180).map fun k =>
      ⟨GoMap.ofList [("m", 1)], 30 * second + (k + 1 : ℕ) * minute, 180 * minute⟩

theorem forall_mem_fadingNeed {P : Recording → Prop}
    (hfirst : P ⟨GoMap.ofList [("m", 5)], 30 * second, 180 * minute⟩)
    (hsecond : P ⟨GoMap.ofList [("m", 5)], 40 * second, 180 * minute⟩)
    (hrest : ∀ k < 180, P ⟨GoMap.ofList [("m", 1)], 30 * second + (k + 1 : ℕ) * minute,
      180 * minute⟩) : ∀ r ∈ fadingNeed, P r := by
  refine forall_mem_cons.mpr ⟨hfirst, forall_mem_cons.mpr ⟨hsecond, forall_mem_map.mpr ?_⟩⟩
  intro k hk
  exact hrest k (mem_range.mp hk)

theorem needs_fadingNeed : (recordings fadingNeed).needs.get "m" = readingsOf "m" fadingNeed := by
  have hwithin : ∀ r ∈ fadingNeed, 30 * second ≤ r.now ∧ r.now ≤ 30 * second + r.window := by
    apply forall_mem_fadingNeed
    · decide
    · decide
    · intro k hk
      simp only [second_eq, minute_eq]
      constructor <;> omega
  exact needs_recordings hwithin "m"

theorem inOrder_fadingNeed : InOrder fadingNeed := by
  have hvalid : ∀ x : ℚ, 0 ≤ x → x ≤ maxShareBudgetGPUs → ∀ role need,
      (GoMap.ofList [("m", x)]).find? role = some need → 0 ≤ need ∧ need ≤ maxShareBudgetGPUs := by
    intro x hlow hhigh role need hfind
    have hnodup : ([("m", x)].map Prod.fst).Nodup := nodup_singleton "m"
    have hmem := (find?_ofList hnodup).mp hfind
    rw [mem_singleton, Prod.mk.injEq] at hmem
    exact hmem.2 ▸ ⟨hlow, hhigh⟩
  constructor
  · refine pairwise_cons.mpr ⟨?_, pairwise_cons.mpr ⟨?_, ?_⟩⟩
    · refine forall_mem_cons.mpr ⟨by decide, fun r hr => ?_⟩
      obtain ⟨k, _, rfl⟩ := mem_map.mp hr
      simp only [second_eq, minute_eq]
      omega
    · intro r hr
      obtain ⟨k, _, rfl⟩ := mem_map.mp hr
      simp only [second_eq, minute_eq]
      omega
    · rw [pairwise_map]
      refine pairwise_lt_range.imp fun {k k'} hlt => ?_
      simp only [second_eq, minute_eq]
      omega
  · apply forall_mem_fadingNeed
    · exact hvalid 5 (by decide) (by decide +kernel)
    · exact hvalid 5 (by decide) (by decide +kernel)
    · exact fun k _ => hvalid 1 (by decide) (by decide +kernel)

end LlmScaler.Ledger
