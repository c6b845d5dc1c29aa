import LlmScaler.Borrow.Handed

/-!
# The record of draws in flight over its cycles

Passes record draws, observations resolve the replicas whose pods exist, and decided targets cut
what was ordered past them. Over any such run every entry keeps replicas and a figure.
-/

namespace LlmScaler.Borrow

open LlmScaler.Core LlmScaler.Nodes GoMap

variable {v : Int}

theorem ceilDiv_pos {r : Int} (hv : 0 < v) (hr : 0 < r) : 0 < ceilDiv v r := by
  rw [ceilDiv, if_neg (not_le.mpr hr), Int.tdiv_eq_ediv_of_nonneg (by omega)]
  exact (Int.le_ediv_iff_mul_le hr).mpr (by omega)

theorem ceilDiv_nonneg {r : Int} (hv : 0 ≤ v) (hr : 0 < r) : 0 ≤ ceilDiv v r := by
  rw [ceilDiv, if_neg (not_le.mpr hr), Int.tdiv_eq_ediv_of_nonneg (by omega)]
  exact Int.ediv_nonneg (by omega) hr.le

variable {n : Int}

namespace BorrowDraw

variable {d : BorrowDraw}

theorem part_nonneg (hr : 0 < d.replicas) (hn : 0 ≤ n) (hv : 0 ≤ v) : 0 ≤ d.part n v :=
  le_min hv (Int.mul_nonneg hn (ceilDiv_nonneg hv hr))

theorem part_pos (hr : 0 < d.replicas) (hn : 0 < n) (hv : 0 < v) : 0 < d.part n v :=
  lt_min hv (Int.mul_pos hn (ceilDiv_pos hv hr))

theorem part_zero (hv : 0 ≤ v) : d.part 0 v = 0 := by
  rw [part, Int.zero_mul]
  exact min_eq_right hv

end BorrowDraw

/-- A draw as the record holds it under a key. -/
structure BorrowDraw.Entry (k : InFlightKey) (d : BorrowDraw) : Prop where
  key_eq : d.key = k
  replicas : 0 < d.replicas
  gpus : 0 ≤ d.gpus
  after : 0 ≤ d.after
  figure : 0 < d.gpus ∨ 0 < d.after
  kept : 0 ≤ d.kept
  kept_le : d.kept ≤ d.after
  credits : d.creditGPUs = 0 ∧ d.creditReplicas = 0 ∧ d.creditAfter = 0 ∧ d.creditKept = 0
  unresolved : d.resolvedAt = none

namespace BorrowDraw.Entry

variable {k : InFlightKey} {d : BorrowDraw}

theorem replicasOf (h : d.Entry k) (hn : 0 < n) : (d.replicasOf n).Entry k := by
  obtain ⟨hgpus, hreplicas, hafter, hkept⟩ := h.credits
  have hg := part_nonneg h.replicas hn.le h.gpus
  have ha := part_nonneg h.replicas hn.le h.after
  have hk := le_min ha (part_nonneg h.replicas hn.le h.kept)
  refine ⟨h.key_eq, hn, hg, ha, ?_, hk, min_le_left _ _, ⟨?_, ?_, ?_, ?_⟩, h.unresolved⟩
  · exact h.figure.imp (part_pos h.replicas hn) (part_pos h.replicas hn)
  · exact (congrArg (min · _) hgpus).trans (min_eq_left hg)
  · exact (congrArg (min · _) hreplicas).trans (min_eq_left hn.le)
  · exact (congrArg (min · _) hafter).trans (min_eq_left ha)
  · exact (congrArg (min · _) hkept).trans (min_eq_left hk)

theorem trimmedTo (h : d.Entry k) {target : Int} {e : BorrowDraw}
    (he : d.trimmedTo target = some e) : e.Entry k := by
  unfold BorrowDraw.trimmedTo at he
  split_ifs at he
  · cases he
    exact h
  · cases he
    exact { h.replicasOf (n := d.replicas - (d.target - target)) (by omega) with }

end BorrowDraw.Entry

/-- What a draw orders anew is sound: its credits are within its figures, and of its growth before
preemption it keeps anew no more than it takes anew. -/
structure BorrowDraw.Sound (d : BorrowDraw) : Prop where
  gpus : d.creditGPUs ≤ d.gpus
  after : d.creditAfter ≤ d.after
  kept : d.kept - d.creditKept ≤ d.after - d.creditAfter

/-- An observation resolves all but `missing` replicas of a draw. -/
def BorrowDraw.Resolves (d : BorrowDraw) (observed : GoMap String VariantObservation)
    (now missing : Int) : Prop :=
  d.orderedAt.expired now inFlightTTL = false ∧ ∃ o, observed.find? d.variantKey = some o ∧
    (d.wake = true ∨ ¬ (0 < o.desired ∧ o.desired < d.target)) ∧
    missing = max 0 (d.target - o.current) ∧ missing < d.replicas

variable {d : BorrowDraw} {missing now : Int} {observed : GoMap String VariantObservation}

theorem BorrowDraw.Resolves.nonneg (h : d.Resolves observed now missing) : 0 ≤ missing := by
  obtain ⟨_, o, _, _, rfl, _⟩ := h
  exact le_max_left _ _

variable {b : BorrowInFlight} {k : InFlightKey}

namespace BorrowInFlight

theorem entry_recordDraw {entries : GoMap InFlightKey BorrowDraw}
    (h : entries.Every fun k d => d.Entry k) (hd : d.Sound) (now : Int) :
    (recordDraw now entries d).Every fun k d => d.Entry k := by
  have hgpus := hd.gpus
  have hafter := hd.after
  have hkept := hd.kept
  unfold recordDraw
  split_ifs with hguard
  · exact h
  · apply h.set
    rw [not_or, not_and_or, not_le, not_le, not_le] at hguard
    obtain ⟨hfigure, hreplicas⟩ := hguard
    unfold entryFor at hfigure hreplicas ⊢
    cases hprev : entries.find? d.key with
    | none =>
      simp only [hprev] at hfigure hreplicas ⊢
      refine ⟨rfl, hreplicas, ?_, ?_, hfigure, le_max_left _ _, ?_, ⟨rfl, rfl, rfl, rfl⟩, rfl⟩
      · exact sub_nonneg.mpr hgpus
      · exact sub_nonneg.mpr hafter
      · exact max_le (sub_nonneg.mpr hafter) hkept
    | some prev =>
      have hentry := h d.key prev hprev
      simp only [hprev] at hfigure hreplicas ⊢
      refine ⟨rfl, hreplicas, ?_, ?_, hfigure, ?_, ?_, ⟨rfl, rfl, rfl, rfl⟩, rfl⟩
      · exact add_nonneg (sub_nonneg.mpr hgpus) hentry.gpus
      · exact add_nonneg (sub_nonneg.mpr hafter) hentry.after
      · exact add_nonneg (le_max_left _ _) hentry.kept
      · exact add_le_add (max_le (sub_nonneg.mpr hafter) hkept) hentry.kept_le

theorem entry_recordAt (h : b.entries.Every fun k d => d.Entry k) {draws : List BorrowDraw}
    (hdraws : ∀ d ∈ draws, d.Sound) (now : Int) :
    (b.recordAt draws now).entries.Every fun k d => d.Entry k :=
  List.foldlRecOn (motive := fun es : GoMap InFlightKey BorrowDraw => es.Every fun k d => d.Entry k)
    draws (recordDraw now) h fun _ hes d hd => entry_recordDraw hes (hdraws d hd) now

theorem find?_observeAt (b : BorrowInFlight) (observed : GoMap String VariantObservation)
    (now : Int) (k : InFlightKey) :
    (b.observeAt observed now).entries.find? k =
      (b.entries.find? k).bind fun d => (observeDraw observed now d).1 := by
  apply find?_foldl_entries (f := fun _ d _ => (observeDraw observed now d).1)
  intro m e k
  cases (observeDraw observed now e.2).1 with
  | none => exact find?_delete m e.1 k
  | some d => exact find?_set m e.1 k d

theorem find?_trim (b : BorrowInFlight) (targets : GoMap String Int) (k : InFlightKey) :
    (b.trim targets).entries.find? k = (b.entries.find? k).bind fun d =>
      match targets.find? d.variantKey with
      | none => some d
      | some t => if d.wake then some d else d.trimmedTo t := by
  refine find?_foldl_entries (f := fun (_ : InFlightKey) (d : BorrowDraw) old =>
    match targets.find? d.variantKey with
    | none => old
    | some t => if d.wake then old else d.trimmedTo t) ?_ b.entries k
  intro m e k
  cases targets.find? e.2.variantKey with
  | none => exact (ite_self _).symm
  | some t =>
    dsimp only
    by_cases hwake : e.2.wake = true
    · rw [if_pos hwake, if_pos hwake]
      exact (ite_self _).symm
    · rw [if_neg hwake, if_neg hwake]
      cases e.2.trimmedTo t with
      | none => exact find?_delete m e.1 k
      | some d => exact find?_set m e.1 k d

theorem observeDraw_cases (observed : GoMap String VariantObservation) (now : Int)
    (d : BorrowDraw) :
    observeDraw observed now d = (none, []) ∨ observeDraw observed now d = (some d, []) ∨
      ∃ missing, d.Resolves observed now missing ∧ observeDraw observed now d =
        (if missing = 0 then none else some (d.replicasOf missing),
         if 0 < (d.resolved missing now).gpus ∨ 0 < (d.resolved missing now).after then
           [d.resolved missing now]
         else []) := by
  unfold observeDraw
  by_cases hexpired : d.orderedAt.expired now inFlightTTL = true
  · rw [if_pos hexpired]
    exact .inl rfl
  · rw [if_neg hexpired]
    cases ho : observed.find? d.variantKey with
    | none =>
      dsimp only
      split_ifs
      · exact .inr (.inl rfl)
      · exact .inl rfl
    | some o =>
      dsimp only
      by_cases hdesired : (!d.wake && (decide (0 < o.desired) && decide (o.desired < d.target))) = true
      · rw [if_pos hdesired]
        exact .inl rfl
      · rw [if_neg hdesired]
        by_cases hall : d.replicas ≤ max 0 (d.target - o.current)
        · rw [if_pos hall]
          exact .inr (.inl rfl)
        · rw [if_neg hall]
          refine .inr (.inr ⟨max 0 (d.target - o.current), ⟨?_, o, ho, ?_, rfl, ?_⟩, rfl⟩)
          · exact Bool.eq_false_iff.mpr hexpired
          · by_contra hlow
            rw [not_or, not_not] at hlow
            simp [hlow] at hdesired
          · exact not_le.mp hall

theorem entry_observeDraw (h : d.Entry k) {e : BorrowDraw}
    (he : (observeDraw observed now d).1 = some e) : e.Entry k := by
  rcases observeDraw_cases observed now d with hcase | hcase | ⟨missing, hres, hcase⟩
  · rw [hcase] at he
    cases he
  · rw [hcase] at he
    cases he
    exact h
  · rw [hcase] at he
    dsimp only at he
    split_ifs at he with hzero
    cases he
    exact h.replicasOf (lt_of_le_of_ne hres.nonneg (Ne.symm hzero))

theorem entry_observeAt (h : b.entries.Every fun k d => d.Entry k)
    (observed : GoMap String VariantObservation) (now : Int) :
    (b.observeAt observed now).entries.Every fun k d => d.Entry k := by
  intro k e he
  rw [find?_observeAt] at he
  obtain ⟨d, hd, he⟩ := Option.bind_eq_some_iff.mp he
  exact entry_observeDraw (h k d hd) he

theorem entry_trim (h : b.entries.Every fun k d => d.Entry k) (targets : GoMap String Int) :
    (b.trim targets).entries.Every fun k d => d.Entry k := by
  intro k e he
  rw [find?_trim] at he
  obtain ⟨d, hd, he⟩ := Option.bind_eq_some_iff.mp he
  split at he
  next =>
    cases he
    exact h k e hd
  next t _ =>
    split_ifs at he
    · cases he
      exact h k e hd
    · exact (h k _ hd).trimmedTo he

end BorrowInFlight

inductive RecordOp
  | recordAt (draws : List BorrowDraw) (now : Int)
  | observeAt (observed : GoMap String VariantObservation) (now : Int)
  | trim (targets : GoMap String Int)

def RecordOp.next (b : BorrowInFlight) : RecordOp → BorrowInFlight
  | .recordAt draws now => b.recordAt draws now
  | .observeAt observed now => b.observeAt observed now
  | .trim targets => b.trim targets

/-- Whether the draws an operation records are sound. -/
def RecordOp.Sound : RecordOp → Prop
  | .recordAt draws _ => ∀ d ∈ draws, d.Sound
  | .observeAt _ _ => True
  | .trim _ => True

theorem entry_next (h : b.entries.Every fun k d => d.Entry k) {op : RecordOp} (hop : op.Sound) :
    (op.next b).entries.Every fun k d => d.Entry k := by
  cases op with
  | recordAt draws now => exact BorrowInFlight.entry_recordAt h hop now
  | observeAt observed now => exact BorrowInFlight.entry_observeAt h observed now
  | trim targets => exact BorrowInFlight.entry_trim h targets

theorem entry_run (ops : List RecordOp) (hops : ∀ op ∈ ops, op.Sound) :
    (runFrom RecordOp.next .new ops).entries.Every fun k d => d.Entry k :=
  List.foldlRecOn (motive := fun b : BorrowInFlight => b.entries.Every fun k d => d.Entry k)
    ops RecordOp.next every_empty fun _ hb op hop => entry_next hb (hops op hop)

/-- The sum of a figure over draws. -/
def total (f : BorrowDraw → Int) (draws : List BorrowDraw) : Int := (draws.map f).sum

namespace BorrowInFlight

theorem observeDraw_of_resolves (h : d.Resolves observed now missing) :
    observeDraw observed now d =
      (if missing = 0 then none else some (d.replicasOf missing),
       if 0 < (d.resolved missing now).gpus ∨ 0 < (d.resolved missing now).after then
         [d.resolved missing now]
       else []) := by
  obtain ⟨hexpired, o, ho, hdesired, rfl, hlt⟩ := h
  have hkeeps : ¬ (!d.wake && (0 < o.desired && o.desired < d.target)) = true := by
    simp only [Bool.and_eq_true, Bool.not_eq_true', decide_eq_true_eq, not_and]
    rcases hdesired with hwake | hdesired
    · simp [hwake]
    · exact fun _ hpos hlow => hdesired ⟨hpos, hlow⟩
  unfold observeDraw
  rw [hexpired, ho]
  simp only [Bool.false_eq_true, if_false, if_neg hkeeps, if_neg (not_le.mpr hlt)]

/-- What an observation leaves of an entry it resolves in part, with what lags, holds the GPUs and
the growth of the entry; and its replicas, where the resolved ones have a share of a figure. -/
theorem observe_splits (h : d.Entry k) (hres : d.Resolves observed now missing) :
    let parts := (observeDraw observed now d).1.toList ++ (observeDraw observed now d).2
    total BorrowDraw.gpus parts = d.gpus ∧ total BorrowDraw.after parts = d.after ∧
    ((d.replicasOf missing).gpus < d.gpus ∨ (d.replicasOf missing).after < d.after →
      total BorrowDraw.replicas parts = d.replicas) := by
  intro parts
  have hgpus : (d.replicasOf missing).gpus ≤ d.gpus := min_le_left _ _
  have hafter : (d.replicasOf missing).after ≤ d.after := min_le_left _ _
  have hlags : ∀ f : BorrowDraw → Int, total f parts =
      (if missing = 0 then 0 else f (d.replicasOf missing)) +
        if (d.replicasOf missing).gpus < d.gpus ∨ (d.replicasOf missing).after < d.after then
          f (d.resolved missing now)
        else 0 := by
    intro f
    have hshare : (0 < (d.resolved missing now).gpus ∨ 0 < (d.resolved missing now).after) ↔
        ((d.replicasOf missing).gpus < d.gpus ∨ (d.replicasOf missing).after < d.after) :=
      or_congr sub_pos sub_pos
    simp only [parts, observeDraw_of_resolves hres, total, hshare]
    split_ifs <;> simp
  have hnone : missing = 0 →
      (d.replicasOf missing).gpus = 0 ∧ (d.replicasOf missing).after = 0 := by
    rintro rfl
    exact ⟨BorrowDraw.part_zero h.gpus, BorrowDraw.part_zero h.after⟩
  have hfigure := h.figure
  have hresolved : (d.resolved missing now).gpus = d.gpus - (d.replicasOf missing).gpus ∧
      (d.resolved missing now).after = d.after - (d.replicasOf missing).after ∧
      (d.resolved missing now).replicas = d.replicas - (d.replicasOf missing).replicas ∧
      (d.replicasOf missing).replicas = missing := ⟨rfl, rfl, rfl, rfl⟩
  rw [hlags, hlags, hlags]
  refine ⟨?_, ?_, ?_⟩
  · split_ifs <;> omega
  · split_ifs <;> omega
  · intro hshare
    rw [if_pos hshare]
    split_ifs <;> omega

end BorrowInFlight

/-- All of a draw is on the credit of its variant's own entry. -/
def BorrowDraw.OnCredit (d : BorrowDraw) : Prop :=
  d.creditGPUs = d.gpus ∧ d.creditAfter = d.after ∧ d.kept ≤ d.creditKept

structure BorrowDraw.SameMarks (d prev : BorrowDraw) : Prop where
  modelID : d.modelID = prev.modelID
  placement : d.placement = prev.placement
  accelerator : d.accelerator = prev.accelerator
  wake : d.wake = prev.wake
  /-- It closes a restricted part only if the entry does. -/
  closesRestricted : d.closesRestricted = true → prev.closesRestricted = true
  noHole : d.noHole = true → prev.noHole = true

/-- An entry recorded again: the same figures, from the same order, at a target no lower. -/
structure BorrowDraw.Renewed (prev d : BorrowDraw) : Prop where
  key : d.key = prev.key
  gpus : d.gpus = prev.gpus
  after : d.after = prev.after
  kept : d.kept = prev.kept
  replicas : d.replicas = prev.replicas
  orderedAt : d.orderedAt = prev.orderedAt
  target : prev.target ≤ d.target

namespace BorrowDraw

variable {d prev e : BorrowDraw}

theorem OnCredit.fresh (h : d.OnCredit) (hd : d.Credited) :
    d.gpus - d.creditGPUs = 0 ∧ d.after - d.creditAfter = 0 ∧ max 0 (d.kept - d.creditKept) = 0 ∧
      d.replicas - d.creditReplicas = 0 := by
  obtain ⟨hgpus, hafter, hkept⟩ := h
  have hwhole := hd.whole hgpus hafter (le_antisymm hd.kept hkept)
  refine ⟨?_, ?_, max_eq_left ?_, ?_⟩
  · omega
  · omega
  · omega
  · omega

theorem Renewed.refl (prev : BorrowDraw) : Renewed prev prev :=
  ⟨rfl, rfl, rfl, rfl, rfl, rfl, le_refl _⟩

theorem Renewed.onTopOf (he : Renewed prev e) (hkey : d.key = prev.key) (h : d.OnCredit)
    (hd : d.Credited) (now : Int) : Renewed prev ((d.uncredited now).onTopOf e) := by
  obtain ⟨hgpus, hafter, hkept, hreplicas⟩ := h.fresh hd
  refine ⟨hkey, ?_, ?_, ?_, ?_, he.orderedAt, he.target.trans (le_max_right _ _)⟩
  · rw [← he.gpus]
    exact (congrArg (· + e.gpus) hgpus).trans (Int.zero_add _)
  · rw [← he.after]
    exact (congrArg (· + e.after) hafter).trans (Int.zero_add _)
  · rw [← he.kept]
    exact (congrArg (· + e.kept) hkept).trans (Int.zero_add _)
  · rw [← he.replicas]
    exact (congrArg (· + e.replicas) hreplicas).trans (Int.zero_add _)

theorem SameMarks.onTopOf (hm : d.SameMarks prev) (hprev : prev.Entry k) (hkey : d.key = prev.key)
    (h : d.OnCredit) (hd : d.Credited) (now target : Int) :
    (d.uncredited now).onTopOf { prev with target := target } =
      { prev with target := max d.target target } := by
  obtain ⟨hgpus, hafter, hkept, hreplicas⟩ := h.fresh hd
  obtain ⟨hns, hvariant, hcohort, hflavor, hresource, hreclaim⟩ := InFlightKey.mk.inj hkey
  obtain ⟨hcreditGPUs, hcreditReplicas, hcreditAfter, hcreditKept⟩ := hprev.credits
  have hmark : ∀ {a b : Bool}, (a = true → b = true) → (a || b) = b := by decide
  unfold uncredited BorrowDraw.onTopOf
  simp only [hns, hvariant, hcohort, hflavor, hresource, hreclaim, hgpus,
    hafter, hkept, hreplicas, hm.modelID, hm.placement, hm.accelerator, hm.wake,
    hmark hm.closesRestricted, hmark hm.noHole, hprev.unresolved, hcreditGPUs, hcreditReplicas,
    hcreditAfter, hcreditKept, Int.zero_add]

end BorrowDraw

namespace BorrowInFlight

/-- A property of the entry under a key that every draw recorded there keeps holds after a pass is
recorded. -/
theorem find?_recordAt {Q : BorrowDraw → Prop}
    (hfigure : ∀ e, Q e → (0 < e.gpus ∨ 0 < e.after) ∧ 0 < e.replicas) {draws : List BorrowDraw}
    (hkeep : ∀ d ∈ draws, d.key = k → ∀ e, Q e → Q ((d.uncredited now).onTopOf e))
    {prev : BorrowDraw} (hprev : b.entries.find? k = some prev) (hQ : Q prev) :
    ∃ e, (b.recordAt draws now).entries.find? k = some e ∧ Q e := by
  refine List.foldlRecOn (motive := fun es => ∃ e, es.find? k = some e ∧ Q e) draws (recordDraw now)
    ⟨prev, hprev, hQ⟩ ?_
  rintro es ⟨e, he, hQe⟩ d hd
  unfold recordDraw
  by_cases hkey : d.key = k
  · have hentry : entryFor es now d = (d.uncredited now).onTopOf e := by
      rw [entryFor, hkey, he]
    have hQ' := hkeep d hd hkey e hQe
    obtain ⟨hpos, hreplicas⟩ := hfigure _ hQ'
    rw [hentry, if_neg (by omega), hkey]
    refine ⟨(d.uncredited now).onTopOf e, ?_, hQ'⟩
    rw [find?_set, if_pos rfl]
  · split_ifs
    · exact ⟨e, he, hQe⟩
    · refine ⟨e, ?_, hQe⟩
      rw [find?_set, if_neg (Ne.symm hkey), he]

variable {b : BorrowInFlight} {k : InFlightKey} {prev : BorrowDraw} {draws : List BorrowDraw}
  (hentry : prev.Entry k) (hprev : b.entries.find? k = some prev)
  (hcredited : ∀ d ∈ draws, d.Credited) (hdraws : ∀ d ∈ draws, d.key = k → d.OnCredit)
include hentry hprev hcredited hdraws

/-- A pass all of whose draws under a key are on the credit of the entry there renews the entry. -/
theorem renewed_recordAt (now : Int) :
    ∃ e, (b.recordAt draws now).entries.find? k = some e ∧ prev.Renewed e := by
  refine find?_recordAt (Q := prev.Renewed) ?_ ?_ hprev (BorrowDraw.Renewed.refl prev)
  · intro e he
    rw [he.gpus, he.after, he.replicas]
    exact ⟨hentry.figure, hentry.replicas⟩
  · intro d hd hkey e he
    exact he.onTopOf (hkey.trans hentry.key_eq.symm) (hdraws d hd hkey) (hcredited d hd) now

theorem unchanged_recordAt (hmarks : ∀ d ∈ draws, d.key = k → d.SameMarks prev) (now : Int) :
    ∃ target, (b.recordAt draws now).entries.find? k = some { prev with target := target } := by
  have hkept : ∃ e, (b.recordAt draws now).entries.find? k = some e ∧
      ∃ target, e = { prev with target := target } := by
    refine find?_recordAt (Q := fun e => ∃ target, e = { prev with target := target }) ?_ ?_ hprev
      ⟨prev.target, rfl⟩
    · rintro e ⟨target, rfl⟩
      exact ⟨hentry.figure, hentry.replicas⟩
    · rintro d hd hkey e ⟨target, rfl⟩
      exact ⟨_, (hmarks d hd hkey).onTopOf hentry (hkey.trans hentry.key_eq.symm)
        (hdraws d hd hkey) (hcredited d hd) now target⟩
  obtain ⟨e, he, target, rfl⟩ := hkept
  exact ⟨target, he⟩

end BorrowInFlight

/-- The record loses no GPU and counts none twice, over every run whose recorded draws are sound.
Every entry keeps replicas, a figure and no more kept than its growth. An observation that resolves
part of an entry splits its GPUs and growth exactly, and its replicas where the resolved ones have a
share of a figure. A pass that re-places an entry all on its own credit leaves the entry its
figures, and all else but the target where its draws carry the entry's marks. -/
theorem record_conserves (ops : List RecordOp) (hops : ∀ op ∈ ops, op.Sound) :
    let b := runFrom RecordOp.next .new ops
    (∀ k d, b.entries.find? k = some d →
      0 < d.replicas ∧ (0 < d.gpus ∨ 0 < d.after) ∧ d.kept ≤ d.after) ∧
    (∀ observed now missing k d, b.entries.find? k = some d → d.Resolves observed now missing →
      let lags := (BorrowInFlight.observeDraw observed now d).2
      let parts := ((b.observeAt observed now).entries.find? k).toList ++ lags
      (∀ l ∈ lags, l ∈ (b.observeAt observed now).lagging) ∧
      total BorrowDraw.gpus parts = d.gpus ∧ total BorrowDraw.after parts = d.after ∧
      ((d.replicasOf missing).gpus < d.gpus ∨ (d.replicasOf missing).after < d.after →
        total BorrowDraw.replicas parts = d.replicas)) ∧
    (∀ catalog start pass now, start.draws = [] → start.reclaims = [] →
      let draws := (runFrom (passNext catalog) start pass).handed
      ∀ k prev, b.entries.find? k = some prev → (∀ d ∈ draws, d.key = k → d.OnCredit) →
        (∃ e, (b.recordAt draws now).entries.find? k = some e ∧ prev.Renewed e) ∧
        ((∀ d ∈ draws, d.key = k → d.SameMarks prev) → ∃ target,
          (b.recordAt draws now).entries.find? k = some { prev with target := target })) := by
  intro b
  have hentries : b.entries.Every fun k d => d.Entry k := entry_run ops hops
  refine ⟨?_, ?_, ?_⟩
  · intro k d hd
    have hentry := hentries k d hd
    exact ⟨hentry.replicas, hentry.figure, hentry.kept_le⟩
  · intro observed now missing k d hd hres lags parts
    have hstays : (b.observeAt observed now).entries.find? k =
        (BorrowInFlight.observeDraw observed now d).1 := by
      rw [BorrowInFlight.find?_observeAt, hd]
      rfl
    refine ⟨?_, ?_⟩
    · intro l hl
      refine List.mem_append_right _ (List.mem_flatMap.mpr ⟨⟨k, d⟩, ?_, hl⟩)
      exact mem_entries.mpr hd
    · simp only [parts, hstays]
      exact BorrowInFlight.observe_splits (hentries k d hd) hres
  · intro catalog start pass now hdraws hreclaims draws k prev hprev honCredit
    have hcredited := credited_handed catalog hdraws hreclaims pass
    have hentry := hentries k prev hprev
    exact ⟨BorrowInFlight.renewed_recordAt hentry hprev hcredited honCredit now, fun hmarks =>
      BorrowInFlight.unchanged_recordAt hentry hprev hcredited honCredit hmarks now⟩

private def nominalPlacer : ModelPlacer :=
  ⟨"x", "m", false, ∅, fun _ => ⟨"H100", [8], 8, [], "", [], ∅, ""⟩⟩

/-- A namespace read and not counted whose queue admits eight GPUs before it preempts, of which it
keeps some, with what its variants have in flight. -/
private def nominalPass (kept : Int) (inFlight : List BorrowDraw) : PassState where
  bs := ⟨∅, ∅, GoMap.set ∅ "x" (GoMap.set ∅ "H100" ⟨0, 8, kept, 0, none, ∅, ∅⟩), [], ∅, none, [], ∅,
    reclaimCreditOf inFlight, [], [], fun _ _ _ => false, fun _ _ _ => false, fun _ _ => false, ∅⟩
  guaranteed := none

/-- The record after the variant's first replica grew into nominal, none of it kept. -/
private def firstCycle : BorrowInFlight :=
  BorrowInFlight.new.recordAt
    (nominalPlacer.placeReplica (nominalPass 0 []) ⟨"v", 1⟩).1.bs.reclaims 0

/-- The record after the next pass re-placed it, the queue keeping eight by then. -/
private def secondCycle : BorrowInFlight :=
  firstCycle.recordAt
    (nominalPlacer.placeReplica (nominalPass 8 firstCycle.sortedEntries) ⟨"v", 1⟩).1.bs.reclaims 1

/-- The one replica, re-placed on all eight GPUs of its own entry, is recorded as a second one; the
next observation, which sees no pod, then lets half its GPUs lag as if one existed. -/
theorem replaced_replica_counted_twice :
    firstCycle.sortedEntries.map (fun d => (d.replicas, d.after, d.kept)) = [(1, 8, 0)] ∧
    secondCycle.sortedEntries.map (fun d => (d.replicas, d.after, d.kept)) = [(2, 8, 8)] ∧
    (secondCycle.observeAt (GoMap.set ∅ "x/v" ⟨0, 1⟩) 2).sortedEntries.map BorrowDraw.after = [4] ∧
    (secondCycle.observeAt (GoMap.set ∅ "x/v" ⟨0, 1⟩) 2).lagging.map BorrowDraw.after = [4] := by
  decide

/-- Two replicas that drew nine GPUs. -/
private def nineDrawn : BorrowDraw :=
  { ns := "x", modelID := "m", variant := "v", cohort := "co", flavor := "f", resource := "gpu",
    gpus := 9, replicas := 2, target := 2, orderedAt := some 0 }

private def oneExists : GoMap String VariantObservation := GoMap.set ∅ "x/v" ⟨1, 2⟩

/-- Of the two one pod exists: five GPUs stay in flight and four lag. -/
theorem record_conserves_nine :
    let b := runFrom RecordOp.next .new [.recordAt [nineDrawn] 0]
    ((b.observeAt oneExists 1).entries.find? nineDrawn.key).toList.map BorrowDraw.gpus = [5] ∧
    total BorrowDraw.replicas (((b.observeAt oneExists 1).entries.find? nineDrawn.key).toList ++
      (BorrowInFlight.observeDraw oneExists 1 nineDrawn).2) = 2 := by
  intro b
  have hsound : ∀ op ∈ [RecordOp.recordAt [nineDrawn] 0], op.Sound :=
    List.forall_mem_singleton.mpr (List.forall_mem_singleton.mpr
      ⟨by decide, by decide, by decide⟩)
  have hresolves : nineDrawn.Resolves oneExists 1 1 :=
    ⟨by decide, ⟨1, 2⟩, by decide, .inr (by decide), by decide, by decide⟩
  obtain ⟨_, hsplit, _⟩ := record_conserves _ hsound
  obtain ⟨_, _, _, hreplicas⟩ := hsplit oneExists 1 1 nineDrawn.key nineDrawn rfl hresolves
  exact ⟨by decide, hreplicas (.inl (by decide))⟩

end LlmScaler.Borrow
