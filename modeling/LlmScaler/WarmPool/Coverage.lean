import LlmScaler.WarmPool.Reserve

/-!
# What the plan covers

A variant's shortfall is counted from what is lent before anything is handed back. A bridge that is
handed back beyond the excess is therefore missing afterwards: nothing is borrowed in its place and
nobody is told.
-/

namespace LlmScaler.WarmPool

open LlmScaler.Core List

/-- The lent Pods of a variant that the plan leaves lent. -/
def Plan.kept (plan : Plan) (all : List Membership) (variant : String) : List Membership :=
  (lent all variant).filter fun m => !(plan.returns.map Action.key).contains m.key

def Plan.borrowed (plan : Plan) (variant : String) : Nat :=
  plan.borrow.countP fun a => a.model.variant = variant

/-- With what stays lent and what is borrowed the variant has the replicas it wants. -/
def Plan.Covers (plan : Plan) (all : List Membership) (v : VariantDemand) : Prop :=
  v.desired ≤ v.ready + (plan.kept all v.model.variant).length + plan.borrowed v.model.variant

instance (plan : Plan) (all : List Membership) (v : VariantDemand) : Decidable (plan.Covers all v) :=
  inferInstanceAs (Decidable (_ ≤ _))

def Plan.Reports (plan : Plan) (v : VariantDemand) : Prop :=
  v.model ∈ plan.blocked ∨ v.model ∈ plan.missed

instance (plan : Plan) (v : VariantDemand) : Decidable (plan.Reports v) :=
  inferInstanceAs (Decidable (_ ∨ _))

/-- The lends of a variant that have reached the hold timeout are all in excess. -/
def ExpiredInExcess (input : Input) (cfg : Config) (v : VariantDemand) : Prop :=
  ((lent input.memberships v.model.variant).countP (expired input cfg) : Int) ≤
    max 0 (excess input v)

instance (input : Input) (cfg : Config) (v : VariantDemand) :
    Decidable (ExpiredInExcess input cfg v) := inferInstanceAs (Decidable (_ ≤ _))

section Coverage

variable {input : Input} (o : Orders input) (cfg : Config) {v : VariantDemand}

/-- What a round adds is for its variant, which is short. -/
structure Adds (input : Input) (vs : List VariantDemand) (s : Borrowing) : Prop where
  borrow : ∀ a ∈ s.borrow, ∃ w ∈ vs, a.model = w.model ∧ 0 < shortfall input w
  reported : ∀ m, m ∈ s.blocked ∨ m ∈ s.missed → ∃ w ∈ vs, m = w.model ∧ 0 < shortfall input w
  /-- Every short variant gets what it is short of or is reported. -/
  served : ∀ w ∈ vs, 0 < shortfall input w → (w.model ∈ s.blocked ∨ w.model ∈ s.missed) ∨
    shortfall input w ≤ s.borrow.countP fun a => a.model.variant = w.model.variant

theorem Adds.append {vs : List VariantDemand} {s : Borrowing} (h : Adds input vs s)
    {w : VariantDemand} (hshort : 0 < shortfall input w) (extra : List Action)
    (blocked missed : List ModelRef) (hextra : ∀ a ∈ extra, a.model = w.model)
    (hnew : ∀ m ∈ blocked ++ missed, m = w.model)
    (hw : blocked ++ missed ≠ [] ∨ shortfall input w ≤ extra.length) (free : List NamespacedName) :
    Adds input (vs ++ [w])
      ⟨free, s.borrow ++ extra, s.blocked ++ blocked, s.missed ++ missed⟩ := by
  have hweak {P : VariantDemand → Prop} (hex : ∃ x ∈ vs, P x) : ∃ x ∈ vs ++ [w], P x :=
    hex.imp fun x hx => ⟨mem_append_left _ hx.1, hx.2⟩
  have hlast : w ∈ vs ++ [w] := mem_append_right _ (mem_singleton_self w)
  constructor
  · intro a ha
    rcases mem_append.mp ha with ha | ha
    · exact hweak (h.borrow a ha)
    · exact ⟨w, hlast, hextra a ha, hshort⟩
  · intro m hm
    simp only [mem_append] at hm hnew
    by_cases hmem : m ∈ blocked ∨ m ∈ missed
    · exact ⟨w, hlast, hnew m hmem, hshort⟩
    · exact hweak (h.reported m (by tauto))
  · intro x hx hpos
    simp only [mem_append, countP_append, Nat.cast_add]
    rcases mem_append.mp hx with hx | hx
    · rcases h.served x hx hpos with hrep | hle
      · left
        tauto
      · right
        omega
    · obtain rfl := mem_singleton.mp hx
      rcases hw with hne | hle
      · left
        obtain ⟨m, hm⟩ := exists_mem_of_ne_nil _ hne
        obtain rfl := hnew m hm
        rcases mem_append.mp hm with hm | hm
        · exact .inl (.inr hm)
        · exact .inr (.inr hm)
      · right
        have hall : extra.countP (fun a => a.model.variant = x.model.variant) = extra.length :=
          countP_eq_length.mpr fun a ha => by simp [hextra a ha]
        omega

theorem Adds.borrowFor {vs : List VariantDemand} {s : Borrowing} (h : Adds input vs s)
    (w : VariantDemand) : Adds input (vs ++ [w]) (borrowFor o s w) := by
  have hmap : ∀ a ∈ (taken o s.free w).map (fun p => (⟨p, w.model⟩ : Action)),
      a.model = w.model := forall_mem_map.mpr fun _ _ => rfl
  unfold WarmPool.borrowFor
  split_ifs with hle _ _ hfew
  · -- a variant that is not short adds nothing
    constructor
    · intro a ha
      exact (h.borrow a ha).imp fun x hx => ⟨mem_append_left _ hx.1, hx.2⟩
    · intro m hm
      exact (h.reported m hm).imp fun x hx => ⟨mem_append_left _ hx.1, hx.2⟩
    · intro x hx hpos
      rcases mem_append.mp hx with hx | hx
      · exact h.served x hx hpos
      · obtain rfl := mem_singleton.mp hx
        omega
  · simpa using h.append (not_le.mp hle) [] [w.model] [] (by simp) (by simp) (by simp) s.free
  · simpa using h.append (not_le.mp hle) [] [] [w.model] (by simp) (by simp) (by simp) s.free
  · simpa using h.append (not_le.mp hle) _ [w.model] [] hmap (by simp) (by simp) _
  · simpa using h.append (not_le.mp hle) _ [] [] hmap (by simp) (.inr (by simpa using hfew)) _

theorem adds_borrows : Adds input input.variants (borrows o cfg) := by
  unfold borrows
  induction input.variants using reverseRecOn with
  | nil => exact ⟨by simp, by simp, by simp⟩
  | append_singleton vs w ih =>
    rw [foldl_concat]
    exact ih.borrowFor o w

theorem mem_dropped_of_not_orphan {returns orphans borrows : List Action} {r : Action}
    (hr : r ∈ returns) (ho : ∀ q ∈ orphans, q.key ≠ r.key) :
    r ∈ dropOrphanReturnsSupersededByBorrows returns orphans borrows := by
  unfold dropOrphanReturnsSupersededByBorrows
  split_ifs
  · exact hr
  · refine mem_filter.mpr ⟨hr, ?_⟩
    simpa using .inl ho

/-- Whether the lend at a place, oldest first, goes back. -/
def goesBack (input : Input) (cfg : Config) (v : VariantDemand) (x : Membership × ℕ) : Bool :=
  ((x.2 : Int) < excess input v && !tooYoung input cfg v.model.variant x.1) || expired input cfg x.1

/-- The lends of a variant, the oldest first, with their places. -/
def placed (v : VariantDemand) : List (Membership × ℕ) :=
  (o.oldest.sort (lent input.memberships v.model.variant)).zipIdx

theorem countP_placed (p : Membership → Bool) : (placed o v).countP (fun x => p x.1) =
    (lent input.memberships v.model.variant).countP p := by
  rw [← (o.oldest.perm _).countP_eq p, placed]
  conv_rhs => rw [← zipIdx_map_fst 0 (o.oldest.sort _), countP_map]
  rfl

theorem place_lt_expired {x : Membership × ℕ} (hx : x ∈ placed o v)
    (he : expired input cfg x.1 = true) :
    x.2 < (lent input.memberships v.model.variant).countP (expired input cfg) := by
  rw [← (o.oldest.perm _).countP_eq]
  have hsorted := o.oldest.sorted (lent input.memberships v.model.variant)
  obtain ⟨hlt, hget⟩ := List.getElem?_eq_some_iff.mp (mem_zipIdx_iff_getElem?.mp hx)
  generalize o.oldest.sort (lent input.memberships v.model.variant) = l at hsorted hlt hget
  have hall : (l.take (x.2 + 1)).countP (expired input cfg) = (l.take (x.2 + 1)).length := by
    rw [countP_eq_length]
    intro m hm
    obtain ⟨i, hi, rfl⟩ := mem_iff_getElem.mp hm
    rw [length_take] at hi
    rw [getElem_take]
    have hle : borrowedAt input l[i] ≤ borrowedAt input x.1 := by
      rcases Nat.lt_or_ge i x.2 with hlt' | hge
      · have := pairwise_iff_getElem.mp hsorted i x.2 (by omega) hlt hlt'
        rw [hget] at this
        simpa using this
      · have hi' : i = x.2 := by omega
        subst hi'
        rw [hget]
    simp only [expired, Bool.and_eq_true, Bool.not_eq_true', decide_eq_true_eq] at he ⊢
    exact ⟨he.1, he.2.trans (by omega)⟩
  have hsub := (take_sublist (x.2 + 1) l).countP_le (p := expired input cfg)
  rw [hall, length_take] at hsub
  omega

theorem countP_places_le {l : List Membership} (n : ℕ) :
    l.zipIdx.countP (fun x => x.2 < n) ≤ n := by
  have hmap : l.zipIdx.countP (fun x => x.2 < n) =
      (l.zipIdx.map Prod.snd).countP fun i => i < n := by
    rw [countP_map]
    rfl
  rw [hmap, zipIdx_map_snd, countP_eq_length_filter]
  have hsub := (nodup_range' (s := 0) (n := l.length)).filter fun i => decide (i < n)
  have hrange : (List.range' 0 l.length).filter (fun i => decide (i < n)) ⊆ List.range n := by
    intro i hi
    simpa using (mem_filter.mp hi).2
  have hle := (hsub.subperm hrange).length_le
  rwa [length_range] at hle

theorem countP_goesBack_le (h : ExpiredInExcess input cfg v) :
    ((placed o v).countP (goesBack input cfg v) : Int) ≤ max 0 (excess input v) := by
  have hle : (placed o v).countP (goesBack input cfg v) ≤
      (placed o v).countP fun x => x.2 < (max 0 (excess input v)).toNat := by
    refine countP_mono_left fun x hx hback => ?_
    unfold ExpiredInExcess at h
    simp only [goesBack, Bool.or_eq_true, Bool.and_eq_true, decide_eq_true_eq] at hback ⊢
    rcases hback with hback | hback
    · omega
    · have := place_lt_expired o cfg hx hback
      omega
  have := hle.trans (countP_places_le _)
  omega

theorem le_countP_goesBack : (lent input.memberships v.model.variant).countP (expired input cfg) ≤
    (placed o v).countP (goesBack input cfg v) := by
  rw [← countP_placed o]
  exact countP_mono_left fun x _ he => by simp [goesBack, he]

section Returned

variable (hkeys : (input.memberships.map Membership.key).Nodup)
  (hvariants : (input.variants.map fun w => w.model.variant).Nodup) (hawake : input.wantAwake = "")
  (shapeOf : String → Shape)
include hkeys

theorem eq_of_key {m m' : Membership} (hm : m ∈ input.memberships) (hm' : m' ∈ input.memberships)
    (h : m.key = m'.key) : m = m' :=
  inj_on_of_nodup_map hkeys hm hm' h

theorem mem_returnsFor {x : Membership × ℕ} (hx : x ∈ placed o v) :
    ⟨x.1.pod, x.1.model⟩ ∈ returnsFor o cfg v ↔ goesBack input cfg v x = true := by
  have hlent {y : Membership × ℕ} (hy : y ∈ placed o v) : y.1 ∈ input.memberships := by
    have := fst_mem_of_mem_zipIdx hy
    rw [Sorting.mem_sort] at this
    exact (mem_lent.mp this).1
  constructor
  · intro h
    obtain ⟨y, hy, heq⟩ := mem_map.mp h
    obtain ⟨hy, hback⟩ := mem_filter.mp hy
    have hfst : y.1 = x.1 := eq_of_key hkeys (hlent hy) (hlent hx) (by
      have hkey := congrArg Action.key heq
      exact hkey)
    have hnodup : (o.oldest.sort (lent input.memberships v.model.variant)).Nodup :=
      (o.oldest.perm _).nodup_iff.mpr ((hkeys.of_map _).filter _)
    obtain ⟨hi, hgeti⟩ := List.getElem?_eq_some_iff.mp (mem_zipIdx_iff_getElem?.mp hx)
    obtain ⟨hj, hgetj⟩ := List.getElem?_eq_some_iff.mp (mem_zipIdx_iff_getElem?.mp hy)
    have hsnd : y.2 = x.2 := hnodup.getElem_inj_iff.mp (by rw [hgeti, hgetj, hfst])
    rwa [show y = x from Prod.ext hfst hsnd] at hback
  · intro h
    exact mem_map.mpr ⟨x, mem_filter.mpr ⟨hx, h⟩, rfl⟩

include hvariants hawake

theorem returned_iff (hv : v ∈ input.variants) {m : Membership}
    (hm : m ∈ lent input.memberships v.model.variant) :
    m.key ∈ (decidePlan shapeOf o cfg).returns.map Action.key ↔
      ⟨m.pod, m.model⟩ ∈ returnsFor o cfg v := by
  obtain ⟨hmem, hserving, hvar⟩ := mem_lent.mp hm
  constructor
  · intro h
    obtain ⟨r, hr, hkey⟩ := mem_map.mp h
    rcases mem_append.mp (mem_of_mem_dropped hr) with hr | hr
    · rcases mem_append.mp hr with hr | hr
      · obtain ⟨r', hr', rfl⟩ := mem_map.mp hr
        obtain ⟨w, hw, hr'⟩ := mem_flatMap.mp hr'
        obtain ⟨m', hm', rfl⟩ := returnsFor_from o cfg hr'
        obtain ⟨hmem', _, hvar'⟩ := mem_lent.mp hm'
        rw [key_withKnownModel] at hkey
        obtain rfl : m' = m := eq_of_key hkeys hmem' hmem hkey
        obtain rfl : w = v := inj_on_of_nodup_map hvariants hw hv (hvar'.symm.trans hvar)
        exact hr'
      · obtain ⟨m', hmem', hwaking, hkey'⟩ := knownOrphans_from hr
        obtain rfl : m' = m := eq_of_key hkeys hmem' hmem (hkey'.symm.trans hkey)
        rw [hserving] at hwaking
        cases hwaking
    · rw [intentReturns, if_pos hawake] at hr
      cases hr
  · intro h
    refine mem_map.mpr ⟨withKnownModel input.variants ⟨m.pod, m.model⟩, ?_,
      key_withKnownModel _ _⟩
    apply mem_dropped_of_not_orphan
    · exact mem_append_left _ (mem_append_left _
        (mem_map_of_mem (mem_flatMap.mpr ⟨v, hv, h⟩)))
    · intro r hr hkey
      obtain ⟨m', hmem', hwaking, hkey'⟩ := knownOrphans_from hr
      rw [key_withKnownModel, hkey'] at hkey
      obtain rfl : m' = m := eq_of_key hkeys hmem' hmem hkey
      rw [hserving] at hwaking
      cases hwaking

theorem length_kept (hv : v ∈ input.variants) :
    ((decidePlan shapeOf o cfg).kept input.memberships v.model.variant).length +
      (placed o v).countP (goesBack input cfg v) =
        (lent input.memberships v.model.variant).length := by
  have hcongr : (placed o v).countP (goesBack input cfg v) = (placed o v).countP fun x =>
      ((decidePlan shapeOf o cfg).returns.map Action.key).contains x.1.key := by
    refine countP_congr fun x hx => ?_
    have hlent := fst_mem_of_mem_zipIdx hx
    rw [Sorting.mem_sort] at hlent
    rw [← mem_returnsFor o cfg hkeys hx,
      ← returned_iff o cfg hkeys hvariants hawake shapeOf hv hlent, contains_iff_mem]
  rw [hcongr, countP_placed o fun m =>
    ((decidePlan shapeOf o cfg).returns.map Action.key).contains m.key, Plan.kept,
    ← countP_eq_length_filter, add_comm]
  simpa [Bool.not_eq_true, Bool.decide_eq_false] using (length_eq_countP_add_countP _).symm

/-- A variant is covered or reported while its expired lends are all in excess; one that is not
short beyond its lends is only then. -/
theorem covers_or_reports (hv : v ∈ input.variants) :
    (ExpiredInExcess input cfg v → (decidePlan shapeOf o cfg).Covers input.memberships v ∨
      (decidePlan shapeOf o cfg).Reports v) ∧
    (shortfall input v ≤ 0 → (decidePlan shapeOf o cfg).Covers input.memberships v ∨
      (decidePlan shapeOf o cfg).Reports v → ExpiredInExcess input cfg v) := by
  have hkept := length_kept o cfg hkeys hvariants hawake shapeOf hv
  have hadds := adds_borrows o cfg
  constructor
  · intro hexp
    have hback := countP_goesBack_le o cfg hexp
    have hserved := hadds.served v hv
    unfold Plan.Covers
    unfold shortfall at hserved
    unfold excess at hback
    by_cases hshort :
        0 < v.desired - v.ready - (lent input.memberships v.model.variant).length
    · rcases hserved hshort with hrep | hle
      · exact .inr hrep
      · left
        have hborrowed : v.desired - v.ready - (lent input.memberships v.model.variant).length ≤
            (decidePlan shapeOf o cfg).borrowed v.model.variant := hle
        omega
    · left
      omega
  · intro hle h
    have hother {w : VariantDemand} (hw : w ∈ input.variants)
        (hvar : w.model.variant = v.model.variant) : ¬ 0 < shortfall input w := by
      obtain rfl : w = v := inj_on_of_nodup_map hvariants hw hv hvar
      exact not_lt.mpr hle
    have hnone : (decidePlan shapeOf o cfg).borrowed v.model.variant = 0 := by
      rw [Plan.borrowed, countP_eq_zero]
      intro a ha hvar
      obtain ⟨w, hw, heq, hshort⟩ := hadds.borrow a ha
      exact hother hw (by simpa [heq] using hvar) hshort
    rcases h with hcovers | hreports
    · have hexp := le_countP_goesBack o cfg (v := v)
      have hlen := countP_le_length (p := expired input cfg)
        (l := lent input.memberships v.model.variant)
      unfold Plan.Covers at hcovers
      unfold ExpiredInExcess excess
      omega
    · obtain ⟨w, hw, heq, hshort⟩ := hadds.reported v.model hreports
      exact absurd hshort (hother hw (by rw [heq]))

end Returned

end Coverage

/-- The one Pod of the pool, lent to a variant of which no ordinary replica came up. -/
private def bridge : Membership :=
  ⟨⟨"ns", "a", "", "", []⟩, ⟨"ns", "pod"⟩, .serving, 0, .zero⟩

/-- The bridge is at its hold timeout and its variant still short of one replica. -/
private def timedOut : Input where
  memberships := [bridge]
  variants := [⟨bridge.model, 1, 0, false, 0, none⟩]
  borrowedAt := ∅
  admitting := []
  wantAwake := ""
  missesAt := ∅
  now := 0

private def shortHold : Config := ⟨0, 0, 0, false, 0, 0, 0, 0, 0⟩

/-- The bridge goes back, no other Pod is borrowed and nobody is told. -/
theorem timedOut_uncovered :
    (timedOut.memberships.map Membership.key).Nodup ∧
    (timedOut.variants.map fun w => w.model.variant).Nodup ∧ timedOut.wantAwake = "" ∧
    ∃ v ∈ timedOut.variants,
      ¬ (decidePlan (fun _ => ⟨0, 0, 0⟩) (.stable timedOut) shortHold).Covers
        timedOut.memberships v ∧
      ¬ (decidePlan (fun _ => ⟨0, 0, 0⟩) (.stable timedOut) shortHold).Reports v := by
  decide

/-- A retained pool has no hold timeout. -/
theorem covers_retained : ExpiredInExcess timedOut { shortHold with retained := true }
      ⟨bridge.model, 1, 0, false, 0, none⟩ ∧
    ((decidePlan (fun _ => ⟨0, 0, 0⟩) (.stable timedOut) { shortHold with retained := true }).Covers
        timedOut.memberships ⟨bridge.model, 1, 0, false, 0, none⟩ ∨
      (decidePlan (fun _ => ⟨0, 0, 0⟩) (.stable timedOut)
        { shortHold with retained := true }).Reports ⟨bridge.model, 1, 0, false, 0, none⟩) := by
  have h : ExpiredInExcess timedOut { shortHold with retained := true }
      ⟨bridge.model, 1, 0, false, 0, none⟩ := by decide
  exact ⟨h, (covers_or_reports (.stable timedOut) _ (by decide) (by decide) rfl _ (by decide)).1 h⟩

end LlmScaler.WarmPool
