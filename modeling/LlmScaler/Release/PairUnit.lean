import LlmScaler.Core.Lists
import LlmScaler.Release.Units

/-!
# The unit a variant of a pair releases

Replicas of one variant go with those of the other roles that keep the pair's ratio, fewer of both
until the GPUs fit a cap; at one replica the partners are cut to the cap, or go in its place when it
is the last of its role, or the whole pair goes.
-/

namespace LlmScaler.Release

open LlmScaler.Core List

structure RoleState extends VariantReplicaState where
  role : String
  deriving DecidableEq, Inhabited

/-- The replicas a variant has above `minReplicas`. -/
def RoleState.spare (st : RoleState) : ℕ := st.currentReplicas - minOf st.toVariantReplicaState

/-- What a release of a model reads. -/
structure PairInput where
  ns : String
  disaggregated : Bool
  variantStates : List RoleState
  states : States
  /-- The roles in the order their totals are ranged over. -/
  order : List String
  /-- The most GPUs the unit should have, negative for no cap. -/
  capGPUs : Int
  nodup_names : (variantStates.map (·.variantName)).Nodup
  order_perm : order.Perm (variantStates.map (·.role)).dedup

/-- The replicas a unit takes of each variant, and their GPUs. -/
structure PairUnit where
  unit : List (RoleState × ℕ)
  gpus : ℕ

namespace PairInput

variable (x : PairInput)

def gprOf (st : RoleState) : ℕ :=
  max (x.states.get (variantKey x.ns st.variantName)).gpusPerReplica 1

def total (r : String) : ℕ := ((x.variantStates.filter (·.role = r)).map (·.currentReplicas)).sum

/-- The variants of a role, the most above `minReplicas` first. -/
def byRole (r : String) : List RoleState :=
  (Sorting.byKey fun st : RoleState => toLex (OrderDual.toDual
    ((st.currentReplicas : Int) - minOf st.toVariantReplicaState), st.variantName)).sort
      (x.variantStates.filter (·.role = r))

def add (u : PairUnit) (st : RoleState) (n : ℕ) : PairUnit :=
  if n = 0 then u else ⟨u.unit ++ [(st, n)], u.gpus + n * x.gprOf st⟩

/-- The replicas of a role's variants added, `amount` of each by what is left to take and the GPUs
so far; what is left. -/
def takeFrom (amount : RoleState → ℕ → ℕ → ℕ) : List RoleState → PairUnit → ℕ → PairUnit × ℕ
  | [], u, n => (u, n)
  | st :: sts, u, n =>
    takeFrom amount sts (x.add u st (amount st n u.gpus)) (n - amount st n u.gpus)

/-- `n` replicas of each role taken; whether every role had as many to spare. -/
def overRoles (amount : RoleState → ℕ → ℕ → ℕ) (n : String → ℕ) :
    List String → PairUnit → PairUnit × Bool
  | [], u => (u, true)
  | r :: rs, u =>
    let y := x.takeFrom amount (x.byRole r) u (n r)
    let z := overRoles amount n rs y.1
    (z.1, decide (y.2 = 0) && z.2)

/-- Replicas taken one at a time while `more` allows it for the GPUs so far. -/
def takeEach (more : ℕ → Bool) (g : ℕ) : ℕ → ℕ → ℕ
  | 0, _ => 0
  | n + 1, gpus => if more gpus then takeEach more g n (gpus + g) + 1 else 0

/-- One replica at a time of what a variant has to spare, while they fit the cap. -/
def eachOf (more : ℕ → Bool) (st : RoleState) (left gpus : ℕ) : ℕ :=
  takeEach (fun gpus => more gpus && decide (((gpus + x.gprOf st : ℕ) : Int) ≤ x.capGPUs))
    (x.gprOf st) (min left st.spare) gpus

/-- Replicas of a variant, and of the other roles those that keep the ratio. -/
def ratioUnit (st : RoleState) (k : ℕ) : PairUnit × Bool :=
  x.overRoles (fun st left _ => min left st.spare) (fun r => k * x.total r / x.total st.role)
    (x.order.filter (· ≠ st.role)) (x.add ⟨[], 0⟩ st k)

/-- `trimmedUnit`: one replica and the partners that fit the cap, at most at the ratio. -/
def trimmedUnit (st : RoleState) : PairUnit :=
  (x.overRoles (x.eachOf fun _ => true) (fun r => x.total r / x.total st.role)
    ((x.order.insertionSort (· ≤ ·)).filter (· ≠ st.role)) (x.add ⟨[], 0⟩ st 1)).1

/-- `partnerUnit`: partners in place of the last replica of a role, each role keeping one. -/
def partnerUnit (st : RoleState) : Option PairUnit :=
  let u := (x.overRoles (x.eachOf (· < x.gprOf st)) (fun r => x.total r - 1)
    ((x.order.insertionSort (· ≤ ·)).filter (· ≠ st.role)) ⟨[], 0⟩).1
  if u.gpus < x.gprOf st then none else some u

/-- The largest unit of at most `k` replicas that fits. -/
def releaseAtMost (st : RoleState) : ℕ → Option PairUnit
  | 0 => none
  | k + 1 =>
    let y := x.ratioUnit st (k + 1)
    if y.2 ∧ (x.capGPUs < 0 ∨ (y.1.gpus : Int) ≤ x.capGPUs) then some y.1
    else if y.2 ∧ k = 0 then
      if 1 < x.total st.role then some (x.trimmedUnit st) else (x.partnerUnit st).or (some y.1)
    else releaseAtMost st k

/-- The state of a variant, with no role if it has none. -/
def stateOf (variant : String) : RoleState :=
  (x.variantStates.filter (·.variantName = variant)).getLast?.getD
    { (default : RoleState) with variantName := variant }

/-- `releaseUnit`: the unit that releases `k` replicas of a variant, `none` for a nil one. -/
def releaseUnit (variant : String) (k : ℕ) : Option PairUnit :=
  if k = 0 then none
  else if !x.disaggregated then some (x.add ⟨[], 0⟩ (x.stateOf variant) k)
  else if x.total (x.stateOf variant).role = 0 then none
  else x.releaseAtMost (x.stateOf variant) k

def taken (u : List (RoleState × ℕ)) (r : String) : ℕ :=
  ((u.filter (·.1.role = r)).map Prod.snd).sum

/-- A unit of a variant: its partners keep their `minReplicas`, and its GPUs are its replicas'. -/
structure UnitOf (st : RoleState) (u : PairUnit) : Prop where
  entries : ∀ e ∈ u.unit, e.1 ∈ x.variantStates ∧
    (e.1 ≠ st → e.2 ≤ e.1.currentReplicas - minOf e.1.toVariantReplicaState)
  gpus : u.gpus = (u.unit.map fun e => e.2 * x.gprOf e.1).sum

structure KeepsPair (st : RoleState) (u : PairUnit) : Prop extends x.UnitOf st u where
  /-- No role is left at zero while another keeps replicas. -/
  roles : ∀ r r', 0 < x.total r → 0 < x.total r' →
    x.total r - taken u.unit r = 0 → x.total r' - taken u.unit r' = 0
  nodup : (u.unit.map (·.1)).Nodup
  /-- Only one replica alone or the whole of every role is past the cap. -/
  within : 0 ≤ x.capGPUs → x.capGPUs < u.gpus →
    u.unit = [(st, 1)] ∨ ∀ r, taken u.unit r = x.total r

variable {x} {u : PairUnit} {st : RoleState} {amount : RoleState → ℕ → ℕ → ℕ} {n : String → ℕ}
  {rs : List String}

theorem mem_byRole {r : String} : st ∈ x.byRole r ↔ st ∈ x.variantStates ∧ st.role = r := by
  simp [byRole]

theorem taken_add (u : PairUnit) (st : RoleState) (n : ℕ) (r : String) :
    taken (x.add u st n).unit r = taken u.unit r + if st.role = r then n else 0 := by
  rw [add]
  split_ifs <;> simp [taken, *]

theorem mem_add {e : RoleState × ℕ} {n : ℕ} (h : e ∈ (x.add u st n).unit) :
    e ∈ u.unit ∨ e = (st, n) := by
  rw [add] at h
  split_ifs at h
  · exact .inl h
  · simpa using h

theorem UnitOf.add (h : x.UnitOf st u) {p : RoleState} (hp : p ∈ x.variantStates) {n : ℕ}
    (hn : p ≠ st → n ≤ p.spare) : x.UnitOf st (x.add u p n) where
  entries e he := by
    rcases mem_add he with he | rfl
    · exact h.entries e he
    · exact ⟨hp, hn⟩
  gpus := by
    rw [PairInput.add]
    split_ifs
    · exact h.gpus
    · simp [h.gpus]

theorem overRoles_induction {P : PairUnit → Prop} (hstep : ∀ u, ∀ st ∈ x.variantStates, ∀ left,
      P u → P (x.add u st (amount st left u.gpus))) (rs : List String) (h : P u) :
    P (x.overRoles amount n rs u).1 := by
  have hfrom {sts : List RoleState} (hsts : ∀ st ∈ sts, st ∈ x.variantStates) {u : PairUnit}
      (n : ℕ) (h : P u) : P (x.takeFrom amount sts u n).1 := by
    induction sts generalizing u n with
    | nil => exact h
    | cons st sts ih =>
      obtain ⟨hst, hsts⟩ := forall_mem_cons.mp hsts
      exact ih hsts _ (hstep _ _ hst _ h)
  induction rs generalizing u with
  | nil => exact h
  | cons r rs ih => exact ih (hfrom (fun st hst => (mem_byRole.mp hst).1) _ h)

theorem overRoles_sublist (rs : List String) (u : PairUnit) :
    ((x.overRoles amount n rs u).1.unit.map Prod.fst).Sublist
      (u.unit.map Prod.fst ++ rs.flatMap x.byRole) := by
  have hfrom (sts : List RoleState) (u : PairUnit) (n : ℕ) :
      ((x.takeFrom amount sts u n).1.unit.map Prod.fst).Sublist (u.unit.map Prod.fst ++ sts) := by
    induction sts generalizing u n with
    | nil => simp [takeFrom]
    | cons st sts ih =>
      refine (ih _ _).trans ?_
      rw [← singleton_append, ← append_assoc, add]
      refine Sublist.append_right ?_ _
      split_ifs <;> simp
  induction rs generalizing u with
  | nil => simp [overRoles]
  | cons r rs ih =>
    rw [flatMap_cons, ← append_assoc]
    exact (ih _).trans ((hfrom ..).append_right _)

/-- No variant is taken from twice. -/
theorem overRoles_nodup (hrs : rs.Nodup) (hst : st.role ∉ rs) (k : ℕ) :
    ((x.overRoles amount n rs (x.add ⟨[], 0⟩ st k)).1.unit.map Prod.fst).Nodup := by
  refine (overRoles_sublist rs _).nodup (nodup_append'.mpr ⟨?_, nodup_flatMap.mpr ⟨?_, ?_⟩, ?_⟩)
  · rw [add]
    split_ifs <;> simp
  · exact fun r _ => (Sorting.perm ..).nodup_iff.mpr (x.nodup_names.of_map.filter _)
  · refine hrs.imp fun hne p hp hp' => hne ?_
    rw [← (mem_byRole.mp hp).2, (mem_byRole.mp hp').2]
  · intro p hp hp'
    obtain ⟨r, hr, hp'⟩ := mem_flatMap.mp hp'
    obtain ⟨e, he, rfl⟩ := mem_map.mp hp
    refine hst ?_
    rwa [← (mem_byRole.mp hp').2, (mem_add he).resolve_left not_mem_nil] at hr

section Taken

variable (hamount : ∀ st n g, amount st n g ≤ min n st.spare)
include hamount

theorem takeFrom_taken {sts : List RoleState} {q : String} (hsts : ∀ st ∈ sts, st.role = q)
    (u : PairUnit) (n : ℕ) (r : String) :
    taken (x.takeFrom amount sts u n).1.unit r +
      (if q = r then (x.takeFrom amount sts u n).2 else 0) =
        taken u.unit r + if q = r then n else 0 := by
  induction sts generalizing u n with
  | nil => rfl
  | cons st sts ih =>
    obtain ⟨hst, hsts⟩ := forall_mem_cons.mp hsts
    have htake := hamount st n u.gpus
    rw [takeFrom, ih hsts, taken_add, hst]
    split_ifs <;> omega

theorem overRoles_taken (hrs : rs.Nodup) (u : PairUnit) (r : String) :
    let z := x.overRoles amount n rs u
    taken z.1.unit r ≤ taken u.unit r + (if r ∈ rs then n r else 0) ∧
      (z.2 = true → taken z.1.unit r = taken u.unit r + if r ∈ rs then n r else 0) := by
  induction rs generalizing u with
  | nil => simp [overRoles]
  | cons q rs ih =>
    obtain ⟨hq, hrs⟩ := nodup_cons.mp hrs
    have hfirst := takeFrom_taken (x := x) hamount
      (fun st (hst : st ∈ x.byRole q) => (mem_byRole.mp hst).2) u (n q) r
    have hrest := ih hrs (x.takeFrom amount (x.byRole q) u (n q)).1
    rw [overRoles]
    simp only [Bool.and_eq_true, decide_eq_true_eq, mem_cons]
    by_cases hr : r = q
    · subst hr
      simp only [hq, if_true, if_false, or_false] at hfirst hrest ⊢
      exact ⟨by omega, fun h => by have := hrest.2 h.2; omega⟩
    · simp only [hr, Ne.symm hr, if_false, false_or, add_zero] at hfirst ⊢
      rw [← hfirst]
      exact ⟨hrest.1, fun h => hrest.2 h.2⟩

/-- `k` replicas and what the other roles add to them: no role is left without its partners while
each gives less than it has, or all give all. -/
theorem keepsPair_of (hst : st ∈ x.variantStates) {k : ℕ}
    (hrs : rs.Perm (x.order.filter (· ≠ st.role)))
    (hu : (x.overRoles amount n rs (x.add ⟨[], 0⟩ st k)).1 = u)
    (hn : (k < x.total st.role ∧ ∀ r, 0 < x.total r → n r < x.total r) ∨
      k = x.total st.role ∧ (∀ r, n r = x.total r) ∧
        (x.overRoles amount n rs (x.add ⟨[], 0⟩ st k)).2 = true)
    (hcap : 0 ≤ x.capGPUs → x.capGPUs < u.gpus → u.unit = [(st, 1)] ∨ k = x.total st.role) :
    x.KeepsPair st u := by
  have hmem (r : String) : r ∈ rs ↔ (∃ p ∈ x.variantStates, p.role = r) ∧ r ≠ st.role := by
    simp [hrs.mem_iff, x.order_perm.mem_iff]
  have hself : st.role ∉ rs := fun h => ((hmem _).mp h).2 rfl
  have hnodup : rs.Nodup :=
    hrs.nodup_iff.mpr ((x.order_perm.nodup_iff.mpr (nodup_dedup _)).filter _)
  have htaken := overRoles_taken (x := x) (n := n) hamount hnodup (x.add ⟨[], 0⟩ st k)
  simp only [hu, taken_add, show taken [] = fun _ => 0 from rfl, zero_add] at htaken
  have hall (hwhole : k = x.total st.role) (r : String) : taken u.unit r = x.total r := by
    obtain ⟨hlt, -⟩ | ⟨-, heq, hfits⟩ := hn
    · omega
    rw [(htaken r).2 hfits, heq]
    by_cases hr : st.role = r
    · subst hr
      rw [if_pos rfl, if_neg hself, add_zero, hwhole]
    · rw [if_neg hr, zero_add]
      split_ifs with hin
      · rfl
      · rw [total, filter_eq_nil_iff.mpr fun p hp => ?_]
        · rfl
        · simpa using fun h => hin ((hmem r).mpr ⟨⟨p, hp, h⟩, Ne.symm hr⟩)
  refine ⟨?_, fun r r' hr _ hzero => ?_, ?_, fun h h' => (hcap h h').imp_right hall⟩
  · rw [← hu]
    exact overRoles_induction (P := x.UnitOf st)
      (fun u p hp left h => h.add hp fun _ => (hamount ..).trans (min_le_right _ _)) rs
      (UnitOf.add ⟨by simp, rfl⟩ hst fun hne => absurd rfl hne)
  · obtain ⟨hlt, hless⟩ | ⟨hwhole, -⟩ := hn
    · have hle := (htaken r).1
      have := hless r hr
      by_cases hrole : st.role = r
      · subst hrole
        rw [if_pos rfl, if_neg hself] at hle
        omega
      · rw [if_neg hrole] at hle
        split_ifs at hle <;> omega
    · rw [hall hwhole, Nat.sub_self]
  · rw [← hu]
    exact overRoles_nodup hnodup hself k

end Taken

theorem takeEach_spec (more : ℕ → Bool) (g n gpus : ℕ) :
    takeEach more g n gpus ≤ n ∧
      ∀ m < takeEach more g n gpus, more (gpus + m * g) = true := by
  induction n generalizing gpus with
  | zero => exact ⟨le_rfl, nofun⟩
  | succ n ih =>
    obtain ⟨hle, hmore⟩ := ih (gpus + g)
    rw [takeEach]
    split_ifs with hfirst
    · refine ⟨Nat.succ_le_succ hle, fun m hm => ?_⟩
      cases m with
      | zero => simpa using hfirst
      | succ m =>
        rw [show gpus + (m + 1) * g = gpus + g + m * g by ring]
        exact hmore m (Nat.lt_of_succ_lt_succ hm)
    · exact ⟨Nat.zero_le _, nofun⟩

/-- Replicas added one at a time stay within the cap. -/
theorem overRoles_eachOf (more : ℕ → Bool) (rs : List String) (u : PairUnit) :
    (x.overRoles (x.eachOf more) n rs u).1 = u ∨
      ((x.overRoles (x.eachOf more) n rs u).1.gpus : Int) ≤ x.capGPUs := by
  refine overRoles_induction (P := fun u' => u' = u ∨ (u'.gpus : Int) ≤ x.capGPUs)
    (fun u' p _ left h => ?_) rs (.inl rfl)
  rw [add]
  split_ifs with hn
  · exact h
  · obtain ⟨m, hm⟩ := Nat.exists_eq_succ_of_ne_zero hn
    have hlast := (takeEach_spec ..).2 m (hm.symm ▸ m.lt_succ_self)
    rw [hm, Nat.succ_mul, ← add_assoc]
    exact .inr (of_decide_eq_true (Bool.and_eq_true_iff.mp hlast).2)

section Variant

variable (hst : st ∈ x.variantStates)
include hst

theorem le_total : st.currentReplicas ≤ x.total st.role :=
  single_le_sum (by simp) _ (mem_map_of_mem (mem_filter.mpr ⟨hst, by simp⟩))

theorem keepsPair_ratioUnit {k : ℕ} (hpos : 0 < k) (hk : k ≤ st.currentReplicas)
    (hfits : (x.ratioUnit st k).2 = true)
    (hcap : 0 ≤ x.capGPUs → x.capGPUs < (x.ratioUnit st k).1.gpus → k = x.total st.role) :
    x.KeepsPair st (x.ratioUnit st k).1 := by
  refine keepsPair_of (fun _ _ _ => le_rfl) hst (.refl _) rfl ?_ fun h h' => .inr (hcap h h')
  rcases (hk.trans (le_total hst)).lt_or_eq with hlt | heq
  · exact .inl ⟨hlt, fun r hr => Nat.div_lt_of_lt_mul (Nat.mul_lt_mul_of_pos_right hlt hr)⟩
  · refine .inr ⟨heq, fun r => ?_, hfits⟩
    rw [← heq, Nat.mul_div_cancel_left _ hpos]

theorem keepsPair_trimmedUnit (htotal : 1 < x.total st.role) :
    x.KeepsPair st (x.trimmedUnit st) := by
  refine keepsPair_of (k := 1) (fun _ _ _ => (takeEach_spec ..).1) hst
    ((perm_insertionSort _ _).filter _) rfl
    (.inl ⟨htotal, fun r hr => Nat.div_lt_self hr htotal⟩) fun _ hover => .inl ?_
  rw [trimmedUnit, (overRoles_eachOf ..).resolve_right (not_le.mpr hover)]
  rfl

theorem keepsPair_partnerUnit (hpos : 0 < x.total st.role) (h : x.partnerUnit st = some u) :
    x.KeepsPair st u := by
  rw [partnerUnit] at h
  split_ifs at h
  have hu := Option.some.inj h
  refine keepsPair_of (k := 0) (fun _ _ _ => (takeEach_spec ..).1) hst
    ((perm_insertionSort _ _).filter _) hu
    (.inl ⟨hpos, fun r hr => Nat.sub_lt hr Nat.one_pos⟩) fun hcap hover =>
      absurd hover (not_lt.mpr ?_)
  rw [← hu]
  rcases overRoles_eachOf (x := x) (· < x.gprOf st) _ ⟨[], 0⟩ with heq | hle
  · rw [heq]
    exact hcap
  · exact hle

theorem stateOf_eq : x.stateOf st.variantName = st := by
  have hall : ∀ p ∈ x.variantStates.filter (·.variantName = st.variantName), p = st := by
    intro p hp
    obtain ⟨hp, hname⟩ := mem_filter.mp hp
    exact inj_on_of_nodup_map x.nodup_names hp hst (of_decide_eq_true hname)
  have hne : x.variantStates.filter (·.variantName = st.variantName) ≠ [] :=
    ne_nil_of_mem (mem_filter.mpr ⟨hst, by simp⟩)
  rw [stateOf, getLast?_eq_some_getLast hne, Option.getD_some]
  exact hall _ (getLast_mem hne)

end Variant

/-- The unit a variant of a disaggregated model releases keeps the pair: it leaves no role without
its partners, takes no partner below `minReplicas`, reports the GPUs of its replicas, and is past
the cap only as one replica alone or the whole of every role. -/
theorem releaseUnit_keepsPair (x : PairInput) (hpair : x.disaggregated = true) {st : RoleState}
    (hst : st ∈ x.variantStates) {k : ℕ} (hk : k ≤ st.currentReplicas) {u : PairUnit}
    (h : x.releaseUnit st.variantName k = some u) : x.KeepsPair st u := by
  rw [releaseUnit, stateOf_eq hst, hpair] at h
  split_ifs at h with hzero hnot htotal
  · cases hnot
  clear hzero
  induction k with
  | zero => cases h
  | succ k ih =>
    rw [releaseAtMost] at h
    split_ifs at h with hfits hone hmany
    · rw [← Option.some.inj h]
      exact keepsPair_ratioUnit hst k.succ_pos hk hfits.1 fun hcap hover => by omega
    · rw [← Option.some.inj h]
      exact keepsPair_trimmedUnit hst hmany
    · obtain ⟨hfit, rfl⟩ := hone
      cases hpartner : x.partnerUnit st with
      | some v =>
        rw [hpartner] at h
        rw [← Option.some.inj h]
        exact keepsPair_partnerUnit hst (Nat.pos_of_ne_zero htotal) hpartner
      | none =>
        rw [hpartner] at h
        rw [← Option.some.inj h]
        exact keepsPair_ratioUnit hst Nat.one_pos hk hfit fun _ _ => by omega
    · exact ih (by omega) h

def roleState (name role : String) (replicas : ℕ) : RoleState :=
  { (default : RoleState) with variantName := name, role := role, currentReplicas := replicas }

/-- A prefill and two decodes of one GPU each, with one GPU to give back. -/
def onePrefillTwoDecodes : PairInput where
  ns := "x"
  disaggregated := true
  variantStates := [roleState "p" "prefill" 1, roleState "d" "decode" 2]
  states := ∅
  order := ["prefill", "decode"]
  capGPUs := 1
  nodup_names := by decide
  order_perm := by decide

/-- For the only prefill a decode goes. -/
theorem releaseUnit_keepsPair_partner :
    onePrefillTwoDecodes.releaseUnit "p" 1 = some ⟨[(roleState "d" "decode" 2, 1)], 1⟩ ∧
      onePrefillTwoDecodes.KeepsPair (roleState "p" "prefill" 1)
        ⟨[(roleState "d" "decode" 2, 1)], 1⟩ :=
  ⟨rfl, releaseUnit_keepsPair onePrefillTwoDecodes rfl mem_cons_self (k := 1) le_rfl rfl⟩

end PairInput

end LlmScaler.Release
