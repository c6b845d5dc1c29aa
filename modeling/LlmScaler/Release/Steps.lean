import LlmScaler.Release.Given
import LlmScaler.Release.Lender

/-!
# What giving a unit does

A pass over the waiting lenders gives units one after another and marks the decisions it lowered.
One such step lowers no variant below `minReplicas`, takes no more of a type than is left of it, and
leaves all roles of a model with replicas or none.
-/

namespace LlmScaler.Release

open Core Accelerator Borrow List GoMap

/-- The GPUs of the replicas a variant holds and is to keep. -/
def keptGPUs (states : States) (d : VariantDecision) : Int :=
  min (d.targetReplicas : Int) (heldOf (d.stateIn states)) * d.gpr

variable {d : VariantDecision} {states : States}

theorem heldBelow_mul_gpr {n : ℕ} (h : n ≤ d.targetReplicas) :
    heldBelow d (d.stateIn states) n * d.gpr =
      keptGPUs states d - keptGPUs states (d.lower n) := by
  have hstate : (d.lower n).stateIn states = d.stateIn states := rfl
  have hgpr : (d.lower n).gpr = d.gpr := rfl
  have htarget : ((d.lower n).targetReplicas : Int) = (d.targetReplicas : Int) - n := by
    rw [VariantDecision.lower]
    simp only
    omega
  rw [keptGPUs, keptGPUs, hstate, hgpr, htarget, ← sub_mul, heldBelow]
  congr 1
  omega

variable {d' : VariantDecision} {decisions : List VariantDecision} {f : VariantDecision → Int}
  {i : ℕ} {left : GoMap String Int} {test : VariantDecision → Bool} {unit : GivenUnit}

section Give

variable {states : States} {req : ModelScalingRequest} {ns modelID : String}

theorem giveOne_eq {p : ℕ × ℕ} (h : decisions[p.1]? = some d) :
    giveOne states req (decisions, left) p = (decisions.set p.1 (d.lower p.2),
      charge req left d (heldBelow d (d.stateIn states) p.2 * d.gpr)) := by
  rw [giveOne]
  simp only [h]

theorem keys_charge (left : GoMap String Int) (d : VariantDecision) (g : Int) :
    (charge req left d g).keys = left.keys := by
  unfold charge
  split
  · exact keys_rewrite _ _ _
  · rfl

theorem IsUnit.of_cons {p : ℕ × ℕ} (h : IsUnit states decisions ns modelID (p :: unit))
    (d' : VariantDecision) : IsUnit states (decisions.set p.1 d') ns modelID unit := by
  obtain ⟨hnot, hnodup⟩ := nodup_cons.mp h.distinct
  refine ⟨hnodup, fun q hq => ?_⟩
  obtain ⟨d, hget, hd⟩ := h.spare q (mem_cons_of_mem _ hq)
  refine ⟨d, ?_, hd⟩
  rw [getElem?_set_ne]
  · exact hget
  · rintro heq
    exact hnot (mem_map.mpr ⟨q, hq, heq.symm⟩)

theorem IsUnit.perm {unit' : GivenUnit} (h : IsUnit states decisions ns modelID unit)
    (hperm : unit'.Perm unit) : IsUnit states decisions ns modelID unit' :=
  ⟨(hperm.map _).nodup_iff.mpr h.distinct, fun p hp => h.spare p (hperm.subset hp)⟩

theorem unitDrop_set (h : i ∉ unit.map Prod.fst) :
    unitDrop test f (decisions.set i d') unit = unitDrop test f decisions unit := by
  unfold unitDrop
  congr 1
  refine map_congr_left fun p hp => ?_
  rw [getElem?_set_ne]
  rintro heq
  exact h (mem_map.mpr ⟨p, hp, heq.symm⟩)

def chargedTo (req : ModelScalingRequest) (left : GoMap String Int) (t : String)
    (d : VariantDecision) : Bool :=
  decide (findKey left (accOf req d.variantName) = some t)

theorem get_charge (left : GoMap String Int) (d : VariantDecision) (g : Int) (t : String) :
    (charge req left d g).get t = left.get t - if chargedTo req left t d then g else 0 := by
  rw [charge, chargedTo]
  cases hkey : findKey left (accOf req d.variantName) with
  | none => simp
  | some k =>
    have hhas := has_iff_mem_keys.mpr (findKey_mem hkey)
    simp only
    rw [get_rewrite]
    by_cases ht : t = k
    · subst ht
      rw [if_pos ⟨rfl, hhas⟩, if_pos (by simp)]
    · rw [if_neg fun hk => ht hk.1, if_neg (by simpa using Ne.symm ht), sub_zero]

theorem foldl_giveOne (h : IsUnit states decisions ns modelID unit) :
    (∀ (test : VariantDecision → Bool) (f : VariantDecision → Int),
      (∀ d n, test (d.lower n) = test d) →
        sumIf test f (unit.foldl (giveOne states req) (decisions, left)).1 =
          sumIf test f decisions - unitDrop test f decisions unit) ∧
      (unit.foldl (giveOne states req) (decisions, left)).2.keys = left.keys ∧
      ∀ t, (unit.foldl (giveOne states req) (decisions, left)).2.get t =
        left.get t - unitDrop (chargedTo req left t) (keptGPUs states) decisions unit := by
  induction unit generalizing decisions left with
  | nil => simp
  | cons p unit ih =>
    obtain ⟨d, hget, _, _, hspare⟩ := h.spare p mem_cons_self
    obtain ⟨hnot, _⟩ := nodup_cons.mp h.distinct
    rw [foldl_cons, giveOne_eq hget]
    generalize hcharge : charge req left d (heldBelow d (d.stateIn states) p.2 * d.gpr) = left'
    have hsame : left'.keys = left.keys := hcharge ▸ keys_charge left d _
    obtain ⟨hsums, hkeys, hleft⟩ := @ih (decisions.set p.1 (d.lower p.2)) left' (h.of_cons _)
    refine ⟨fun test f htest => ?_, hkeys.trans hsame, fun t => ?_⟩
    · rw [hsums test f htest, unitDrop_set hnot, unitDrop_cons hget, sumIf_set hget, htest]
      split_ifs <;> omega
    · have hcharged : chargedTo req left' t = chargedTo req left t := by
        funext d'
        rw [chargedTo, chargedTo, findKey_of_keys hsame]
      rw [hleft, hcharged, unitDrop_set hnot, unitDrop_cons hget, ← hcharge, get_charge,
        heldBelow_mul_gpr (by omega)]
      omega

section

variable {unit : GivenUnit} {decisions : List VariantDecision} {left : GoMap String Int}

theorem sumIf_giveUnit (h : IsUnit states decisions ns modelID unit) (f : VariantDecision → Int)
    (htest : ∀ d n, test (d.lower n) = test d) :
    sumIf test f (giveUnit states req unit (decisions, left)).1 =
      sumIf test f decisions - unitDrop test f decisions unit := by
  have hperm := (Sorting.byKey Prod.fst).perm unit
  rw [giveUnit, (foldl_giveOne (h.perm hperm)).1 test f htest, unitDrop_perm hperm]

theorem keys_giveUnit (h : IsUnit states decisions ns modelID unit) :
    (giveUnit states req unit (decisions, left)).2.keys = left.keys :=
  (foldl_giveOne (h.perm ((Sorting.byKey Prod.fst).perm unit))).2.1

theorem get_giveUnit (h : IsUnit states decisions ns modelID unit) (t : String) :
    (giveUnit states req unit (decisions, left)).2.get t =
      left.get t - unitDrop (chargedTo req left t) (keptGPUs states) decisions unit := by
  have hperm := (Sorting.byKey Prod.fst).perm unit
  rw [giveUnit, (foldl_giveOne (h.perm hperm)).2.2 t, unitDrop_perm hperm]

end

end Give

variable {freed : Int} {largest : ℕ}

section Takes

variable {states : States} {req : ModelScalingRequest} {ch : ChunkRead} {ns modelID : String}
  {decisions : List VariantDecision} {left : GoMap String Int}

theorem foldlM_addTakes {takes takes' : Takes} (hunit : IsUnit states decisions ns modelID unit)
    (h : unit.foldlM (addTakes states req ch decisions left) takes = some takes') :
    takes'.freed = takes.freed + unitDrop (fun d => ch.serves (accOf req d.variantName))
        (keptGPUs states) decisions unit ∧
      (∀ t, takes'.per.get t = takes.per.get t +
        unitDrop (chargedTo req left t) (keptGPUs states) decisions unit) ∧
      (takes'.largest = takes.largest ∨
        ∃ p ∈ unit, ∃ d, decisions[p.1]? = some d ∧ takes'.largest = d.gpr) ∧
      takes.largest ≤ takes'.largest ∧
      ∀ p ∈ unit, ∀ d, decisions[p.1]? = some d → d.gpr ≤ takes'.largest := by
  induction unit generalizing takes with
  | nil =>
    obtain rfl : takes = takes' := Option.some.inj h
    simp
  | cons p unit ih =>
    rw [foldlM_cons, Option.bind_eq_bind, Option.bind_eq_some_iff] at h
    obtain ⟨next, hadd, hrest⟩ := h
    obtain ⟨d, hget, _, _, hspare⟩ := hunit.spare p mem_cons_self
    have htail : IsUnit states decisions ns modelID unit :=
      ⟨(nodup_cons.mp hunit.distinct).2,
        fun q hq => hunit.spare q (mem_cons_of_mem _ hq)⟩
    obtain ⟨hfreed, hper, hlargest, hgrows, hcovers⟩ := ih htail hrest
    simp only [addTakes, hget] at hadd
    cases hkey : findKey left (accOf req d.variantName) with
    | none => simp [hkey] at hadd
    | some k =>
      simp only [hkey, Option.some.injEq] at hadd
      rw [heldBelow_mul_gpr (by omega)] at hadd
      subst hadd
      refine ⟨?_, fun t => ?_, ?_, (le_max_left _ _).trans hgrows,
        forall_mem_cons.mpr ⟨fun d' hd' => ?_, hcovers⟩⟩
      · rw [hfreed, unitDrop_cons hget]
        simp only
        split_ifs <;> omega
      · rw [hper, unitDrop_cons hget, chargedTo, hkey]
        simp only [get_set]
        by_cases ht : t = k
        · subst ht
          rw [if_pos rfl, if_pos (by simp)]
          omega
        · rw [if_neg ht, if_neg (by simpa using Ne.symm ht)]
          omega
      · rcases hlargest with hsame | ⟨q, hq, d', hd', hgpr⟩
        · rcases max_choice takes.largest d.gpr with hmax | hmax
          · exact .inl (hsame.trans hmax)
          · exact .inr ⟨p, mem_cons_self, d, hget, hsame.trans hmax⟩
        · exact .inr ⟨q, mem_cons_of_mem _ hq, d', hd', hgpr⟩
      · obtain rfl := Option.some.inj (hget.symm.trans hd')
        exact (le_max_right _ _).trans hgrows

/-- What a unit that may be released takes: the GPUs on the chunk's flavor, no more of any type than
is left of it; and whose replica is its largest. -/
theorem unitTakes_spec (hunit : IsUnit states decisions ns modelID unit)
    (h : unitTakes states req ch unit decisions left = some (freed, largest)) :
    unit ≠ [] ∧
      freed = unitDrop (fun d => ch.serves (accOf req d.variantName)) (keptGPUs states) decisions
        unit ∧
      (∀ t, unitDrop (chargedTo req left t) (keptGPUs states) decisions unit = 0 ∨
        unitDrop (chargedTo req left t) (keptGPUs states) decisions unit ≤ left.get t) ∧
      ∃ p ∈ unit, ∃ d, decisions[p.1]? = some d ∧ largest = d.gpr := by
  unfold unitTakes at h
  split_ifs at h with hempty
  cases hfold : unit.foldlM (addTakes states req ch decisions left) ⟨∅, 0, 0⟩ with
  | none => simp [hfold] at h
  | some takes =>
    simp only [hfold] at h
    split_ifs at h with hall
    obtain ⟨rfl, rfl⟩ := Prod.mk.inj (Option.some.inj h)
    obtain ⟨hfreed, hper, hlargest, _, hcovers⟩ := foldlM_addTakes hunit hfold
    have hne : unit ≠ [] := by simpa using hempty
    refine ⟨hne, by simpa using hfreed, fun t => ?_, ?_⟩
    · have ht : takes.per.get t =
          unitDrop (chargedTo req left t) (keptGPUs states) decisions unit := by
        simpa using hper t
      rw [← ht]
      cases hfind : takes.per.find? t with
      | none => exact .inl (get_of_find?_none hfind)
      | some n =>
        have hle := all_eq_true.mp hall ⟨t, n⟩ (mem_entries.mpr hfind)
        rw [get_of_find? hfind]
        exact .inr (of_decide_eq_true hle)
    · rcases hlargest with hzero | hlargest
      · -- a unit has a replica in it, and a replica at least one GPU
        obtain ⟨p, rest, rfl⟩ := exists_cons_of_ne_nil hne
        obtain ⟨d, hget, _⟩ := hunit.spare p mem_cons_self
        have hle := hcovers p mem_cons_self d hget
        have hpos : 1 ≤ d.gpr := le_max_left _ _
        simp only at hzero
        omega
      · exact hlargest

end Takes

/-- A decision with the same variant and a target no higher, and no lower than `minReplicas` where
it is lowered. -/
structure Lowered (states : States) (d d' : VariantDecision) : Prop where
  ns : d'.ns = d.ns
  modelID : d'.modelID = d.modelID
  variantName : d'.variantName = d.variantName
  role : d'.role = d.role
  gpr : d'.gpr = d.gpr
  target : d'.targetReplicas = d.targetReplicas ∨
    (d'.targetReplicas < d.targetReplicas ∧ minOf (d.stateIn states) ≤ d'.targetReplicas)

namespace Lowered

variable {states : States} {d d' d'' : VariantDecision}

theorem refl (d : VariantDecision) : Lowered states d d := ⟨rfl, rfl, rfl, rfl, rfl, .inl rfl⟩

theorem stateIn (h : Lowered states d d') : d'.stateIn states = d.stateIn states := by
  rw [VariantDecision.stateIn, VariantDecision.stateIn, h.ns, h.variantName]

theorem isOf (h : Lowered states d d') (ns modelID : String) :
    d'.isOf ns modelID = d.isOf ns modelID := by
  rw [VariantDecision.isOf, VariantDecision.isOf, h.ns, h.modelID]

theorem trans (h : Lowered states d d') (h' : Lowered states d' d'') : Lowered states d d'' where
  ns := h'.ns.trans h.ns
  modelID := h'.modelID.trans h.modelID
  variantName := h'.variantName.trans h.variantName
  role := h'.role.trans h.role
  gpr := h'.gpr.trans h.gpr
  target := by
    have hstate := h'.target
    rw [h.stateIn] at hstate
    rcases h.target with hsame | hless
    · omega
    · omega

theorem of_lower {n : ℕ} (h : minOf (d.stateIn states) + n ≤ d.targetReplicas) (hn : 0 < n) :
    Lowered states d (d.lower n) where
  ns := rfl
  modelID := rfl
  variantName := rfl
  role := rfl
  gpr := rfl
  target := .inr (by
    rw [VariantDecision.lower]
    simp only
    omega)

theorem of_lenderStep (key : LenderKey) (d : VariantDecision) :
    Lowered states d (lenderStep key d) :=
  ⟨rfl, rfl, rfl, rfl, rfl, .inl rfl⟩

end Lowered

/-- Decisions of the same variants, some of them lowered. -/
def AllLowered (states : States) (before after : List VariantDecision) : Prop :=
  ∀ i : ℕ, Option.Rel (Lowered states) before[i]? after[i]?

namespace AllLowered

variable {states : States} {before after later : List VariantDecision}

theorem refl (before : List VariantDecision) : AllLowered states before before := by
  intro i
  cases before[i]? with
  | none => exact Option.Rel.none
  | some d => exact Option.Rel.some (Lowered.refl d)

theorem trans (h : AllLowered states before after) (h' : AllLowered states after later) :
    AllLowered states before later := by
  intro i
  have hfirst := h i
  have hsecond := h' i
  generalize before[i]? = o at hfirst
  generalize after[i]? = o' at hfirst hsecond
  generalize later[i]? = o'' at hsecond
  cases hfirst with
  | none =>
    cases hsecond
    exact Option.Rel.none
  | some hd =>
    cases hsecond with
    | some hd' => exact Option.Rel.some (hd.trans hd')

theorem set (hget : before[i]? = some d) (h : Lowered states d d') :
    AllLowered states before (before.set i d') := by
  intro j
  by_cases hij : i = j
  · subst hij
    rw [getElem?_set_self (List.getElem?_eq_some_iff.mp hget).1, hget]
    exact Option.Rel.some h
  · rw [getElem?_set_ne hij]
    exact refl before j

theorem modify (before : List VariantDecision) (i : ℕ) {g : VariantDecision → VariantDecision}
    (h : ∀ d, Lowered states d (g d)) : AllLowered states before (before.modify i g) := by
  rw [modify_eq_set_getElem?]
  cases hget : before[i]? with
  | none => exact refl before
  | some d => exact set hget (h d)

theorem exists_mem (h : AllLowered states before after) (hd' : d' ∈ after) :
    ∃ d ∈ before, Lowered states d d' := by
  obtain ⟨i, hi⟩ := getElem?_of_mem hd'
  have hrel := h i
  rw [hi] at hrel
  generalize hget : before[i]? = o at hrel
  cases hrel with
  | some hlow => exact ⟨_, mem_of_getElem? hget, hlow⟩

end AllLowered

variable {modelID ns : String} {req : ModelScalingRequest}

theorem allLowered_foldl_giveOne (h : IsUnit states decisions ns modelID unit) :
    AllLowered states decisions (unit.foldl (giveOne states req) (decisions, left)).1 := by
  induction unit generalizing decisions left with
  | nil => exact AllLowered.refl decisions
  | cons p unit ih =>
    obtain ⟨d, hget, _, hpos, hspare⟩ := h.spare p mem_cons_self
    rw [foldl_cons, giveOne_eq hget]
    exact (AllLowered.set hget (Lowered.of_lower hspare hpos)).trans (ih (h.of_cons _))

theorem getElem?_foldl_giveOne {st : List VariantDecision × GoMap String Int}
    (h : i ∉ unit.map Prod.fst) : (unit.foldl (giveOne states req) st).1[i]? = st.1[i]? := by
  induction unit generalizing st with
  | nil => rfl
  | cons p unit ih =>
    rw [map_cons, mem_cons, not_or] at h
    rw [foldl_cons, ih h.2, giveOne]
    split
    · rfl
    · exact getElem?_set_ne (Ne.symm h.1)

section

variable {states : States} {req : ModelScalingRequest} {ns modelID : String} {unit : GivenUnit}
  {decisions : List VariantDecision} {left : GoMap String Int}

theorem allLowered_giveUnit (h : IsUnit states decisions ns modelID unit) :
    AllLowered states decisions (giveUnit states req unit (decisions, left)).1 :=
  allLowered_foldl_giveOne (h.perm ((Sorting.byKey Prod.fst).perm unit))

theorem getElem?_giveUnit (h : i ∉ unit.map Prod.fst) :
    (giveUnit states req unit (decisions, left)).1[i]? = decisions[i]? :=
  getElem?_foldl_giveOne fun hmem =>
    h ((((Sorting.byKey Prod.fst).perm unit).map Prod.fst).subset hmem)

theorem IsUnit.unitDrop_congr {test' : VariantDecision → Bool}
    (hunit : IsUnit states decisions ns modelID unit)
    (h : ∀ d, d.isOf ns modelID = true → test d = test' d) :
    unitDrop test f decisions unit = unitDrop test' f decisions unit := by
  unfold unitDrop
  refine congrArg sum (map_congr_left fun p hp => ?_)
  obtain ⟨d, hget, hof, _⟩ := hunit.spare p hp
  rw [hget, Option.elim_some, Option.elim_some, h d hof]

theorem IsUnit.unitDrop_eq_zero (hunit : IsUnit states decisions ns modelID unit)
    (h : ∀ d, d.isOf ns modelID = true → test d = false) :
    unitDrop test f decisions unit = 0 := by
  rw [hunit.unitDrop_congr h, unitDrop]
  refine sum_eq_zero (forall_mem_map.mpr fun p _ => ?_)
  cases decisions[p.1]? with
  | none => rfl
  | some d => rfl

end

/-- The decisions, and what is left of each namespace's figures. -/
structure Figures where
  decisions : List VariantDecision
  left : String → GoMap String Int

/-- The accelerator of a decision's variant, as its model's request has it. -/
def BorrowCycle.accOfDecision (c : BorrowCycle) (d : VariantDecision) : String :=
  match c.requests.find? fun r => d.isOf r.ns r.modelID with
  | some r => accOf r d.variantName
  | none => ""

theorem BorrowCycle.accOfDecision_eq {c : BorrowCycle} (hreq : req ∈ c.requests)
    (hof : d.isOf req.ns req.modelID = true) : c.accOfDecision d = accOf req d.variantName := by
  unfold accOfDecision
  cases hfind : c.requests.find? fun r => d.isOf r.ns r.modelID with
  | none => exact absurd hof (find?_eq_none.mp hfind req hreq)
  | some r =>
    have hr := find?_some hfind
    have heq := inj_on_of_nodup_map c.requests_distinct (mem_of_find?_eq_some hfind)
      hreq (VariantDecision.isOf_unique hr hof)
    rw [heq]

variable {c : BorrowCycle}

/-- One unit of a model given for a lender of a pool. -/
structure UnitGiven (c : BorrowCycle) (ch : ChunkRead) (req : ModelScalingRequest)
    (st st' : Figures) (freed : Int) (largest : ℕ) : Prop where
  mem : req ∈ c.requests
  takes : unitTakes c.states req ch (nextUnit c.states req ch st.decisions) st.decisions
    (st.left req.ns) = some (freed, largest)
  decisions : st'.decisions = (giveUnit c.states req (nextUnit c.states req ch st.decisions)
    (st.decisions, st.left req.ns)).1
  left : st'.left = Function.update st.left req.ns
    (giveUnit c.states req (nextUnit c.states req ch st.decisions)
      (st.decisions, st.left req.ns)).2

/-- One step of a pass: a unit given, or a decision marked. -/
inductive PassStep (c : BorrowCycle) : Figures → Figures → Prop
  | unit {ch : ChunkRead} {req : ModelScalingRequest} {st st' : Figures} {freed : Int}
      {largest : ℕ} (h : UnitGiven c ch req st st' freed largest) : PassStep c st st'
  | mark (st : Figures) (i : ℕ) (key : LenderKey) :
      PassStep c st ⟨st.decisions.modify i (lenderStep key), st.left⟩

/-- Any number of steps of a pass. -/
abbrev Reaches (c : BorrowCycle) : Figures → Figures → Prop := Relation.ReflTransGen (PassStep c)

theorem nextUnit_isUnit (states : States) (req : ModelScalingRequest) (ch : ChunkRead)
    (decisions : List VariantDecision) :
    IsUnit states decisions req.ns req.modelID (nextUnit states req ch decisions) :=
  yieldUnitWhere_isUnit _ _

section Invariants

variable {st st' : Figures}

theorem PassStep.allLowered (h : PassStep c st st') :
    AllLowered c.states st.decisions st'.decisions := by
  cases h with
  | unit h =>
    rw [h.decisions]
    exact allLowered_giveUnit (nextUnit_isUnit _ _ _ _)
  | mark _ i key => exact AllLowered.modify _ i (Lowered.of_lenderStep key)

theorem Reaches.allLowered (h : Reaches c st st') :
    AllLowered c.states st.decisions st'.decisions := by
  induction h with
  | refl => exact AllLowered.refl _
  | tail _ hstep ih => exact ih.trans hstep.allLowered

/-- A decision of a namespace charged to a type of its figures. -/
def onType (c : BorrowCycle) (left : GoMap String Int) (ns t : String) (d : VariantDecision) :
    Bool :=
  decide (d.ns = ns) && decide (findKey left (c.accOfDecision d) = some t)

/-- What a namespace's variants keep of a type. -/
def keptOn (c : BorrowCycle) (left : GoMap String Int) (ns t : String)
    (decisions : List VariantDecision) : Int :=
  sumIf (onType c left ns t) (keptGPUs c.states) decisions

theorem keptOn_mark (left : GoMap String Int) (ns t : String) (decisions : List VariantDecision)
    (i : ℕ) (key : LenderKey) :
    keptOn c left ns t (decisions.modify i (lenderStep key)) = keptOn c left ns t decisions :=
  sumIf_modify (g := lenderStep key) (fun _ => rfl) (fun _ => rfl) decisions i

theorem PassStep.keeps (h : PassStep c st st') (ns : String) :
    (st'.left ns).keys = (st.left ns).keys ∧ ∀ t,
      keptOn c (st.left ns) ns t st'.decisions - (st'.left ns).get t =
        keptOn c (st.left ns) ns t st.decisions - (st.left ns).get t := by
  cases h with
  | mark _ i key =>
    refine ⟨rfl, fun t => ?_⟩
    simp only [keptOn_mark]
  | @unit ch req _ _ freed largest h =>
    have hunit := nextUnit_isUnit c.states req ch st.decisions
    rw [h.left, h.decisions]
    by_cases hns : ns = req.ns
    · subst hns
      rw [Function.update_self]
      refine ⟨keys_giveUnit hunit, fun t => ?_⟩
      have hcharged : unitDrop (onType c (st.left req.ns) req.ns t) (keptGPUs c.states)
          st.decisions (nextUnit c.states req ch st.decisions) =
          unitDrop (chargedTo req (st.left req.ns) t) (keptGPUs c.states) st.decisions
            (nextUnit c.states req ch st.decisions) := by
        refine hunit.unitDrop_congr fun d hof => ?_
        rw [onType, chargedTo, c.accOfDecision_eq h.mem hof,
          decide_eq_true (VariantDecision.isOf_ns hof), Bool.true_and]
      rw [keptOn, sumIf_giveUnit hunit _ fun _ _ => rfl, get_giveUnit hunit, hcharged, keptOn]
      omega
    · rw [Function.update_of_ne hns]
      refine ⟨rfl, fun t => ?_⟩
      have hnone : unitDrop (onType c (st.left ns) ns t) (keptGPUs c.states)
          st.decisions (nextUnit c.states req ch st.decisions) = 0 := by
        refine hunit.unitDrop_eq_zero fun d hof => ?_
        have hother : d.ns ≠ ns := fun heq => hns (heq.symm.trans (VariantDecision.isOf_ns hof))
        rw [onType, decide_eq_false hother, Bool.false_and]
      rw [keptOn, sumIf_giveUnit hunit _ fun _ _ => rfl, hnone, keptOn]
      omega

theorem PassStep.nonneg (h : PassStep c st st') (hst : ∀ ns t, 0 ≤ (st.left ns).get t) (ns t : String) :
    0 ≤ (st'.left ns).get t := by
  cases h with
  | mark _ i key => exact hst ns t
  | @unit ch req _ _ freed largest h =>
    have hunit := nextUnit_isUnit c.states req ch st.decisions
    rw [h.left]
    by_cases hns : ns = req.ns
    · subst hns
      have hpos := hst req.ns t
      rw [Function.update_self, get_giveUnit hunit]
      rcases (unitTakes_spec hunit h.takes).2.2.1 t with hzero | hle
      · omega
      · omega
    · rw [Function.update_of_ne hns]
      exact hst ns t

theorem Reaches.taken (h : Reaches c st st') (hst : ∀ ns t, 0 ≤ (st.left ns).get t) (ns : String) :
    (st'.left ns).keys = (st.left ns).keys ∧ ∀ t, 0 ≤ (st'.left ns).get t ∧
      keptOn c (st.left ns) ns t st.decisions - keptOn c (st.left ns) ns t st'.decisions =
        (st.left ns).get t - (st'.left ns).get t := by
  have hall : (∀ ns t, 0 ≤ (st'.left ns).get t) ∧ (st'.left ns).keys = (st.left ns).keys ∧ ∀ t,
      keptOn c (st.left ns) ns t st.decisions - keptOn c (st.left ns) ns t st'.decisions =
        (st.left ns).get t - (st'.left ns).get t := by
    induction h with
    | refl => exact ⟨hst, rfl, fun t => by omega⟩
    | @tail st₁ st₂ _ hstep ih =>
      obtain ⟨hpos, hkeys, htaken⟩ := ih
      obtain ⟨hkeys', hstep'⟩ := hstep.keeps ns
      have honType : ∀ t, onType c (st₁.left ns) ns t = onType c (st.left ns) ns t := by
        intro t
        funext d
        rw [onType, onType, findKey_of_keys hkeys]
      refine ⟨hstep.nonneg hpos, hkeys'.trans hkeys, fun t => ?_⟩
      have hone := hstep' t
      have hrest := htaken t
      simp only [keptOn, honType] at hone hrest ⊢
      omega
  exact ⟨hall.2.1, fun t => ⟨hall.1 ns t, hall.2.2 t⟩⟩

end Invariants

def AllServe (decisions : List VariantDecision) (ns modelID : String) : Prop :=
  ∀ d ∈ decisions, d.isOf ns modelID = true → 0 < roleTotal decisions ns modelID d.role

def NoneServes (decisions : List VariantDecision) (ns modelID : String) : Prop :=
  ∀ d ∈ decisions, d.isOf ns modelID = true → roleTotal decisions ns modelID d.role = 0

section Pairs

variable {st st' : Figures} {pair : ModelScalingRequest}

theorem roleTotal_nonneg (decisions : List VariantDecision) (ns modelID role : String) :
    0 ≤ roleTotal decisions ns modelID role :=
  sumIf_nonneg fun _ _ _ => Int.natCast_nonneg _

theorem unitDrop_target_nonneg (test : VariantDecision → Bool) (decisions : List VariantDecision)
    (unit : GivenUnit) : 0 ≤ unitDrop test (fun d => (d.targetReplicas : Int)) decisions unit := by
  refine sum_nonneg (forall_mem_map.mpr fun p _ => ?_)
  cases decisions[p.1]? with
  | none => exact le_rfl
  | some d =>
    rw [Option.elim_some]
    split_ifs
    · rw [VariantDecision.lower]
      simp only
      omega
    · exact le_rfl

theorem unitDrop_nextPair (hne : nextPair states (ownOf decisions ns modelID) ≠ [])
    (hd : d ∈ decisions) (hof : d.isOf ns modelID = true) :
    0 < ratioOf (ownOf decisions ns modelID) ∧
      unitDrop (isRole ns modelID d.role) (fun d => (d.targetReplicas : Int)) decisions
          (nextPair states (ownOf decisions ns modelID)) =
        ((roleTarget (ownOf decisions ns modelID) d.role /
          ratioOf (ownOf decisions ns modelID) : ℕ) : Int) := by
  rcases nextPair_cases states decisions ns modelID with hnil | ⟨hpos, hunit, hwhole⟩
  · exact absurd hnil hne
  · refine ⟨hpos, ?_⟩
    rw [hunit, unitDrop_flatMap (nodup_rolesOf _) hwhole,
      if_pos (mem_rolesOf.mpr ⟨d, hd, hof, rfl⟩)]

/-- A pair given where all roles have replicas leaves all of them with replicas, or none. -/
theorem UnitGiven.allServe_or {ch : ChunkRead} (h : UnitGiven c ch pair st st' freed largest)
    (hpair : pair.disaggregated = true) (hserve : AllServe st.decisions pair.ns pair.modelID) :
    (∀ d ∈ st.decisions, d.isOf pair.ns pair.modelID = true →
      0 < roleTotal st'.decisions pair.ns pair.modelID d.role) ∨
    ∀ d ∈ st.decisions, d.isOf pair.ns pair.modelID = true →
      roleTotal st'.decisions pair.ns pair.modelID d.role = 0 := by
  have hunit := nextUnit_isUnit c.states pair ch st.decisions
  have hnext : nextUnit c.states pair ch st.decisions =
      nextPair c.states (ownOf st.decisions pair.ns pair.modelID) := by
    rw [nextUnit, yieldUnitWhere, if_pos hpair]
  have hne := (unitTakes_spec hunit h.takes).1
  rw [hnext] at hne
  set own := ownOf st.decisions pair.ns pair.modelID with hown
  -- after the pair a role has its replicas less one part in `g`
  have htotal : ∀ d ∈ st.decisions, d.isOf pair.ns pair.modelID = true →
      0 < roleTarget own d.role ∧
      ratioOf own ∣ roleTarget own d.role ∧
      roleTotal st'.decisions pair.ns pair.modelID d.role =
        (roleTarget own d.role : Int) - ((roleTarget own d.role / ratioOf own : ℕ) : Int) := by
    intro d hd hof
    have hpos := hserve d hd hof
    rw [← roleTarget_eq, ← hown] at hpos
    have hpos' : 0 < roleTarget own d.role := by omega
    refine ⟨hpos', ratioOf_dvd (mem_rolesOf.mpr ⟨d, hd, hof, rfl⟩) hpos', ?_⟩
    rw [roleTotal, h.decisions, sumIf_giveUnit hunit _ fun _ _ => rfl, hnext,
      (unitDrop_nextPair hne hd hof).2, ← roleTotal, ← roleTarget_eq]
  by_cases hone : ratioOf own = 1
  · refine .inr fun d hd hof => ?_
    rw [(htotal d hd hof).2.2, hone, Nat.div_one, sub_self]
  · refine .inl fun d hd hof => ?_
    obtain ⟨hpos, _, heq⟩ := htotal d hd hof
    have hratio : 0 < ratioOf own := (unitDrop_nextPair hne hd hof).1
    have hgt : 1 < ratioOf own := by omega
    have hlt := Nat.div_lt_self hpos hgt
    rw [heq]
    omega

theorem UnitGiven.roleTotal_of_ne {ch : ChunkRead} (h : UnitGiven c ch req st st' freed largest)
    (hne : (req.ns, req.modelID) ≠ (ns, modelID)) (role : String) :
    roleTotal st'.decisions ns modelID role = roleTotal st.decisions ns modelID role := by
  have hunit := nextUnit_isUnit c.states req ch st.decisions
  have hnone : unitDrop (isRole ns modelID role) (fun d => (d.targetReplicas : Int)) st.decisions
      (nextUnit c.states req ch st.decisions) = 0 := by
    refine hunit.unitDrop_eq_zero fun d hof => ?_
    rw [isRole, Bool.eq_false_iff.mpr fun hof' => hne (VariantDecision.isOf_unique hof hof')]
    rfl
  rw [roleTotal, h.decisions, sumIf_giveUnit hunit _ fun _ _ => rfl, hnone, sub_zero, roleTotal]

/-- A step leaves a P/D model with replicas in every role, or in none, where it found it so. -/
theorem PassStep.balanced (h : PassStep c st st') (hmem : pair ∈ c.requests)
    (hpair : pair.disaggregated = true)
    (hst : AllServe st.decisions pair.ns pair.modelID ∨
      NoneServes st.decisions pair.ns pair.modelID) :
    AllServe st'.decisions pair.ns pair.modelID ∨ NoneServes st'.decisions pair.ns pair.modelID := by
  have hlow := h.allLowered
  -- a role after the step is one before it
  have hroles : ∀ P : String → Prop, (∀ d ∈ st.decisions,
      d.isOf pair.ns pair.modelID = true → P d.role) →
      ∀ d ∈ st'.decisions, d.isOf pair.ns pair.modelID = true → P d.role := by
    intro P hP d' hd' hof
    obtain ⟨d, hd, hlowered⟩ := hlow.exists_mem hd'
    rw [hlowered.role]
    exact hP d hd (hlowered.isOf _ _ ▸ hof)
  have hall := hroles fun role => 0 < roleTotal st'.decisions pair.ns pair.modelID role
  have hnone := hroles fun role => roleTotal st'.decisions pair.ns pair.modelID role = 0
  have hkept (hsame : ∀ role, roleTotal st'.decisions pair.ns pair.modelID role =
      roleTotal st.decisions pair.ns pair.modelID role) := hst.imp
    (fun hst => hall fun d hd hof => (hst d hd hof).trans_eq (hsame d.role).symm)
    fun hst => hnone fun d hd hof => (hsame d.role).trans (hst d hd hof)
  cases h with
  | mark _ i key =>
    exact hkept fun _ => sumIf_modify (g := lenderStep key) (fun _ => rfl) (fun _ => rfl) _ i
  | @unit ch req _ _ freed largest h =>
    by_cases heq : (req.ns, req.modelID) = (pair.ns, pair.modelID)
    · obtain rfl := inj_on_of_nodup_map c.requests_distinct h.mem hmem heq
      rcases hst with hst | hst
      · exact (h.allServe_or hpair hst).imp hall hnone
      · refine .inr (hnone fun d hd hof => ?_)
        have hunit := nextUnit_isUnit c.states req ch st.decisions
        have hnonneg := roleTotal_nonneg st'.decisions req.ns req.modelID d.role
        have hdrop := unitDrop_target_nonneg (isRole req.ns req.modelID d.role) st.decisions
          (nextUnit c.states req ch st.decisions)
        rw [roleTotal, h.decisions, sumIf_giveUnit hunit _ fun _ _ => rfl, ← roleTotal,
          hst d hd hof] at hnonneg ⊢
        omega
    · exact hkept (h.roleTotal_of_ne heq)

theorem Reaches.balanced (h : Reaches c st st') (hmem : pair ∈ c.requests)
    (hpair : pair.disaggregated = true) (hst : AllServe st.decisions pair.ns pair.modelID) :
    AllServe st'.decisions pair.ns pair.modelID ∨
      NoneServes st'.decisions pair.ns pair.modelID := by
  induction h with
  | refl => exact .inl hst
  | tail _ hstep ih => exact hstep.balanced hmem hpair ih

end Pairs

end LlmScaler.Release
