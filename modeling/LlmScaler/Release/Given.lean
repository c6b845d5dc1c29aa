import LlmScaler.Core.Lists
import LlmScaler.Release.Units

/-!
# What a unit takes

A unit takes replicas off different decisions of its model, none of them below `minReplicas`. A pair
takes the same share of every role's replicas, so it leaves no role without replicas where another
keeps some.
-/

namespace LlmScaler.Release

open Core List

/-- A unit of a model: replicas off different decisions of it, none below `minReplicas`. -/
structure IsUnit (states : States) (decisions : List VariantDecision) (ns modelID : String)
    (unit : GivenUnit) : Prop where
  distinct : (unit.map Prod.fst).Nodup
  /-- They are the model's, and can give what the unit takes. -/
  spare : ∀ p ∈ unit, ∃ d, decisions[p.1]? = some d ∧ d.isOf ns modelID = true ∧ 0 < p.2 ∧
    minOf (d.stateIn states) + p.2 ≤ d.targetReplicas

/-- What a unit takes of a figure of the decisions that meet a test. -/
def unitDrop (test : VariantDecision → Bool) (f : VariantDecision → Int)
    (decisions : List VariantDecision) (unit : GivenUnit) : Int :=
  (unit.map fun p => (decisions[p.1]?).elim 0 fun d =>
    if test d then f d - f (d.lower p.2) else 0).sum

variable {unit : GivenUnit}

section

variable {test : VariantDecision → Bool} {f : VariantDecision → Int}
  {decisions : List VariantDecision}

@[simp] theorem unitDrop_nil : unitDrop test f decisions [] = 0 := rfl

theorem unitDrop_cons {p : ℕ × ℕ} {d : VariantDecision} (h : decisions[p.1]? = some d) :
    unitDrop test f decisions (p :: unit) =
      (if test d then f d - f (d.lower p.2) else 0) + unitDrop test f decisions unit := by
  unfold unitDrop
  rw [map_cons, sum_cons, h]
  rfl

theorem unitDrop_append (unit unit' : GivenUnit) : unitDrop test f decisions (unit ++ unit') =
    unitDrop test f decisions unit + unitDrop test f decisions unit' := by
  simp [unitDrop]

theorem unitDrop_perm {unit' : GivenUnit} (h : unit.Perm unit') :
    unitDrop test f decisions unit = unitDrop test f decisions unit' :=
  (h.map _).sum_eq

end

variable {role : String}

section Own

variable {decisions : List VariantDecision} {ns modelID : String}

theorem mem_ownOf {p : VariantDecision × ℕ} :
    p ∈ ownOf decisions ns modelID ↔ decisions[p.2]? = some p.1 ∧ p.1.isOf ns modelID = true := by
  rw [ownOf, mem_filter, mem_zipIdx_iff_getElem?]

theorem nodup_ownOf : ((ownOf decisions ns modelID).map Prod.snd).Nodup := by
  refine (filter_sublist.map Prod.snd).nodup (?_ : (decisions.zipIdx.map Prod.snd).Nodup)
  rw [zipIdx_map_snd]
  exact nodup_range'

def isRole (ns modelID role : String) (d : VariantDecision) : Bool :=
  d.isOf ns modelID && decide (d.role = role)

def roleTotal (decisions : List VariantDecision) (ns modelID role : String) : Int :=
  sumIf (isRole ns modelID role) (fun d => (d.targetReplicas : Int)) decisions

theorem roleTarget_eq (role : String) :
    (roleTarget (ownOf decisions ns modelID) role : Int) = roleTotal decisions ns modelID role := by
  have hmap : ((inRole (ownOf decisions ns modelID) role).map fun p => p.1.targetReplicas) =
      (decisions.filter (isRole ns modelID role)).map VariantDecision.targetReplicas := by
    have hfst : decisions = decisions.zipIdx.map Prod.fst := (zipIdx_map_fst 0 decisions).symm
    conv_rhs => rw [hfst, filter_map, map_map]
    rw [inRole, ownOf, filter_filter]
    simp only [Function.comp_def, isRole, Bool.and_comm]
  rw [roleTarget, hmap, roleTotal, sumIf, Nat.cast_list_sum, map_map]
  rfl

theorem mem_rolesOf : role ∈ rolesOf (ownOf decisions ns modelID) ↔
    ∃ d ∈ decisions, d.isOf ns modelID = true ∧ d.role = role := by
  rw [rolesOf, Sorting.mem_sort, mem_dedup, mem_map]
  constructor
  · rintro ⟨p, hp, rfl⟩
    obtain ⟨hget, hof⟩ := mem_ownOf.mp hp
    exact ⟨p.1, mem_of_getElem? hget, hof, rfl⟩
  · rintro ⟨d, hd, hof, rfl⟩
    obtain ⟨i, hi⟩ := getElem?_of_mem hd
    exact ⟨(d, i), mem_ownOf.mpr ⟨hi, hof⟩, rfl⟩

theorem nodup_rolesOf (own : List (VariantDecision × ℕ)) : (rolesOf own).Nodup :=
  ((Sorting.byKey id).perm _).nodup_iff.mpr (nodup_dedup _)

end Own

section Role

variable {states : States}

theorem takeRole_sum (states : States) (ps : List (VariantDecision × ℕ)) (n : ℕ) :
    ((takeRole states ps n).1.map Prod.snd).sum + (takeRole states ps n).2 = n := by
  induction ps generalizing n with
  | nil => simp [takeRole]
  | cons p ps ih =>
    have hrest := ih (n - min n (max 0 (p.1.spare states)).toNat)
    simp only [takeRole]
    split_ifs with htake
    · simp only [map_cons, sum_cons]
      omega
    · omega

theorem mem_takeRole {ps : List (VariantDecision × ℕ)} {n : ℕ} {q : ℕ × ℕ}
    (hq : q ∈ (takeRole states ps n).1) :
    ∃ p ∈ ps, p.2 = q.1 ∧ 0 < q.2 ∧ (q.2 : Int) ≤ p.1.spare states := by
  induction ps generalizing n with
  | nil => cases hq
  | cons p ps ih =>
    rw [takeRole] at hq
    split_ifs at hq with htake
    · rcases mem_cons.mp hq with rfl | hq
      · exact ⟨p, mem_cons_self, rfl, htake, by simp only at htake ⊢; omega⟩
      · obtain ⟨p', hp', h⟩ := ih hq
        exact ⟨p', mem_cons_of_mem _ hp', h⟩
    · obtain ⟨p', hp', h⟩ := ih hq
      exact ⟨p', mem_cons_of_mem _ hp', h⟩

theorem takeRole_sublist (ps : List (VariantDecision × ℕ)) (n : ℕ) :
    ((takeRole states ps n).1.map Prod.fst).Sublist (ps.map Prod.snd) := by
  induction ps generalizing n with
  | nil => exact Sublist.slnil
  | cons p ps ih =>
    rw [takeRole]
    split_ifs with htake
    · exact (ih _).cons_cons p.2
    · exact (ih _).cons p.2

end Role

section Units

variable {states : States} {decisions : List VariantDecision} {ns modelID : String}

theorem nextReplica_isUnit (eligible : VariantDecision → Bool) :
    IsUnit states decisions ns modelID
      (nextReplica states (ownOf decisions ns modelID) eligible) := by
  unfold nextReplica
  split
  · rename_i p hfind
    obtain ⟨hget, hof⟩ := mem_ownOf.mp
      ((Sorting.mem_sort _).mp (mem_of_find?_eq_some hfind))
    have htest := find?_some hfind
    rw [Bool.and_eq_true, decide_eq_true_eq, VariantDecision.spare] at htest
    refine ⟨by simp, fun q hq => ?_⟩
    rw [mem_singleton.mp hq]
    exact ⟨p.1, hget, hof, one_pos, by omega⟩
  · exact ⟨by simp, by simp⟩

def rolePart (states : States) (own : List (VariantDecision × ℕ)) (g : ℕ) (role : String) :
    GivenUnit × ℕ :=
  takeRole states (giveOrder states (inRole own role)) (roleTarget own role / g)

variable {g : ℕ}

theorem addRoles_eq {own : List (VariantDecision × ℕ)} {roles : List String} {unit' : GivenUnit}
    (h : roles.foldlM (addRole states own g) unit = some unit') :
    unit' = unit ++ roles.flatMap (fun role => (rolePart states own g role).1) ∧
      ∀ role ∈ roles, (rolePart states own g role).2 = 0 := by
  induction roles generalizing unit with
  | nil =>
    obtain rfl : unit = unit' := Option.some.inj h
    simp
  | cons role roles ih =>
    rw [foldlM_cons, Option.bind_eq_bind, Option.bind_eq_some_iff] at h
    obtain ⟨next, hadd, hrest⟩ := h
    rw [addRole] at hadd
    split_ifs at hadd with hleft
    obtain rfl := Option.some.inj hadd
    obtain ⟨hunit, hparts⟩ := ih hrest
    refine ⟨?_, forall_mem_cons.mpr ⟨Nat.eq_zero_of_not_pos hleft, hparts⟩⟩
    rw [hunit, flatMap_cons, append_assoc]
    rfl

theorem mem_rolePart {q : ℕ × ℕ}
    (hq : q ∈ (rolePart states (ownOf decisions ns modelID) g role).1) :
    ∃ d, decisions[q.1]? = some d ∧ d.isOf ns modelID = true ∧ d.role = role ∧ 0 < q.2 ∧
      minOf (d.stateIn states) + q.2 ≤ d.targetReplicas := by
  obtain ⟨p, hp, hindex, hpos, hspare⟩ := mem_takeRole hq
  obtain ⟨hown, hrole⟩ := mem_filter.mp ((Sorting.mem_sort _).mp hp)
  obtain ⟨hget, hof⟩ := mem_ownOf.mp hown
  rw [VariantDecision.spare] at hspare
  exact ⟨p.1, hindex ▸ hget, hof, of_decide_eq_true hrole, hpos, by omega⟩

theorem nodup_rolePart (g : ℕ) (role : String) :
    ((rolePart states (ownOf decisions ns modelID) g role).1.map Prod.fst).Nodup := by
  refine (takeRole_sublist _ _).nodup ?_
  refine (((Sorting.byKey _).perm _).map Prod.snd).nodup_iff.mpr ?_
  exact (filter_sublist.map Prod.snd).nodup nodup_ownOf

theorem nextPair_cases (states : States) (decisions : List VariantDecision) (ns modelID : String) :
    nextPair states (ownOf decisions ns modelID) = [] ∨
    (0 < ratioOf (ownOf decisions ns modelID) ∧
      nextPair states (ownOf decisions ns modelID) = (rolesOf (ownOf decisions ns modelID)).flatMap
        (fun role => (rolePart states (ownOf decisions ns modelID)
          (ratioOf (ownOf decisions ns modelID)) role).1) ∧
      ∀ role ∈ rolesOf (ownOf decisions ns modelID),
        (rolePart states (ownOf decisions ns modelID)
          (ratioOf (ownOf decisions ns modelID)) role).2 = 0) := by
  unfold nextPair
  split_ifs with hratio
  · exact .inl rfl
  · cases hfold : (rolesOf (ownOf decisions ns modelID)).foldlM
        (addRole states (ownOf decisions ns modelID) (ratioOf (ownOf decisions ns modelID))) [] with
    | none => exact .inl rfl
    | some unit =>
      obtain ⟨hunit, hparts⟩ := addRoles_eq hfold
      exact .inr ⟨Nat.pos_of_ne_zero hratio, hunit, hparts⟩

theorem nextPair_isUnit :
    IsUnit states decisions ns modelID (nextPair states (ownOf decisions ns modelID)) := by
  rcases nextPair_cases states decisions ns modelID with hnil | ⟨_, hunit, _⟩
  · rw [hnil]
    exact ⟨by simp, by simp⟩
  · rw [hunit]
    constructor
    · rw [map_flatMap, nodup_flatMap]
      refine ⟨fun role _ => nodup_rolePart _ role, ?_⟩
      refine (nodup_rolesOf _).imp fun {role role'} hne => ?_
      intro i hi hi'
      obtain ⟨q, hq, rfl⟩ := mem_map.mp hi
      obtain ⟨q', hq', hindex⟩ := mem_map.mp hi'
      obtain ⟨d, hd, _, hrole, _⟩ := mem_rolePart hq
      obtain ⟨d', hd', _, hrole', _⟩ := mem_rolePart hq'
      rw [hindex, hd] at hd'
      exact hne (by rw [← hrole, ← hrole', Option.some.inj hd'])
    · intro q hq
      obtain ⟨role, _, hq⟩ := mem_flatMap.mp hq
      obtain ⟨d, hget, hof, _, hpos, hspare⟩ := mem_rolePart hq
      exact ⟨d, hget, hof, hpos, hspare⟩

theorem yieldUnitWhere_isUnit (paired : Bool) (eligible : VariantDecision → Bool) :
    IsUnit states decisions ns modelID
      (yieldUnitWhere states decisions ns modelID paired eligible) := by
  unfold yieldUnitWhere
  split_ifs
  · exact nextPair_isUnit
  · exact nextReplica_isUnit eligible

theorem unitDrop_rolePart {role' : String}
    (hwhole : (rolePart states (ownOf decisions ns modelID) g role').2 = 0) :
    unitDrop (isRole ns modelID role) (fun d => (d.targetReplicas : Int)) decisions
        (rolePart states (ownOf decisions ns modelID) g role').1 =
      if role' = role then ((roleTarget (ownOf decisions ns modelID) role / g : ℕ) : Int) else 0 := by
  have hdrop : ∀ q ∈ (rolePart states (ownOf decisions ns modelID) g role').1,
      ((decisions[q.1]?).elim 0 fun d => if isRole ns modelID role d then
        (d.targetReplicas : Int) - ((d.lower q.2).targetReplicas : Int) else 0) =
      if role' = role then (q.2 : Int) else 0 := by
    intro q hq
    obtain ⟨d, hget, hof, hrole, _, hspare⟩ := mem_rolePart hq
    rw [hget, Option.elim_some, isRole, hof, hrole, Bool.true_and]
    by_cases heq : role' = role
    · rw [if_pos (decide_eq_true heq), if_pos heq, VariantDecision.lower]
      simp only
      omega
    · rw [if_neg (by simpa using heq), if_neg heq]
  rw [unitDrop, map_congr_left hdrop]
  by_cases heq : role' = role
  · subst heq
    have hsum := takeRole_sum states
      (giveOrder states (inRole (ownOf decisions ns modelID) role'))
      (roleTarget (ownOf decisions ns modelID) role' / g)
    rw [rolePart] at hwhole
    simp only [if_true]
    rw [hwhole, add_zero] at hsum
    rw [← hsum, Nat.cast_list_sum, map_map]
    rfl
  · simp [heq]

theorem unitDrop_flatMap {roles : List String} (hnodup : roles.Nodup)
    (hwhole : ∀ role' ∈ roles, (rolePart states (ownOf decisions ns modelID) g role').2 = 0) :
    unitDrop (isRole ns modelID role) (fun d => (d.targetReplicas : Int)) decisions
        (roles.flatMap fun role' => (rolePart states (ownOf decisions ns modelID) g role').1) =
      if role ∈ roles then ((roleTarget (ownOf decisions ns modelID) role / g : ℕ) : Int) else 0 := by
  induction roles with
  | nil => rfl
  | cons role' roles ih =>
    obtain ⟨hnot, hnodup⟩ := nodup_cons.mp hnodup
    obtain ⟨hhead, htail⟩ := forall_mem_cons.mp hwhole
    rw [flatMap_cons, unitDrop_append, unitDrop_rolePart hhead, ih hnodup htail]
    by_cases heq : role' = role
    · subst heq
      rw [if_pos rfl, if_neg hnot, if_pos mem_cons_self, add_zero]
    · rw [if_neg heq, zero_add]
      simp [Ne.symm heq]

private theorem foldl_gcd_dvd (total : String → ℕ) (roles : List String) (g : ℕ) :
    roles.foldl (fun g role => if 0 < total role then Nat.gcd g (total role) else g) g ∣ g ∧
      ∀ role ∈ roles, 0 < total role →
        roles.foldl (fun g role => if 0 < total role then Nat.gcd g (total role) else g) g ∣
          total role := by
  induction roles generalizing g with
  | nil => simp
  | cons role roles ih =>
    rw [foldl_cons]
    obtain ⟨hstart, hrest⟩ := ih (if 0 < total role then Nat.gcd g (total role) else g)
    refine ⟨?_, forall_mem_cons.mpr ⟨fun hpos => ?_, hrest⟩⟩
    · split_ifs at hstart ⊢ with hpos
      · exact hstart.trans (Nat.gcd_dvd_left _ _)
      · exact hstart
    · rw [if_pos hpos] at hstart ⊢
      exact hstart.trans (Nat.gcd_dvd_right _ _)

theorem ratioOf_dvd {own : List (VariantDecision × ℕ)} (hrole : role ∈ rolesOf own)
    (hpos : 0 < roleTarget own role) : ratioOf own ∣ roleTarget own role :=
  (foldl_gcd_dvd (roleTarget own) (rolesOf own) 0).2 role hrole hpos

end Units

end LlmScaler.Release
