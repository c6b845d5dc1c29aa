import LlmScaler.Nodes.Debits

/-!
# Where pods land

A placement that succeeds debits every pod of the replica, whole, on one node each and nothing
else. Debits of placements one after another add up, so what a view has debited is the pods placed
on it. A view that adopts a clone has the clone's debits.
-/

namespace LlmScaler.Nodes.NodeView

open LlmScaler.Core

/-- The GPUs of the pods that land on a node. -/
def landedOn (spots : Multiset (ℕ × ℕ)) (j : ℕ) : ℕ :=
  ((spots.filter fun s => s.2 = j).map Prod.fst).sum

@[simp] theorem landedOn_zero (j : ℕ) : landedOn 0 j = 0 := rfl

theorem landedOn_add (spots spots' : Multiset (ℕ × ℕ)) (j : ℕ) :
    landedOn (spots + spots') j = landedOn spots j + landedOn spots' j := by
  rw [landedOn, Multiset.filter_add, Multiset.map_add, Multiset.sum_add]
  rfl

theorem landedOn_cons (g i : ℕ) (spots : Multiset (ℕ × ℕ)) (j : ℕ) :
    landedOn ((g, i) ::ₘ spots) j = (if j = i then g else 0) + landedOn spots j := by
  unfold landedOn
  rw [Multiset.filter_cons]
  by_cases h : i = j
  · rw [if_pos h, if_pos h.symm, Multiset.map_add, Multiset.sum_add]
    rfl
  · rw [if_neg h, if_neg fun he => h he.symm, zero_add, zero_add]

/-- A view debited for pods: each that takes GPUs landed on one node, and nothing else changed of
the debits. -/
def Debited (v v' : NodeView) (pods : Multiset ℕ) : Prop :=
  v'.slots = v.slots ∧ ∃ spots : Multiset (ℕ × ℕ),
    spots.map Prod.fst = pods.filter (0 < ·) ∧
      ∀ j, v'.debit.get j = v.debit.get j + (landedOn spots j : Int)

theorem Debited.refl (v : NodeView) : Debited v v 0 :=
  ⟨rfl, 0, rfl, fun j => by simp⟩

theorem Debited.trans {v v' v'' : NodeView} {pods pods' : Multiset ℕ} (h : Debited v v' pods)
    (h' : Debited v' v'' pods') : Debited v v'' (pods + pods') := by
  obtain ⟨hslots, spots, hpods, hdebit⟩ := h
  obtain ⟨hslots', spots', hpods', hdebit'⟩ := h'
  refine ⟨hslots'.trans hslots, spots + spots', ?_, ?_⟩
  · rw [Multiset.map_add, Multiset.filter_add, hpods, hpods']
  · intro j
    rw [hdebit', hdebit, landedOn_add]
    omega

theorem Debited.of_debit {v v' w w' : NodeView} {pods : Multiset ℕ} (h : Debited v v' pods)
    (hslots : w.slots = v.slots) (hslots' : w'.slots = v'.slots) (hdebit : w.debit = v.debit)
    (hdebit' : w'.debit = v'.debit) : Debited w w' pods := by
  obtain ⟨hsame, spots, hpods, hlanded⟩ := h
  refine ⟨(hslots'.trans hsame).trans hslots.symm, spots, hpods, fun j => ?_⟩
  rw [hdebit', hdebit, hlanded]

section Placing

variable {v : NodeView}

private theorem bestFitFrom_landed {key domain : String} {pods : List PodFit}
    {taken out : GoMap ℕ Int} (h : v.bestFitFrom key domain taken pods = some out) :
    ∃ spots : Multiset (ℕ × ℕ), spots.map Prod.fst = (pods.map PodFit.gpus : Multiset ℕ) ∧
      ∀ j, out.get j = taken.get j + (landedOn spots j : Int) := by
  induction pods generalizing taken with
  | nil =>
    cases h
    exact ⟨0, rfl, fun j => by simp⟩
  | cons p pods ih =>
    obtain ⟨i, f, -, h⟩ := bestFitFrom_cons h
    obtain ⟨spots, hpods, hlanded⟩ := ih h
    refine ⟨(p.gpus, i) ::ₘ spots, ?_, fun j => ?_⟩
    · rw [Multiset.map_cons, hpods, List.map_cons, Multiset.cons_coe]
    · rw [hlanded, landedOn_cons, GoMap.get_modify_add]
      push_cast
      exact add_assoc _ _ _

theorem gpus_podFits (v : NodeView) (r : ReplicaFit) :
    ((v.podFits r).map PodFit.gpus : Multiset ℕ) = Multiset.filter (0 < ·) (r.pods : Multiset ℕ) := by
  rw [Multiset.filter_coe, ← List.zipIdx_map_fst 0 r.pods, List.filter_map, podFits,
    Multiset.coe_eq_coe]
  refine ((Sorting.perm _ _).map _).trans ?_
  rw [List.map_map]
  rfl

theorem debited_chargeAll {r : ReplicaFit} {key domain : String} {taken : GoMap ℕ Int}
    (h : v.bestFit (v.podFits r) key domain = some taken) :
    Debited v (v.chargeAll taken) (r.pods : Multiset ℕ) := by
  obtain ⟨spots, hpods, hlanded⟩ := bestFitFrom_landed h
  refine ⟨slots_chargeAll taken, spots, hpods.trans (gpus_podFits v r), fun j => ?_⟩
  rw [debit_chargeAll, hlanded]
  simp

private theorem debited_placeIn {r : ReplicaFit} {ds : List String}
    (h : (v.placeIn r ds).2 = true) : Debited v (v.placeIn r ds).1 (r.pods : Multiset ℕ) := by
  induction ds with
  | nil => cases h
  | cons d ds ih =>
    unfold placeIn at h ⊢
    split_ifs at h ⊢
    · exact ih h
    · cases hb : v.bestFit (v.podFits r) r.domain d with
      | none =>
        rw [hb] at h
        exact ih h
      | some taken => exact debited_chargeAll hb

theorem debited_place {r : ReplicaFit} (h : (v.place r).2 = true) :
    Debited v (v.place r).1 (r.pods : Multiset ℕ) := by
  unfold place at h ⊢
  split_ifs at h ⊢ with hne hex
  · refine ⟨rfl, 0, ?_, fun j => by simp⟩
    rw [← gpus_podFits v r, hne]
    rfl
  · exact debited_placeIn h
  · cases hb : v.bestFit (v.podFits r) r.domain "" with
    | none =>
      rw [hb] at h
      cases h
    | some taken => exact debited_chargeAll hb

end Placing

section Adopting

variable (v c : NodeView)

theorem slots_recordAdded : (v.recordAdded c).slots = v.slots :=
  List.foldlRecOn (motive := fun w : NodeView => w.slots = v.slots) _ _ rfl fun w hw i _ => by
    split_ifs
    · exact hw
    · exact hw

private theorem takeNew_fields (ids : List String) (w : NodeView) :
    (ids.foldl (fun v' id => if v'.domains.has id then v' else v'.takeDomain id) w).slots =
        w.slots ∧
      (ids.foldl (fun v' id => if v'.domains.has id then v' else v'.takeDomain id) w).debit =
        w.debit :=
  List.foldlRecOn (motive := fun w' : NodeView => w'.slots = w.slots ∧ w'.debit = w.debit) _ _
    ⟨rfl, rfl⟩ fun w' hw' id _ => by
      split_ifs
      · exact hw'
      · exact hw'

@[simp] theorem slots_adopt : (v.adopt c).slots = v.slots :=
  (takeNew_fields c.domains.keys _).1.trans (slots_recordAdded v c)

@[simp] theorem debit_adopt : (v.adopt c).debit = c.debit := (takeNew_fields c.domains.keys _).2

end Adopting

end LlmScaler.Nodes.NodeView
