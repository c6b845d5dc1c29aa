import LlmScaler.Nodes.Debits

/-!
# How many replicas fit

`fits` counts the replicas of a shape that the nodes hold without placing them: whole pods per node
when a replica is one pod, placements on a clone otherwise. Both are the placements that succeed in
a row: placing a pod takes exactly one from the whole pods its node holds, wherever the best fit
puts it, and a pod has no node exactly when no node holds a whole one.
-/

namespace LlmScaler.Nodes.NodeView

open LlmScaler.Core List

/-- The loop of `fits` over the nodes: whole pods per node, added up to `n`. -/
def wholePods (v : NodeView) (need n : ℕ) : List ℕ → ℕ → ℕ
  | [], count => count
  | i :: nodes, count =>
    if n ≤ count + (v.free i).toNat / need then n
    else wholePods v need n nodes (count + (v.free i).toNat / need)

/-- The loop of `fits` over placements on a trial copy, with the number placed. -/
def placeUpTo (r : ReplicaFit) (n : ℕ) : ℕ → NodeView → ℕ → ℕ
  | 0, _, _ => n
  | left + 1, trial, i =>
    match trial.place r with
    | (_, false) => i
    | (trial', true) => placeUpTo r n left trial' (i + 1)

/-- `fits`: how many of up to `n` replicas fit the nodes together, with the view after. -/
def fits (v : NodeView) (r : ReplicaFit) (n : ℕ) : ℕ × NodeView :=
  if n = 0 then (n, v)
  else
    match r.pods with
    | [need] =>
      if need = 0 then (n, v)
      else (v.wholePods need n (eligibleFor v.slots r (podTemplates r 0)) 0, v)
    | _ => (placeUpTo r n n v.clone 0, v)

/-- The placements of a replica that succeed in a row, of `n`. -/
def placedInRow (r : ReplicaFit) : ℕ → NodeView → ℕ
  | 0, _ => 0
  | n + 1, v =>
    match v.place r with
    | (_, false) => 0
    | (v', true) => placedInRow r n v' + 1

theorem placeUpTo_eq (r : ReplicaFit) {n left i : ℕ} (h : left + i = n) (v : NodeView) :
    placeUpTo r n left v i = i + placedInRow r left v := by
  induction left generalizing i v with
  | zero =>
    rw [placeUpTo, placedInRow]
    omega
  | succ left ih =>
    rw [placeUpTo, placedInRow]
    rcases v.place r with ⟨v', placed⟩
    cases placed with
    | false => rfl
    | true =>
      simp only
      rw [ih (by omega)]
      omega

def podsHeld (v : NodeView) (need : ℕ) (nodes : List ℕ) : ℕ :=
  (nodes.map fun i => (v.free i).toNat / need).sum

theorem wholePods_eq (v : NodeView) (need n : ℕ) (nodes : List ℕ) {count : ℕ} (h : count ≤ n) :
    v.wholePods need n nodes count = min n (count + v.podsHeld need nodes) := by
  unfold podsHeld
  induction nodes generalizing count with
  | nil =>
    rw [wholePods, map_nil, sum_nil, Nat.add_zero, min_eq_right h]
  | cons i nodes ih =>
    rw [wholePods, map_cons, sum_cons]
    split_ifs with hfull
    · rw [min_eq_left (by omega)]
    · rw [ih (by omega), Nat.add_assoc]

section OnePod

variable {v : NodeView} {need : ℕ}

theorem exists_hole {taken : GoMap ℕ Int} {key : String} {nodes : List ℕ} {i : ℕ} (hi : i ∈ nodes)
    (hfree : (need : Int) ≤ v.free i - taken.get i) (best : Option (ℕ × Int)) :
    nodes.foldl (v.betterHole taken need key "") best ≠ none := by
  refine foldl_establishes (P := fun i best => (need : Int) ≤ v.free i - taken.get i → best ≠ none)
    (fun i best j hbest hfree => ?_) (fun best i hfree => ?_) nodes best i hi hfree
  · unfold betterHole
    cases best with
    | none => exact absurd rfl (hbest hfree)
    | some b =>
      dsimp only
      split_ifs <;> simp
  · unfold betterHole
    rw [if_neg (fun h => h.1 rfl), if_neg (not_lt.mpr hfree)]
    cases best with
    | none => simp
    | some b =>
      dsimp only
      split_ifs <;> simp

theorem smallestHole_mem {taken : GoMap ℕ Int} {p : PodFit} {key domain : String} {i : ℕ} {f : Int}
    (h : v.smallestHole taken p key domain = some (i, f)) : i ∈ p.nodes := by
  revert h
  refine foldlRecOn (motive := fun best => best = some (i, f) → i ∈ p.nodes) _ _ nofun
    fun best hbest j hj hstep => ?_
  unfold betterHole at hstep
  split_ifs at hstep
  · exact hbest hstep
  · exact hbest hstep
  · cases best with
    | none =>
      cases hstep
      exact hj
    | some b =>
      dsimp only at hstep
      split_ifs at hstep
      · exact hbest hstep
      · cases hstep
        exact hj

theorem free_chargeAll {taken : GoMap ℕ Int} {j : ℕ} (h0 : 0 ≤ taken.get j)
    (hle : taken.get j ≤ v.free j) : (v.chargeAll taken).free j = v.free j - taken.get j := by
  unfold free at *
  rw [slots_chargeAll, debit_chargeAll]
  omega

theorem podsHeld_take {v' : NodeView} (hneed : 0 < need) {nodes : List ℕ} (hnodup : nodes.Nodup)
    {i : ℕ} (hi : i ∈ nodes) (hfree : (need : Int) ≤ v.free i)
    (htaken : v'.free i = v.free i - need) (hother : ∀ j, j ≠ i → v'.free j = v.free j) :
    v.podsHeld need nodes = v'.podsHeld need nodes + 1 := by
  refine sum_map_add_at id (by rwa [map_id]) hi (fun j _ hj => ?_) ?_
  · rw [hother j hj]
  · have hsplit : (v.free i).toNat = (v'.free i).toNat + need := by omega
    rw [hsplit, Nat.add_div_right _ hneed]

variable {r : ReplicaFit} (hpods : r.pods = [need]) (hneed : 0 < need)

include hpods hneed

theorem podFits_single (v : NodeView) :
    v.podFits r = [⟨need, eligibleFor v.slots r (podTemplates r 0)⟩] := by
  simp [podFits, hpods, hneed, Sorting.byKey]

/-- Placing a replica of one pod: it lands where a whole pod is held, or no node holds one. -/
theorem place_single (v : NodeView) :
    (∃ i ∈ eligibleFor v.slots r (podTemplates r 0), (need : Int) ≤ v.free i ∧
      v.place r = (v.chargeAll ((∅ : GoMap ℕ Int).modify i fun n => n + need), true)) ∨
    ((∀ i ∈ eligibleFor v.slots r (podTemplates r 0), v.free i < need) ∧
      v.place r = (v, false)) := by
  have hpod := podFits_single hpods hneed v
  have hnot : v.exclusive r = false := by
    rw [exclusive, hpod]
    simp
  have hsome : v.podFits r ≠ [] := by
    rw [hpod]
    exact cons_ne_nil _ _
  rw [place, if_neg hsome, if_neg (Bool.eq_false_iff.mp hnot), hpod, bestFit, bestFitFrom]
  cases hhole : v.smallestHole ∅ ⟨need, eligibleFor v.slots r (podTemplates r 0)⟩ r.domain "" with
  | none =>
    refine .inr ⟨fun i hi => ?_, rfl⟩
    by_contra hlt
    have hfree : (need : Int) ≤ v.free i - (∅ : GoMap ℕ Int).get i := by simpa using hlt
    exact exists_hole hi hfree none hhole
  | some best =>
    obtain ⟨i, f⟩ := best
    have hfree := (smallestHole_spec hhole).1
    exact .inl ⟨i, smallestHole_mem hhole, by simpa using hfree, rfl⟩

omit hpods hneed in
theorem nodup_eligibleFor (slots : List NodeSlot) (r : ReplicaFit)
    (templates : List PodPlacement) : (eligibleFor slots r templates).Nodup := by
  have hrange : ∀ tolerations, (eligible slots r.acc tolerations false).Nodup :=
    fun _ => nodup_range.filter _
  unfold eligibleFor
  split
  · split_ifs
    · exact hrange _
    · exact (hrange _).filter _
  · exact (hrange _).filter _

theorem placedInRow_single (n : ℕ) (v : NodeView) :
    placedInRow r n v = min n (v.podsHeld need (eligibleFor v.slots r (podTemplates r 0))) := by
  induction n generalizing v with
  | zero => simp [placedInRow]
  | succ n ih =>
    rw [placedInRow]
    rcases place_single hpods hneed v with ⟨i, hi, hfree, hplace⟩ | ⟨hnone, hplace⟩
    · have hget : ∀ j, ((∅ : GoMap ℕ Int).modify i fun n => n + need).get j =
          if j = i then (need : Int) else 0 := by
        intro j
        rw [GoMap.get_modify]
        simp
      have htaken : ∀ j, (v.chargeAll ((∅ : GoMap ℕ Int).modify i fun n => n + need)).free j =
          v.free j - if j = i then (need : Int) else 0 := by
        intro j
        rw [← hget]
        apply free_chargeAll
        · rw [hget]
          split_ifs <;> omega
        · rw [hget]
          split_ifs with hj
          · rw [hj]
            exact hfree
          · exact v.free_nonneg j
      have hheld := podsHeld_take hneed (nodup_eligibleFor v.slots r _) hi hfree
        (by rw [htaken, if_pos rfl]) fun j hj => by rw [htaken, if_neg hj, Int.sub_zero]
      rw [hplace]
      simp only
      rw [ih, slots_chargeAll, hheld]
      omega
    · rw [hplace]
      simp only
      have hzero : v.podsHeld need (eligibleFor v.slots r (podTemplates r 0)) = 0 := by
        refine sum_eq_zero (forall_mem_map.mpr fun i hi => ?_)
        have := hnone i hi
        exact Nat.div_eq_of_lt (by omega)
      rw [hzero, Nat.min_zero]

end OnePod

theorem place_of_no_pods {r : ReplicaFit} {v : NodeView} (h : v.podFits r = []) :
    v.place r = (v, true) := if_pos h

theorem placedInRow_of_no_pods {r : ReplicaFit} {v : NodeView} (h : v.podFits r = []) (n : ℕ) :
    placedInRow r n v = n := by
  induction n with
  | zero => rfl
  | succ n ih =>
    rw [placedInRow, place_of_no_pods h]
    simp only [ih]

/-- The replicas that fit are the placements that succeed in a row on a copy, and the view stays as
it was. -/
theorem fits_eq_placedInRow (v : NodeView) (r : ReplicaFit) (n : ℕ) :
    v.fits r n = (placedInRow r n v.clone, v) := by
  unfold fits
  split_ifs with hn
  · rw [hn]
    rfl
  · split
    next need hpods =>
      split_ifs with hneed
      · have hnone : v.clone.podFits r = [] := by
          rw [podFits, hpods, hneed]
          rfl
        rw [placedInRow_of_no_pods hnone]
      · rw [wholePods_eq v need n _ (Nat.zero_le n), Nat.zero_add,
          placedInRow_single hpods (Nat.pos_of_ne_zero hneed)]
        rfl
    next =>
      rw [placeUpTo_eq r (Nat.add_zero n), Nat.zero_add]

end LlmScaler.Nodes.NodeView
