import LlmScaler.Borrow.Frame

/-!
# Rolling back a unit

A try that fails is undone by `restore`, which puts back the view's debits and their owners and not
the topology domains it took. A replica that is refused takes none, so a try leaves a domain behind
only by the exclusive replicas it placed before the refusal.
-/

namespace LlmScaler.Borrow

open LlmScaler.Core LlmScaler.Nodes LlmScaler.Budget List

theorem length_podFits (v : NodeView) (r : ReplicaFit) :
    (v.podFits r).length = (r.pods.filter fun g => 0 < g).length := by
  unfold NodeView.podFits
  rw [((Sorting.byKey _).perm _).length_eq, length_map, ← countP_eq_length_filter,
    ← countP_eq_length_filter]
  conv_rhs => rw [← zipIdx_map_fst 0 r.pods, countP_map]
  rfl

theorem domains_place {v : NodeView} {r : ReplicaFit} (h : v.exclusive r = false) :
    (v.place r).1.domains = v.domains := by
  have hshared : ¬ v.exclusive r = true := by rw [h]; exact Bool.false_ne_true
  unfold NodeView.place
  rw [if_neg hshared]
  split_ifs
  · rfl
  · cases v.bestFit (v.podFits r) r.domain "" with
    | none => rfl
    | some taken => exact NodeView.domains_chargeAll taken

variable {bs : BorrowState} {v : String}

namespace ModelPlacer

variable (p : ModelPlacer)

/-- A replica of the variant must have a topology domain of the view to itself: it names a topology
label and more than one of its pods takes GPUs. -/
def exclusive (bs : BorrowState) (v : String) : Bool :=
  bs.nodes.isSome && (p.shapes v).topologyKey ≠ "" &&
    1 < ((p.replica bs v).pods.filter fun g => 0 < g).length

theorem replica_of_framed {bs' : BorrowState} (h : Framed bs bs') (v : String) :
    p.replica bs' v = p.replica bs v := by
  have hslots : bs'.nodes.map NodeView.slots = bs.nodes.map NodeView.slots := by
    have hmap := congrArg (Option.map Prod.fst) h.nodes
    rw [Option.map_map, Option.map_map] at hmap
    exact hmap
  unfold replica
  rw [hslots]

theorem exclusive_of_framed {bs' : BorrowState} (h : Framed bs bs') (v : String) :
    p.exclusive bs' v = p.exclusive bs v := by
  have hsome : bs'.nodes.isSome = bs.nodes.isSome := by
    have hmap := congrArg Option.isSome h.nodes
    simpa only [Option.isSome_map] using hmap
  unfold exclusive
  rw [hsome, p.replica_of_framed h]

/-- Only an exclusive variant's replica takes a domain, whatever flavor it is placed on. -/
theorem domains_placeOn (h : p.exclusive bs v = false) (flavor : Option FlavorPlacement) :
    (placeOn bs.nodes { p.replica bs v with flavor := flavor }).1.map NodeView.domains =
      bs.nodes.map NodeView.domains := by
  unfold exclusive at h
  generalize hr : ({ p.replica bs v with flavor := flavor } : ReplicaFit) = r
  have hpods : r.pods = (p.replica bs v).pods := by rw [← hr]
  have hdomain : r.domain = (p.shapes v).topologyKey := by rw [← hr]; rfl
  cases hn : bs.nodes with
  | none => rfl
  | some view =>
    apply congrArg some
    apply domains_place
    unfold NodeView.exclusive
    rw [length_podFits, hpods, hdomain]
    rw [hn] at h
    exact h

end ModelPlacer

theorem nodes_setLeft (bs : BorrowState) (ns : String) (ref : BorrowState.LeftRef)
    (f : NsBorrowLeft → NsBorrowLeft) : (bs.setLeft ns ref f).nodes = bs.nodes := by
  cases ref with
  | counted k => rfl
  | nominal k => rfl

theorem nodes_coGuaranteed (bs : BorrowState) (ns acc : String) (counted : Option String)
    (requests : GoMap String Int) (reclaim : Bool) :
    (bs.coGuaranteed ns acc counted requests reclaim).1.nodes = bs.nodes := by
  rcases coGuaranteed_cases bs ns acc counted requests reclaim with
    h | ⟨ref, h | ⟨r, kept, h, -⟩⟩ <;> rw [h]
  · exact nodes_setLeft bs ns ref _
  · exact nodes_setLeft bs ns ref _

variable {o : Order} {s : PassState}

namespace ModelPlacer

variable (p : ModelPlacer)

theorem nodes_growInto (bs : BorrowState) (ref : BorrowState.LeftRef) (o : Order)
    (took fromOwn : Reclaim) (onNode : Bool) :
    (p.growInto bs ref o took fromOwn onNode).nodes = bs.nodes := by
  unfold growInto
  dsimp only
  split_ifs
  · exact nodes_setLeft bs p.ns ref _
  · exact nodes_setLeft bs p.ns ref _

theorem nodes_commitGuaranteed (s : PassState) (bs : BorrowState) (o : Order)
    (nodes : Option NodeView) (onNode : Bool) :
    (p.commitGuaranteed s bs o nodes onNode).bs.nodes = nodes := by
  unfold commitGuaranteed
  dsimp only
  split
  · rw [nodes_growInto]
  · rfl

theorem domains_onQueueFlavor (h : p.exclusive bs v = false) :
    (placeOn bs.nodes (p.onQueueFlavor bs v)).1.map NodeView.domains =
      bs.nodes.map NodeView.domains := by
  unfold onQueueFlavor
  split
  next f _ => exact p.domains_placeOn h (some f)
  next => exact p.domains_placeOn h (p.replica bs v).flavor

theorem domains_placeReplica (h : p.exclusive s.bs o.variant = false) :
    (p.placeReplica s o).1.bs.nodes.map NodeView.domains =
      s.bs.nodes.map NodeView.domains := by
  unfold placeReplica
  split_ifs
  · have hframe : Framed s.bs (p.coSpent s o) := framed_coGuaranteed ..
    have hnodes : (p.coSpent s o).nodes = s.bs.nodes := nodes_coGuaranteed ..
    rw [← p.exclusive_of_framed hframe] at h
    rcases p.placeGuaranteed_cases s o with hcase | hcase
    · rw [hcase, hnodes]
    · rw [hcase, nodes_commitGuaranteed, p.domains_onQueueFlavor h, hnodes]
  · rcases p.placeBorrowed_cases s o with hcase | ⟨k, d, chunks, _, _, hdrawn, hcase⟩
    · rw [hcase]
    · obtain ⟨_, c, c', _, _, _, hc⟩ := updateFirst_eq_some hdrawn
      obtain ⟨_, _, _, _, _, hnodes, _⟩ := p.drawOn_eq_some hc
      rw [hcase]
      change d.nodes.map NodeView.domains = _
      rw [hnodes]
      exact p.domains_placeOn h _

theorem nodes_of_refused (h : (p.placeReplica s o).2 = .refused) :
    (p.placeReplica s o).1.bs.nodes = s.bs.nodes := by
  unfold placeReplica at h ⊢
  split_ifs at h ⊢
  · rcases p.placeGuaranteed_cases s o with hcase | hcase
    · rw [hcase]
      exact nodes_coGuaranteed _ _ _ _ _ _
    · rw [hcase] at h
      cases h
  · rcases p.placeBorrowed_cases s o with hcase | ⟨k, d, chunks, _, _, _, hcase⟩
    · rw [hcase]
    · rw [hcase] at h
      cases h

theorem restored_of_refused (h : (p.placeReplica s o).2 = .refused) :
    (p.placeReplica s o).1.restore s.save = s :=
  restore_save (p.framed_placeReplica s o) (by rw [p.nodes_of_refused h])

end ModelPlacer

namespace ModelPlacer

variable (p : ModelPlacer) (unit : PlaceUnit)

theorem placeOrders_cons (s : PassState) (o : Order) (os : List Order) :
    (p.placeOrders s (o :: os)).1 = if (p.placeReplica s o).2 = .refused then (p.placeReplica s o).1
      else (p.placeOrders (p.placeReplica s o).1 os).1 := by
  rw [placeOrders]
  split <;> simp [*]

theorem tryUnit_fst (s : PassState) (k : GoMap String ℕ) :
    (p.tryUnit unit s k).1 = (p.placeOrders s (p.orders unit k)).1 := by
  unfold tryUnit
  split
  next heq => rw [heq]
  next heq =>
    rw [heq]
    split_ifs
    · rfl
    · rfl

theorem rel_placeOrders {R : BorrowState → BorrowState → Prop} (hrefl : ∀ bs, R bs bs)
    (htrans : ∀ {a b c}, R a b → R b c → R a c)
    (hreplica : ∀ s o, R s.bs (p.placeReplica s o).1.bs) (s : PassState) (os : List Order) :
    R s.bs (p.placeOrders s os).1.bs := by
  induction os generalizing s with
  | nil => exact hrefl _
  | cons o os ih =>
    rw [placeOrders_cons]
    split_ifs
    · exact hreplica s o
    · exact htrans (hreplica s o) (ih _)

theorem framed_placeOrders (s : PassState) (os : List Order) :
    Framed s.bs (p.placeOrders s os).1.bs :=
  p.rel_placeOrders Framed.refl Framed.trans p.framed_placeReplica s os

theorem domains_placeOrders {os : List Order} (h : ∀ o ∈ os, p.exclusive s.bs o.variant = false) :
    (p.placeOrders s os).1.bs.nodes.map NodeView.domains = s.bs.nodes.map NodeView.domains := by
  induction os generalizing s with
  | nil => rfl
  | cons o os ih =>
    obtain ⟨ho, hos⟩ := forall_mem_cons.mp h
    rw [placeOrders_cons]
    split_ifs
    · exact p.domains_placeReplica ho
    · refine (ih fun o' ho' => ?_).trans (p.domains_placeReplica ho)
      rw [p.exclusive_of_framed (p.framed_placeReplica s o)]
      exact hos o' ho'

theorem placeOrders_length {s' : PassState} {os : List Order} {n : ℕ × ℕ}
    (h : p.placeOrders s os = (s', some n)) : n.1 + n.2 = os.length := by
  induction os generalizing s n with
  | nil =>
    cases h
    rfl
  | cons o os ih =>
    unfold placeOrders at h
    split at h
    next => cases h
    -- A replica placed either way adds one to its own count.
    all_goals
      obtain ⟨hs', hmap⟩ := Prod.mk.inj h
      obtain ⟨m, hm, rfl⟩ := Option.map_eq_some_iff.mp hmap
      have hlen := ih (Prod.ext hs' hm)
      dsimp only
      rw [length_cons]
      omega

theorem framed_tryUnit (s : PassState) (k : GoMap String ℕ) :
    Framed s.bs (p.tryUnit unit s k).1.bs := by
  rw [tryUnit_fst]
  exact p.framed_placeOrders s _

/-- No replica of the unit is exclusive, or there is one replica at most. -/
def RollsBack (bs : BorrowState) (k : GoMap String ℕ) : Prop :=
  (∀ role ∈ unit.picked, p.exclusive bs (unit.variantOf.get role) = false) ∨
    (p.orders unit k).length ≤ 1

variable {k : GoMap String ℕ}

theorem variant_of_mem_orders (h : o ∈ p.orders unit k) :
    ∃ role ∈ unit.picked, o.variant = unit.variantOf.get role := by
  obtain ⟨role, hrole, ho⟩ := mem_flatMap.mp h
  exact ⟨role, hrole, by rw [eq_of_mem_replicate ho]⟩

theorem restored_of_failed (hk : p.RollsBack unit s.bs k)
    (hfail : (p.tryUnit unit s k).2 ≠ .placed) :
    (p.tryUnit unit s k).1.restore s.save = s := by
  apply restore_save (p.framed_tryUnit unit s k)
  rw [tryUnit_fst]
  rcases hk with hshared | hone
  · apply p.domains_placeOrders
    intro o ho
    obtain ⟨role, hrole, hv⟩ := p.variant_of_mem_orders unit ho
    rw [hv]
    exact hshared role hrole
  · -- a lone replica fails only by being refused
    unfold tryUnit at hfail
    match hos : p.orders unit k with
    | [] => rfl
    | [o] =>
      rw [hos] at hfail
      unfold placeOrders at hfail ⊢
      split
      next s' heq =>
        have hrefused : (p.placeReplica s o).2 = .refused := by rw [heq]
        have hnodes := p.nodes_of_refused hrefused
        rw [heq] at hnodes
        rw [hnodes]
      next s' heq => simp [heq, placeOrders] at hfail
      next s' heq => simp [heq, placeOrders] at hfail
    | _ :: _ :: _ =>
      rw [hos] at hone
      simp at hone

theorem refused_of_holds {n : Int} (hholds : p.guaranteedHolds s v = true)
    (hfail : (p.placeReplica s ⟨v, n⟩).2 ≠ .guaranteed) :
    (p.placeReplica s ⟨v, n⟩).2 = .refused := by
  obtain ⟨_, hle⟩ := Bool.and_eq_true_iff.mp hholds
  unfold placeReplica at hfail ⊢
  rw [if_pos (of_decide_eq_true hle)] at hfail ⊢
  rcases p.placeGuaranteed_cases s ⟨v, n⟩ with hcase | hcase
  · rw [hcase]
  · rw [hcase] at hfail
    exact absurd rfl hfail

theorem le_fillRole (v : String) (todo n : ℕ) (s : PassState) : n ≤ (p.fillRole v todo n s).2 := by
  induction todo generalizing n s with
  | zero => exact le_refl n
  | succ todo ih =>
    unfold fillRole
    split_ifs
    · exact le_trans (Nat.le_succ n) (ih (n + 1) _)
    · exact le_refl n
    · exact le_refl n

theorem fillRole_none {todo : ℕ} (h : (p.fillRole v todo 0 s).2 = 0) :
    (p.fillRole v todo 0 s).1 = s := by
  cases todo with
  | zero => rfl
  | succ todo =>
    unfold fillRole at h ⊢
    split_ifs at h ⊢ with hholds hplaced
    · have hmore := p.le_fillRole v todo (0 + 1) (p.placeReplica s ⟨v, p.targets.get v + (0 : ℕ) + 1⟩).1
      omega
    · exact p.restored_of_refused (p.refused_of_holds hholds hplaced)
    · rfl

theorem fillGuaranteed_none {roles : List String} (h : (p.fillGuaranteed unit k roles s).2 = none) :
    (p.fillGuaranteed unit k roles s).1 = s := by
  induction roles with
  | nil => rfl
  | cons role roles ih =>
    unfold fillGuaranteed at h ⊢
    split_ifs at h ⊢ with hpartners hfilled
    · have hsame := p.fillRole_none hfilled
      rw [hsame] at h ⊢
      exact ih h
    · exact ih h

theorem largestRole_spec (h : p.largestRole unit k ≠ "") :
    p.largestRole unit k ∈ unit.picked ∧ 1 < k.get (p.largestRole unit k) := by
  unfold largestRole at h ⊢
  revert h
  refine foldlRecOn (motive := fun l => l ≠ "" → l ∈ unit.picked ∧ 1 < k.get l) _ _
    (fun h => absurd rfl h) fun l hl role hrole => ?_
  split_ifs with htake
  · exact fun _ => ⟨hrole, htake.1⟩
  · exact hl

theorem length_orders (k : GoMap String ℕ) :
    (p.orders unit k).length = (unit.picked.map fun role => k.get role).sum := by
  unfold orders
  rw [length_flatMap]
  simp only [length_replicate]

theorem rolledBack_none {u : UnitState} (hk : p.RollsBack unit u.pass.bs u.counts)
    (hfail : (p.tryUnit unit u.pass u.counts).2 ≠ .placed)
    (hnone : (p.rolledBack unit u).2 = none) : (p.rolledBack unit u).1 = u.pass := by
  have hrestored := p.restored_of_failed unit hk hfail
  unfold rolledBack at hnone ⊢
  rw [hrestored] at hnone ⊢
  split_ifs at hnone ⊢
  · exact p.fillGuaranteed_none unit hnone
  · rfl

theorem RollsBack.trim (hk : p.RollsBack unit bs k) (hrole : p.largestRole unit k ≠ "")
    (k' : GoMap String ℕ) : p.RollsBack unit bs k' := by
  rcases hk with hshared | hone
  · exact .inl hshared
  · obtain ⟨hmem, hmore⟩ := p.largestRole_spec unit hrole
    have hle : k.get (p.largestRole unit k) ≤ (unit.picked.map fun role => k.get role).sum :=
      single_le_sum (fun _ _ => Nat.zero_le _) _ (mem_map_of_mem hmem)
    rw [length_orders] at hone
    omega

/-- What one pass through the loop did. -/
inductive UnitPass (u : UnitState) : Pass UnitState → Prop
  | placed (h : (p.tryUnit unit u.pass u.counts).2 = .placed) :
      UnitPass u (.stop ⟨(p.tryUnit unit u.pass u.counts).1, u.counts, true⟩)
  | filled (h : (p.tryUnit unit u.pass u.counts).2 ≠ .placed) {k : GoMap String ℕ}
      (hfilled : (p.rolledBack unit u).2 = some k) :
      UnitPass u (.stop ⟨(p.rolledBack unit u).1, k, true⟩)
  | refused (h : (p.tryUnit unit u.pass u.counts).2 ≠ .placed)
      (hnone : (p.rolledBack unit u).2 = none) :
      UnitPass u (.stop ⟨(p.rolledBack unit u).1, u.counts, false⟩)
  | trimmed (h : (p.tryUnit unit u.pass u.counts).2 ≠ .placed)
      (hnone : (p.rolledBack unit u).2 = none) (hrole : p.largestRole unit u.counts ≠ "") :
      UnitPass u (.again ⟨(p.rolledBack unit u).1, u.counts.set (p.largestRole unit u.counts)
        (u.counts.get (p.largestRole unit u.counts) - 1), false⟩)

theorem unitBody_pass (u : UnitState) : p.UnitPass unit u (p.unitBody unit u) := by
  unfold unitBody
  by_cases hplaced : (p.tryUnit unit u.pass u.counts).2 = .placed
  · rw [if_pos hplaced]
    exact .placed hplaced
  · rw [if_neg hplaced]
    cases hfilled : (p.rolledBack unit u).2 with
    | some k => exact .filled hplaced hfilled
    | none =>
      by_cases hrole : p.largestRole unit u.counts = ""
      · simp only [if_pos hrole]
        exact .refused hplaced hfilled
      · simp only [if_neg hrole]
        exact .trimmed hplaced hfilled hrole

/-- The states a unit is tried in: the one it started from, with counts that roll back. -/
def TriedOn (s : PassState) (u : UnitState) : Prop := u.pass = s ∧ p.RollsBack unit s.bs u.counts

theorem triedOn_again {u u' : UnitState} (hu : p.TriedOn unit s u)
    (h : p.unitBody unit u = .again u') : p.TriedOn unit s u' := by
  obtain ⟨rfl, hk⟩ := hu
  have hpass := p.unitBody_pass unit u
  rw [h] at hpass
  cases hpass with
  | trimmed hfail hnone hrole =>
    exact ⟨p.rolledBack_none unit hk hfail hnone, hk.trim p unit hrole _⟩

theorem sum_trimmed (hrole : p.largestRole unit k ≠ "") :
    (unit.picked.map fun role =>
      (k.set (p.largestRole unit k) (k.get (p.largestRole unit k) - 1)).get role).sum <
      (unit.picked.map fun role => k.get role).sum := by
  obtain ⟨hmem, hmore⟩ := p.largestRole_spec unit hrole
  apply sum_lt_sum
  · intro role _
    rw [GoMap.get_set]
    split_ifs with heq
    · rw [heq]
      omega
    · exact le_refl _
  · refine ⟨p.largestRole unit k, hmem, ?_⟩
    rw [GoMap.get_set_self]
    omega

/-- The loop ends by its own return, since a unit has only so many replicas to give, and there what
every trim keeps still holds. -/
theorem placeUnit_returns {Inv : UnitState → Prop}
    (htrim : ∀ u u', Inv u → p.unitBody unit u = .again u' → Inv u') (h : Inv ⟨s, k, false⟩) :
    ∃ u, Inv u ∧ p.unitBody unit u = .stop (p.placeUnit unit s k) := by
  have hbody : ∀ u, Inv u → ∀ u', p.unitBody unit u = .again u' → Inv u' ∧
      (unit.picked.map fun role => u'.counts.get role).sum <
        (unit.picked.map fun role => u.counts.get role).sum := by
    intro u hu u' hagain
    refine ⟨htrim u u' hu hagain, ?_⟩
    have hpass := p.unitBody_pass unit u
    rw [hagain] at hpass
    cases hpass with
    | trimmed _ _ hrole => exact p.sum_trimmed unit hrole
  exact @loop_stops _ _ Inv (fun u => (unit.picked.map fun role => u.counts.get role).sum) hbody
    _ h _ (Nat.lt_succ_self _)

def tries (s : PassState) (k : GoMap String ℕ) : List UnitState :=
  loopStates (p.unitBody unit) ((unit.picked.map fun role => k.get role).sum + 1) ⟨s, k, false⟩

private def rackNode (name : String) : NodeSlot :=
  ⟨name, "H100", 8, 0, false, [], GoMap.set ∅ "rack" "a", false⟩

/-- A pass with two such nodes and nothing to borrow. -/
private def rackPass : PassState where
  bs := ⟨∅, ∅, ∅, [], ∅, some (NodeView.new [rackNode "n1", rackNode "n2"] none), [], ∅, ∅, [], [],
    fun _ _ _ => false, fun _ _ _ => false, fun _ _ => false, ∅⟩
  guaranteed := none

/-- A placer of replicas of two pods of two GPUs each, with the given topology label. -/
private def podsPlacer (topologyKey : String) : ModelPlacer where
  ns := "x"
  modelID := "m"
  borrows := false
  targets := ∅
  shapes := fun _ => ⟨"H100", [2, 2], 4, [], topologyKey, [], ∅, ""⟩

private def oneRole : PlaceUnit := ⟨["both"], GoMap.set ∅ "both" "v", nodup_singleton _⟩

end ModelPlacer

end LlmScaler.Borrow
