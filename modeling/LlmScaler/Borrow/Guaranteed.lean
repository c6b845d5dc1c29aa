import LlmScaler.Budget.Spend
import LlmScaler.Borrow.Spend

/-!
# What placements use of the guaranteed budget

A placer spends the guaranteed figure of the one key an accelerator resolves to: whole replicas
within it, and the rest of it with the first replica past it. What was placed without a draw, the
GPUs of the replicas less the GPUs drawn, therefore comes off that key's figure, and off no other
key that covers it.
-/

namespace LlmScaler.Borrow

open LlmScaler.Core LlmScaler.Nodes LlmScaler.Accelerator LlmScaler.Budget List GoMap

theorem figureAt_set (g : Figures) (k : String) (n : ℕ∞) (k' : String) :
    figureAt (g.set k n) k' = if k' = k then n else figureAt g k' := by
  unfold figureAt
  rw [find?_set]
  split_ifs
  · rfl
  · rfl

variable {g : Figures}

theorem figureAt_of_not_mem {k : String} (h : k ∉ g.keys) : figureAt g k = 0 := by
  unfold figureAt
  cases hfound : g.find? k with
  | none => rfl
  | some n => exact absurd (mem_keys.mpr ⟨n, hfound⟩) h

structure Used (g g' : Figures) (net : String → Int) : Prop where
  keys : ∀ k ∈ g.keys, k ∈ g'.keys
  mono : ∀ k, figureAt g' k ≤ figureAt g k
  used : ∀ k (n : ℕ), figureAt g k = n → ∃ m : ℕ, figureAt g' k = m ∧ net k + m ≤ n

theorem Used.refl (g : Figures) : Used g g fun _ => 0 :=
  ⟨fun _ h => h, fun _ => le_refl _, fun _ n hn => ⟨n, hn, by omega⟩⟩

variable {net : String → Int}

theorem Used.trans {g' g'' : Figures} {net' : String → Int} (h : Used g g' net)
    (h' : Used g' g'' net') : Used g g'' fun k => net k + net' k where
  keys := fun k hk => h'.keys k (h.keys k hk)
  mono := fun k => (h'.mono k).trans (h.mono k)
  used := by
    intro k n hn
    obtain ⟨m, hm, hle⟩ := h.used k n hn
    obtain ⟨m', hm', hle'⟩ := h'.used k m hm
    exact ⟨m', hm', by omega⟩

/-- A working copy of a budget: it has the budget's keys, and what a draw added holds nothing. -/
structure Working (b g : Figures) : Prop where
  keys : ∀ k ∈ b.keys, k ∈ g.keys
  added : ∀ k ∉ b.keys, figureAt g k = 0

theorem Working.refl (b : Figures) : Working b b :=
  ⟨fun _ h => h, fun _ h => figureAt_of_not_mem h⟩

variable {b : Figures}

theorem Working.used {g' : Figures} (h : Working b g) (hu : Used g g' net) : Working b g' where
  keys := fun k hk => hu.keys k (h.keys k hk)
  added := by
    intro k hk
    have hle := hu.mono k
    rw [h.added k hk] at hle
    exact nonpos_iff_eq_zero.mp hle

theorem Working.budgetKey_eq (h : Working b g) {acc : String}
    (hne : figureAt g (budgetKey g acc) ≠ 0) : budgetKey g acc = budgetKey b acc := by
  have hmem : budgetKey g acc ∈ b.keys := by
    by_contra hnot
    exact hne (h.added _ hnot)
  unfold budgetKey at hmem hne ⊢
  cases hfound : findBudgetKey g acc with
  | some k =>
    rw [hfound] at hmem
    rw [findBudgetKey_of_subset h.keys hfound hmem]
  | none =>
    rw [hfound] at hmem
    have hhas : g.has acc = true := has_iff_mem_keys.mpr (h.keys _ hmem)
    rw [findBudgetKey, if_pos hhas] at hfound
    cases hfound

theorem used_set {key : String} {x : ℕ∞} (hle : x ≤ figureAt g key) (hother : ∀ k ≠ key, net k ≤ 0)
    (hat : ∀ n : ℕ, figureAt g key = n → ∃ m : ℕ, x = m ∧ net key + m ≤ n) :
    Used g (g.set key x) net where
  keys := fun k hk => mem_keys_set.mpr (.inr hk)
  mono := by
    intro k
    rw [figureAt_set]
    split_ifs with hkey
    · rwa [hkey]
    · exact le_rfl
  used := by
    intro k n hn
    rw [figureAt_set]
    by_cases hkey : k = key
    · rw [if_pos hkey]
      rw [hkey] at hn ⊢
      exact hat n hn
    · rw [if_neg hkey]
      have hnet := hother k hkey
      exact ⟨n, hn, by omega⟩

theorem VariantShape.gpus_pos (v : VariantShape) : 0 < v.gpus := by
  unfold VariantShape.gpus
  split_ifs with h
  · exact h
  · exact Nat.one_pos

namespace ModelPlacer

variable (p : ModelPlacer)

/-- The key of a budget a variant's replicas are spent from. -/
def keyOf (b : Figures) (v : String) : String := budgetKey b (p.shapes v).accelerator

/-- The GPUs placed without a draw under the keys that pass a test: those of the replicas, less
those drawn. -/
def withoutDraw (b : Figures) (replicas : List String) (draws : List BorrowDraw)
    (test : String → Bool) : Int :=
  sumIf (fun v => test (p.keyOf b v)) (fun v => ((p.shapes v).gpus : Int)) replicas -
    sumIf (fun d => test (p.keyOf b d.variant)) BorrowDraw.gpus draws

theorem withoutDraw_append (b : Figures) (vs vs' : List String) (ds ds' : List BorrowDraw)
    (test : String → Bool) :
    p.withoutDraw b (vs ++ vs') (ds ++ ds') test =
      p.withoutDraw b vs ds test + p.withoutDraw b vs' ds' test := by
  unfold withoutDraw
  rw [sumIf_append, sumIf_append]
  omega

theorem withoutDraw_congr {replicas : List String} {draws : List BorrowDraw}
    (hdraws : ∀ d ∈ draws, d.variant ∈ replicas) {test test' : String → Bool}
    (h : ∀ v ∈ replicas, test (p.keyOf b v) = test' (p.keyOf b v)) :
    p.withoutDraw b replicas draws test = p.withoutDraw b replicas draws test' := by
  unfold withoutDraw
  rw [sumIf_congr h fun _ _ _ => rfl,
    sumIf_congr (fun d hd => h d.variant (hdraws d hd)) fun _ _ _ => rfl]

theorem withoutDraw_one (b : Figures) (v : String) (draws : List BorrowDraw)
    (hdraws : ∀ d ∈ draws, d.variant = v) (test : String → Bool) :
    p.withoutDraw b [v] draws test =
      if test (p.keyOf b v) then ((p.shapes v).gpus : Int) - (draws.map BorrowDraw.gpus).sum
      else 0 := by
  unfold withoutDraw
  rw [sumIf_cons, sumIf_nil]
  have hsum : sumIf (fun d => test (p.keyOf b d.variant)) BorrowDraw.gpus draws =
      if test (p.keyOf b v) then (draws.map BorrowDraw.gpus).sum else 0 := by
    unfold sumIf
    split_ifs with htest
    · rw [filter_eq_self.mpr fun d hd => by rw [hdraws d hd, htest]]
    · rw [filter_eq_nil_iff.mpr fun d hd => by rwa [hdraws d hd]]
      rfl
  rw [hsum]
  split_ifs <;> omega

/-- Replicas were placed: what of them was not drawn came off the guaranteed figure of their
key. -/
def Placed (b : Figures) (s s' : PassState) (replicas : List String) : Prop :=
  ∀ g, s.guaranteed = some g → Working b g → ∃ g' new, s'.guaranteed = some g' ∧
    s'.bs.draws = s.bs.draws ++ new ∧ (∀ d ∈ new, d.variant ∈ replicas ∧ 0 ≤ d.gpus) ∧
    Used g g' fun key => p.withoutDraw b replicas new (· == key)

variable {p} {b : Figures} {s s' s'' : PassState}

theorem Placed.of_same (h : SameButNodes s s') : p.Placed b s s' [] := by
  obtain ⟨nodes, rfl⟩ := h
  intro g hg _
  exact ⟨g, [], hg, (append_nil _).symm, by simp, Used.refl g⟩

theorem Placed.trans {vs vs' : List String} (h : p.Placed b s s' vs) (h' : p.Placed b s' s'' vs') :
    p.Placed b s s'' (vs ++ vs') := by
  intro g hg hw
  obtain ⟨g', new, hg', hdraws, hnew, hused⟩ := h g hg hw
  obtain ⟨g'', new', hg'', hdraws', hnew', hused'⟩ := h' g' hg' (hw.used hused)
  refine ⟨g'', new ++ new', hg'', ?_, ?_, ?_⟩
  · rw [hdraws', hdraws, append_assoc]
  · intro d hd
    rcases mem_append.mp hd with hd | hd
    · exact ⟨mem_append_left _ (hnew d hd).1, (hnew d hd).2⟩
    · exact ⟨mem_append_right _ (hnew' d hd).1, (hnew' d hd).2⟩
  · simp only [withoutDraw_append]
    exact hused.trans hused'

variable (p)

variable {o : Order}

theorem placed_commitGuaranteed {bs : BorrowState} {nodes : Option NodeView} {onNode : Bool}
    (hdraws : (p.commitGuaranteed s bs o nodes onNode).bs.draws = s.bs.draws)
    (hfits : ((p.shapes o.variant).gpus : ℕ∞) ≤
      guaranteedLeft s.guaranteed (p.shapes o.variant).accelerator) :
    p.Placed b s (p.commitGuaranteed s bs o nodes onNode) [o.variant] := by
  intro g hg hw
  have hpos := (p.shapes o.variant).gpus_pos
  have hleft : guaranteedLeft s.guaranteed (p.shapes o.variant).accelerator =
      figureAt g (p.keyOf g o.variant) := by
    rw [hg]
    rfl
  rw [hleft] at hfits
  have hkey : p.keyOf g o.variant = p.keyOf b o.variant := by
    refine hw.budgetKey_eq fun hzero => ?_
    rw [keyOf, hzero, nonpos_iff_eq_zero, Nat.cast_eq_zero] at hfits
    omega
  have hnet : (fun key => p.withoutDraw b [o.variant] [] (· == key)) =
      fun key => if p.keyOf g o.variant = key then ((p.shapes o.variant).gpus : Int) else 0 := by
    funext key
    rw [withoutDraw_one p b o.variant [] (by simp), hkey]
    simp
  by_cases htop : figureAt g (p.keyOf g o.variant) = ⊤
  · -- an unbounded figure stays as it is
    refine ⟨g, [], ?_, by rw [hdraws, append_nil], by simp, ?_⟩
    · unfold commitGuaranteed
      rw [hleft, if_pos htop, hg]
    · rw [hnet]
      refine ⟨fun _ h => h, fun _ => le_rfl, fun k n hn => ⟨n, hn, ?_⟩⟩
      rw [if_neg (by rintro rfl; rw [htop] at hn; cases hn)]
      omega
  · refine ⟨g.set (p.keyOf g o.variant)
      (figureAt g (p.keyOf g o.variant) - (p.shapes o.variant).gpus), [], ?_,
      by rw [hdraws, append_nil], by simp, ?_⟩
    · unfold commitGuaranteed
      rw [hleft, if_neg htop, hg]
      rfl
    · rw [hnet]
      apply used_set tsub_le_self
      · intro k hk
        rw [if_neg (Ne.symm hk)]
      · intro n hn
        rw [hn] at hfits ⊢
        have hle : (p.shapes o.variant).gpus ≤ n := Nat.cast_le.mp hfits
        refine ⟨n - (p.shapes o.variant).gpus, (ENat.natCast_sub _ _).symm, ?_⟩
        rw [if_pos rfl]
        omega

theorem placed_commitDraw {k : String} {d : Drawn} {chunks : List SharedPoolChunk}
    (hpast : ¬ ((p.shapes o.variant).gpus : ℕ∞) ≤
      guaranteedLeft s.guaranteed (p.shapes o.variant).accelerator) :
    p.Placed b s (p.commitDraw s o k (p.past s o.variant) d chunks) [o.variant] := by
  intro g hg hw
  have hleft : guaranteedLeft s.guaranteed (p.shapes o.variant).accelerator =
      figureAt g (p.keyOf g o.variant) := by
    rw [hg]
    rfl
  obtain ⟨left, hn, hlt, hneed⟩ := p.past_eq hpast
  rw [hleft] at hn
  have hnet : (fun key => p.withoutDraw b [o.variant]
      [p.drawOf o (p.past s o.variant) d] (· == key)) =
      fun key => if p.keyOf b o.variant = key then (left : Int) else 0 := by
    funext key
    rw [withoutDraw_one p b o.variant _ (by
      intro d' hd'
      rw [mem_singleton.mp hd']
      rfl), hneed]
    simp only [map_cons, map_nil, sum_cons, sum_nil, beq_iff_eq, drawOf]
    split_ifs <;> omega
  have hkey : left ≠ 0 → p.keyOf g o.variant = p.keyOf b o.variant := by
    intro hne
    refine hw.budgetKey_eq fun hzero => hne ?_
    rw [keyOf, hzero] at hn
    exact Nat.cast_eq_zero.mp hn.symm
  refine ⟨g.set (p.keyOf g o.variant) 0, [p.drawOf o (p.past s o.variant) d], ?_, rfl, ?_, ?_⟩
  · unfold commitDraw setGuaranteed
    rw [hg]
    rfl
  · intro d' hd'
    rw [mem_singleton.mp hd']
    exact ⟨mem_singleton.mpr rfl, Int.natCast_nonneg _⟩
  · rw [hnet]
    apply used_set zero_le
    · intro key hne
      split_ifs with heq
      · by_cases hzero : left = 0
        · omega
        · exact absurd ((hkey hzero).trans heq).symm hne
      · exact le_refl _
    · intro n hfigure
      rw [hn, Nat.cast_inj] at hfigure
      refine ⟨0, rfl, ?_⟩
      split_ifs <;> omega

theorem placed_placeReplica (h : (p.placeReplica s o).2 ≠ .refused) :
    p.Placed b s (p.placeReplica s o).1 [o.variant] := by
  unfold placeReplica at h ⊢
  by_cases hfits : ((p.shapes o.variant).gpus : ℕ∞) ≤
      guaranteedLeft s.guaranteed (p.shapes o.variant).accelerator
  · rw [if_pos hfits] at h ⊢
    have hspent : Spent (fun _ _ => p.shapes) s.bs (p.placeGuaranteed s o).1.bs [] :=
      p.spent_placeGuaranteed s o
    have hdraws := hspent.draws
    rcases p.placeGuaranteed_cases s o with hcase | hcase
    · rw [hcase] at h
      exact absurd rfl h
    · rw [hcase, append_nil] at hdraws
      rw [hcase]
      exact p.placed_commitGuaranteed hdraws hfits
  · rw [if_neg hfits] at h ⊢
    rcases p.placeBorrowed_cases s o with hcase | ⟨k, d, chunks, _, _, _, hcase⟩
    · rw [hcase] at h
      exact absurd rfl h
    · rw [hcase]
      exact p.placed_commitDraw hfits

theorem placed_placeOrders {os : List Order} {n : ℕ × ℕ} (h : (p.placeOrders s os).2 = some n) :
    p.Placed b s (p.placeOrders s os).1 (os.map Order.variant) := by
  induction os generalizing s n with
  | nil => exact Placed.of_same ⟨s.bs.nodes, rfl⟩
  | cons o os ih =>
    have hfirst := p.placed_placeReplica (b := b) (s := s) (o := o)
    unfold placeOrders at h ⊢
    split at h
    next => cases h
    next s' heq =>
      rw [heq] at hfirst
      obtain ⟨m, hm, _⟩ := Option.map_eq_some_iff.mp h
      exact (hfirst (by simp)).trans (ih hm)
    next s' heq =>
      rw [heq] at hfirst
      obtain ⟨m, hm, _⟩ := Option.map_eq_some_iff.mp h
      exact (hfirst (by simp)).trans (ih hm)

variable {k : GoMap String ℕ}

theorem placed_tryUnit (unit : PlaceUnit) (h : (p.tryUnit unit s k).2 = .placed) :
    p.Placed b s (p.tryUnit unit s k).1 ((p.orders unit k).map Order.variant) := by
  unfold tryUnit at h ⊢
  split at h
  next => cases h
  next s' n heq =>
    have hall : p.Placed b s (p.placeOrders s (p.orders unit k)).1 _ :=
      p.placed_placeOrders (n := n) (by rw [heq])
    rw [heq] at hall
    split_ifs at h ⊢
    exact hall

theorem placed_fillRole (v : String) (todo n : ℕ) (s : PassState) :
    ∃ m, (p.fillRole v todo n s).2 = n + m ∧
      p.Placed b s (p.fillRole v todo n s).1 (List.replicate m v) := by
  induction todo generalizing n s with
  | zero => exact ⟨0, rfl, Placed.of_same ⟨s.bs.nodes, rfl⟩⟩
  | succ todo ih =>
    unfold fillRole
    split_ifs with hholds hplaced
    · obtain ⟨m, hm, hrest⟩ := ih (n + 1) (p.placeReplica s ⟨v, p.targets.get v + n + 1⟩).1
      have hfirst := p.placed_placeReplica (b := b) (s := s) (o := ⟨v, p.targets.get v + n + 1⟩)
        (by rw [hplaced]; decide)
      exact ⟨m + 1, by omega, hfirst.trans hrest⟩
    · exact ⟨0, rfl, Placed.of_same (sameButNodes_restore (p.framed_placeReplica s _))⟩
    · exact ⟨0, rfl, Placed.of_same ⟨s.bs.nodes, rfl⟩⟩

variable (unit : PlaceUnit)

theorem orders_of_one {role : String} (hrole : role ∈ unit.picked)
    (hother : ∀ r ∈ unit.picked, r ≠ role → k.get r = 0) :
    (p.orders unit k).map Order.variant =
      List.replicate (k.get role) (unit.variantOf.get role) := by
  unfold orders
  rw [flatMap_eq_of_nodup unit.nodup hrole, map_replicate]
  intro r hr hne
  rw [hother r hr hne, replicate_zero]

theorem placed_fillGuaranteed {k' : GoMap String ℕ} {roles : List String}
    (hroles : ∀ r ∈ roles, r ∈ unit.picked) {s : PassState}
    (h : (p.fillGuaranteed unit k roles s).2 = some k') :
    p.Placed b s (p.fillGuaranteed unit k roles s).1 ((p.orders unit k').map Order.variant) := by
  induction roles generalizing s with
  | nil => cases h
  | cons role roles ih =>
    rw [forall_mem_cons] at hroles
    unfold fillGuaranteed at h ⊢
    split_ifs at h ⊢ with hpartners hnone
    · have hsame := p.fillRole_none hnone
      rw [hsame] at h ⊢
      exact ih hroles.2 h
    · obtain ⟨m, hm, hplaced⟩ :=
        p.placed_fillRole (b := b) (unit.variantOf.get role) (k.get role) 0 s
      have hget : k'.get role = m := by
        rw [← Option.some_inj.mp h, get_set_self, hm, Nat.zero_add]
      have hother : ∀ r ∈ unit.picked, r ≠ role → k'.get r = 0 := by
        intro r hr hne
        rw [← Option.some_inj.mp h, get_set, if_neg hne, get_mapValues]
        cases k.find? r with
        | none => rfl
        | some n => simp [hr]
      rw [p.orders_of_one unit hroles.1 hother, hget]
      exact hplaced
    · exact ih hroles.2 h

theorem placed_rolledBack {u : UnitState} (h : (p.rolledBack unit u).2 = some k) :
    p.Placed b u.pass (p.rolledBack unit u).1 ((p.orders unit k).map Order.variant) := by
  have hrestored : p.Placed b u.pass ((p.tryUnit unit u.pass u.counts).1.restore u.pass.save) [] :=
    Placed.of_same (sameButNodes_restore (p.framed_tryUnit unit u.pass u.counts))
  unfold rolledBack at h ⊢
  split_ifs at h ⊢
  exact hrestored.trans (p.placed_fillGuaranteed unit (fun _ h => h) h)

theorem sameButNodes_rolledBack {u : UnitState} (h : (p.rolledBack unit u).2 = none) :
    SameButNodes u.pass (p.rolledBack unit u).1 := by
  have hrestored := sameButNodes_restore (p.framed_tryUnit unit u.pass u.counts)
  unfold rolledBack at h ⊢
  split_ifs at h ⊢
  · rw [p.fillGuaranteed_none unit h]
    exact hrestored
  · exact hrestored

/-- The replicas a call of `placeUnit` committed. -/
def committed (u : UnitState) : List String :=
  if u.placed then (p.orders unit u.counts).map Order.variant else []

theorem placed_placeUnit (s : PassState) (k : GoMap String ℕ) :
    p.Placed b s (p.placeUnit unit s k).pass (p.committed unit (p.placeUnit unit s k)) := by
  have htrim : ∀ u u', SameButNodes s u.pass → p.unitBody unit u = .again u' →
      SameButNodes s u'.pass := by
    intro u u' hu hagain
    have hpass := p.unitBody_pass unit u
    rw [hagain] at hpass
    cases hpass with
    | trimmed _ hnone _ => exact hu.trans (p.sameButNodes_rolledBack unit hnone)
  obtain ⟨u, hu, hstop⟩ := p.placeUnit_returns unit htrim ⟨s.bs.nodes, rfl⟩
  have hpass := p.unitBody_pass unit u
  rw [hstop] at hpass
  have hsame : p.Placed b s u.pass [] := Placed.of_same hu
  generalize p.placeUnit unit s k = result at hpass ⊢
  cases hpass with
  | placed hplaced => exact hsame.trans (p.placed_tryUnit unit hplaced)
  | filled _ hfilled => exact hsame.trans (p.placed_rolledBack unit hfilled)
  | refused _ hnone => exact Placed.of_same (hu.trans (p.sameButNodes_rolledBack unit hnone))

end ModelPlacer

end LlmScaler.Borrow
