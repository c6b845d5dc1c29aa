import LlmScaler.Optimizer.Greedy
import LlmScaler.Borrow.Guaranteed
import LlmScaler.Borrow.Reach

/-!
# The turns of a borrowing namespace

Each model of the namespace has its turns in a pass: it places units on a copy of the guaranteed
budget, and the caller then debits both budgets, the guaranteed one and the reach, with all it spent
under the keys of the reach. Between turns the debits reach every key that covers what was spent;
within one turn the placer's own spending does not.
-/

namespace LlmScaler.Borrow

open LlmScaler.Core LlmScaler.Nodes LlmScaler.Accelerator LlmScaler.Budget GoMap

structure UnitCall where
  unit : PlaceUnit
  counts : GoMap String ℕ
  targets : GoMap String Int

namespace ModelPlacer

variable (p : ModelPlacer)

/-- The calls of `placeUnit` for one model, and the replicas they committed. -/
def placeUnits : PassState → List UnitCall → PassState × List String
  | s, [] => (s, [])
  | s, c :: cs =>
    let p' := { p with targets := c.targets }
    let u := p'.placeUnit c.unit s c.counts
    ((placeUnits u.pass cs).1, p'.committed c.unit u ++ (placeUnits u.pass cs).2)

theorem placed_placeUnits {b : Figures} (s : PassState) (calls : List UnitCall) :
    p.Placed b s (p.placeUnits s calls).1 (p.placeUnits s calls).2 := by
  induction calls generalizing s with
  | nil => exact Placed.of_same ⟨s.bs.nodes, rfl⟩
  | cons c cs ih =>
    have hfirst := ({ p with targets := c.targets } : ModelPlacer).placed_placeUnit (b := b)
      c.unit s c.counts
    exact Placed.trans (p := p) hfirst (ih _)

def variantsOf (calls : List UnitCall) : List String :=
  calls.flatMap fun c => c.unit.picked.map c.unit.variantOf.get

theorem mem_variantsOf {s : PassState} {calls : List UnitCall} {v : String}
    (h : v ∈ (p.placeUnits s calls).2) : v ∈ variantsOf calls := by
  induction calls generalizing s with
  | nil => cases h
  | cons c cs ih =>
    rcases List.mem_append.mp h with h | h
    · refine List.mem_append_left _ ?_
      unfold committed at h
      split_ifs at h
      · obtain ⟨o, ho, rfl⟩ := List.mem_map.mp h
        obtain ⟨role, hrole, hvariant⟩ := ModelPlacer.variant_of_mem_orders _ _ ho
        exact List.mem_map.mpr ⟨role, hrole, hvariant.symm⟩
      · cases h
    · exact List.mem_append_right _ (ih h)

/-- What replicas spent under each key of the model's effective budget. -/
def spent (eff : Option Figures) (replicas : List String) : GoMap String ℕ :=
  match eff with
  | none => ∅
  | some e => replicas.foldl (fun m v => m.modify (p.keyOf e v) (· + (p.shapes v).gpus)) ∅

theorem sumWhere_spent (e : Figures) (replicas : List String) (test : String → Bool) :
    (((p.spent (some e) replicas).sumWhere test : ℕ) : Int) =
      sumIf (fun v => test (p.keyOf e v)) (fun v => ((p.shapes v).gpus : Int)) replicas := by
  rw [spent, sumWhere_foldl_add (p.keyOf e) fun v => (p.shapes v).gpus, sumWhere_empty,
    Nat.zero_add, Nat.cast_list_sum, List.map_map]
  rfl

end ModelPlacer

/-- One model's turn in a pass. -/
structure NsVisit where
  placer : ModelPlacer
  /-- The borrowing state it finds, whatever other namespaces did to it. -/
  bs : BorrowState
  available : Option Figures
  units : List UnitCall

/-- The budgets of a namespace under way, and what was placed so far. -/
structure NsRun where
  budget : NsBudget
  /-- The GPUs placed without a draw, on accelerators whose key the given key covers. -/
  withoutDraw : String → Int

namespace NsVisit

variable (v : NsVisit) (b : NsBudget)

/-- The placements of a turn, on a copy of the guaranteed budget. -/
def placements : PassState × List String := v.placer.placeUnits ⟨v.bs, some b.guaranteed⟩ v.units

def draws : List BorrowDraw := (v.placements b).1.bs.draws.drop v.bs.draws.length

/-- What a turn spent under each key of the effective budget. -/
def spends : List (String × ℕ) :=
  sortedSpends (v.placer.spent (Optimizer.effectiveAvailable v.available (some b.reach))
    (v.placements b).2)

/-- Whether under each finite key the turn's variants are all spent from one key. -/
def OneKey : Prop :=
  ∀ k ∈ b.guaranteed.keys, figureAt b.guaranteed k ≠ ⊤ →
    ∀ x ∈ ModelPlacer.variantsOf v.units, ∀ y ∈ ModelPlacer.variantsOf v.units,
      covers k (v.placer.keyOf b.guaranteed x) = true →
      covers k (v.placer.keyOf b.guaranteed y) = true →
      v.placer.keyOf b.guaranteed x = v.placer.keyOf b.guaranteed y

end NsVisit

/-- The draws of a turn are its own, and what it placed without one came off the budget it was
given. -/
theorem NsVisit.used_placements (v : NsVisit) (b : NsBudget) :
    (∀ d ∈ v.draws b, d.variant ∈ (v.placements b).2 ∧ 0 ≤ d.gpus) ∧
    ∃ g, Used b.guaranteed g fun key =>
      v.placer.withoutDraw b.guaranteed (v.placements b).2 (v.draws b) (· == key) := by
  obtain ⟨g, new, _, hdraws, hnew, hused⟩ :=
    v.placer.placed_placeUnits ⟨v.bs, some b.guaranteed⟩ v.units b.guaranteed rfl
      (Working.refl b.guaranteed)
  have hown : v.draws b = new := by
    rw [draws, placements, hdraws]
    exact List.drop_left
  rw [hown]
  exact ⟨hnew, g, hused⟩

theorem NsVisit.spentWhere_spends (v : NsVisit) (b : NsBudget) (f : String) :
    ((spentWhere (covers f) (v.spends b) : ℕ) : Int) =
      sumIf (fun x => covers f (v.placer.keyOf b.reach x))
        (fun x => ((v.placer.shapes x).gpus : Int)) (v.placements b).2 := by
  rw [spends, spentWhere_sortedSpends, Optimizer.effectiveAvailable, ModelPlacer.sumWhere_spent]
  have hkey : ∀ x, v.placer.keyOf (b.reach.mapValues fun accType nsAvail =>
      nsAvail ⊓ (clusterBudgetFor v.available accType).getD ⊤) x = v.placer.keyOf b.reach x :=
    fun x => budgetKey_of_keys (keys_mapValues _ _) _
  simp only [hkey]

/-- One turn: where its variants under a key are all spent from one key, what it places without a
draw under the key, and what the key has left after the debits, is within what the key had. -/
theorem NsVisit.withoutDraw_add_le (v : NsVisit) (b : NsBudget) {k : String}
    (hk : k ∈ b.guaranteed.keys) {m : ℕ} (hm : figureAt b.guaranteed k = m)
    (hone : ∀ x ∈ (v.placements b).2, ∀ y ∈ (v.placements b).2,
      covers k (v.placer.keyOf b.guaranteed x) = true →
      covers k (v.placer.keyOf b.guaranteed y) = true →
      v.placer.keyOf b.guaranteed x = v.placer.keyOf b.guaranteed y) :
    ∃ m' : ℕ, figureAt (b.debit (v.spends b)).guaranteed k = m' ∧
      v.placer.withoutDraw b.guaranteed (v.placements b).2 (v.draws b) (covers k) + m' ≤ m := by
  obtain ⟨hdraws, g, hused⟩ := v.used_placements b
  have hvariants : ∀ d ∈ v.draws b, d.variant ∈ (v.placements b).2 := fun d hd => (hdraws d hd).1
  have hmono : figureAt (b.debit (v.spends b)).guaranteed k ≤ m := by
    rw [← hm]
    exact figureAt_debitAll_mono hk _
  obtain ⟨m', hm', hle⟩ := ENat.le_natCast_iff.mp hmono
  refine ⟨m', hm', ?_⟩
  by_cases hcovered : ∃ x ∈ (v.placements b).2, covers k (v.placer.keyOf b.guaranteed x) = true
  · obtain ⟨x, hx, hcover⟩ := hcovered
    have htest : ∀ y ∈ (v.placements b).2, covers k (v.placer.keyOf b.guaranteed y) =
        (v.placer.keyOf b.guaranteed y == v.placer.keyOf b.guaranteed x) := by
      intro y hy
      rw [Bool.eq_iff_iff, beq_iff_eq]
      exact ⟨fun h => hone y hy x hx h hcover, fun h => h ▸ hcover⟩
    have hnet : v.placer.withoutDraw b.guaranteed (v.placements b).2 (v.draws b) (covers k) =
        v.placer.withoutDraw b.guaranteed (v.placements b).2 (v.draws b)
          (· == v.placer.keyOf b.guaranteed x) :=
      v.placer.withoutDraw_congr hvariants htest
    by_cases hkey : v.placer.keyOf b.guaranteed x ∈ b.guaranteed.keys
    · have hclamped := b.clamped.le b.distinct hk hkey hcover
      rw [hm] at hclamped
      obtain ⟨n, hn, hnm⟩ := ENat.le_natCast_iff.mp hclamped
      obtain ⟨rest, _, hrest⟩ := hused.used _ n hn
      -- all of it was debited from a key that holds as much
      obtain ⟨f, hf, heq, hfalls, hspent⟩ := b.exists_debited hk hkey hcover
      have hdebit := (hfalls (v.spends b)).trans (figureAt_debitAll_le hf (v.spends b))
      rw [heq, hm, hm', ← ENat.natCast_sub, Nat.cast_le] at hdebit
      change m' ≤ m - spentWhere (covers f) (v.spends b) at hdebit
      have htaken : v.placer.withoutDraw b.guaranteed (v.placements b).2 (v.draws b) (covers k) ≤
          (spentWhere (covers f) (v.spends b) : ℕ) := by
        rw [v.spentWhere_spends b f, ModelPlacer.withoutDraw]
        have hreplicas : sumIf (fun y => covers k (v.placer.keyOf b.guaranteed y))
            (fun y => ((v.placer.shapes y).gpus : Int)) (v.placements b).2 ≤
            sumIf (fun y => covers f (v.placer.keyOf b.reach y))
              (fun y => ((v.placer.shapes y).gpus : Int)) (v.placements b).2 := by
          apply sumIf_mono
          · intro y hy hcovers
            exact hspent _ (hone y hy x hx hcovers hcover)
          · exact fun y _ _ => Int.natCast_nonneg _
        have hdrawn : 0 ≤ sumIf (fun d => covers k (v.placer.keyOf b.guaranteed d.variant))
            BorrowDraw.gpus (v.draws b) := sumIf_nonneg fun d hd _ => (hdraws d hd).2
        omega
      omega
    · -- a variant without a key has nothing guaranteed
      obtain ⟨rest, _, hrest⟩ := hused.used _ 0 (figureAt_of_not_mem hkey)
      rw [hnet]
      omega
  · -- no replica counts under the key
    have hnone : ∀ y ∈ (v.placements b).2, covers k (v.placer.keyOf b.guaranteed y) = false := by
      intro y hy
      rw [← Bool.not_eq_true]
      exact fun h => hcovered ⟨y, hy, h⟩
    have hzero : v.placer.withoutDraw b.guaranteed (v.placements b).2 (v.draws b) (covers k) =
        v.placer.withoutDraw b.guaranteed (v.placements b).2 (v.draws b) (fun _ => false) :=
      v.placer.withoutDraw_congr hvariants hnone
    rw [hzero]
    simpa [ModelPlacer.withoutDraw, sumIf] using hle

/-- One model's turn: its placements, and the debits its caller makes of both budgets. -/
def NsRun.next (s : NsRun) (v : NsVisit) : NsRun where
  budget := s.budget.debit (v.spends s.budget)
  withoutDraw := fun k => s.withoutDraw k +
    v.placer.withoutDraw s.budget.guaranteed (v.placements s.budget).2 (v.draws s.budget) (covers k)

/-- Everything past a guaranteed figure is drawn: where under each finite key of the guaranteed
budget the variants of one turn are all spent from one key, the GPUs placed without a draw under a
key are within its figure at the start, over any turns of the namespace's models. -/
theorem past_guaranteed_drawn (b : NsBudget) (visits : List NsVisit)
    (hone : ∀ v ∈ visits, v.OneKey b) {k : String} (hk : k ∈ b.guaranteed.keys) {n : ℕ}
    (hn : figureAt b.guaranteed k = n) :
    (runFrom NsRun.next ⟨b, fun _ => 0⟩ visits).withoutDraw k ≤ n := by
  have hrun : ∀ (s : NsRun), s.budget.guaranteed.keys = b.guaranteed.keys →
      (∃ m : ℕ, figureAt s.budget.guaranteed k = m ∧ s.withoutDraw k + m ≤ n) →
      (runFrom NsRun.next s visits).withoutDraw k ≤ n := by
    induction visits with
    | nil =>
      rintro s _ ⟨m, _, hm⟩
      rw [runFrom_nil]
      omega
    | cons v visits ih =>
      rw [List.forall_mem_cons] at hone
      rintro s hkeys ⟨m, hm, hle⟩
      have hkey : ∀ x, v.placer.keyOf s.budget.guaranteed x = v.placer.keyOf b.guaranteed x :=
        fun x => budgetKey_of_keys hkeys _
      obtain ⟨m', hm', hturn⟩ := v.withoutDraw_add_le s.budget (by rwa [hkeys]) hm (by
        intro x hx y hy
        rw [hkey, hkey]
        exact hone.1 k hk (by rw [hn]; exact ENat.natCast_ne_top n)
          x (v.placer.mem_variantsOf hx) y (v.placer.mem_variantsOf hy))
      rw [runFrom_cons]
      refine ih hone.2 _ ((keys_debitAll _ _).trans hkeys) ⟨m', hm', ?_⟩
      change s.withoutDraw k + _ + _ ≤ _
      omega
  exact hrun _ rfl ⟨n, hn, (zero_add _).le⟩

/-- A namespace with eight H100s of its own that may borrow eight more; two products of the family
are declared. -/
private def eightBudget : NsBudget :=
  nsBudget [⟨GoMap.set ∅ "H100" ⟨(8 : ℕ), 0⟩,
    GoMap.set ∅ "H100" ⟨(8 : ℕ), 0, 0, 0, false, ∅, ∅, none, []⟩⟩] (List.cons_ne_nil _ _) []
    ["NVIDIA-H100-80GB-HBM3", "NVIDIA-H100-SXM5-80GB"]

private def sixteenFree : BorrowState :=
  ⟨GoMap.set ∅ "x" (GoMap.set ∅ "H100" ⟨(8 : ℕ), 0, 0, 0, none, ∅, ∅⟩), ∅, ∅,
    [⟨⟨"H100", ∅, []⟩, "co", "f", "gpu", 16, none, 0, ∅, [], ∅, 0, none, false⟩],
    GoMap.set ∅ "x" ["co"], none, [], ∅, ∅, [], [], fun _ _ _ => false, fun _ _ _ => false,
    fun _ _ => false, ∅⟩

/-- A turn of a model whose replicas take eight GPUs each, with one unit. -/
private def eightVisit (acc : String → String) (unit : PlaceUnit) (counts : GoMap String ℕ) :
    NsVisit where
  placer := ⟨"x", "m", true, ∅, fun v => ⟨acc v, [8], 8, [], "", [], ∅, ""⟩⟩
  bs := sixteenFree
  available := none
  units := [⟨unit, counts, ∅⟩]

/-- A replica of each of two roles, on two products of the family. -/
private def pairVisit : NsVisit :=
  eightVisit (fun v => if v = "p" then "NVIDIA-H100-80GB-HBM3" else "NVIDIA-H100-SXM5-80GB")
    ⟨["prefill", "decode"], GoMap.set (GoMap.set ∅ "prefill" "p") "decode" "d", by decide⟩
    (GoMap.set (GoMap.set ∅ "prefill" 1) "decode" 1)

private def twoVisit : NsVisit :=
  eightVisit (fun _ => "NVIDIA-H100-80GB-HBM3")
    ⟨["both"], GoMap.set ∅ "both" "v", List.nodup_singleton _⟩ (GoMap.set ∅ "both" 2)

/-- The pair takes each product's eight, and no replica draws: sixteen of the family's eight. -/
theorem family_placed_past_figure :
    figureAt eightBudget.guaranteed "H100" = (8 : ℕ) ∧
    (runFrom NsRun.next ⟨eightBudget, fun _ => 0⟩ [pairVisit]).withoutDraw "H100" = 16 := by
  decide +kernel

/-- Of two replicas on one product the first takes the guaranteed eight and the second draws. -/
theorem past_guaranteed_drawn_two :
    ((twoVisit.draws eightBudget).map BorrowDraw.gpus) = [8] ∧
    (runFrom NsRun.next ⟨eightBudget, fun _ => 0⟩ [twoVisit]).withoutDraw "H100" ≤ 8 := by
  have hone : ∀ v ∈ [twoVisit], v.OneKey eightBudget := by
    intro v hv k _ _ x hx y hy _ _
    rw [List.mem_singleton.mp hv] at hx hy ⊢
    rfl
  have hkey : "H100" ∈ eightBudget.guaranteed.keys := by decide +kernel
  have hfigure : figureAt eightBudget.guaranteed "H100" = (8 : ℕ) := by decide +kernel
  exact ⟨by decide +kernel, past_guaranteed_drawn eightBudget [twoVisit] hone hkey hfigure⟩

end LlmScaler.Borrow
