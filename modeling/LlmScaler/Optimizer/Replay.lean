import LlmScaler.Optimizer.RescaleFills
import LlmScaler.Optimizer.SpendLog

/-!
# Replaying a pass

The spends a pass records account for its budgets: each budget a pass ends with is the one it found
after the recorded debits of its scope, in order. Where rescale debits a group once and records a
spend for each of its models, the debits add up.
-/

namespace LlmScaler.Optimizer

open Core Budget List GoMap

variable {ν : Type*}

/-- The budget of a scope: the cluster's, or a namespace's. -/
def Budgets.inScope (b : Budgets ν) : Option String → Option Figures
  | none => b.available
  | some ns => b.byNamespace.find? ns

def SpendOp.scope (s : SpendOp) : Option String := if s.ns = "" then none else some s.ns

def debitsIn (scope : Option String) (spends : List SpendOp) : List (String × ℕ) :=
  (spends.filter fun s => s.scope = scope).map fun s => (s.key, s.gpus)

theorem debitsIn_append (scope : Option String) (xs ys : List SpendOp) :
    debitsIn scope (xs ++ ys) = debitsIn scope xs ++ debitsIn scope ys := by
  rw [debitsIn, filter_append, map_append]
  rfl

/-- The spends turn every budget into the one it became. -/
def Accounts (b b' : Budgets ν) (spends : List SpendOp) : Prop :=
  ∀ scope, b'.inScope scope = (b.inScope scope).map (debitAll · (debitsIn scope spends))

def SameBudgets (b b' : Budgets ν) : Prop := ∀ scope, b.inScope scope = b'.inScope scope

/-- Every scope has a budget in both or in neither, and nowhere more in the first. -/
def BudgetsWithin (b b' : Budgets ν) : Prop :=
  ∀ scope, Option.Rel Within (b.inScope scope) (b'.inScope scope)

theorem Accounts.refl (b : Budgets ν) : Accounts b b [] := by
  intro scope
  exact Option.map_id'.symm

variable {b b' : Budgets ν}

theorem Accounts.trans {b'' : Budgets ν} {xs ys : List SpendOp} (h : Accounts b b' xs)
    (h' : Accounts b' b'' ys) : Accounts b b'' (xs ++ ys) := by
  intro scope
  rw [h' scope, h scope, Option.map_map, debitsIn_append]
  refine Option.map_congr fun held _ => ?_
  exact (debitAll_append held _ _).symm

variable {spends : List SpendOp}

theorem Accounts.congr {c c' : Budgets ν} (h : Accounts b b' spends) (hstart : SameBudgets b c)
    (hend : SameBudgets b' c') : Accounts c c' spends := by
  intro scope
  rw [← hend scope, h scope, hstart scope]

theorem inScope_debitCluster (b : Budgets ν) (key : String) (n : ℕ) (scope : Option String) :
    (b.debitCluster key n).inScope scope =
      if scope = none then (b.inScope scope).map (debitBudget · key n) else b.inScope scope := by
  cases scope <;> rfl

theorem inScope_debitNamespace (b : Budgets ν) (ns key : String) (n : ℕ)
    (scope : Option String) : (b.debitNamespace ns key n).inScope scope =
      if scope = some ns then (b.inScope scope).map (debitBudget · key n)
      else b.inScope scope := by
  cases scope with
  | none => rfl
  | some other =>
    unfold Budgets.debitNamespace Budgets.inScope
    simp only [Option.some.injEq]
    cases hheld : b.byNamespace.find? ns with
    | none =>
      split_ifs with he
      · rw [he, hheld]
        rfl
      · rfl
    | some held =>
      simp only [find?_set]
      split_ifs with he
      · rw [he, hheld]
        rfl
      · rfl

theorem accounts_debitCluster (b : Budgets ν) (model key : String) (n : ℕ) :
    Accounts b (b.debitCluster key n) [⟨model, "", key, n⟩] := by
  intro scope
  rw [inScope_debitCluster]
  cases scope with
  | none => rfl
  | some ns => exact Option.map_id'.symm

theorem accounts_debitNamespace (b : Budgets ν) {ns : String} (hns : ns ≠ "")
    (model key : String) (n : ℕ) :
    Accounts b (b.debitNamespace ns key n) [⟨model, ns, key, n⟩] := by
  intro scope
  have hscope : (⟨model, ns, key, n⟩ : SpendOp).scope = some ns := if_neg hns
  rw [inScope_debitNamespace]
  by_cases hsame : scope = some ns
  · have hown : decide (some ns = scope) = true := decide_eq_true hsame.symm
    rw [if_pos hsame, debitsIn, filter_singleton, hscope, hown]
    rfl
  · have hother : decide (some ns = scope) = false := decide_eq_false fun he => hsame he.symm
    rw [if_neg hsame, debitsIn, filter_singleton, hscope, hother]
    exact Option.map_id'.symm

theorem accounts_chargeSpend (b : Budgets ν) (s : SpendOp) : Accounts b (chargeSpend b s) [s] := by
  obtain ⟨model, ns, key, gpus⟩ := s
  unfold chargeSpend
  dsimp only
  split_ifs with hns
  · subst hns
    exact accounts_debitCluster b model key gpus
  · exact accounts_debitNamespace b hns model key gpus

theorem accounts_charge (spends : List SpendOp) (b : Budgets ν) :
    Accounts b (spends.foldl chargeSpend b) spends := by
  induction spends generalizing b with
  | nil => exact Accounts.refl b
  | cons s rest ih => exact (accounts_chargeSpend b s).trans (ih _)

theorem Accounts.replayed (h : Accounts b b' spends) :
    SameBudgets (spends.foldl chargeSpend b) b' := by
  intro scope
  rw [accounts_charge spends b scope, h scope]

theorem Accounts.within {b'' : Budgets ν} {xs ys : List SpendOp} (h : Accounts b b' xs)
    (h' : Accounts b b'' ys) (hsub : ys.Sublist xs) : BudgetsWithin b' b'' := by
  intro scope
  rw [h scope, h' scope]
  cases b.inScope scope with
  | none => exact Option.Rel.none
  | some held =>
    exact Option.Rel.some ((Within.refl held).debitAll ((hsub.filter _).map _))

theorem clusterKey_of_accounts (h : Accounts b b' spends) (accType : String) :
    clusterKey b' accType = clusterKey b accType := by
  have hcluster : b'.available = b.available.map (debitAll · (debitsIn none spends)) := h none
  unfold clusterKey
  cases hb : b.available with
  | none =>
    rw [hb] at hcluster
    rw [hcluster]
    rfl
  | some held =>
    rw [hb] at hcluster
    rw [hcluster]
    exact budgetKey_of_keys (keys_debitAll held _) accType

theorem has_of_accounts (h : Accounts b b' spends) (ns : String) :
    b'.byNamespace.has ns = b.byNamespace.has ns := by
  have hns : b'.byNamespace.find? ns = (b.byNamespace.find? ns).map _ := h (some ns)
  have hhas : ∀ m : GoMap String Figures, m.has ns = (m.find? ns).isSome := by
    intro m
    cases hm : m.has ns with
    | false => rw [find?_of_not_has hm, Option.isSome_none]
    | true => rw [find?_of_has hm, Option.isSome_some]
  rw [hhas, hhas, hns, Option.isSome_map]

theorem keySpends_of_accounts (h : Accounts b b' spends) (model ns accType : String) (n : ℕ) :
    keySpends model ns b' accType n = keySpends model ns b accType n := by
  unfold keySpends
  rw [clusterKey_of_accounts h, has_of_accounts h]

theorem reconcileKey_eq (ns : String) (b : Budgets ν) (accType : String) (n : ℕ) :
    reconcileKey ns b accType n =
      (b.debitCluster (clusterKey b accType) n).debitNamespace ns accType n := by
  unfold reconcileKey Budgets.debitCluster Budgets.debitNamespace clusterKey
  cases b.available <;> rfl

theorem accounts_reconcileKey (b : Budgets ν) (model : String) {ns : String} (hns : ns ≠ "")
    (accType : String) (n : ℕ) :
    Accounts b (reconcileKey ns b accType n) (keySpends model ns b accType n) := by
  have hboth := (accounts_debitCluster b model (clusterKey b accType) n).trans
    (accounts_debitNamespace (b.debitCluster (clusterKey b accType) n) hns model accType n)
  rw [← reconcileKey_eq] at hboth
  unfold keySpends
  split_ifs with hn hheld
  · -- a debit of nothing changes no budget
    have hnone : ∀ (held : Figures) (scope : Option String), debitAll held (debitsIn scope
        ([⟨model, "", clusterKey b accType, n⟩] ++ [⟨model, ns, accType, n⟩])) = held := by
      intro held scope
      have hzero : ∀ s ∈ debitsIn scope ([⟨model, "", clusterKey b accType, n⟩] ++
          [⟨model, ns, accType, n⟩]), s.2 = 0 := by
        refine forall_mem_map.mpr fun op hop => ?_
        have hmem := (mem_filter.mp hop).1
        simp only [cons_append, nil_append, mem_cons, not_mem_nil,
          or_false] at hmem
        rcases hmem with rfl | rfl <;> exact hn
      refine foldlRecOn (motive := (· = held)) _ _ rfl fun held' heq s hs => ?_
      rw [heq]
      exact if_pos (hzero s hs)
    intro scope
    rw [hboth scope]
    refine Option.map_congr fun held _ => ?_
    rw [hnone]
    rfl
  · exact hboth
  · -- a namespace without an allowance has no budget to debit
    have hfind : b.byNamespace.find? ns = none := by
      refine find?_of_not_has ?_
      simpa using hheld
    refine (accounts_debitCluster b model (clusterKey b accType) n).congr (fun _ => rfl) ?_
    intro scope
    rw [reconcileKey_eq, inScope_debitNamespace]
    split_ifs with hscope
    · have hnone : (b.debitCluster (clusterKey b accType) n).inScope scope = none := by
        rw [hscope]
        exact hfind
      rw [hnone]
      rfl
    · rfl

theorem accounts_reconcile (b : Budgets ν) (w : ModelWork) (hns : w.req.ns ≠ "")
    (spent : GoMap String ℕ) : Accounts b (reconcile w.req.ns b spent) (modelSpends w b spent) := by
  unfold reconcile modelSpends
  generalize spent.keys.insertionSort (· ≤ ·) = keys
  induction keys generalizing b with
  | nil => exact Accounts.refl b
  | cons accType rest ih =>
    have hhead := accounts_reconcileKey b (modelKey w.req) hns accType (spent.get accType)
    rw [foldl_cons, flatMap_cons]
    refine hhead.trans ?_
    have hrest := ih (reconcileKey w.req.ns b accType (spent.get accType))
    simp only [keySpends_of_accounts hhead] at hrest
    exact hrest

section FairShare

variable (sizing : Sizing ν) (order : WorkSorting)

theorem accounts_serveModel (w : ModelWork) (hns : w.req.ns ≠ "") (mean : ℚ) (b : Budgets ν) :
    Accounts b (serveModel sizing w mean b).result.2.1 (serveModel sizing w mean b).spends := by
  unfold serveModel
  split_ifs
  · exact Accounts.refl b
  · refine (accounts_reconcile { b with nodes := (sizing.allocate w (w.remaining - mean) b).nodes }
      w hns _).congr (fun scope => ?_) fun _ => rfl
    cases scope <;> rfl

theorem serveModel_req (w : ModelWork) (mean : ℚ) (b : Budgets ν) :
    (serveModel sizing w mean b).result.1.req = w.req := by
  unfold serveModel
  split_ifs <;> rfl

theorem afterTurn_req (served : ModelWork × Budgets ν × Bool) (mean : ℚ) :
    (afterTurn served mean).req = served.1.req := by
  unfold afterTurn
  split_ifs <;> rfl

/-- What the fair share keeps: its spends account for its budgets, and its models' namespaces have
names. -/
structure ShareKept (b : Budgets ν) (spends : List SpendOp) (st : LoggedShare ν) : Prop where
  accounts : ∃ spent, st.spends = spends ++ spent ∧ Accounts b st.budgets spent
  named : ∀ w ∈ st.work, w.req.ns ≠ ""

theorem ShareKept.loggedBody {st : LoggedShare ν} (h : ShareKept b spends st) :
    ShareKept b spends (loggedBody sizing order st).state := by
  unfold Optimizer.loggedBody
  dsimp only
  cases hsort : order.sort (filterActive st.work) with
  | nil => exact h
  | cons w rest =>
    dsimp only
    split_ifs
    · have hw : w ∈ st.work := by
        have hmem : w ∈ order.sort (filterActive st.work) := hsort ▸ mem_cons_self
        exact (mem_filter.mp (order.mem_sort.mp hmem)).1
      obtain ⟨spent, hspends, haccounts⟩ := h.accounts
      refine ⟨⟨spent ++ _, ?_, haccounts.trans
        (accounts_serveModel sizing w (h.named w hw) _ _)⟩, fun x hx => ?_⟩
      · dsimp only [Pass.state]
        rw [hspends, append_assoc]
      · obtain ⟨y, hy, rfl⟩ := mem_map.mp hx
        split_ifs
        · rw [afterTurn_req, serveModel_req]
          exact h.named w hw
        · exact h.named y hy
    · exact h

end FairShare

theorem sameBudgets_debitBoth (b : Budgets ν) (ns key cluster : String) (m n : ℕ) :
    SameBudgets ((((b.debitNamespace ns key m).debitCluster cluster m).debitNamespace ns key
      n).debitCluster cluster n)
      ((b.debitNamespace ns key (m + n)).debitCluster cluster (m + n)) := by
  intro scope
  simp only [inScope_debitCluster, inScope_debitNamespace]
  cases scope with
  | none =>
    simp only [if_true, reduceCtorEq, if_false, Option.map_map]
    refine Option.map_congr fun held _ => debitBudget_debitBudget held cluster m n
  | some other =>
    simp only [reduceCtorEq, if_false]
    split_ifs
    · rw [Option.map_map]
      exact Option.map_congr fun held _ => debitBudget_debitBudget held key m n
    · rfl

theorem sameBudgets_debitGroup (b : Budgets ν) (k : GroupKey) (cluster : String) (m n : ℕ) :
    SameBudgets (debitGroup (debitGroup b k cluster m) k cluster n)
      (debitGroup b k cluster (m + n)) := by
  unfold debitGroup
  by_cases hm : m = 0
  · rw [if_pos hm, hm, Nat.zero_add]
    exact fun _ => rfl
  by_cases hn : n = 0
  · rw [if_pos hn, hn, Nat.add_zero]
    exact fun _ => rfl
  have hmn : m + n ≠ 0 := by omega
  rw [if_neg hm, if_neg hn, if_neg hmn]
  by_cases hscope : k.scope = ""
  · simp only [if_pos hscope]
    intro scope
    simp only [inScope_debitCluster]
    split_ifs
    · rw [Option.map_map]
      exact Option.map_congr fun held _ => debitBudget_debitBudget held k.accType m n
    · rfl
  · simp only [if_neg hscope]
    exact sameBudgets_debitBoth b k.scope k.accType cluster m n

theorem accounts_groupSpends (b : Budgets ν) (k : GroupKey) (cluster model : String) (took : ℕ) :
    Accounts b (debitGroup b k cluster took) (groupSpends k cluster model took) := by
  unfold debitGroup groupSpends
  split_ifs with htook hscope
  · exact Accounts.refl b
  · exact accounts_debitCluster b model k.accType took
  · exact (accounts_debitNamespace b hscope model k.accType took).trans
      (accounts_debitCluster _ model cluster took)

section Rescale

variable (ops : NodeOps ν) (sort : CostSorting) (release : ReleaseSorting)

/-- What the turns of a group keep: nothing is freed, and the spends account for what is no longer
free. -/
structure TurnsKept (b : Budgets ν) (k : GroupKey) (cluster : String) (fillable : ℕ)
    (st : GroupTurns ν) : Prop where
  free_le : st.free ≤ fillable
  accounts : Accounts b (debitGroup b k cluster (fillable - st.free)) st.spends

theorem TurnsKept.rescaleTurn {k : GroupKey} {cluster : String} {fillable : ℕ} {st : GroupTurns ν}
    (h : TurnsKept b k cluster fillable st) (targets : GoMap String ℕ) (req : RescaleRequest) :
    TurnsKept b k cluster fillable
      (rescaleTurn ops sort release k cluster targets st req) := by
  have hle := rescaleModelDecisions_free_le ops sort release req k.accType
    (targets.get (modelKey req.toModelScalingRequest)) st.free st.nodes
  unfold Optimizer.rescaleTurn
  dsimp only
  generalize rescaleModelDecisions ops sort release req k.accType
    (targets.get (modelKey req.toModelScalingRequest)) st.free st.nodes = r at hle ⊢
  have hfree := h.free_le
  refine ⟨hle.trans hfree, ?_⟩
  have htook : fillable - r.free = fillable - st.free + (st.free - r.free) := by omega
  refine (h.accounts.trans (accounts_groupSpends _ k cluster
    (modelKey req.toModelScalingRequest) (st.free - r.free))).congr (fun _ => rfl) ?_
  dsimp only
  rw [htook]
  exact sameBudgets_debitGroup b k cluster _ _

theorem debitGroup_nodes (b : Budgets ν) (k : GroupKey) (cluster : String) (n : ℕ)
    (nodes : Option ν) : SameBudgets (debitGroup b k cluster n)
      (debitGroup { b with nodes := nodes } k cluster n) := by
  intro scope
  unfold debitGroup
  split_ifs <;> cases scope <;> rfl

theorem accounts_rescaleGroup (st : PassState ν) (k : GroupKey) (reqs : List RescaleRequest) :
    ∃ spent, (rescaleGroup ops sort release st k reqs).spends = st.spends ++ spent ∧
      Accounts st.budgets (rescaleGroup ops sort release st k reqs).budgets spent := by
  unfold rescaleGroup
  dsimp only
  split_ifs with hskip
  · exact ⟨[], (append_nil _).symm, Accounts.refl _⟩
  · refine ⟨_, rfl, ?_⟩
    generalize computeRescaleTargets _ _ = split
    generalize groupFillable st.budgets k _ = fillable
    have hkept : TurnsKept st.budgets k (clusterKey st.budgets k.accType) fillable
        ((serveFirst reqs).foldl (rescaleTurn ops sort release k
          (clusterKey st.budgets k.accType) split.1) ⟨fillable, st.budgets.nodes, [], []⟩) := by
      refine foldlRecOn (motive := TurnsKept st.budgets k _ fillable) _ _ ?_ ?_
      · refine ⟨Nat.le_refl _, ?_⟩
        dsimp only
        rw [Nat.sub_self]
        exact Accounts.refl _
      · intro turns hturns req _
        exact hturns.rescaleTurn ops sort release split.1 req
    exact hkept.accounts.congr (fun _ => rfl) (debitGroup_nodes _ k _ _ _)

theorem accounts_applyRescale (flags : RescaleFlags) (requests : List RescaleRequest)
    (b : Budgets ν) : Accounts b (applyRescale ops sort release flags requests b).budgets
      (applyRescale ops sort release flags requests b).spends := by
  refine foldlRecOn (motive := fun st : PassState ν => Accounts b st.budgets st.spends) _ _
    (Accounts.refl b) ?_
  intro st hst k _
  obtain ⟨spent, hspends, haccounts⟩ := accounts_rescaleGroup ops sort release st k
    (requests.filter fun req => groupKeyOf flags b req = some k)
  rw [hspends]
  exact hst.trans haccounts

end Rescale

section Pass

variable (ops : NodeOps ν) (sort : CostSorting) (release : ReleaseSorting) (sizing : Sizing ν)
  (fuel : ℕ) (order : WorkSorting) (flags : RescaleFlags)

theorem scaleUpWork_req {req : ModelScalingRequest} {w : ModelWork}
    (h : scaleUpWork req = some w) : w.req = req := by
  dsimp only [scaleUpWork] at h
  split_ifs at h
  rw [← Option.some.inj h]

theorem scaleUpWorks_req {requests : List ModelScalingRequest} {w : ModelWork}
    (h : w ∈ scaleUpWorks requests) : w.req ∈ requests := by
  obtain ⟨i, hi, rfl⟩ := mem_mapIdx.mp h
  obtain ⟨req, hreq, hwork⟩ := mem_filterMap.mp (getElem_mem hi)
  dsimp only
  rw [scaleUpWork_req hwork]
  exact hreq

theorem accounts_optimizePass (requests : List RescaleRequest) (b : Budgets ν) :
    Accounts b (optimizePass ops sort release sizing fuel order flags requests b).budgets
      (optimizePass ops sort release sizing fuel order flags requests b).spends := by
  have hrescale : Accounts b (rescalePass ops sort release flags requests b).budgets
      (rescalePass ops sort release flags requests b).spends := by
    unfold rescalePass
    split_ifs
    · exact accounts_applyRescale ops sort release flags requests b
    · exact Accounts.refl b
  unfold optimizePass
  dsimp only
  generalize rescalePass ops sort release flags requests b = rescaled at hrescale ⊢
  have hshare : ShareKept rescaled.budgets rescaled.spends (loggedScaleUp sizing fuel order
      ⟨⟨scaleUpWorks ((requests.filter fun req => !rescaled.handled.contains
        (modelKey req.toModelScalingRequest)).map (·.toModelScalingRequest)), rescaled.budgets⟩,
        rescaled.spends⟩) := by
    refine loop_invariant (fun st hst => hst.loggedBody sizing order) ⟨?_, ?_⟩ fuel
    · exact ⟨[], (append_nil _).symm, Accounts.refl _⟩
    · intro w hw
      obtain ⟨req, -, hreq⟩ := mem_map.mp (scaleUpWorks_req hw)
      rw [← hreq]
      exact req.named
  obtain ⟨spent, hspends, haccounts⟩ := hshare.accounts
  rw [hspends]
  exact hrescale.trans haccounts

/-- Replaying the spends a pass recorded on the budgets it found gives the budgets it ended with.
Without some models the headroom is the replay of the others' spends, and nowhere less than what
the pass left. -/
theorem greedyPass_replays (requests : List RescaleRequest)
    (constraints : List ResourceConstraints) (nodes : Option ν)
    (undo : ν → (String → Bool) → ν) :
    let found := startBudgets (requests.map (·.toModelScalingRequest)) constraints nodes
    let h := greedyPass ops sort release sizing fuel order flags requests constraints nodes
    SameBudgets (replay h.spends found ∅) h.toBudgets ∧
      ∀ exclude : GoMap String Bool,
        SameBudgets (h.without undo exclude).toBudgets
          (replay (h.spends.filter fun s => !exclude.get s.model) found ∅) ∧
        BudgetsWithin h.toBudgets (h.without undo exclude).toBudgets := by
  intro found h
  have haccounts : Accounts found h.toBudgets h.spends :=
    accounts_optimizePass ops sort release sizing fuel order flags requests found
  have hall : ∀ spends : List SpendOp, replay spends found ∅ = spends.foldl chargeSpend found := by
    intro spends
    have hkept : (spends.filter fun s => !(∅ : GoMap String Bool).get s.model) = spends :=
      filter_eq_self.mpr fun s _ => rfl
    rw [replay, hkept]
  refine ⟨(hall h.spends).symm ▸ haccounts.replayed, fun exclude => ?_⟩
  rw [hall]
  by_cases hempty : exclude.entries.isEmpty = true
  · have hnone : ∀ model, exclude.get model = false := by
      intro model
      have hentries : exclude = ∅ := AList.ext (isEmpty_iff.mp hempty)
      rw [hentries]
      rfl
    have hkept : (h.spends.filter fun s => !exclude.get s.model) = h.spends :=
      filter_eq_self.mpr fun s _ => by rw [hnone]; rfl
    rw [PassHeadroom.without, if_pos hempty, hkept]
    exact ⟨fun scope => (haccounts.replayed scope).symm,
      haccounts.within haccounts (Sublist.refl _)⟩
  · rw [PassHeadroom.without, if_neg hempty]
    have hothers : Accounts found (replay h.spends
        ⟨h.start, h.startByNS, h.nodes.map fun view => undo view exclude.get⟩ exclude)
          (h.spends.filter fun s => !exclude.get s.model) :=
      (accounts_charge _ _).congr (fun scope => by cases scope <;> rfl) fun _ => rfl
    exact ⟨fun scope => (hothers.replayed scope).symm,
      haccounts.within hothers filter_sublist⟩

end Pass

end LlmScaler.Optimizer
