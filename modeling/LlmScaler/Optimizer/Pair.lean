import LlmScaler.Core.Loop
import LlmScaler.Optimizer.Pick

/-!
# Sizing the roles of a model together

One pass through the loop picks a variant for every role with demand, sizes each on its own, trims
all of them to the least utilization gained, fits them together to the budget and the nodes, and
commits. The loop ends when no role has demand, or one that has cannot be served.
-/

namespace LlmScaler.Optimizer

open Core Budget Accelerator

variable {ν : Type*}

/-- The state of one model's allocation. -/
structure PairState (ν : Type*) where
  e : NamedAnalyzerResult
  ps : RolePairedState
  targets : GoMap String ℕ
  available : Option Figures
  spent : GoMap String ℕ
  nodes : Option ν

structure RolePick where
  role : String
  variant : String
  cap : ℕ∞
  prc : ℚ

structure Commit extends RolePick where
  k : ℕ

/-- How a role's variant is picked. -/
abbrev RolePickFn (ν : Type*) := PairState ν → String → RoleChoice

/-- Picks a variant for each role with demand. A role at its ceiling is dropped with its demand;
another role without a variant fails the pick. -/
def pickRoles (choose : String → RoleChoice) (atCeiling : String → Bool) (prcOf : String → ℚ) :
    List String → RolePairedState → Option (List RolePick) × RolePairedState
  | [], ps => (some [], ps)
  | role :: rest, ps =>
    if ps.get role ≤ 0 then pickRoles choose atCeiling prcOf rest ps
    else
      match choose role with
      | none =>
        if atCeiling role then pickRoles choose atCeiling prcOf rest (ps.set role 0)
        else (none, ps)
      | some (v, cap) =>
        let others := pickRoles choose atCeiling prcOf rest ps
        (others.1.map (⟨role, v, cap, prcOf v⟩ :: ·), others.2)

/-- Replicas that serve a role's demand on a variant. -/
def roleBottleneckReplicas (e : NamedAnalyzerResult) (ps : RolePairedState) (role v : String) :
    ℕ :=
  match e.result with
  | none => 0
  | some r => replicasForDemand (ps.get role) (prcForVariant r v)

/-- The replicas a pick is sized at on its own. -/
def sizeAlone (e : NamedAnalyzerResult) (ps : RolePairedState) (p : RolePick) : ℕ :=
  atMost (roleBottleneckReplicas e ps p.role p.variant) p.cap

/-- Part of its demand a pick serves on its own. -/
def utilOf (e : NamedAnalyzerResult) (ps : RolePairedState) (p : RolePick) : ℚ :=
  if ps.get p.role ≤ 0 then 1 else sizeAlone e ps p * p.prc / ps.get p.role

/-- The least of the parts served. -/
def deltaUtil (e : NamedAnalyzerResult) (ps : RolePairedState) : List RolePick → ℚ
  | [] => 0
  | p :: rest => (rest.map (utilOf e ps)).foldl min (utilOf e ps p)

/-- A pick trimmed to the utilization gained together, at least one replica where it had one. -/
def trim (e : NamedAnalyzerResult) (ps : RolePairedState) (delta : ℚ) (p : RolePick) : Commit :=
  { p with
    k := if 0 < p.prc ∧ 0 < ps.get p.role then
        max ⌊delta * ps.get p.role / p.prc⌋.toNat (min 1 (sizeAlone e ps p))
      else 0 }

section Pools

variable (m : Model)

def commitGPUs (c : Commit) : ℕ := c.k * m.gpus c.variant

/-- Whether a commit draws on the keys that `key` covers. -/
def drawsOn (b : Figures) (key : String) (c : Commit) : Bool :=
  decide (0 < c.k) && covers key (budgetKey b (m.acc c.variant))

/-- GPUs the commits draw on the keys that `key` covers. -/
def drawnFrom (b : Figures) (key : String) (commits : List Commit) : ℕ :=
  ((commits.filter (drawsOn m b key)).map (commitGPUs m)).sum

/-- The commit that draws most under a key and can give a replica. -/
def largestDraw (b : Figures) (key : String) (commits : List Commit) : Option Commit :=
  commits.foldl (fun best c =>
    if drawsOn m b key c && decide (1 < c.k) then
      match best with
      | none => some c
      | some l => if commitGPUs m l < commitGPUs m c then some c else best
    else best) none

/-- Takes one replica at a time off the largest draw until the commits fit under a key. -/
def shrinkToFit (b : Figures) (key : String) (budget : ℕ) : ℕ → List Commit → Option (List Commit)
  | 0, _ => none
  | fuel + 1, commits =>
    if drawnFrom m b key commits ≤ budget then some commits
    else
      match largestDraw m b key commits with
      | none => none
      | some l => shrinkToFit b key budget fuel
          (commits.map fun c => if c.role = l.role then { c with k := c.k - 1 } else c)

/-- Scales the commits under one key down until they fit it together. -/
def fitKey (b : Figures) (commits : List Commit) (key : String) : Option (List Commit) :=
  let budget := (figureAt b key).toNat
  let sum := drawnFrom m b key commits
  if figureAt b key = ⊤ ∨ sum ≤ budget then some commits
  else
    let scaled := commits.map fun c =>
      if drawsOn m b key c then { c with k := max 1 (c.k * budget / sum) } else c
    shrinkToFit m b key budget ((scaled.map (·.k)).sum + 1) scaled

/-- The keys a pair is fitted to: those of the budget and those its roles draw on. -/
def fitKeys (b : Figures) (commits : List Commit) : List String :=
  ((b.keys ++ (commits.filter fun c => 0 < c.k).map fun c =>
    budgetKey b (m.acc c.variant)).dedup).insertionSort (· ≤ ·)

/-- Scales the commits down until those that draw on one key fit it together, `none` when not
even one replica of each does. -/
def fitPairToPools (available : Option Figures) (commits : List Commit) : Option (List Commit) :=
  match available with
  | none => some commits
  | some b =>
    if commits.length < 2 then some commits
    else (fitKeys m b commits).foldlM (fitKey m b) commits

end Pools

section Nodes

variable (ops : NodeOps ν) (m : Model)

/-- The commit furthest behind its share of what is placed. -/
def nextToPlace (placing : List (Commit × ℕ)) : Option Commit :=
  (placing.foldl (fun best p =>
    if p.1.k ≤ p.2 then best
    else
      match best with
      | none => some p
      | some l => if p.2 * l.1.k < l.2 * p.1.k then some p else best) none).map Prod.fst

/-- Places replicas one at a time until every commit is placed or one does not place. -/
def placeCommits : ℕ → ν → List (Commit × ℕ) → ν × List (Commit × ℕ)
  | 0, trial, placing => (trial, placing)
  | fuel + 1, trial, placing =>
    match nextToPlace placing with
    | none => (trial, placing)
    | some c =>
      match ops.place trial (m.shape c.variant) with
      | none => (trial, placing)
      | some trial' => placeCommits fuel trial'
          (placing.map fun p => if p.1.role = c.role then (p.1, p.2 + 1) else p)

/-- The commits lowered to what the nodes hold of each, `none` when one of them has no place. -/
def fitPairToNodes (nodes : Option ν) (commits : List Commit) :
    Option (List Commit × Option ν) :=
  match nodes with
  | none => some (commits, none)
  | some view =>
    let placed := placeCommits ops m ((commits.map (·.k)).sum + 1) view (commits.map (·, 0))
    if placed.2.any fun p => decide (0 < p.1.k) && p.2 == 0 then none
    else some (placed.2.map fun p => { p.1 with k := p.2 }, some placed.1)

/-- The commits fitted to the pools and then to the nodes. -/
def fitPairToBudget (available : Option Figures) (nodes : Option ν) (commits : List Commit) :
    Option (List Commit × Option ν) :=
  (fitPairToPools m available commits).bind (fitPairToNodes ops m nodes)

end Nodes

section Allocate

variable (ops : NodeOps ν) (m : Model) (pick : RolePickFn ν)

/-- Commits one role's replicas: targets, demand and budget. -/
def commitRole (st : PairState ν) (c : Commit) : PairState ν :=
  let st := { st with
    targets := st.targets.modify c.variant (· + c.k)
    ps := st.ps.set c.role (max 0 (st.ps.get c.role - c.k * c.prc)) }
  match st.available with
  | none => st
  | some b =>
    let key := budgetKey b (m.acc c.variant)
    { st with
      available := some (debitBudget b key (commitGPUs m c))
      spent := st.spent.modify key (· + commitGPUs m c) }

/-- The model-level required capacity follows the anchor role. -/
def applyAnchor (e : NamedAnalyzerResult) (commits : List Commit) : NamedAnalyzerResult :=
  match commits.find? (·.role == "prefill") with
  | some c => applyAllocation e c.variant c.k
  | none =>
    match commits.find? (·.role == roleBoth) with
    | some c => applyAllocation e c.variant c.k
    | none => e

/-- The commits of one pass, on the demand left to the roles picked. -/
def pairCommits (st : PairState ν) (picked : List RolePick) : Option (List Commit × Option ν) :=
  let delta := deltaUtil st.e st.ps picked
  let commits := picked.map (trim st.e st.ps delta)
  if picked = [] ∨ delta ≤ 0 ∨ commits.all (·.k == 0) then none
  else fitPairToBudget ops m st.available st.nodes commits

def pairBody (st : PairState ν) : Pass (PairState ν) :=
  if anyRoleNeedsScaleUp st.ps m.roles then
    let picks := pickRoles (pick st) (roleAtCeiling m st.targets) (prcFromVCs m.records) m.roles
      st.ps
    let st := { st with ps := picks.2 }
    match picks.1.bind (pairCommits ops m st) with
    | none => .stop st
    | some (commits, nodes) =>
      let st := commits.foldl (commitRole m) { st with nodes := nodes }
      .again { st with e := applyAnchor st.e commits }
  else .stop st

def allocateForModelPairedOn (fuel : ℕ) (st : PairState ν) : PairState ν :=
  loop (pairBody ops m pick) fuel st

end Allocate

end LlmScaler.Optimizer
