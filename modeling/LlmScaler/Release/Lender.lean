import LlmScaler.Borrow.Reads
import LlmScaler.Release.Units

/-!
# Releases to waiting lenders

A lender that waits for what it lent, and that Kueue does not reclaim for, is handed borrowed
capacity back. What it lacks is taken off the borrowing models unit by unit, within what their
namespaces hold past their guaranteed figures; where they cannot cover it nothing is taken. The
figures left are shared by the lenders of all pools in the pass.
-/

namespace LlmScaler.Release

open Core Accelerator Borrow Kueue

/-- One provider's constraints with the full reads of its chunks. -/
structure LenderConstraints extends BorrowConstraints where
  reads : List ChunkRead
  chunks_read : sharedPools = reads.map ChunkRead.toSharedPoolChunk

structure LenderKey where
  cohort : String
  lender : String
  flavor : String
  resource : String
  deriving DecidableEq, Repr

def LenderKey.flavorKey (k : LenderKey) : String := k.cohort ++ "/" ++ k.flavor ++ "/" ++ k.resource

/-- `ReleasedUnit`: one variant a release lowered, and to what. -/
structure ReleasedUnit where
  ns : String
  model : String
  variant : String
  toReplicas : ℕ
  deriving DecidableEq, Repr

/-- `LenderRelease`: a release in flight to one lender. -/
structure LenderRelease where
  units : List ReleasedUnit
  gpus : Int
  borrowedBefore : Int
  releasedAt : Int
  landedAt : Option Int
  taken : Bool
  deriving DecidableEq, Repr

structure LenderWatch where
  since : Int
  reads : ℕ

/-- The reasons a waiting lender is handed nothing. -/
inductive BlockReason where
  | unservable
  | taken
  | preempting
  deriving DecidableEq, Repr

structure LenderReleaseBlock where
  lender : LenderKey
  reason : BlockReason
  need : Int
  givable : Int
  models : List String
  deriving DecidableEq, Repr

/-- `SharedBorrow`: a pool another borrower holds GPUs of. -/
structure SharedBorrow where
  cohort : String
  flavor : String
  resource : String
  kueue : Int
  /-- What this controller's namespaces hold past guaranteed. -/
  ours : Int
  deriving DecidableEq, Repr

structure LenderReport where
  blocked : List LenderReleaseBlock
  shared : List SharedBorrow

/-- `BorrowGovernor`, as far as the releases to lenders read and write it. -/
structure LenderGovernor where
  lenderRel : GoMap LenderKey LenderRelease
  watches : GoMap LenderKey LenderWatch
  timeoutHeld : GoMap String ℕ
  report : LenderReport

structure BorrowRelease where
  ns : String
  modelID : String
  variant : String
  fromReplicas : ℕ
  toReplicas : ℕ
  lender : LenderKey
  deriving DecidableEq, Repr

/-- `BorrowCycle`, as far as the releases to lenders read it. -/
structure BorrowCycle where
  now : Int
  constraints : List LenderConstraints
  requests : List ModelScalingRequest
  /-- The GPUs of pods at Kueue's gate, by namespace and accelerator. -/
  gated : GoMap String (GoMap String ℕ)
  ledgerUnread : Bool
  requests_distinct : (requests.map fun r => (r.ns, r.modelID)).Nodup

/-- What each namespace holds of each type past its guaranteed figure. -/
abbrev Left := GoMap String (GoMap String Int)

/-- The GPUs a namespace holds past its guaranteed figure of each finite type of its pools. -/
def pastOf (pools : Budget.Pools) : GoMap String Int :=
  pools.entries.foldl (fun m e =>
    match e.2.limit with
    | ⊤ => m
    | (limit : ℕ) => m.set e.1 ((e.2.used : Int) - limit)) ∅

/-- Gated GPUs of an accelerator, taken off the type it names. -/
def gateOne (past : GoMap String Int) (acc : String) (n : ℕ) : GoMap String Int :=
  if acc = "" then past
  else match findBudgetKey past acc with
    | some t => past.rewrite t (· - n)
    | none => past

/-- Gated GPUs that name a type, taken off it. -/
def lessGated (gated : GoMap String ℕ) (past : GoMap String Int) : GoMap String Int :=
  gated.entries.foldl (fun past e => gateOne past e.1 e.2) past

/-- One type's figure, less its share of the gated GPUs that name none. -/
def settleType (past : GoMap String Int) (st : GoMap String Int × Int) (t : String) :
    GoMap String Int × Int :=
  let take := min st.2 (max 0 (past.get t))
  (st.1.set t (max 0 (past.get t - take)), st.2 - take)

/-- One entry's figures of a namespace, added to those of the entries before. -/
def addBorrowed (gated : GoMap String (GoMap String ℕ)) (c : BorrowConstraints) (out : Left)
    (ns : String) : Left :=
  let pools := pastOf (c.namespacePools.get ns)
  if pools.keys.isEmpty then out
  else
    let past := lessGated (gated.get ns) pools
    let untyped : Int := (gated.get ns).get ""
    out.set ns (((Sorting.byKey id).sort past.keys).foldl (settleType past) (out.get ns, untyped)).1

/-- `namespaceBorrowed`: what each borrowing namespace holds past its guaranteed figure, gated pods
aside. -/
def namespaceBorrowed (constraints : List BorrowConstraints)
    (gated : GoMap String (GoMap String ℕ)) : Left :=
  (counting constraints).foldl (fun out c =>
    (c.namespaceBorrow.getD ∅).keys.foldl (addBorrowed gated c) out) ∅

def variantAccs (requests : List ModelScalingRequest) : GoMap String String :=
  requests.foldl (fun m req => req.variantStates.foldl (fun m st =>
    m.set (variantKey req.ns st.variantName) (accOf req st.variantName)) m) ∅

/-- What a decision already lowers its namespace by, taken off what is left. -/
def lessLowered (accs : GoMap String String) (left : Left) (d : VariantDecision) : Left :=
  let lowered := (d.currentReplicas : Int) - d.targetReplicas
  if lowered ≤ 0 then left
  else match findKey (left.get d.ns) (accs.get (variantKey d.ns d.variantName)) with
    | some t => left.rewrite d.ns fun m => m.rewrite t fun n => max 0 (n - lowered * d.gpr)
    | none => left

namespace BorrowCycle

variable (c : BorrowCycle)

/-- The constraints without the full reads. -/
def borrowConstraints : List BorrowConstraints :=
  c.constraints.map LenderConstraints.toBorrowConstraints

def states : States := indexStates c.requests

def cohorts : GoMap String (List String) := mergedCohorts c.borrowConstraints

/-- `borrowedLeft`: what a release may still take. -/
def borrowedLeft (decisions : List VariantDecision) : Left :=
  decisions.foldl (lessLowered (variantAccs c.requests))
    (namespaceBorrowed c.borrowConstraints c.gated)

end BorrowCycle

/-- One provider's read added to those by key. -/
def addRead (byKey : GoMap String ChunkRead) (p : ChunkRead) : GoMap String ChunkRead :=
  match byKey.find? p.key with
  | some prev => byKey.set p.key (mergeRead prev p)
  | none => byKey.set p.key p

/-- `mergeSharedPools`: every provider's reads, one per key, in order. -/
def mergedReads (constraints : List LenderConstraints) : List ChunkRead :=
  (Sorting.byKey fun r : ChunkRead => chunkOrder r.toSharedPoolChunk).sort
    ((((constraints.filter fun c => c.namespaceBorrow.isSome).flatMap
      LenderConstraints.reads).foldl addRead ∅).entries.map Sigma.snd)

/-- `heldBelow`: how many of the replicas a unit takes off a target the variant holds and would
otherwise keep. -/
def heldBelow (d : VariantDecision) (s : VariantReplicaState) (n : ℕ) : Int :=
  max 0 (min (d.targetReplicas : Int) (heldOf s) - min ((d.targetReplicas : Int) - n) (heldOf s))

/-- The GPUs a unit takes of each type, those on the chunk's flavor, and the largest replica. -/
structure Takes where
  per : GoMap String Int
  freed : Int
  largest : ℕ

section Units

variable (states : States) (req : ModelScalingRequest) (ch : ChunkRead)

/-- One decision's part of a unit counted. -/
def addTakes (decisions : List VariantDecision) (left : GoMap String Int) (takes : Takes)
    (p : ℕ × ℕ) : Option Takes :=
  match decisions[p.1]? with
  | none => none
  | some d =>
    match findKey left (accOf req d.variantName) with
    | none => none
    | some t =>
      let g := heldBelow d (d.stateIn states) p.2 * d.gpr
      some
        { per := takes.per.set t (takes.per.get t + g)
          freed := if ch.serves (accOf req d.variantName) then takes.freed + g else takes.freed
          largest := max takes.largest d.gpr }

/-- `unitTakes`: the GPUs a unit hands back on the chunk's flavor and the largest of one replica in
it, when it may be released at all. -/
def unitTakes (unit : GivenUnit) (decisions : List VariantDecision) (left : GoMap String Int) :
    Option (Int × ℕ) :=
  if unit.isEmpty then none
  else match unit.foldlM (addTakes states req ch decisions left) ⟨∅, 0, 0⟩ with
    | none => none
    | some takes =>
      if takes.per.entries.all fun e => decide (e.2 ≤ left.get e.1) then
        some (takes.freed, takes.largest)
      else none

/-- GPUs of a decision's variant taken off what is left of its type. -/
def charge (left : GoMap String Int) (d : VariantDecision) (g : Int) : GoMap String Int :=
  match findKey left (accOf req d.variantName) with
  | some t => left.rewrite t (· - g)
  | none => left

/-- One decision's part of a unit given. -/
def giveOne (st : List VariantDecision × GoMap String Int) (p : ℕ × ℕ) :
    List VariantDecision × GoMap String Int :=
  match st.1[p.1]? with
  | none => st
  | some d =>
    (st.1.set p.1 (d.lower p.2), charge req st.2 d (heldBelow d (d.stateIn states) p.2 * d.gpr))

/-- A unit given: the targets lowered, and what it takes off what is left. -/
def giveUnit (unit : GivenUnit) (st : List VariantDecision × GoMap String Int) :
    List VariantDecision × GoMap String Int :=
  ((Sorting.byKey Prod.fst).sort unit).foldl (giveOne states req) st

def nextUnit (decisions : List VariantDecision) : GivenUnit :=
  yieldUnitWhere states decisions req.ns req.modelID req.disaggregated fun d =>
    ch.serves (accOf req d.variantName)

end Units

def maxLedgerUnits : ℕ := 64

/-- One candidate's turn: the decisions, its namespace's figures, what it gave and the decisions it
lowered. -/
structure Turn where
  decisions : List VariantDecision
  left : GoMap String Int
  gave : Int
  mine : List ℕ

/-- `touchedWith`: the decisions a release names once a unit is added. -/
def touchedWith (touched mine : List ℕ) (unit : GivenUnit) : List ℕ :=
  (touched ++ mine ++ unit.map Prod.fst).dedup

section Turns

variable (states : States) (ch : ChunkRead) (need : Int)

/-- One pass of a candidate's loop: a unit given, unless it may not be, is too large for what is
still lacking, or names too many variants. -/
def turnPass (req : ModelScalingRequest) (released : Int) (touched : List ℕ) (t : Turn) :
    Core.Pass Turn :=
  if need ≤ released + t.gave then .stop t
  else
    let unit := nextUnit states req ch t.decisions
    match unitTakes states req ch unit t.decisions t.left with
    | none => .stop t
    | some (freed, largest) =>
      if (largest : Int) < freed - (need - released - t.gave) then .stop t
      else if maxLedgerUnits < (touchedWith touched t.mine unit).length then .stop t
      else
        let given := giveUnit states req unit (t.decisions, t.left)
        .again
          { decisions := given.1
            left := given.2
            gave := t.gave + freed
            mine := t.mine ++ unit.map Prod.fst }

def totalTarget (decisions : List VariantDecision) : ℕ :=
  (decisions.map VariantDecision.targetReplicas).sum

/-- A candidate's loop. -/
def turn (req : ModelScalingRequest) (released : Int) (touched : List ℕ)
    (decisions : List VariantDecision) (left : GoMap String Int) : Turn :=
  loop (turnPass states ch need req released touched) (totalTarget decisions + 1)
    ⟨decisions, left, 0, []⟩

def restore (before decisions : List VariantDecision) (mine : List ℕ) : List VariantDecision :=
  mine.foldl (fun ds i =>
    match before[i]? with
    | some d => ds.set i d
    | none => ds) decisions

structure Taking where
  decisions : List VariantDecision
  left : Left
  released : Int
  touched : List ℕ

/-- One candidate of a release, with its order keys. -/
structure LenderCandidate where
  req : ModelScalingRequest
  priority : Int
  cost : ℚ

/-- One candidate's turn in a release; one that only cancelled growth is undone. -/
def takeFrom (before : List VariantDecision) (st : Taking) (cand : LenderCandidate) : Taking :=
  if need ≤ st.released then st
  else
    let ns := cand.req.ns
    let t := turn states ch need cand.req st.released st.touched st.decisions (st.left.get ns)
    if t.gave = 0 then
      { st with
        decisions := restore before t.decisions t.mine
        left := st.left.set ns (st.left.get ns) }
    else
      { decisions := t.decisions
        left := st.left.set ns t.left
        released := st.released + t.gave
        touched := (st.touched ++ t.mine).dedup }

end Turns

def lenderReleaseStepName : String := "kueue-lender-release"

def reclaimYieldStepName : String := "kueue-reclaim"

/-- `lenderStep`: a decision marked as lowered for a lender. -/
def lenderStep (key : LenderKey) (d : VariantDecision) : VariantDecision :=
  let action : SaturationAction :=
    if d.targetReplicas < d.currentReplicas then .scaleDown else .noChange
  { d with
    action := action
    decisionReason := .v2
    reason := "V2 (released-to-lender)"
    decisionSteps := d.decisionSteps ++
      [{ name := lenderReleaseStepName
         action := action
         targetReplicas := d.targetReplicas
         wasConstrained := true
         reason := "ClusterQueue " ++ key.lender ++ " waits for capacity it lent in cohort " ++
           key.cohort ++ ", and Kueue does not reclaim it; " ++
           "handed back (releaseToNonReclaimingLenders)" }] }

/-- The decisions of a release, sorted by index. -/
def touchedDecisions (decisions : List VariantDecision) (touched : List ℕ) : List VariantDecision :=
  ((Sorting.byKey id).sort touched).filterMap fun i => decisions[i]?

def releaseEntry (c : BorrowCycle) (ch : ChunkRead) (released : Int) (lowered : List VariantDecision) :
    LenderRelease where
  units := (Sorting.byKey fun u : ReleasedUnit => toLex (u.ns, u.variant)).sort
    (lowered.map fun d => ⟨d.ns, d.modelID, d.variantName, d.targetReplicas⟩)
  gpus := released
  borrowedBefore := ch.borrowed
  releasedAt := c.now
  landedAt := none
  taken := false

/-- What a release to one lender did. -/
structure Outcome where
  decisions : List VariantDecision
  left : Left
  governor : LenderGovernor
  out : Option (List BorrowRelease)
  released : Int

/-- `releaseTo`: the candidates lowered unit by unit until the need is covered, or not at all. -/
def releaseTo (g : LenderGovernor) (c : BorrowCycle) (key : LenderKey) (ch : ChunkRead)
    (cands : List LenderCandidate) (need : Int) (decisions : List VariantDecision) (left : Left) :
    Outcome :=
  let st := cands.foldl (takeFrom c.states ch need decisions) ⟨decisions, left, 0, []⟩
  if st.released < need then ⟨decisions, left, g, none, st.released⟩
  else
    let lowered := touchedDecisions st.decisions st.touched
    { decisions := st.touched.foldl (fun ds i => ds.modify i (lenderStep key)) st.decisions
      left := st.left
      governor := { g with lenderRel := g.lenderRel.set key (releaseEntry c ch st.released lowered) }
      out := some (lowered.map fun d =>
        ⟨d.ns, d.modelID, d.variantName, d.currentReplicas, d.targetReplicas, key⟩)
      released := st.released }

def kueueSchedulingInterval : Int := minute

def lenderPreemptWindow : Int := kueueSchedulingInterval + 2 * (30 * second)

/-- `releaseDue`: a lender's wait triggers a release now. -/
def releaseDue (g : LenderGovernor) (key : LenderKey) (l : LenderState) (readAt : Time) : Bool :=
  ((g.watches.find? key).any fun w => decide (2 ≤ w.reads)) ||
    match readAt, l.pendingSince with
    | some read, some since => decide (kueueSchedulingInterval < read - since)
    | _, _ => false

/-- `kueueReclaimsAll`: Kueue itself reclaims everything borrowed on the chunk for the lender. -/
def kueueReclaimsAll (l : LenderState) (ch : ChunkRead) : Bool :=
  decide (l.reclaim = .lowerPriority) && ch.borrowerPriority.isSome &&
    reclaims l.reclaim l.pendingPriority ch.borrowerPriority

/-- `poolBudget`: what one pool's waiting lenders share in a pass. -/
structure PoolBudget where
  /-- The GPUs Kueue admits a lender from with nothing handed back. -/
  free : Int
  /-- What is left of Kueue's borrowed figure to hand back. -/
  borrowed : Int
  /-- What this controller's namespaces in the cohort hold past guaranteed. -/
  ours : Int

/-- The earlier start of a lender's wait, as the read or its watch saw it. -/
def waitingSince (g : LenderGovernor) (key : LenderKey) (l : LenderState) : Time :=
  match g.watches.find? key, l.pendingSince with
  | some w, none => some w.since
  | some w, some since => if w.since < since then some w.since else some since
  | none, since => since

/-- `kueueMayPreemptOutside`: the lender's wait is still Kueue's to answer. -/
def kueueMayPreemptOutside (g : LenderGovernor) (key : LenderKey) (l : LenderState) (ch : ChunkRead)
    (b : PoolBudget) : Bool :=
  match l.pendingPriority with
  | none => false
  | some head =>
    if l.reclaim ≠ .lowerPriority ∨ ch.borrowed ≤ b.ours then false
    else if ch.borrowerLowest.any fun lowest => decide (head ≤ lowest) then false
    else match waitingSince g key l, ch.readAt with
      | some since, some read =>
        decide (read - since < if ch.evictionsRead then kueueSchedulingInterval
          else lenderPreemptWindow)
      -- a read without a time is before every wait
      | _, _ => true

/-- `yielded`: a reclaim's yield lowered the decision this cycle. -/
def yielded (d : VariantDecision) : Bool := d.decisionSteps.any (·.name == reclaimYieldStepName)

/-- What the cycle frees on the chunk's flavor in each namespace and type. -/
def addFreed (c : BorrowCycle) (ch : ChunkRead) (past freed : Left) (d : VariantDecision) : Left :=
  let acc := (variantAccs c.requests).get (variantKey d.ns d.variantName)
  if !(c.cohorts.get d.ns).contains ch.cohort || !ch.serves acc then freed
  else match findKey (past.get d.ns) acc with
    | none => freed
    | some t =>
      let stopping := max 0 ((heldOf (d.stateIn c.states) : Int) - d.currentReplicas)
      let lowered := if yielded d then 0 else max 0 ((d.currentReplicas : Int) - d.targetReplicas)
      freed.modify d.ns fun m => m.modify t (· + (stopping + lowered) * d.gpr)

/-- `budgetOf`: a pool's budget at the start of the pass. -/
def budgetOf (g : LenderGovernor) (c : BorrowCycle) (ch : ChunkRead)
    (decisions : List VariantDecision) (left : Left) : PoolBudget :=
  let past := namespaceBorrowed c.borrowConstraints c.gated
  let freed := decisions.foldl (addFreed c ch past) ∅
  { free := max 0 ch.rawFree +
      (freed.entries.map fun e => (e.2.entries.map fun f => min f.2 ((past.get e.1).get f.1)).sum).sum +
      (g.lenderRel.entries.map fun e =>
        if e.1.flavorKey = ch.key ∧ e.2.landedAt.isSome ∧ e.2.taken = false then e.2.gpus else 0).sum
    borrowed := max 0 ch.borrowed
    ours := (left.entries.map fun e =>
      if (c.cohorts.get e.1).contains ch.cohort then
        (e.2.entries.map fun f => if ch.serves f.1 then f.2 else 0).sum
      else 0).sum }

/-- `lenderPinned`: a release in flight lowers the variant. -/
def lenderPinned (g : LenderGovernor) (key : String) : Bool :=
  g.lenderRel.entries.any fun e => e.2.units.any fun u => variantKey u.ns u.variant == key

/-- `modelPinned`: a release in flight lowers a variant of the model. -/
def modelPinned (g : LenderGovernor) (req : ModelScalingRequest) : Bool :=
  req.variantStates.any fun st =>
    let k := variantKey req.ns st.variantName
    g.timeoutHeld.has k || lenderPinned g k

def variantCost (req : ModelScalingRequest) (variant : String) : ℚ :=
  ((req.variants.find? (·.variantName == variant)).map (·.cost)).getD 0

/-- The highest priority of a namespace's Workloads over the entries. -/
def namespacePriority (constraints : List LenderConstraints) (ns : String) : Option Int :=
  (constraints.flatMap fun c => ((c.namespaceBorrow.getD ∅).get ns).entries.map
    fun e => e.2.highestPriority).foldl (Option.merge max) none

/-- `modelKueuePriority`: the priority Kueue gives the model's Workloads, the highest over its
variants' classes, if all of them were read. -/
def modelKueuePriority (constraints : List LenderConstraints) (ch : ChunkRead)
    (req : ModelScalingRequest) : Option Int :=
  match req.variantStates.mapM fun st =>
      ch.priorityOf st.priorityClass (namespacePriority constraints req.ns) with
  | none => none
  | some prios => prios.max?

/-- `math.MaxInt64`. -/
def maxInt64 : Int := 2 ^ 63 - 1

section Candidates

variable (g : LenderGovernor) (c : BorrowCycle) (key : LenderKey) (l : LenderState) (ch : ChunkRead)
  (left : Left)

/-- The types a model holds on the chunk's flavor past guaranteed, and what it holds of each. -/
def onFlavor (req : ModelScalingRequest) : GoMap String Int :=
  req.variantStates.foldl (fun m st =>
    match findKey (left.get req.ns) (accOf req st.variantName) with
    | some t =>
      if 0 < (left.get req.ns).get t ∧ ch.serves (accOf req st.variantName) then
        m.set t (m.get t + heldOf st * max 1 st.gpusPerReplica)
      else m
    | none => m) ∅

def modelCost (req : ModelScalingRequest) : ℚ :=
  (req.variantStates.map fun st =>
    ((c.states.get (variantKey req.ns st.variantName)).gpusPerReplica : ℚ) *
      variantCost req st.variantName).sum

/-- What a model is to a release: none of its business, Kueue's to preempt, or a candidate. -/
inductive Candidacy where
  | skipped
  | preempted (onFlavor : GoMap String Int)
  | candidate (cand : LenderCandidate)

def candidacy (req : ModelScalingRequest) : Candidacy :=
  if !(c.cohorts.get req.ns).contains key.cohort || (left.get req.ns).keys.isEmpty ||
      modelPinned g req then .skipped
  else if (onFlavor ch left req).keys.isEmpty then .skipped
  else match l.reclaim, modelKueuePriority c.constraints ch req with
    | .lowerPriority, none => .skipped
    | policy, some prio =>
      if policy = .lowerPriority ∧ reclaims policy l.pendingPriority (some prio) then
        .preempted (onFlavor ch left req)
      else .candidate ⟨req, prio, modelCost c req⟩
    | _, none => .candidate ⟨req, maxInt64, modelCost c req⟩

/-- The order candidates are lowered in: the lowest priority first, then the most expensive. -/
def candidateOrder (cand : LenderCandidate) : Int ×ₗ ℚ ×ₗ ℚᵒᵈ ×ₗ String :=
  toLex (cand.priority, toLex (cand.req.priority, toLex (OrderDual.toDual cand.cost,
    cand.req.ns ++ "/" ++ cand.req.modelID)))

/-- The models a release may lower, in order. -/
def candidates : List LenderCandidate :=
  (Sorting.byKey candidateOrder).sort (c.requests.filterMap fun req =>
    match candidacy g c key l ch left req with
    | .candidate cand => some cand
    | _ => none)

/-- What Kueue preempts of each namespace and type for the lender. -/
def preemptedLeft : Left :=
  c.requests.foldl (fun m req =>
    match candidacy g c key l ch left req with
    | .preempted on => m.modify req.ns fun perType =>
        on.entries.foldl (fun perType e => perType.modify e.1 (· + e.2)) perType
    | _ => m) ∅

/-- `lenderCandidates`: the GPUs of models the lender outranks. -/
def outranked : Int :=
  ((preemptedLeft g c key l ch left).entries.map fun e =>
    (e.2.entries.map fun f => min f.2 ((left.get e.1).get f.1)).sum).sum

end Candidates

structure LenderPass where
  governor : LenderGovernor
  decisions : List VariantDecision
  /-- What is left of the namespaces' figures, once counted. -/
  left : Option Left
  budget : Option PoolBudget
  out : List BorrowRelease

/-- A lender reported as handed nothing. -/
def LenderPass.block (st : LenderPass) (b : LenderReleaseBlock) : LenderPass :=
  let report := st.governor.report
  { st with
    governor := { st.governor with report := { report with blocked := report.blocked ++ [b] } } }

/-- What a lender lacks, net of what covers it, and the pool's budget after. -/
def lacking (l : LenderState) (outranked : Int) (b : PoolBudget) : Int × PoolBudget :=
  let need := l.pendingGPUs - l.kept - outranked
  let covered := min (max 0 need) b.free
  (need - covered, { b with free := b.free - covered })

def weighLender (c : BorrowCycle) (ch : ChunkRead) (key : LenderKey) (l : LenderState)
    (left : Left) (b : PoolBudget) (st : LenderPass) : LenderPass :=
  let st := { st with left := some left, budget := some b }
  if kueueMayPreemptOutside st.governor key l ch b then st
  else
    let cands := candidates st.governor c key l ch left
    let lack := lacking l (outranked st.governor c key l ch left) b
    let st := { st with budget := some lack.2 }
    if lack.1 ≤ 0 then st
    else
      let unserved (gave : Int) : LenderPass :=
        st.block ⟨key, .unservable, lack.1, gave, cands.map fun cand =>
          cand.req.ns ++ "/" ++ cand.req.modelID⟩
      if lack.2.borrowed < lack.1 then unserved (min lack.2.ours lack.2.borrowed)
      else
        let o := releaseTo st.governor c key ch cands lack.1 st.decisions left
        match o.out with
        | none => unserved o.released
        | some out =>
          { governor := o.governor
            decisions := o.decisions
            left := some o.left
            budget := some { lack.2 with borrowed := lack.2.borrowed - o.released }
            out := st.out ++ out }

def lenderKey (ch : ChunkRead) (l : LenderState) : LenderKey :=
  ⟨ch.cohort, l.queue, ch.flavor, ch.resource⟩

def serveLender (c : BorrowCycle) (ch : ChunkRead) (st : LenderPass) (l : LenderState) :
    LenderPass :=
  let key := lenderKey ch l
  if !l.waiting || reclaims l.reclaim none none || decide (l.pendingGPUs ≤ 0) then st
  else match st.governor.lenderRel.find? key with
    | some e =>
      if e.taken then st.block ⟨key, .taken, l.pendingGPUs, 0, []⟩ else st
    | none =>
      if !releaseDue st.governor key l ch.readAt || kueueReclaimsAll l ch then st
      else if 0 < ch.evictingGPUs then
        st.block ⟨key, .preempting, l.pendingGPUs, ch.evictingGPUs, []⟩
      else
        let left := st.left.getD (c.borrowedLeft st.decisions)
        weighLender c ch key l left
          (st.budget.getD (budgetOf st.governor c ch st.decisions left)) st

/-- A pool another borrower holds GPUs of, reported. -/
def reportShared (ch : ChunkRead) (st : LenderPass) : LenderPass :=
  match st.budget with
  | some b =>
    if b.ours < ch.borrowed then
      { st with governor := { st.governor with report := { st.governor.report with
        shared := st.governor.report.shared ++
          [⟨ch.cohort, ch.flavor, ch.resource, ch.borrowed, b.ours⟩] } } }
    else st
  | none => st

def servePool (c : BorrowCycle) (st : LenderPass) (ch : ChunkRead) : LenderPass :=
  if ch.stale || !ch.releaseToNonReclaiming then st
  else reportShared ch (ch.lenders.foldl (serveLender c ch) { st with budget := none })

def lenderReleases (g : LenderGovernor) (c : BorrowCycle) (decisions : List VariantDecision) :
    LenderPass :=
  let st : LenderPass := ⟨{ g with report := ⟨[], []⟩ }, decisions, none, none, []⟩
  if c.ledgerUnread then st else (mergedReads c.constraints).foldl (servePool c) st

end LlmScaler.Release
