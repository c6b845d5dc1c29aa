import LlmScaler.Core.Loop
import LlmScaler.Borrow.InFlight

/-!
# Placing on borrowed capacity

One pass's borrowing state and the placer of one model. A replica is placed within the namespace's
guaranteed figure first, where growth into nominal Kueue reclaims may go without a node hole, and
past it on one chunk of the namespace's cohorts, within its cap. A unit of replicas places whole or
is rolled back and trimmed; what a rollback restores is written out as the source lists it. Which
variant a refusal is reported for is not modelled.
-/

namespace LlmScaler.Borrow

open LlmScaler.Core LlmScaler.Nodes LlmScaler.Accelerator LlmScaler.Budget

/-- What one namespace may still take of one accelerator type. -/
structure NsBorrowLeft where
  /-- The GPUs it may still draw, `⊤` when only the pool bounds it. -/
  cap : ℕ∞
  /-- The guaranteed growth Kueue admits before it preempts. -/
  after : Int
  kept : Int
  lentOut : Int
  priority : Option Int
  /-- How far its queues may still grow each co-resource. -/
  coHeadroom : GoMap String Int
  coKept : GoMap String Int
  deriving Inhabited

/-- One replica placed on a flavor's nodes. -/
structure FlavorUse where
  variant : String
  placement : FlavorPlacement
  gpus : ℕ

/-- One pass's borrowing. -/
@[ext] structure BorrowState where
  /-- What each namespace that counts borrowing may still take, per type. -/
  borrow : GoMap String (GoMap String NsBorrowLeft)
  /-- The flavors each namespace's own queues offer a type on. -/
  ownFlavors : GoMap String (GoMap String (List String))
  /-- What a namespace read and not counted may still grow into. -/
  lent : GoMap String (GoMap String NsBorrowLeft)
  chunks : List SharedPoolChunk
  cohorts : GoMap String (List String)
  nodes : Option NodeView
  draws : List BorrowDraw
  /-- The GPUs of each variant's own draws in flight, per chunk. -/
  credit : GoMap String (GoMap String Int)
  /-- Each variant's own growth by reclaim in flight, per accelerator. -/
  reclaimCredit : GoMap String (GoMap String Reclaim)
  flavors : List FlavorUse
  reclaims : List BorrowDraw
  blocked : String → String → String → Bool
  blockedIn : String → String → String → Bool
  reclaimBlocked : String → String → Bool
  /-- The GPUs each namespace holds past its guaranteed figure. -/
  heldPast : GoMap String (GoMap String Int)

structure VariantShape where
  accelerator : String
  podGPUs : List ℕ
  gpusPerReplica : ℕ
  tolerations : List Toleration
  topologyKey : String
  placements : List PodPlacement
  replicaRequests : GoMap String Int
  priorityClass : String

/-- `gpusPerReplicaFromState`: one by default. -/
def VariantShape.gpus (v : VariantShape) : ℕ := if 0 < v.gpusPerReplica then v.gpusPerReplica else 1

structure ModelPlacer where
  ns : String
  modelID : String
  borrows : Bool
  targets : GoMap String Int
  shapes : String → VariantShape

/-- The borrowing state and the model's working copy of the guaranteed budget, `none` for an open
namespace. -/
structure PassState where
  bs : BorrowState
  guaranteed : Option Figures

structure Order where
  variant : String
  target : Int
  deriving DecidableEq, Repr

/-- `coWithin`: the requests fit a namespace's headroom. -/
def coWithin (headroom requests : GoMap String Int) : Bool :=
  headroom.entries.all fun e => requests.get e.1 ≤ e.2

/-- `coFitsKept`: the requests fit a chunk's pool plus what the namespace keeps. -/
def coFitsKept (free kept requests : GoMap String Int) : Bool :=
  free.entries.all fun e => requests.get e.1 ≤ e.2 + kept.get e.1

/-- The part of a request a namespace keeps. -/
def keptPart (kept : GoMap String Int) (res : String) (n : Int) : Int := min (kept.get res) n

/-- The namespace's side of `spendCo`. -/
def NsBorrowLeft.spendCo (b : NsBorrowLeft) (requests : GoMap String Int) : NsBorrowLeft :=
  { b with
    coHeadroom := b.coHeadroom.mapValues fun res h =>
      match requests.find? res with
      | some n => h - n
      | none => h
    coKept := b.coKept.mapValues fun res k =>
      match requests.find? res with
      | some n => if 0 < min k n then k - min k n else k
      | none => k }

/-- The chunk's side of `spendCo`: of each request what the namespace keeps comes off first. -/
def SharedPoolChunk.spendCo (c : SharedPoolChunk) (kept requests : GoMap String Int) :
    SharedPoolChunk :=
  { c with
    coFree := c.coFree.mapValues fun res f =>
      match requests.find? res with
      | some n => f - (n - keptPart kept res n)
      | none => f }

namespace BorrowState

variable (bs : BorrowState)

/-- A chunk a namespace may draw a replica of the accelerator from. -/
def isCohortChunk (ns acc : String) (c : SharedPoolChunk) : Bool :=
  (bs.cohorts.get ns).contains c.cohort && c.serves acc

/-- `cohortChunks`: those chunks, in order. -/
def cohortChunks (ns acc : String) : List SharedPoolChunk := bs.chunks.filter (bs.isCohortChunk ns acc)

/-- Where what a namespace may still take of a type is kept. -/
inductive LeftRef
  | counted (key : String)
  | nominal (key : String)
  deriving DecidableEq, Repr

/-- What the namespace may still take. -/
def left (ns : String) : LeftRef → NsBorrowLeft
  | .counted k => (bs.borrow.get ns).get k
  | .nominal k => (bs.lent.get ns).get k

/-- The state with what the namespace may still take rewritten. -/
def setLeft (ns : String) (ref : LeftRef) (f : NsBorrowLeft → NsBorrowLeft) : BorrowState :=
  match ref with
  | .counted k => { bs with borrow := bs.borrow.rewrite ns fun m => m.rewrite k f }
  | .nominal k => { bs with lent := bs.lent.rewrite ns fun m => m.rewrite k f }

/-- `debitPool`'s loop: GPUs taken out of the chunks, first chunk first. -/
def debitChunks (test : SharedPoolChunk → Bool) : Int → List SharedPoolChunk → List SharedPoolChunk
  | _, [] => []
  | n, c :: cs =>
    if test c then
      if n ≤ 0 then c :: cs
      else { c with free := c.free - min c.free n } :: debitChunks test (n - min c.free n) cs
    else c :: debitChunks test n cs

/-- `debitPool`: growth that needs no gate comes off the cohort's chunks. -/
def debitPool (ns acc : String) (n : Int) : BorrowState :=
  { bs with chunks := debitChunks (bs.isCohortChunk ns acc) n bs.chunks }

/-- Whether two flavors name the same nodes. -/
def sameNodes (f g : FlavorPlacement) : Bool :=
  (f.nodeLabels.entries.all fun e => g.nodeLabels.find? e.1 = some e.2) &&
    (g.nodeLabels.entries.all fun e => f.nodeLabels.find? e.1 = some e.2) &&
    f.tolerations = g.tolerations

def agreedFlavor : List FlavorPlacement → Option FlavorPlacement
  | [] => none
  | f :: fs => if fs.all (sameNodes f) then some f else none

/-- `queueFlavor`: the flavor Kueue admits the namespace's replicas on within its figure. -/
def queueFlavor (ns acc : String) : Option FlavorPlacement :=
  if bs.borrow.has ns || bs.lent.has ns then
    agreedFlavor (((bs.cohortChunks ns acc).filter fun c =>
      match findKey (bs.ownFlavors.get ns) acc with
      | some k => ((bs.ownFlavors.get ns).get k).isEmpty ||
          ((bs.ownFlavors.get ns).get k).contains c.flavor
      | none => true).map SharedPoolChunk.toFlavorPlacement)
  else none

/-- `ownReclaim`: what of a variant's own growth in flight is not re-placed yet, and its key. -/
def ownReclaim (v acc : String) : Reclaim × Option String :=
  match findKey (bs.reclaimCredit.get v) acc with
  | some k => ((bs.reclaimCredit.get v).get k, some k)
  | none => (.zero, none)

/-- `coGuaranteed`: fit a replica within the guaranteed figure to the co-resources. -/
def coGuaranteed (ns acc : String) (counted : Option String) (requests : GoMap String Int)
    (reclaim : Bool) : BorrowState × Bool :=
  match counted with
  | none =>
    match findKey (bs.lent.get ns) acc with
    | none => (bs, true)
    | some k =>
      if (bs.left ns (.nominal k)).coHeadroom.keys.isEmpty then (bs, true)
      else if coWithin (bs.left ns (.nominal k)).coHeadroom requests then
        (bs.setLeft ns (.nominal k) fun b => b.spendCo requests, true)
      else (bs, false)
  | some k =>
    if coWithin (bs.left ns (.counted k)).coHeadroom requests then
      if reclaim || (bs.cohortChunks ns acc).all fun c => c.coFree.keys.isEmpty then
        (bs.setLeft ns (.counted k) fun b => b.spendCo requests, true)
      else match updateFirst (fun c =>
          if bs.isCohortChunk ns acc c && !c.coFree.keys.isEmpty &&
              coFitsKept c.coFree (bs.left ns (.counted k)).coKept requests then
            some ((), c.spendCo (bs.left ns (.counted k)).coKept requests)
          else none) bs.chunks with
        | some r => ({ bs.setLeft ns (.counted k) fun b => b.spendCo requests with chunks := r.2 },
            true)
        | none => (bs, false)
    else (bs, false)

end BorrowState

/-- How a replica was placed. -/
inductive Outcome
  | refused
  | guaranteed
  | drew
  deriving DecidableEq, Repr

def placeOn (nodes : Option NodeView) (r : ReplicaFit) : Option NodeView × Bool :=
  match nodes with
  | none => (none, true)
  | some v => (some (v.place r).1, (v.place r).2)

namespace ModelPlacer

variable (p : ModelPlacer)

/-- `namespace/variant`. -/
def variantKey (v : String) : String := p.ns ++ "/" ++ v

/-- `replica`: one replica of a variant as the view places it. -/
def replica (bs : BorrowState) (v : String) : ReplicaFit :=
  fitOf ((bs.nodes.map NodeView.slots).getD [])
    ⟨p.variantKey v, (p.shapes v).accelerator, (p.shapes v).podGPUs, (p.shapes v).gpus,
      (p.shapes v).tolerations, (p.shapes v).topologyKey, (p.shapes v).placements, none⟩

/-- The type the namespace borrows the accelerator under. -/
def borrowKey (bs : BorrowState) (acc : String) : Option String :=
  if p.borrows then findKey (bs.borrow.get p.ns) acc else none

/-- What the namespace may still grow into within its figure. -/
def lentRef (bs : BorrowState) (acc : String) : Option BorrowState.LeftRef :=
  match p.borrowKey bs acc with
  | some k => some (.counted k)
  | none => (findKey (bs.lent.get p.ns) acc).map .nominal

/-- The growth within nominal left to a variant, its own in flight included. -/
def share (bs : BorrowState) (v : String) : Reclaim :=
  match p.lentRef bs (p.shapes v).accelerator with
  | none => .zero
  | some ref => Reclaim.add ⟨(bs.left p.ns ref).after, (bs.left p.ns ref).kept,
      (bs.left p.ns ref).lentOut, false⟩ (bs.ownReclaim (p.variantKey v) (p.shapes v).accelerator).1

/-- Whether a replica is Kueue's to reclaim whole, so that it needs no hole. -/
def reclaims (bs : BorrowState) (v : String) : Bool :=
  (p.share bs v).exempt (p.shapes v).gpus && !bs.reclaimBlocked p.ns p.modelID

/-- What a replica takes within nominal. -/
def took (bs : BorrowState) (v : String) : Reclaim := (p.share bs v).take (p.shapes v).gpus

/-- The part of it on the variant's own growth in flight. -/
def fromOwn (bs : BorrowState) (v : String) : Reclaim :=
  (p.took bs v).atMost (bs.ownReclaim (p.variantKey v) (p.shapes v).accelerator).1

/-- `reclaimDraw`, with what it re-placed: the entry of a replica grown into nominal. -/
def reclaimDraw (bs : BorrowState) (o : Order) (took fromOwn : Reclaim) (onNode : Bool) :
    BorrowDraw where
  ns := p.ns
  modelID := p.modelID
  variant := o.variant
  cohort := ((bs.cohortChunks p.ns (p.shapes o.variant).accelerator).head?.map
    SharedPoolChunk.cohort).getD ""
  flavor := ((bs.cohortChunks p.ns (p.shapes o.variant).accelerator).head?.map
    SharedPoolChunk.flavor).getD ""
  resource := ((bs.cohortChunks p.ns (p.shapes o.variant).accelerator).head?.map
    SharedPoolChunk.resource).getD ""
  gpus := took.gpus
  after := took.after
  kept := took.kept
  replicas := 1
  target := o.target
  reclaim := true
  accelerator := (p.shapes o.variant).accelerator
  creditGPUs := fromOwn.gpus
  creditAfter := fromOwn.after
  creditKept := fromOwn.kept
  creditReplicas := if fromOwn = took then 1 else 0
  noHole := !onNode

/-- What a namespace may still grow into, less what a replica freshly takes. -/
def lessFresh (fresh : Reclaim) (b : NsBorrowLeft) : NsBorrowLeft :=
  { b with
    after := b.after - fresh.after
    kept := max 0 (b.kept - fresh.kept)
    lentOut := b.lentOut - fresh.gpus }

/-- The variant's own growth in flight, less what was re-placed of it. -/
def lessOwn (bs : BorrowState) (v acc : String) (fromOwn : Reclaim) :
    GoMap String (GoMap String Reclaim) :=
  match (bs.ownReclaim v acc).2 with
  | some k =>
    if fromOwn = .zero then bs.reclaimCredit
    else bs.reclaimCredit.rewrite v fun m =>
      m.rewrite k fun _ => (bs.ownReclaim v acc).1.sub fromOwn
  | none => bs.reclaimCredit

/-- The state after a replica grew into nominal. -/
def growInto (bs : BorrowState) (ref : BorrowState.LeftRef) (o : Order) (took fromOwn : Reclaim)
    (onNode : Bool) : BorrowState :=
  let bs' := ({ bs.setLeft p.ns ref (lessFresh (took.sub fromOwn)) with
    reclaimCredit := lessOwn bs (p.variantKey o.variant) (p.shapes o.variant).accelerator
      fromOwn }).debitPool p.ns (p.shapes o.variant).accelerator
        (took.pool - fromOwn.pool + took.gpus)
  if 0 < took.after ∨ 0 < took.gpus then
    { bs' with reclaims := bs'.reclaims ++ [p.reclaimDraw bs o took fromOwn onNode] }
  else bs'

def onQueueFlavor (bs : BorrowState) (v : String) : ReplicaFit :=
  match bs.queueFlavor p.ns (p.shapes v).accelerator with
  | some f => { p.replica bs v with flavor := some f }
  | none => p.replica bs v

def guaranteedLeft (guaranteed : Option Figures) (acc : String) : ℕ∞ :=
  match guaranteed with
  | none => ⊤
  | some f => figureAt f (budgetKey f acc)

/-- The guaranteed budget with a figure of an accelerator's key. -/
def setGuaranteed (guaranteed : Option Figures) (acc : String) (n : ℕ∞) : Option Figures :=
  guaranteed.map fun f => f.set (budgetKey f acc) n

/-- The state after a replica placed within the guaranteed figure on a view. -/
def commitGuaranteed (s : PassState) (bs : BorrowState) (o : Order) (nodes : Option NodeView)
    (onNode : Bool) : PassState where
  bs :=
    let bs' := { bs with
      nodes := nodes
      flavors := match bs.queueFlavor p.ns (p.shapes o.variant).accelerator with
        | some f => if onNode then bs.flavors ++
            [⟨p.variantKey o.variant, f, (p.shapes o.variant).gpus⟩] else bs.flavors
        | none => bs.flavors }
    match p.lentRef s.bs (p.shapes o.variant).accelerator with
    | some ref => p.growInto bs' ref o (p.took s.bs o.variant) (p.fromOwn s.bs o.variant) onNode
    | none => bs'
  guaranteed :=
    if guaranteedLeft s.guaranteed (p.shapes o.variant).accelerator = ⊤ then s.guaranteed
    else setGuaranteed s.guaranteed (p.shapes o.variant).accelerator
      (guaranteedLeft s.guaranteed (p.shapes o.variant).accelerator - (p.shapes o.variant).gpus)

/-- `placeReplica` within the guaranteed figure. -/
def placeGuaranteed (s : PassState) (o : Order) : PassState × Outcome :=
  let co := s.bs.coGuaranteed p.ns (p.shapes o.variant).accelerator
    (p.borrowKey s.bs (p.shapes o.variant).accelerator) (p.shapes o.variant).replicaRequests
    (p.reclaims s.bs o.variant)
  let placed := placeOn co.1.nodes (p.onQueueFlavor co.1 o.variant)
  if co.2 then
    if placed.2 || p.reclaims s.bs o.variant then
      (p.commitGuaranteed s co.1 o placed.1 placed.2, .guaranteed)
    else ({ s with bs := co.1 }, .refused)
  else ({ s with bs := co.1 }, .refused)

structure Drawn where
  fromOwn : Int
  closes : Bool
  nodes : Option NodeView
  chunk : SharedPoolChunk

/-- The variant's own draw in flight on a chunk. -/
def ownDraw (bs : BorrowState) (v : String) (c : SharedPoolChunk) : Int :=
  (bs.credit.get (p.variantKey v)).get c.key

/-- A replica's draw on one chunk, when the rules, the pool, the co-resources and a node of the
flavor allow it. -/
def drawOn (bs : BorrowState) (o : Order) (b : NsBorrowLeft) (need : ℕ) (c : SharedPoolChunk) :
    Option (Drawn × SharedPoolChunk) :=
  let sh := p.shapes o.variant
  let own := p.ownDraw bs o.variant c
  let placed := placeOn bs.nodes
    { p.replica bs o.variant with flavor := some c.toFlavorPlacement }
  if bs.isCohortChunk p.ns sh.accelerator c && !bs.blockedIn p.ns p.modelID c.cohort &&
      (need ≤ c.drawable sh.priorityClass b.priority + own) &&
      coFitsKept c.coFree b.coKept sh.replicaRequests &&
      coWithin b.coHeadroom sh.replicaRequests && placed.2 then
    some (⟨min own need, c.drawable sh.priorityClass b.priority < c.free, placed.1, c⟩,
      { c.spendCo b.coKept sh.replicaRequests with
        free := c.free - (need - min own need)
        restrictedClosed := c.restrictedClosed ||
          decide (c.drawable sh.priorityClass b.priority < c.free) })
  else none

def drawOf (o : Order) (need : ℕ) (d : Drawn) : BorrowDraw where
  ns := p.ns
  modelID := p.modelID
  variant := o.variant
  cohort := d.chunk.cohort
  flavor := d.chunk.flavor
  resource := d.chunk.resource
  gpus := need
  replicas := 1
  target := o.target
  placement := some d.chunk.toFlavorPlacement
  closesRestricted := d.closes
  creditGPUs := if 0 < d.fromOwn then d.fromOwn else 0
  creditReplicas := if 0 < d.fromOwn then 1 else 0

/-- What a namespace may still take after a draw. -/
def lessDraw (requests : GoMap String Int) (need : ℕ) (b : NsBorrowLeft) : NsBorrowLeft :=
  { b.spendCo requests with cap := b.cap - need }

/-- The variants' own draws in flight, less what a draw re-placed. -/
def lessCredit (bs : BorrowState) (v : String) (d : Drawn) : GoMap String (GoMap String Int) :=
  if 0 < d.fromOwn then
    bs.credit.rewrite v fun m => m.rewrite d.chunk.key fun n => n - d.fromOwn
  else bs.credit

/-- The state after a replica drew on a chunk. -/
def commitDraw (s : PassState) (o : Order) (key : String) (need : ℕ) (d : Drawn)
    (chunks : List SharedPoolChunk) : PassState where
  bs :=
    { s.bs.setLeft p.ns (.counted key)
        (lessDraw (p.shapes o.variant).replicaRequests need) with
      chunks := chunks
      nodes := d.nodes
      credit := lessCredit s.bs (p.variantKey o.variant) d
      draws := s.bs.draws ++ [p.drawOf o need d]
      flavors := s.bs.flavors ++
        [⟨p.variantKey o.variant, d.chunk.toFlavorPlacement, (p.shapes o.variant).gpus⟩] }
  guaranteed := setGuaranteed s.guaranteed (p.shapes o.variant).accelerator 0

/-- The part of a replica past the guaranteed figure. -/
def past (s : PassState) (v : String) : ℕ :=
  (p.shapes v).gpus - (guaranteedLeft s.guaranteed (p.shapes v).accelerator).toNat

/-- `placeReplica` past the guaranteed figure. -/
def placeBorrowed (s : PassState) (o : Order) : PassState × Outcome :=
  match p.borrowKey s.bs (p.shapes o.variant).accelerator with
  | none => (s, .refused)
  | some k =>
    if s.bs.blocked p.ns p.modelID o.variant then (s, .refused)
    else if (s.bs.left p.ns (.counted k)).cap < p.past s o.variant then (s, .refused)
    else match updateFirst (p.drawOn s.bs o (s.bs.left p.ns (.counted k)) (p.past s o.variant))
        s.bs.chunks with
      | some r => (p.commitDraw s o k (p.past s o.variant) r.1 r.2, .drew)
      | none => (s, .refused)

def placeReplica (s : PassState) (o : Order) : PassState × Outcome :=
  if (p.shapes o.variant).gpus ≤ guaranteedLeft s.guaranteed (p.shapes o.variant).accelerator then
    p.placeGuaranteed s o
  else p.placeBorrowed s o

end ModelPlacer

structure ViewDebits where
  debit : GoMap ℕ Int
  owned : Option (GoMap String (GoMap ℕ Int))

def NodeView.saveDebits (v : NodeView) : ViewDebits := ⟨v.debit, v.owned⟩

def NodeView.restoreDebits (v : NodeView) (s : ViewDebits) : NodeView :=
  { v with debit := s.debit, owned := s.owned }

/-- The figures of a chunk a pass changes. -/
structure ChunkSave where
  free : Int
  closed : Bool
  coFree : GoMap String Int

/-- A borrowing state taken before a tentative placement. -/
structure BorrowSave where
  borrow : GoMap String (GoMap String NsBorrowLeft)
  lent : GoMap String (GoMap String NsBorrowLeft)
  chunks : List ChunkSave
  nodes : Option ViewDebits
  draws : ℕ
  guaranteed : Option Figures
  credit : GoMap String (GoMap String Int)
  reclaimCredit : GoMap String (GoMap String Reclaim)
  flavors : ℕ
  reclaims : ℕ

/-- `restoreLeft`: the saved allowances written back. -/
def restoreLeft (m saved : GoMap String (GoMap String NsBorrowLeft)) :
    GoMap String (GoMap String NsBorrowLeft) :=
  m.mapValues fun ns perType => perType.writeBack (saved.get ns)

namespace PassState

def save (s : PassState) : BorrowSave where
  borrow := s.bs.borrow
  lent := s.bs.lent
  chunks := s.bs.chunks.map fun c => ⟨c.free, c.restrictedClosed, c.coFree⟩
  nodes := s.bs.nodes.map NodeView.saveDebits
  draws := s.bs.draws.length
  guaranteed := s.guaranteed
  credit := s.bs.credit
  reclaimCredit := s.bs.reclaimCredit
  flavors := s.bs.flavors.length
  reclaims := s.bs.reclaims.length

/-- A chunk's figures put back. -/
def restoreChunk (c : SharedPoolChunk) (saved : ChunkSave) : SharedPoolChunk :=
  { c with free := saved.free, restrictedClosed := saved.closed, coFree := saved.coFree }

/-- A view's debits put back. -/
def restoreNodes (nodes : Option NodeView) (saved : Option ViewDebits) : Option NodeView :=
  match nodes, saved with
  | some v, some d => some (NodeView.restoreDebits v d)
  | nodes, _ => nodes

/-- `restore`: the state put back as `save` took it. -/
def restore (s : PassState) (saved : BorrowSave) : PassState where
  bs := { s.bs with
    borrow := restoreLeft s.bs.borrow saved.borrow
    lent := restoreLeft s.bs.lent saved.lent
    chunks := List.zipWith restoreChunk s.bs.chunks saved.chunks
    nodes := restoreNodes s.bs.nodes saved.nodes
    draws := s.bs.draws.take saved.draws
    credit := saved.credit
    reclaimCredit := saved.reclaimCredit
    flavors := s.bs.flavors.take saved.flavors
    reclaims := s.bs.reclaims.take saved.reclaims }
  guaranteed := saved.guaranteed

end PassState

inductive TryResult
  | placed
  | refused
  /-- The unit straddles guaranteed and borrowed capacity. -/
  | straddled
  deriving DecidableEq, Repr

/-- A unit: the roles picked and each one's variant. -/
structure PlaceUnit where
  picked : List String
  variantOf : GoMap String String
  nodup : picked.Nodup

namespace ModelPlacer

variable (p : ModelPlacer) (unit : PlaceUnit)

/-- The replicas of a unit with the given counts, role by role. -/
def orders (k : GoMap String ℕ) : List Order :=
  unit.picked.flatMap fun role => List.replicate (k.get role)
    ⟨unit.variantOf.get role, p.targets.get (unit.variantOf.get role) + k.get role⟩

/-- The loop of `tryUnit`: replicas placed one by one, and how many drew and how many did not. -/
def placeOrders : PassState → List Order → PassState × Option (ℕ × ℕ)
  | s, [] => (s, some (0, 0))
  | s, o :: os =>
    match p.placeReplica s o with
    | (s', .refused) => (s', none)
    | (s', .guaranteed) =>
      ((placeOrders s' os).1, (placeOrders s' os).2.map fun n => (n.1, n.2 + 1))
    | (s', .drew) =>
      ((placeOrders s' os).1, (placeOrders s' os).2.map fun n => (n.1 + 1, n.2))

/-- `tryUnit`: every replica of the unit, all borrowed or none when it has several roles. -/
def tryUnit (s : PassState) (k : GoMap String ℕ) : PassState × TryResult :=
  match p.placeOrders s (p.orders unit k) with
  | (s', none) => (s', .refused)
  | (s', some n) =>
    if 1 < unit.picked.length ∧ 0 < n.1 ∧ 0 < n.2 then (s', .straddled) else (s', .placed)

/-- The GPUs of a variant that are borrowed: in flight, drawn this pass, and all its namespace
holds past its figure. -/
def borrowedOf (s : PassState) (v : String) : Int :=
  ((s.bs.credit.get (p.variantKey v)).entries.map Sigma.snd).sum +
    sumIf (fun d => d.ns = p.ns && d.variant = v) BorrowDraw.gpus s.bs.draws +
    match findBudgetKey (s.bs.heldPast.get p.ns) (p.shapes v).accelerator with
    | some k => (s.bs.heldPast.get p.ns).get k
    | none => 0

/-- `guaranteedPartners`: every other role has a replica that is not borrowed. -/
def guaranteedPartners (s : PassState) (role : String) : Bool :=
  unit.picked.all fun other => other = role ||
    1 ≤ p.targets.get (unit.variantOf.get other) -
      ceilDiv (p.borrowedOf s (unit.variantOf.get other)) (p.shapes (unit.variantOf.get other)).gpus

/-- The guaranteed budget holds one more replica by a bounded figure. -/
def guaranteedHolds (s : PassState) (v : String) : Bool :=
  guaranteedLeft s.guaranteed (p.shapes v).accelerator ≠ ⊤ &&
    (p.shapes v).gpus ≤ guaranteedLeft s.guaranteed (p.shapes v).accelerator

/-- The loop of `fillGuaranteed` over one role's replicas: the first that does not place within the
guaranteed figure is rolled back and ends it. -/
def fillRole (v : String) : ℕ → ℕ → PassState → PassState × ℕ
  | 0, n, s => (s, n)
  | todo + 1, n, s =>
    if p.guaranteedHolds s v then
      if (p.placeReplica s ⟨v, p.targets.get v + n + 1⟩).2 = .guaranteed then
        fillRole v todo (n + 1) (p.placeReplica s ⟨v, p.targets.get v + n + 1⟩).1
      else ((p.placeReplica s ⟨v, p.targets.get v + n + 1⟩).1.restore s.save, n)
    else (s, n)

/-- `fillGuaranteed`: the first role that can is filled alone; the counts of what was placed. -/
def fillGuaranteed (k : GoMap String ℕ) : List String → PassState →
    PassState × Option (GoMap String ℕ)
  | [], s => (s, none)
  | role :: roles, s =>
    if p.guaranteedPartners unit s role then
      if (p.fillRole (unit.variantOf.get role) (k.get role) 0 s).2 = 0 then
        fillGuaranteed k roles (p.fillRole (unit.variantOf.get role) (k.get role) 0 s).1
      else
        ((p.fillRole (unit.variantOf.get role) (k.get role) 0 s).1,
          some ((k.mapValues fun r n => if unit.picked.contains r then 0 else n).set role
            (p.fillRole (unit.variantOf.get role) (k.get role) 0 s).2))
    else fillGuaranteed k roles s

/-- The GPUs a role's replicas take. -/
def roleGPUs (k : GoMap String ℕ) (role : String) : ℕ :=
  k.get role * (p.shapes (unit.variantOf.get role)).gpus

/-- The role to trim: the one that holds the most GPUs of those with more than one replica, `""`
when there is none. -/
def largestRole (k : GoMap String ℕ) : String :=
  unit.picked.foldl (fun largest role =>
    if 1 < k.get role ∧ (largest = "" ∨ p.roleGPUs unit k largest < p.roleGPUs unit k role) then role
    else largest) ""

structure UnitState where
  pass : PassState
  counts : GoMap String ℕ
  placed : Bool

/-- The state after a try that did not place was rolled back and, when it straddled, the guaranteed
remainder filled. -/
def rolledBack (u : UnitState) : PassState × Option (GoMap String ℕ) :=
  if (p.tryUnit unit u.pass u.counts).2 = .straddled then
    p.fillGuaranteed unit u.counts unit.picked
      ((p.tryUnit unit u.pass u.counts).1.restore u.pass.save)
  else ((p.tryUnit unit u.pass u.counts).1.restore u.pass.save, none)

/-- One pass of `placeUnit`'s loop. -/
def unitBody (u : UnitState) : Pass UnitState :=
  if (p.tryUnit unit u.pass u.counts).2 = .placed then
    .stop ⟨(p.tryUnit unit u.pass u.counts).1, u.counts, true⟩
  else match (p.rolledBack unit u).2 with
    | some k => .stop ⟨(p.rolledBack unit u).1, k, true⟩
    | none =>
      if p.largestRole unit u.counts = "" then .stop ⟨(p.rolledBack unit u).1, u.counts, false⟩
      else .again ⟨(p.rolledBack unit u).1, u.counts.set (p.largestRole unit u.counts)
        (u.counts.get (p.largestRole unit u.counts) - 1), false⟩

/-- `placeUnit`: the unit, or the largest trimmed one that places. -/
def placeUnit (s : PassState) (k : GoMap String ℕ) : UnitState :=
  loop (p.unitBody unit) ((unit.picked.map fun role => k.get role).sum + 1) ⟨s, k, false⟩

end ModelPlacer

end LlmScaler.Borrow
