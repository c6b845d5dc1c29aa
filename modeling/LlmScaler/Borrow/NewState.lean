import LlmScaler.Borrow.Placement
import LlmScaler.Borrow.Wake

/-!
# The borrowing state a pass starts from

The state is built from the constraints: one chunk per cohort, flavor and resource at the smallest
figure any provider gives, the namespaces' allowances at the tighter of two entries, and the
variants' own entries in flight as credit.
-/

namespace LlmScaler.Borrow

open LlmScaler.Core LlmScaler.Nodes LlmScaler.Budget

/-- A figure per key taken over unless the map has a better one. -/
def takeBetter (better : Int → Int → Bool) (known more : GoMap String Int) : GoMap String Int :=
  more.entries.foldl (fun m e => match m.find? e.1 with
    | some n => if better e.2 n then m.set e.1 e.2 else m
    | none => m.set e.1 e.2) known

/-- One lender's restricted GPUs added: the larger figure and the lower priority of two. -/
def mergeRestricted : List PriorityLend → PriorityLend → List PriorityLend
  | [], r => [r]
  | o :: os, r =>
    if o.queue = r.queue then ⟨o.queue, min o.below r.below, max o.gpus r.gpus⟩ :: os
    else o :: mergeRestricted os r

/-- The priority borrowed GPUs are held at: the higher, unknown when either read did not read it. -/
def mergeBorrowerPriority (prev p : SharedPoolChunk) : Option Int :=
  if (0 < prev.borrowed ∧ prev.borrowerPriority = none) ∨
      (0 < p.borrowed ∧ p.borrowerPriority = none) then none
  else match p.borrowerPriority, prev.borrowerPriority with
    | some n, some m => some (max n m)
    | some n, none => some n
    | none, prev => prev

/-- The older read time of two, of those that are known. -/
def mergeReadAt (prev p : Time) : Time :=
  match p, prev with
  | some t, some t' => some (min t t')
  | some t, none => some t
  | none, prev => prev

/-- `mergeChunk`: another provider's read of the same chunk folded in. -/
def mergeChunk (prev p : SharedPoolChunk) : SharedPoolChunk :=
  { prev with
    free := min prev.free p.free
    pendingGPUs := max prev.pendingGPUs p.pendingGPUs
    coFree := takeBetter (fun n m => n < m) prev.coFree p.coFree
    restrictedClosed := prev.restrictedClosed || p.restrictedClosed
    borrowerPriority := mergeBorrowerPriority prev p
    borrowed := max prev.borrowed p.borrowed
    readAt := mergeReadAt prev.readAt p.readAt
    restricted := p.restricted.foldl mergeRestricted prev.restricted
    classPriority := takeBetter (fun n m => m < n) prev.classPriority p.classPriority }

/-- One provider's chunk added to those by key. -/
def addChunk (byKey : GoMap String SharedPoolChunk) (p : SharedPoolChunk) :
    GoMap String SharedPoolChunk :=
  match byKey.find? p.key with
  | some prev => byKey.set p.key (mergeChunk prev p)
  | none => byKey.set p.key p

def chunkOrder (c : SharedPoolChunk) : String ×ₗ String ×ₗ String :=
  toLex (c.cohort, toLex (c.flavor, c.resource))

variable (constraints : List BorrowConstraints)

def counting : List BorrowConstraints := constraints.filter fun c => c.namespaceBorrow.isSome

/-- The chunks of `mergeSharedPools`, by key. -/
def chunksByKey : GoMap String SharedPoolChunk :=
  ((counting constraints).flatMap BorrowConstraints.sharedPools).foldl addChunk ∅

/-- `mergeSharedPools`: every provider's chunks, one per key, in order. -/
def mergedChunks : List SharedPoolChunk :=
  (Sorting.byKey chunkOrder).sort ((chunksByKey constraints).entries.map Sigma.snd)

/-- `mergeSharedPools`: the cohorts of each namespace. -/
def mergedCohorts : GoMap String (List String) :=
  (counting constraints).foldl (fun m c => c.namespaceCohorts.entries.foldl (fun m e =>
    e.2.foldl (fun m co => if (m.get e.1).contains co then m else m.set e.1 (m.get e.1 ++ [co])) m)
    m) ∅

/-- `tighterCo` for what bounds: the smaller of two, a bound only one has included. -/
def tighterHeadroom (a b : GoMap String Int) : GoMap String Int :=
  takeBetter (fun n m => n < m) a b

/-- `tighterCo` for what is kept: the smaller of two, what only one has left out. -/
def tighterKept (a b : GoMap String Int) : GoMap String Int :=
  (a.deleteFunc fun res _ => !b.has res).mapValues fun res n => min n (b.get res)

/-- What may still be borrowed of an entry, nothing new when its quota could not be read. -/
def NamespaceBorrow.drawable (b : NamespaceBorrow) : ℕ∞ := if b.frozen then 0 else b.cap

/-- An entry's allowance. -/
def leftOf (b : NamespaceBorrow) : NsBorrowLeft where
  cap := b.drawable
  after := b.preemptAfter
  kept := min b.preemptKept b.preemptAfter
  lentOut := b.lentOut
  priority := b.highestPriority
  coHeadroom := b.coHeadroom
  coKept := b.coKept

/-- Two entries hold the namespace: the tighter of each. -/
def NsBorrowLeft.tighten (prev : NsBorrowLeft) (b : NamespaceBorrow) : NsBorrowLeft where
  coHeadroom := tighterHeadroom prev.coHeadroom b.coHeadroom
  coKept := tighterKept prev.coKept b.coKept
  cap := min prev.cap b.drawable
  lentOut := min prev.lentOut b.lentOut
  after := max prev.after b.preemptAfter
  kept := min prev.kept b.preemptKept
  priority := match b.highestPriority, prev.priority with
    | some n, some m => some (max n m)
    | some n, none => some n
    | none, prev => prev

/-- One type's entry added to a namespace's allowances. -/
def addLeft (perType : GoMap String NsBorrowLeft) (t : String) (b : NamespaceBorrow) :
    GoMap String NsBorrowLeft :=
  match perType.find? t with
  | some prev => perType.set t (prev.tighten b)
  | none => perType.set t (leftOf b)

def addNamespace (m : GoMap String (GoMap String NsBorrowLeft)) (ns : String)
    (perType : GoMap String NamespaceBorrow) : GoMap String (GoMap String NsBorrowLeft) :=
  m.set ns (perType.entries.foldl (fun left e => addLeft left e.1 e.2) (m.get ns))

def addBorrow (m : GoMap String (GoMap String NsBorrowLeft)) (c : BorrowConstraints) :
    GoMap String (GoMap String NsBorrowLeft) :=
  (c.namespaceBorrow.getD ∅).entries.foldl (fun m e => addNamespace m e.1 e.2) m

/-- What each namespace that counts borrowing may take. -/
def newBorrow : GoMap String (GoMap String NsBorrowLeft) := constraints.foldl addBorrow ∅

/-- One type's nominal figures added: the cautious of two. -/
def addNominal (perType : GoMap String NsBorrowLeft) (t : String) (f : NominalFigures) :
    GoMap String NsBorrowLeft :=
  match perType.find? t with
  | some prev => perType.set t { prev with
      lentOut := min prev.lentOut f.lentOut
      after := max prev.after f.preemptAfter
      kept := min prev.kept f.preemptKept
      coHeadroom := tighterHeadroom prev.coHeadroom f.coHeadroom }
  | none => perType.set t
      ⟨0, f.preemptAfter, min f.preemptKept f.preemptAfter, f.lentOut, none, f.coHeadroom, ∅⟩

/-- What each namespace read and not counted may grow into. -/
def newLent (counted : GoMap String (GoMap String NsBorrowLeft)) :
    GoMap String (GoMap String NsBorrowLeft) :=
  constraints.foldl (fun m c => c.namespaceNominal.entries.foldl (fun m e =>
    if counted.has e.1 then m
    else m.set e.1 (e.2.entries.foldl (fun left f => addNominal left f.1 f.2) (m.get e.1))) m) ∅

/-- The co-resource headroom alone of one type, when the figures carry one. -/
def addNominalCo (m : GoMap String (GoMap String NsBorrowLeft)) (ns t : String)
    (f : NominalFigures) : GoMap String (GoMap String NsBorrowLeft) :=
  if f.coHeadroom.keys.isEmpty then m
  else m.set ns (match (m.get ns).find? t with
    | some prev => (m.get ns).set t { prev with
        coHeadroom := tighterHeadroom prev.coHeadroom f.coHeadroom }
    | none => (m.get ns).set t ⟨0, 0, 0, 0, none, f.coHeadroom, ∅⟩)

/-- `namespaceHeldPast`: the GPUs each namespace holds past its guaranteed figure by the read. -/
def namespaceHeldPast : GoMap String (GoMap String Int) :=
  (counting constraints).foldl (fun m c => (c.namespaceBorrow.getD ∅).keys.foldl (fun m ns =>
    (c.namespacePools.get ns).entries.foldl (fun m e => match e.2.limit with
      | ⊤ => m
      | (limit : ℕ) => m.set ns ((m.get ns).set e.1 (max 0 ((e.2.used : Int) - limit)))) m) m) ∅

def namespacesOf : List String :=
  (constraints.flatMap fun c => (c.namespaceBorrow.getD ∅).keys ++ c.namespaceNominal.keys).dedup

/-- `hasNominalCo`: some namespace carries nominal co-resource headroom. -/
def hasNominalCo : Bool :=
  constraints.any fun c => c.namespaceNominal.entries.any fun e =>
    e.2.entries.any fun f => !f.2.coHeadroom.keys.isEmpty

/-- The rules the optimizer sets on a new state. -/
structure PassRules where
  blocked : String → String → String → Bool
  blockedIn : String → String → String → Bool
  reclaimBlocked : String → String → Bool
  borrowCredit : List BorrowDraw
  reclaimCredit : List BorrowDraw

/-- `setCredit`: the GPUs of the draws in flight, per variant and chunk. -/
def creditOf (draws : List BorrowDraw) : GoMap String (GoMap String Int) :=
  draws.foldl (fun m d => m.modify (d.ns ++ "/" ++ d.variant) fun perChunk =>
    perChunk.modify (d.cohort ++ "/" ++ d.flavor ++ "/" ++ d.resource) fun n => n + d.gpus) ∅

/-- `setReclaimCredit`: the reclaims in flight, per variant and accelerator. -/
def reclaimCreditOf (draws : List BorrowDraw) : GoMap String (GoMap String Reclaim) :=
  (draws.filter fun d => d.reclaim && (0 < d.gpus || 0 < d.after)).foldl (fun m d =>
    m.modify (d.ns ++ "/" ++ d.variant) fun perAcc =>
      perAcc.modify d.accelerator fun r => r.add d.reclaimOf) ∅

/-- `newBorrowState` and what the optimizer sets on it; without a constraint that counts borrowing
only the nominal co-resource headroom, and no state without that either. -/
def newBorrowState (nodes : Option NodeView) (rules : PassRules) : Option BorrowState :=
  if hasBorrowing constraints then some
    { borrow := newBorrow constraints
      ownFlavors := GoMap.ofList ((namespacesOf constraints).map fun ns =>
        (ns, ownFlavorsOf constraints ns))
      lent := newLent constraints (newBorrow constraints)
      chunks := mergedChunks constraints
      cohorts := mergedCohorts constraints
      nodes := nodes
      draws := []
      credit := creditOf rules.borrowCredit
      reclaimCredit := reclaimCreditOf rules.reclaimCredit
      flavors := []
      reclaims := []
      blocked := rules.blocked
      blockedIn := rules.blockedIn
      reclaimBlocked := rules.reclaimBlocked
      heldPast := namespaceHeldPast constraints }
  else if hasNominalCo constraints then some
    { borrow := ∅
      ownFlavors := ∅
      lent := constraints.foldl (fun m c => c.namespaceNominal.entries.foldl (fun m e =>
        e.2.entries.foldl (fun m f => addNominalCo m e.1 f.1 f.2) m) m) ∅
      chunks := []
      cohorts := ∅
      nodes := nodes
      draws := []
      credit := creditOf rules.borrowCredit
      reclaimCredit := reclaimCreditOf rules.reclaimCredit
      flavors := []
      reclaims := []
      blocked := rules.blocked
      blockedIn := rules.blockedIn
      reclaimBlocked := rules.reclaimBlocked
      heldPast := ∅ }
  else none

end LlmScaler.Borrow
