import LlmScaler.Core.Merging
import LlmScaler.Kueue.Lender
import LlmScaler.Borrow.NewState

/-!
# Several providers' reads of one chunk

A read of a chunk carries, beside what a pass spends, what the governor watches: the lenders and
whether they wait, the evictions under way, and whether the read is stale. Reads of one chunk are
merged field by field. Every field but three of a lender's is joined; its policy, what it lends and
its priority stay those of the read merged first.
-/

namespace LlmScaler.Borrow

open LlmScaler.Core LlmScaler.Kueue

structure ChunkRead extends SharedPoolChunk where
  /-- The cohort's free pool as read, before anything is taken from it. -/
  rawFree : Int
  /-- The members that declare the chunk's flavor and resource. -/
  lenders : List LenderState
  stale : Bool
  /-- The co-resources charged on a flavor that is not known. -/
  coUnbound : List String
  /-- The lowest priority the chunk's key is borrowed at. -/
  borrowerLowest : Option Int
  evictingGPUs : Int
  evictionsRead : Bool
  stuckEvictingGPUs : Int
  /-- The read counts what lenders Kueue does not reclaim for lend. -/
  releaseToNonReclaiming : Bool
  restricted_distinct : (restricted.map PriorityLend.queue).Nodup
  lenders_distinct : (lenders.map LenderState.queue).Nodup
  coUnbound_distinct : coUnbound.Nodup

/-- One lender's other read folded in: what a release hands it, the side releasing less. -/
def joinLender (o l : LenderState) : LenderState :=
  { o with
    waiting := o.waiting || l.waiting
    pendingGPUs := min o.pendingGPUs l.pendingGPUs
    kept := max o.kept l.kept
    pendingPriority := Option.merge max o.pendingPriority l.pendingPriority
    pendingSince := Option.merge max o.pendingSince l.pendingSince }

/-- The lowest priority a chunk is borrowed at: the lower, unknown when either read has borrowing
without one. -/
def mergeBorrowerLowest (prev p : ChunkRead) : Option Int :=
  if (0 < prev.borrowed ∧ prev.borrowerLowest = none) ∨
      (0 < p.borrowed ∧ p.borrowerLowest = none) then none
  else Option.merge min prev.borrowerLowest p.borrowerLowest

/-- One lender's other restricted part folded in. -/
def joinLend (o r : PriorityLend) : PriorityLend :=
  ⟨o.queue, min o.below r.below, max o.gpus r.gpus⟩

@[simp] theorem queue_joinLend (o r : PriorityLend) : (joinLend o r).queue = o.queue := rfl

@[simp] theorem queue_joinLender (o l : LenderState) : (joinLender o l).queue = o.queue := rfl

private theorem mergeRestricted_eq (l : List PriorityLend) (r : PriorityLend) :
    mergeRestricted l r = upsert PriorityLend.queue joinLend l r := by
  induction l with
  | nil => rfl
  | cons o os ih =>
    rw [mergeRestricted, upsert, ih]
    rfl

theorem mergedRestricted_eq (prev more : List PriorityLend) :
    more.foldl mergeRestricted prev = more.foldl (upsert PriorityLend.queue joinLend) prev := by
  rw [funext₂ mergeRestricted_eq]

/-- `mergeChunk` on all that a read carries. -/
def mergeRead (prev p : ChunkRead) : ChunkRead where
  toSharedPoolChunk := mergeChunk prev.toSharedPoolChunk p.toSharedPoolChunk
  rawFree := min prev.rawFree p.rawFree
  lenders := (Sorting.byKey LenderState.queue).sort
    (p.lenders.foldl (upsert LenderState.queue joinLender) prev.lenders)
  stale := prev.stale || p.stale
  coUnbound := (Sorting.byKey id).sort (p.coUnbound.foldl (upsert id fun o _ => o) prev.coUnbound)
  borrowerLowest := mergeBorrowerLowest prev p
  evictingGPUs := max prev.evictingGPUs p.evictingGPUs
  evictionsRead := prev.evictionsRead && p.evictionsRead
  stuckEvictingGPUs := max prev.stuckEvictingGPUs p.stuckEvictingGPUs
  releaseToNonReclaiming := prev.releaseToNonReclaiming && p.releaseToNonReclaiming
  restricted_distinct := by
    show ((p.restricted.foldl mergeRestricted prev.restricted).map PriorityLend.queue).Nodup
    rw [mergedRestricted_eq]
    exact nodup_foldl_upsert queue_joinLend prev.restricted_distinct p.restricted
  lenders_distinct :=
    (((Sorting.byKey LenderState.queue).perm _).map LenderState.queue).nodup_iff.mpr
      (nodup_foldl_upsert queue_joinLender prev.lenders_distinct p.lenders)
  coUnbound_distinct := by
    rw [((Sorting.byKey id).perm _).nodup_iff, ← List.map_id (List.foldl _ _ _)]
    exact nodup_foldl_upsert (fun _ _ => rfl) (by rw [List.map_id]; exact prev.coUnbound_distinct) _

structure SameRead (a b : ChunkRead) : Prop where
  placement : a.toFlavorPlacement = b.toFlavorPlacement
  id : a.id = b.id
  free : a.free = b.free
  readAt : a.readAt = b.readAt
  pendingGPUs : a.pendingGPUs = b.pendingGPUs
  coFree : ∀ res, a.coFree.find? res = b.coFree.find? res
  restricted : a.restricted.Perm b.restricted
  classPriority : ∀ cls, a.classPriority.find? cls = b.classPriority.find? cls
  borrowed : a.borrowed = b.borrowed
  borrowerPriority : a.borrowerPriority = b.borrowerPriority
  restrictedClosed : a.restrictedClosed = b.restrictedClosed
  rawFree : a.rawFree = b.rawFree
  lenders : a.lenders.Perm b.lenders
  stale : a.stale = b.stale
  coUnbound : a.coUnbound.Perm b.coUnbound
  borrowerLowest : a.borrowerLowest = b.borrowerLowest
  evictingGPUs : a.evictingGPUs = b.evictingGPUs
  evictionsRead : a.evictionsRead = b.evictionsRead
  stuckEvictingGPUs : a.stuckEvictingGPUs = b.stuckEvictingGPUs
  releaseToNonReclaiming : a.releaseToNonReclaiming = b.releaseToNonReclaiming

end LlmScaler.Borrow
