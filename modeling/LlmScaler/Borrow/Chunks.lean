import LlmScaler.Borrow.InFlight

/-!
# What every chunk loses

However many chunks the constraints have, and whatever is lagging, gated, admitted or pending, each
chunk loses at least the draws in flight on it, clamped at 0: a draw whose pods do not exist yet is
covered by no pod and shown by no read.
-/

namespace LlmScaler.Borrow

open LlmScaler.Core List

def inFlightOn (p : SharedPoolChunk) (d : BorrowDraw) : Bool := p.holds d && d.resolvedAt.isNone

theorem unshown_of_inFlightOn {p : SharedPoolChunk} {d : BorrowDraw} (h : inFlightOn p d = true) :
    unshown p d = true := by
  unfold inFlightOn at h
  unfold unshown SharedPoolChunk.readAfter
  rw [Bool.and_eq_true, Option.isNone_iff_eq_none] at h
  rw [h.1, h.2]
  rfl

theorem inFlight_coverDraws (p : SharedPoolChunk) (covers : List AdmittedGPUs)
    (draws : List BorrowDraw) :
    sumIf (inFlightOn p) BorrowDraw.gpus (coverDraws covers draws) =
      sumIf (inFlightOn p) BorrowDraw.gpus draws := by
  induction draws generalizing covers with
  | nil => rfl
  | cons d ds ih =>
    unfold coverDraws
    split_ifs with hres
    · rw [sumIf_cons, sumIf_cons, ih]
    · have hd : inFlightOn p d = false := by
        unfold inFlightOn
        rw [Bool.eq_false_iff.mpr hres, Bool.and_false]
      have hd' : inFlightOn p { d with
          gpus := (coverWith d.ns d.drawAccelerator d.gpus covers).1 } = false := hd
      rw [sumIf_cons, sumIf_cons, ih, hd, hd', if_neg Bool.false_ne_true,
        if_neg Bool.false_ne_true]

theorem inFlight_le_drawnGPUs {ds : List BorrowDraw} (hds : ∀ d ∈ ds, 0 ≤ d.poolGPUs)
    (gated : GoMap String (GoMap String Int)) (admitted : List AdmittedGPUs) (p : SharedPoolChunk) :
    sumIf (inFlightOn p) BorrowDraw.poolGPUs ds ≤
      drawnGPUs p (lagCoveredByGated (poolDraws ds) gated admitted) := by
  have hpool : sumIf (inFlightOn p) BorrowDraw.gpus (poolDraws ds) =
      sumIf (inFlightOn p) BorrowDraw.poolGPUs ds := sumIf_poolDraws (fun _ _ => rfl) ds
  have hsum : sumIf (inFlightOn p) BorrowDraw.gpus
      (lagCoveredByGated (poolDraws ds) gated admitted) =
        sumIf (inFlightOn p) BorrowDraw.gpus (poolDraws ds) := by
    unfold lagCoveredByGated
    split_ifs
    · rfl
    · exact inFlight_coverDraws p _ _
  have hnonneg := lagCovered_nonneg hds gated admitted
  rw [← hpool, ← hsum]
  exact sumIf_mono (fun d _ => unshown_of_inFlightOn) fun d hd _ => hnonneg d hd

section Pods

variable (cohorts : GoMap String (List String))

theorem chunks_chargePod (q : AdmittedGPUs) (n : Int) (ts : List ChunkTake) :
    (chargePod cohorts q n ts).map ChunkTake.chunk = ts.map ChunkTake.chunk := by
  induction ts generalizing n with
  | nil => rfl
  | cons t ts ih =>
    unfold chargePod
    split_ifs
    · rfl
    · rw [map_cons, ih, map_cons]
    · rw [map_cons, ih, map_cons]

theorem chunks_chargePods (pods : List AdmittedGPUs) (ts : List ChunkTake) :
    (pods.foldl (fun ts q => chargePod cohorts q q.gpus ts) ts).map ChunkTake.chunk =
      ts.map ChunkTake.chunk := by
  induction pods generalizing ts with
  | nil => rfl
  | cons q pods ih => rw [foldl_cons, ih, chunks_chargePod]

theorem deductPods_le (pods : List AdmittedGPUs) (ps : List SharedPoolChunk)
    (hpending : ∀ p ∈ ps, 0 ≤ p.pendingGPUs) :
    Forall₂ (fun p p' => p'.free ≤ max 0 p.free) ps (deductPods cohorts pods ps) := by
  unfold deductPods
  have hchunks := chunks_chargePods cohorts pods (ps.map fun p => ⟨p, p.free, 0⟩)
  rw [map_map, show ChunkTake.chunk ∘ (fun p : SharedPoolChunk => ⟨p, p.free, 0⟩) = id from rfl,
    map_id] at hchunks
  generalize List.foldl _ _ pods = ts at hchunks
  subst hchunks
  rw [forall₂_map_left_iff, forall₂_map_right_iff, forall₂_same]
  intro t ht
  have := hpending t.chunk (mem_map_of_mem ht)
  change max 0 (t.chunk.free - max t.fromPods t.chunk.pendingGPUs) ≤ max 0 t.chunk.free
  omega

end Pods

/-- A chunk whose figures are not negative. -/
structure SharedPoolChunk.Counts (p : SharedPoolChunk) : Prop where
  free : 0 ≤ p.free
  pending : 0 ≤ p.pendingGPUs

theorem pendingGPUs_deductDraws (ds : List BorrowDraw) (p : SharedPoolChunk) :
    (ds.foldl deductDraw p).pendingGPUs = p.pendingGPUs := by
  induction ds generalizing p with
  | nil => rfl
  | cons d ds ih =>
    rw [foldl_cons, ih]
    unfold deductDraw
    split_ifs
    · rfl
    · rfl

theorem deductConstraint_lowers {c : BorrowConstraints} (hc : ∀ p ∈ c.sharedPools, p.Counts)
    (hb : c.namespaceBorrow.isSome = true) {draws : List BorrowDraw}
    (hdraws : ∀ d ∈ draws, 0 ≤ d.gpus) (pods : List AdmittedGPUs) :
    Forall₂ (fun p p' => p'.free ≤ max 0 (p.free - drawnGPUs p draws)) c.sharedPools
      (deductConstraint draws pods c).sharedPools := by
  unfold deductConstraint
  have hnone : c.namespaceBorrow.isNone = false := by simpa using hb
  rw [hnone, Bool.false_or]
  split_ifs with hempty
  · rw [isEmpty_iff.mp hempty]
    exact Forall₂.nil
  · dsimp only
    rw [foldl_map_deductDraw]
    have hle := deductPods_le c.namespaceCohorts pods
      (c.sharedPools.map fun p => draws.foldl deductDraw p) (by
        refine forall_mem_map.mpr fun p hp => ?_
        rw [pendingGPUs_deductDraws]
        exact (hc p hp).pending)
    rw [forall₂_map_left_iff] at hle
    -- pair each chunk with what it lost to the draws
    have hfree : ∀ p ∈ c.sharedPools, (draws.foldl deductDraw p).free =
        max 0 (p.free - drawnGPUs p draws) :=
      fun p hp => free_deductDraws p hdraws (hc p hp).free
    generalize deductPods c.namespaceCohorts pods _ = out at hle
    generalize c.sharedPools = ps at hle hfree
    induction hle with
    | nil => exact Forall₂.nil
    | @cons p p' ps out hp _ ih =>
      obtain ⟨hfp, hfs⟩ := forall_mem_cons.mp hfree
      refine Forall₂.cons ?_ (ih hfs)
      rw [hfp] at hp
      omega

theorem deductUnreservedAt_lowers {constraints : List BorrowConstraints} {u : Unreserved}
    (hc : ∀ c ∈ constraints, ∀ p ∈ c.sharedPools, p.Counts)
    (hds : ∀ d ∈ u.inFlight, 0 ≤ d.poolGPUs) :
    Forall₂ (fun c c' => c.namespaceBorrow.isSome = true →
      Forall₂ (fun p p' => p'.free ≤
        max 0 (p.free - sumIf (inFlightOn p) BorrowDraw.poolGPUs u.inFlight))
        c.sharedPools c'.sharedPools) constraints (deductUnreservedAt constraints u) := by
  unfold deductUnreservedAt
  by_cases hskip : (!hasBorrowing constraints || (u.inFlight.isEmpty && u.gated.keys.isEmpty &&
      u.admitted.isEmpty && !anyPending constraints)) = true
  · rw [if_pos hskip, forall₂_same]
    intro c hmem hb
    rw [forall₂_same]
    intro p hp
    -- some constraint counts borrowing, so there is nothing in flight
    have hborrow : hasBorrowing constraints = true := any_eq_true.mpr ⟨c, hmem, hb⟩
    rw [hborrow, Bool.not_true, Bool.false_or] at hskip
    simp only [Bool.and_eq_true, List.isEmpty_iff] at hskip
    have := (hc c hmem p hp).free
    rw [hskip.1.1.1, sumIf_nil]
    omega
  · rw [if_neg hskip, forall₂_map_right_iff, forall₂_same]
    intro c hmem hb
    have hnonneg := lagCovered_nonneg hds u.gated u.admitted
    refine (deductConstraint_lowers (hc c hmem) hb hnonneg u.pods).imp ?_
    intro p p' hle
    have := inFlight_le_drawnGPUs hds u.gated u.admitted p
    omega

end LlmScaler.Borrow
