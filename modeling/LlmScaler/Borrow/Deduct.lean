import LlmScaler.Core.Tally
import LlmScaler.Borrow.Draw

/-!
# Deducting what a read does not show

Before a pass or a wake the shared chunks lose what the scaling manager asked for and a Kueue read
may not show yet: the draws in flight, the draws that resolved after the read, and the pods at or
just past Kueue's admission gate. A resolved draw became such pods, so what they charge is taken
off it first. That is right only as far as the pods are charged to the draw's own chunk.
-/

namespace LlmScaler.Borrow

open LlmScaler.Core LlmScaler.Accelerator List

/-- GPUs of pods at Kueue's gate, or admitted past it. -/
structure AdmittedGPUs where
  ns : String
  /-- The type the pods' node selector names, empty when none. -/
  accelerator : String
  gpus : Int
  /-- When the admission was first seen; the zero time for pods at the gate. -/
  seenAt : Time

/-- What the scaling manager asked for and a Kueue read may not show yet. -/
structure Unreserved where
  inFlight : List BorrowDraw
  /-- The GPUs of pods at the gate, per namespace and accelerator. -/
  gated : GoMap String (GoMap String Int)
  admitted : List AdmittedGPUs

/-- The gated pods, in the order they are charged. -/
def gatedPods (gated : GoMap String (GoMap String Int)) : List AdmittedGPUs :=
  (gated.keys.insertionSort (· ≤ ·)).flatMap fun ns =>
    ((gated.get ns).keys.insertionSort (· ≤ ·)).map fun acc =>
      ⟨ns, acc, (gated.get ns).get acc, none⟩

/-- The pods at the gate and past it, in the order they are charged. -/
def Unreserved.pods (u : Unreserved) : List AdmittedGPUs := gatedPods u.gated ++ u.admitted

def sameAcc (a b : String) : Bool := a = "" || b = "" || sameName a b

/-- The loop of `lagCoveredByGated` over the covers, for one draw. -/
def coverWith (ns acc : String) : Int → List AdmittedGPUs → Int × List AdmittedGPUs
  | g, [] => (g, [])
  | g, c :: cs =>
    if g ≤ 0 then (g, c :: cs)
    else if c.ns ≠ ns ∨ c.gpus ≤ 0 ∨ sameAcc c.accelerator acc = false then
      ((coverWith ns acc g cs).1, c :: (coverWith ns acc g cs).2)
    else
      ((coverWith ns acc (g - min c.gpus g) cs).1,
        { c with gpus := c.gpus - min c.gpus g } :: (coverWith ns acc (g - min c.gpus g) cs).2)

/-- The loop of `lagCoveredByGated` over the draws. -/
def coverDraws : List AdmittedGPUs → List BorrowDraw → List BorrowDraw
  | _, [] => []
  | covers, d :: ds =>
    if d.resolvedAt.isNone then d :: coverDraws covers ds
    else
      { d with gpus := (coverWith d.ns d.drawAccelerator d.gpus covers).1 } ::
        coverDraws (coverWith d.ns d.drawAccelerator d.gpus covers).2 ds

/-- `lagCoveredByGated`: each lagging draw less what its namespace's pods already charge. -/
def lagCoveredByGated (draws : List BorrowDraw) (gated : GoMap String (GoMap String Int))
    (admitted : List AdmittedGPUs) : List BorrowDraw :=
  if (gated.keys.isEmpty && admitted.isEmpty) || !(draws.any fun d => d.resolvedAt.isSome) then
    draws
  else coverDraws (gatedPods gated ++ admitted) draws

/-- The draws on the pool: a reclaim entry counts for its pool part. -/
def poolDraws (inFlight : List BorrowDraw) : List BorrowDraw :=
  inFlight.filterMap fun d =>
    if d.reclaim then
      if d.reclaimOf.pool ≤ 0 then none
      else some { d with gpus := d.reclaimOf.pool, reclaim := false, closesRestricted := false }
    else some d

/-- A draw on the chunk that its snapshot does not show. -/
def unshown (p : SharedPoolChunk) (d : BorrowDraw) : Bool :=
  p.holds d && !p.readAfter d.resolvedAt

/-- A draw deducted from the chunk it is on, unless a read after it shows it. -/
def deductDraw (p : SharedPoolChunk) (d : BorrowDraw) : SharedPoolChunk :=
  if unshown p d then
    { p with
      free := max 0 (p.free - d.gpus)
      restrictedClosed := p.restrictedClosed || d.closesRestricted }
  else p

/-- What pods take of a chunk while they are charged. -/
structure ChunkTake where
  chunk : SharedPoolChunk
  left : Int
  fromPods : Int

section Deduct

variable (cohorts : GoMap String (List String))

/-- Whether a pod is charged to a chunk: the chunk is of a cohort of its namespace, may serve it
and was not read after it. -/
def chargedTo (p : SharedPoolChunk) (q : AdmittedGPUs) : Bool :=
  (cohorts.get q.ns).contains p.cohort && (q.accelerator = "" || p.serves q.accelerator) &&
    !p.readAfter q.seenAt

/-- A pod's GPUs charged to the chunks, first chunk first. -/
def chargePod (q : AdmittedGPUs) : Int → List ChunkTake → List ChunkTake
  | _, [] => []
  | n, t :: ts =>
    if n ≤ 0 then t :: ts
    else if chargedTo cohorts t.chunk q then
      { t with left := t.left - min t.left n, fromPods := t.fromPods + min t.left n } ::
        chargePod q (n - min t.left n) ts
    else t :: chargePod q n ts

/-- The chunks after the pods: each loses the larger of what the pods took and what is pending. -/
def deductPods (pods : List AdmittedGPUs) (ps : List SharedPoolChunk) : List SharedPoolChunk :=
  (pods.foldl (fun ts q => chargePod cohorts q q.gpus ts)
    (ps.map fun p => ⟨p, p.free, 0⟩)).map fun t =>
      { t.chunk with free := max 0 (t.chunk.free - max t.fromPods t.chunk.pendingGPUs) }

end Deduct

def deductConstraint (inFlight : List BorrowDraw) (pods : List AdmittedGPUs)
    (c : BorrowConstraints) : BorrowConstraints :=
  if c.namespaceBorrow.isNone || c.sharedPools.isEmpty then c
  else
    { c with
      sharedPools := deductPods c.namespaceCohorts pods
        (inFlight.foldl (fun ps d => ps.map fun p => deductDraw p d) c.sharedPools) }

/-- `anyPending`: some borrowing constraint's chunk carries pending demand. -/
def anyPending (constraints : List BorrowConstraints) : Bool :=
  constraints.any fun c =>
    c.namespaceBorrow.isSome && c.sharedPools.any fun p => 0 < p.pendingGPUs

def deductUnreservedAt (constraints : List BorrowConstraints) (u : Unreserved) :
    List BorrowConstraints :=
  if !hasBorrowing constraints || (u.inFlight.isEmpty && u.gated.keys.isEmpty &&
      u.admitted.isEmpty && !anyPending constraints) then constraints
  else constraints.map
    (deductConstraint (lagCoveredByGated (poolDraws u.inFlight) u.gated u.admitted) u.pods)

variable {d : BorrowDraw} {ds : List BorrowDraw}

section Draws

variable (p : SharedPoolChunk)

/-- The GPUs of the draws on the chunk that its snapshot does not show. -/
def unshownGPUs (ds : List BorrowDraw) : Int := sumIf (unshown p) BorrowDraw.poolGPUs ds

/-- The GPUs that are deducted for the draws on the chunk. -/
def drawnGPUs (ds : List BorrowDraw) : Int := sumIf (unshown p) BorrowDraw.gpus ds

theorem drawnGPUs_nonneg (h : ∀ d ∈ ds, 0 ≤ d.gpus) : 0 ≤ drawnGPUs p ds :=
  sumIf_nonneg fun d hd _ => h d hd

theorem sumIf_poolDraws {test : BorrowDraw → Bool}
    (htest : ∀ d g, test { d with gpus := g, reclaim := false, closesRestricted := false } = test d)
    (ds : List BorrowDraw) :
    sumIf test BorrowDraw.gpus (poolDraws ds) = sumIf test BorrowDraw.poolGPUs ds := by
  induction ds with
  | nil => rfl
  | cons d ds ih =>
    rw [sumIf_cons, ← ih]
    unfold poolDraws
    by_cases hr : d.reclaim = true
    · have hpool : d.poolGPUs = d.reclaimOf.pool := by simp [BorrowDraw.poolGPUs, hr]
      by_cases hp : d.reclaimOf.pool ≤ 0
      · have hzero : d.poolGPUs = 0 := by
          rw [hpool]
          exact le_antisymm hp d.reclaimOf.pool_nonneg
        rw [filterMap_cons_none (by simp [hr, hp]), hzero, ite_self, Int.zero_add]
      · rw [filterMap_cons_some (by simp only [hr, hp, if_true, if_false]; rfl), hpool,
          sumIf_cons, htest]
    · have hgpus : d.poolGPUs = d.gpus := by simp [BorrowDraw.poolGPUs, hr]
      rw [filterMap_cons_some (by simp only [hr]; rfl), hgpus]
      exact sumIf_cons _ _

theorem drawnGPUs_poolDraws (ds : List BorrowDraw) :
    drawnGPUs p (poolDraws ds) = unshownGPUs p ds :=
  sumIf_poolDraws (fun _ _ => rfl) ds

theorem deductDraw_unshown {e : BorrowDraw} : unshown (deductDraw p d) e = unshown p e := by
  unfold deductDraw
  split_ifs
  · rfl
  · rfl

theorem free_deductDraws (hds : ∀ d ∈ ds, 0 ≤ d.gpus) (hp : 0 ≤ p.free) :
    (ds.foldl deductDraw p).free = max 0 (p.free - drawnGPUs p ds) := by
  induction ds generalizing p with
  | nil =>
    change p.free = max 0 (p.free - 0)
    omega
  | cons d ds ih =>
    obtain ⟨hd, hds⟩ := forall_mem_cons.mp hds
    have hsame : drawnGPUs (deductDraw p d) ds = drawnGPUs p ds :=
      sumIf_congr (fun e _ => deductDraw_unshown p) fun _ _ _ => rfl
    have hrest := drawnGPUs_nonneg p hds
    have hcons : drawnGPUs p (d :: ds) = (if unshown p d then d.gpus else 0) + drawnGPUs p ds :=
      sumIf_cons d ds
    rw [foldl_cons, hcons]
    by_cases hu : unshown p d = true
    · have hfree : (deductDraw p d).free = max 0 (p.free - d.gpus) := by
        unfold deductDraw
        rw [if_pos hu]
      rw [ih _ hds (by rw [hfree]; exact le_max_left _ _), hsame, hfree, if_pos hu]
      omega
    · have heq : deductDraw p d = p := by
        unfold deductDraw
        rw [if_neg hu]
      rw [heq, ih p hds hp, if_neg hu]
      omega

theorem foldl_map_deductDraw (ds : List BorrowDraw) (ps : List SharedPoolChunk) :
    ds.foldl (fun ps d => ps.map fun p => deductDraw p d) ps =
      ps.map fun p => ds.foldl deductDraw p := by
  induction ds generalizing ps with
  | nil => simp
  | cons d ds ih =>
    rw [foldl_cons, ih, map_map]
    rfl

end Draws

section Pods

variable {charged : AdmittedGPUs → Bool}

def chargedGPUs (charged : AdmittedGPUs → Bool) (pods : List AdmittedGPUs) : Int :=
  sumIf charged (fun q => max 0 q.gpus) pods

theorem chargedGPUs_cons (q : AdmittedGPUs) (pods : List AdmittedGPUs) :
    chargedGPUs charged (q :: pods) =
      (if charged q then max 0 q.gpus else 0) + chargedGPUs charged pods :=
  sumIf_cons q pods

theorem chargedGPUs_nonneg (charged : AdmittedGPUs → Bool) (pods : List AdmittedGPUs) :
    0 ≤ chargedGPUs charged pods :=
  sumIf_nonneg fun _ _ _ => le_max_left _ _

theorem chargePods_one (cohorts : GoMap String (List String)) (p : SharedPoolChunk)
    (pods : List AdmittedGPUs) {left : Int} (fromPods : Int) (hleft : 0 ≤ left) :
    ∃ left', pods.foldl (fun ts q => chargePod cohorts q q.gpus ts) [⟨p, left, fromPods⟩] =
      [⟨p, left', fromPods + min left (chargedGPUs (chargedTo cohorts p) pods)⟩] := by
  induction pods generalizing left fromPods with
  | nil =>
    refine ⟨left, ?_⟩
    change [_] = [_]
    congr 2
    change _ = fromPods + min left 0
    omega
  | cons q pods ih =>
    have hrest := chargedGPUs_nonneg (chargedTo cohorts p) pods
    rw [foldl_cons, chargedGPUs_cons]
    by_cases hq : 0 < q.gpus ∧ chargedTo cohorts p q = true
    · have hstep : chargePod cohorts q q.gpus [⟨p, left, fromPods⟩] =
          [⟨p, left - min left q.gpus, fromPods + min left q.gpus⟩] := by
        unfold chargePod
        rw [if_neg (by omega), if_pos hq.2]
        rfl
      have hpos : 0 ≤ left - min left q.gpus := by omega
      obtain ⟨left', hleft'⟩ := ih (fromPods + min left q.gpus) hpos
      refine ⟨left', ?_⟩
      rw [hstep, hleft', if_pos hq.2]
      congr 2
      omega
    · have hstep : chargePod cohorts q q.gpus [⟨p, left, fromPods⟩] = [⟨p, left, fromPods⟩] := by
        unfold chargePod
        by_cases hg : q.gpus ≤ 0
        · rw [if_pos hg]
        · rw [if_neg hg, if_neg (fun hc => hq ⟨by omega, hc⟩)]
          rfl
      have hzero : (if chargedTo cohorts p q then max 0 q.gpus else 0) = 0 := by
        split_ifs with hc
        · have : ¬ 0 < q.gpus := fun hg => hq ⟨hg, hc⟩
          omega
        · rfl
      obtain ⟨left', hleft'⟩ := ih fromPods hleft
      refine ⟨left', ?_⟩
      rw [hstep, hleft', hzero, Int.zero_add]

end Pods

section Covers

variable {charged : AdmittedGPUs → Bool} {ns acc : String}

def AdmittedGPUs.Covers (q : AdmittedGPUs) (ns acc : String) : Prop :=
  q.ns = ns ∧ 0 < q.gpus ∧ sameAcc q.accelerator acc = true

variable {covers : List AdmittedGPUs} {g : Int}

theorem coverWith_covers {q : AdmittedGPUs} (hg : 0 ≤ g) (h : q ∈ (coverWith ns acc g covers).2) :
    ∃ q' ∈ covers, ∃ n, q = { q' with gpus := n } ∧ n ≤ q'.gpus := by
  induction covers generalizing g with
  | nil =>
    unfold coverWith at h
    cases h
  | cons c cs ih =>
    unfold coverWith at h
    split_ifs at h with hstop hskip
    · exact ⟨q, h, q.gpus, rfl, le_refl _⟩
    · rcases mem_cons.mp h with rfl | h
      · exact ⟨q, mem_cons_self, q.gpus, rfl, le_refl _⟩
      · obtain ⟨q', hq', n, hn⟩ := ih hg h
        exact ⟨q', mem_cons_of_mem c hq', n, hn⟩
    · rcases mem_cons.mp h with rfl | h
      · exact ⟨c, mem_cons_self, c.gpus - min c.gpus g, rfl, by omega⟩
      · obtain ⟨q', hq', n, hn⟩ := ih (by omega) h
        exact ⟨q', mem_cons_of_mem c hq', n, hn⟩

theorem coverWith_bounds (ns acc : String) (hg : 0 ≤ g) (covers : List AdmittedGPUs) :
    0 ≤ (coverWith ns acc g covers).1 ∧ (coverWith ns acc g covers).1 ≤ g := by
  induction covers generalizing g with
  | nil =>
    unfold coverWith
    exact ⟨hg, le_refl _⟩
  | cons c cs ih =>
    unfold coverWith
    split_ifs with hstop hskip
    · exact ⟨hg, le_refl _⟩
    · exact ih hg
    · obtain ⟨h0, hle⟩ := ih (g := g - min c.gpus g) (by omega)
      exact ⟨h0, by omega⟩

theorem coverDraws_nonneg {draws : List BorrowDraw} (hds : ∀ d ∈ draws, 0 ≤ d.gpus) :
    ∀ d ∈ coverDraws covers draws, 0 ≤ d.gpus := by
  induction draws generalizing covers with
  | nil =>
    intro d hd
    exact absurd hd not_mem_nil
  | cons d ds ih =>
    obtain ⟨hd, hds⟩ := forall_mem_cons.mp hds
    unfold coverDraws
    split_ifs
    · exact forall_mem_cons.mpr ⟨hd, ih hds⟩
    · exact forall_mem_cons.mpr ⟨(coverWith_bounds d.ns d.drawAccelerator hd covers).1, ih hds⟩

variable (hcharged : ∀ q n, charged { q with gpus := n } = charged q)

include hcharged

theorem chargedGPUs_coverWith_le (ns acc : String) (hg : 0 ≤ g) (covers : List AdmittedGPUs) :
    chargedGPUs charged (coverWith ns acc g covers).2 ≤ chargedGPUs charged covers := by
  induction covers generalizing g with
  | nil =>
    unfold coverWith
    exact le_refl _
  | cons c cs ih =>
    unfold coverWith
    split_ifs with hstop hskip
    · exact le_refl _
    · rw [chargedGPUs_cons, chargedGPUs_cons]
      have := ih hg
      omega
    · rw [chargedGPUs_cons, chargedGPUs_cons, hcharged]
      have := ih (g := g - min c.gpus g) (by omega)
      change (if charged c then max 0 (c.gpus - min c.gpus g) else 0) + _ ≤ _
      split_ifs
      · omega
      · omega

theorem coverWith_charged (hg : 0 ≤ g) (hcov : ∀ q ∈ covers, q.Covers ns acc → charged q = true) :
    g - (coverWith ns acc g covers).1 ≤
      chargedGPUs charged covers - chargedGPUs charged (coverWith ns acc g covers).2 := by
  induction covers generalizing g with
  | nil =>
    unfold coverWith
    dsimp only
    omega
  | cons c cs ih =>
    obtain ⟨hc, hcov⟩ := forall_mem_cons.mp hcov
    unfold coverWith
    split_ifs with hstop hskip
    · dsimp only
      omega
    · rw [chargedGPUs_cons, chargedGPUs_cons]
      have := ih hg hcov
      dsimp only
      omega
    · have hch : charged c = true := by
        apply hc
        simp only [not_or, not_not] at hskip
        refine ⟨hskip.1, by omega, ?_⟩
        simpa using hskip.2.2
      have hch' : charged { c with gpus := c.gpus - min c.gpus g } = true :=
        (hcharged c _).trans hch
      rw [chargedGPUs_cons, chargedGPUs_cons, if_pos hch, if_pos hch']
      have := ih (g := g - min c.gpus g) (by omega) hcov
      dsimp only
      omega

theorem coverDraws_charged (p : SharedPoolChunk) {draws : List BorrowDraw}
    (hds : ∀ d ∈ draws, 0 ≤ d.gpus)
    (hcov : ∀ d ∈ draws, unshown p d = true → d.resolvedAt.isSome = true → 0 < d.gpus →
      ∀ q ∈ covers, q.Covers d.ns d.drawAccelerator → charged q = true) :
    drawnGPUs p draws - drawnGPUs p (coverDraws covers draws) ≤ chargedGPUs charged covers := by
  induction draws generalizing covers with
  | nil =>
    have := chargedGPUs_nonneg charged covers
    change (0 : Int) - 0 ≤ _
    omega
  | cons d ds ih =>
    obtain ⟨hd, hds⟩ := forall_mem_cons.mp hds
    obtain ⟨hcovd, hcovs⟩ := forall_mem_cons.mp hcov
    unfold coverDraws
    by_cases hres : d.resolvedAt.isNone = true
    · rw [if_pos hres]
      have hle := ih hds hcovs
      unfold drawnGPUs at hle ⊢
      rw [sumIf_cons, sumIf_cons]
      omega
    · rw [if_neg hres]
      -- what is left of the covers covers no draw they did not cover before
      have hleft : ∀ e ∈ ds, unshown p e = true → e.resolvedAt.isSome = true → 0 < e.gpus →
          ∀ q ∈ (coverWith d.ns d.drawAccelerator d.gpus covers).2,
            q.Covers e.ns e.drawAccelerator → charged q = true := by
        intro e he hu hr hg q hq hcovers
        obtain ⟨q', hq', n, rfl, hn⟩ := coverWith_covers hd hq
        rw [hcharged]
        obtain ⟨h1, h2, h3⟩ := hcovers
        exact hcovs e he hu hr hg q' hq' ⟨h1, lt_of_lt_of_le h2 hn, h3⟩
      have hle := ih hds hleft
      have hbounds := coverWith_bounds d.ns d.drawAccelerator hd covers
      unfold drawnGPUs at hle ⊢
      rw [sumIf_cons, sumIf_cons]
      have hmono := chargedGPUs_coverWith_le hcharged d.ns d.drawAccelerator hd covers
      have hsame : unshown p { d with
          gpus := (coverWith d.ns d.drawAccelerator d.gpus covers).1 } = unshown p d := rfl
      rw [hsame]
      by_cases hu : unshown p d = true
      · rw [if_pos hu, if_pos hu]
        have hsome : d.resolvedAt.isSome = true := by
          rw [Option.isSome_iff_ne_none]
          intro hnone
          rw [hnone] at hres
          exact hres rfl
        have htook : d.gpus - (coverWith d.ns d.drawAccelerator d.gpus covers).1 ≤
            chargedGPUs charged covers -
              chargedGPUs charged (coverWith d.ns d.drawAccelerator d.gpus covers).2 := by
          rcases Int.lt_or_eq_of_le hd with hgpos | hgzero
          · exact coverWith_charged hcharged hd fun q hq => hcovd hu hsome hgpos q hq
          · omega
        dsimp only
        omega
      · rw [if_neg hu, if_neg hu]
        omega

end Covers

section OneChunk

variable {c : BorrowConstraints} {p : SharedPoolChunk} {u : Unreserved}

/-- A lagging draw on the chunk that its snapshot does not show. -/
structure Lags (p : SharedPoolChunk) (d : BorrowDraw) : Prop where
  resolved : d.resolvedAt.isSome = true
  unshown : unshown p d = true
  pos : 0 < d.poolGPUs

theorem mem_poolDraws {d' : BorrowDraw} (h : d' ∈ poolDraws ds) :
    ∃ d ∈ ds, d'.gpus = d.poolGPUs ∧ d'.resolvedAt = d.resolvedAt ∧ d'.ns = d.ns ∧
      d'.drawAccelerator = d.drawAccelerator ∧ ∀ p, Borrow.unshown p d' = Borrow.unshown p d := by
  obtain ⟨d, hd, heq⟩ := mem_filterMap.mp h
  refine ⟨d, hd, ?_⟩
  unfold BorrowDraw.poolGPUs
  split_ifs at heq ⊢ with hr hpool
  · cases heq
    exact ⟨rfl, rfl, rfl, rfl, fun _ => rfl⟩
  · cases heq
    exact ⟨rfl, rfl, rfl, rfl, fun _ => rfl⟩

theorem poolDraws_nonneg (h : ∀ d ∈ ds, 0 ≤ d.poolGPUs) : ∀ d ∈ poolDraws ds, 0 ≤ d.gpus := by
  intro d' hd'
  obtain ⟨d, hd, hg, -⟩ := mem_poolDraws hd'
  exact hg ▸ h d hd

theorem lagCovered_nonneg (hds : ∀ d ∈ ds, 0 ≤ d.poolGPUs) (gated : GoMap String (GoMap String Int))
    (admitted : List AdmittedGPUs) :
    ∀ d ∈ lagCoveredByGated (poolDraws ds) gated admitted, 0 ≤ d.gpus := by
  unfold lagCoveredByGated
  split_ifs
  · exact poolDraws_nonneg hds
  · exact coverDraws_nonneg (poolDraws_nonneg hds)

theorem lagCovered_charged (hds : ∀ d ∈ ds, 0 ≤ d.poolGPUs)
    (hcov : ∀ d ∈ ds, Lags p d → ∀ q ∈ u.pods, q.Covers d.ns d.drawAccelerator →
      chargedTo c.namespaceCohorts p q = true) :
    unshownGPUs p ds - drawnGPUs p (lagCoveredByGated (poolDraws ds) u.gated u.admitted) ≤
      chargedGPUs (chargedTo c.namespaceCohorts p) u.pods := by
  rw [← drawnGPUs_poolDraws]
  unfold lagCoveredByGated
  split_ifs
  · have := chargedGPUs_nonneg (chargedTo c.namespaceCohorts p) u.pods
    omega
  · apply coverDraws_charged (fun q n => rfl) p (poolDraws_nonneg hds)
    intro d' hd' hu hres hpos q hq hcovers
    obtain ⟨d, hd, hg, hr, hns, hacc, hun⟩ := mem_poolDraws hd'
    rw [hns, hacc] at hcovers
    exact hcov d hd ⟨hr ▸ hres, hun p ▸ hu, hg ▸ hpos⟩ q hq hcovers

/-- A borrowing constraint with one chunk that has some GPUs free and some pending. -/
def withChunk (c : BorrowConstraints) (p : SharedPoolChunk) (free pending : ℕ) :
    BorrowConstraints :=
  { c with sharedPools := [{ p with free := free, pendingGPUs := pending }] }

theorem poolDraws_one (hd : 0 < d.poolGPUs) :
    ∃ d', poolDraws [d] = [d'] ∧ d'.gpus = d.poolGPUs ∧ d'.resolvedAt = d.resolvedAt ∧
      d'.ns = d.ns ∧ d'.drawAccelerator = d.drawAccelerator ∧
      ∀ p, Borrow.unshown p d' = Borrow.unshown p d := by
  unfold BorrowDraw.poolGPUs at hd ⊢
  by_cases hr : d.reclaim = true
  · rw [if_pos hr] at hd ⊢
    refine ⟨{ d with gpus := d.reclaimOf.pool, reclaim := false, closesRestricted := false }, ?_,
      rfl, rfl, rfl, rfl, fun _ => rfl⟩
    simp [poolDraws, hr, hd]
  · rw [if_neg hr] at hd ⊢
    refine ⟨d, ?_, rfl, rfl, rfl, rfl, fun _ => rfl⟩
    simp [poolDraws, hr]

theorem chargedTo_deductDraws (cohorts : GoMap String (List String)) (ds : List BorrowDraw)
    (q : AdmittedGPUs) : chargedTo cohorts (ds.foldl deductDraw p) q = chargedTo cohorts p q := by
  refine foldlRecOn (motive := fun p' => chargedTo cohorts p' q = chargedTo cohorts p q) _ _ rfl
    fun p' hp' d _ => ?_
  unfold deductDraw
  split_ifs
  · exact hp'
  · exact hp'

variable (hb : c.namespaceBorrow.isSome = true)
include hb

theorem deductConstraint_one (hp : c.sharedPools = [p]) (inFlight : List BorrowDraw)
    (pods : List AdmittedGPUs) (hfree : 0 ≤ (inFlight.foldl deductDraw p).free) :
    ∃ p', (deductConstraint inFlight pods c).sharedPools = [p'] ∧
      p'.free = max 0 ((inFlight.foldl deductDraw p).free -
        max (min (inFlight.foldl deductDraw p).free
          (chargedGPUs (chargedTo c.namespaceCohorts (inFlight.foldl deductDraw p)) pods))
          (inFlight.foldl deductDraw p).pendingGPUs) := by
  have hguard : (c.namespaceBorrow.isNone || c.sharedPools.isEmpty) = false := by
    rw [hp]
    cases hn : c.namespaceBorrow with
    | none =>
      rw [hn] at hb
      cases hb
    | some _ => rfl
  unfold deductConstraint
  rw [hguard, if_neg Bool.false_ne_true]
  dsimp only
  rw [hp, foldl_map_deductDraw]
  unfold deductPods
  rw [map_singleton, map_singleton]
  obtain ⟨left', hcharge⟩ := chargePods_one c.namespaceCohorts
    (inFlight.foldl deductDraw p) pods 0 hfree
  rw [hcharge, Int.zero_add]
  exact ⟨_, rfl, rfl⟩

/-- The unshown draws come off the chunk when the pods that cover a lagging one are charged to
it. -/
theorem deductConstraint_le (hp : c.sharedPools = [p]) (hfree : 0 ≤ p.free)
    (hds : ∀ d ∈ u.inFlight, 0 ≤ d.poolGPUs)
    (hcov : ∀ d ∈ u.inFlight, Lags p d → ∀ q ∈ u.pods, q.Covers d.ns d.drawAccelerator →
      chargedTo c.namespaceCohorts p q = true) :
    ∃ p', (deductConstraint (lagCoveredByGated (poolDraws u.inFlight) u.gated u.admitted)
        u.pods c).sharedPools = [p'] ∧
      p'.free ≤ max 0 (p.free - unshownGPUs p u.inFlight) := by
  have hnonneg := lagCovered_nonneg hds u.gated u.admitted
  have hcovered := lagCovered_charged hds hcov
  generalize lagCoveredByGated (poolDraws u.inFlight) u.gated u.admitted = draws at *
  have hafter := free_deductDraws p hnonneg hfree
  obtain ⟨p', hp', hfree'⟩ := deductConstraint_one hb hp draws u.pods
    (by rw [hafter]; exact le_max_left _ _)
  refine ⟨p', hp', ?_⟩
  have hsame : chargedGPUs (chargedTo c.namespaceCohorts (draws.foldl deductDraw p)) u.pods =
      chargedGPUs (chargedTo c.namespaceCohorts p) u.pods :=
    sumIf_congr (fun q _ => chargedTo_deductDraws _ draws q) fun _ _ _ => rfl
  rw [hfree', hsame, hafter]
  have hpods := chargedGPUs_nonneg (chargedTo c.namespaceCohorts p) u.pods
  omega

theorem deductUnreservedAt_one (u : Unreserved) :
    deductUnreservedAt [c] u = [c] ∧ u.inFlight = [] ∨
    deductUnreservedAt [c] u =
      [deductConstraint (lagCoveredByGated (poolDraws u.inFlight) u.gated u.admitted) u.pods c] := by
  unfold deductUnreservedAt
  have hborrow : hasBorrowing [c] = true := by simp [hasBorrowing, hb]
  rw [hborrow, Bool.not_true, Bool.false_or]
  split_ifs with hnothing
  · left
    simp only [Bool.and_eq_true, List.isEmpty_iff] at hnothing
    exact ⟨rfl, hnothing.1.1.1⟩
  · exact .inr rfl

/-- A pod that covers a lagging draw and is not charged to its chunk leaves GPUs free that the
draw holds. -/
theorem lagging_uncharged {q : AdmittedGPUs} (hd : Lags p d)
    (hq : q.Covers d.ns d.drawAccelerator) (hnot : chargedTo c.namespaceCohorts p q = false)
    {c' : BorrowConstraints} {p' : SharedPoolChunk}
    (hc' : deductUnreservedAt [withChunk c p d.poolGPUs.toNat 0] ⟨[d], ∅, [q]⟩ = [c'])
    (hp' : c'.sharedPools = [p']) : 0 < p'.free := by
  obtain ⟨hqns, hqpos, hqacc⟩ := hq
  have hpos := hd.pos
  obtain ⟨d', hpool, hg, hres, hns, hacc, hun⟩ := poolDraws_one hd.pos
  have hpods : (⟨[d], ∅, [q]⟩ : Unreserved).pods = [q] := rfl
  have hlag : lagCoveredByGated (poolDraws [d]) ∅ [q] =
      [{ d' with gpus := d.poolGPUs - min q.gpus d.poolGPUs }] := by
    have hsome : d'.resolvedAt.isSome = true := hres ▸ hd.resolved
    have hnone : d'.resolvedAt.isNone = false := by simpa using hsome
    have hskip : ¬ (q.ns ≠ d'.ns ∨ q.gpus ≤ 0 ∨ sameAcc q.accelerator d'.drawAccelerator = false) := by
      rw [hns, hacc, hqns, hqacc]
      simp [hqpos]
    unfold lagCoveredByGated
    rw [hpool, if_neg (by simp [hsome])]
    change coverDraws [q] [d'] = _
    unfold coverDraws
    rw [hnone, if_neg Bool.false_ne_true]
    unfold coverWith
    rw [if_neg (by rw [hg]; omega), if_neg hskip, hg]
    rfl
  rcases deductUnreservedAt_one (c := withChunk c p d.poolGPUs.toNat 0) hb ⟨[d], ∅, [q]⟩ with
    ⟨_, hnil⟩ | hdeduct
  · cases hnil
  · rw [hdeduct, hpods] at hc'
    rw [← singleton_inj.mp hc'] at hp'
    change (deductConstraint (lagCoveredByGated (poolDraws [d]) ∅ [q]) [q] _).sharedPools = _ at hp'
    rw [hlag] at hp'
    have hshown : Borrow.unshown { p with free := d.poolGPUs.toNat, pendingGPUs := (0 : ℕ) }
        { d' with gpus := d.poolGPUs - min q.gpus d.poolGPUs } = true := (hun p).trans hd.unshown
    have hafter : deductDraw { p with free := d.poolGPUs.toNat, pendingGPUs := (0 : ℕ) }
        { d' with gpus := d.poolGPUs - min q.gpus d.poolGPUs } =
        { p with
          free := min q.gpus d.poolGPUs
          pendingGPUs := (0 : ℕ)
          restrictedClosed := p.restrictedClosed || d'.closesRestricted } := by
      unfold deductDraw
      rw [if_pos hshown]
      dsimp only
      congr 1
      omega
    obtain ⟨p'', hp'', hfree⟩ := deductConstraint_one (c := withChunk c p d.poolGPUs.toNat 0) hb rfl
      [{ d' with gpus := d.poolGPUs - min q.gpus d.poolGPUs }] [q] (by
        rw [foldl_cons, foldl_nil, hafter]
        change (0 : Int) ≤ min q.gpus d.poolGPUs
        omega)
    rw [hp''] at hp'
    rw [← singleton_inj.mp hp', hfree, foldl_cons, foldl_nil, hafter]
    have hzero : chargedGPUs (chargedTo c.namespaceCohorts
        { p with
          free := min q.gpus d.poolGPUs
          pendingGPUs := (0 : ℕ)
          restrictedClosed := p.restrictedClosed || d'.closesRestricted }) [q] = 0 := by
      rw [chargedGPUs_cons]
      change (if chargedTo c.namespaceCohorts p q then max 0 q.gpus else 0) + 0 = 0
      rw [hnot]
      rfl
    change 0 < max 0 (min q.gpus d.poolGPUs - max (min (min q.gpus d.poolGPUs)
      (chargedGPUs (chargedTo c.namespaceCohorts _) [q])) (0 : ℕ))
    rw [hzero]
    omega

end OneChunk

/-- Whatever draws of a set and pods of another are unreserved, the one chunk of a borrowing
constraint loses every draw in flight on it and every lagging one its snapshot does not show, if
and only if each pod that covers such a lagging draw is charged to the chunk itself. -/
theorem deducted_iff_charged {c : BorrowConstraints} (hb : c.namespaceBorrow.isSome = true)
    (p : SharedPoolChunk) (draws : Set BorrowDraw) (pods : Set AdmittedGPUs)
    (hdraws : ∀ d ∈ draws, 0 ≤ d.poolGPUs) :
    (∀ (free pending : ℕ) (u : Unreserved), (∀ d ∈ u.inFlight, d ∈ draws) →
      (∀ q ∈ u.pods, q ∈ pods) →
      ∃ c' p', deductUnreservedAt [withChunk c p free pending] u = [c'] ∧
        c'.sharedPools = [p'] ∧ p'.free ≤ max 0 (free - unshownGPUs p u.inFlight)) ↔
    ∀ d ∈ draws, Lags p d → ∀ q ∈ pods, q.Covers d.ns d.drawAccelerator →
      chargedTo c.namespaceCohorts p q = true := by
  constructor
  · intro h d hd hlags q hq hcovers
    by_contra hnot
    obtain ⟨c', p', hc', hp', hle⟩ := h d.poolGPUs.toNat 0 ⟨[d], ∅, [q]⟩
      (forall_mem_singleton.mpr hd) (forall_mem_singleton.mpr hq)
    have hfree := lagging_uncharged hb hlags hcovers (Bool.eq_false_iff.mpr hnot) hc' hp'
    have hsum : unshownGPUs p [d] = d.poolGPUs := by
      unfold unshownGPUs
      rw [sumIf_cons, if_pos hlags.unshown, sumIf_nil, Int.add_zero]
    have hpos := hlags.pos
    rw [hsum] at hle
    omega
  · intro h free pending u hu hpods
    have hds : ∀ d ∈ u.inFlight, 0 ≤ d.poolGPUs := fun d hd => hdraws d (hu d hd)
    rcases deductUnreservedAt_one (c := withChunk c p free pending) hb u with
      ⟨heq, hnil⟩ | hdeduct
    · refine ⟨_, _, heq, rfl, ?_⟩
      rw [hnil]
      change (free : Int) ≤ max 0 (free - 0)
      omega
    · obtain ⟨p', hp', hle⟩ := deductConstraint_le (c := withChunk c p free pending)
        (p := { p with free := free, pendingGPUs := pending }) (u := u) hb rfl
        (by
          change (0 : Int) ≤ free
          omega) hds
        (fun d hd hlags q hq hcovers =>
          h d (hu d hd) ⟨hlags.resolved, hlags.unshown, hlags.pos⟩ q (hpods q hq) hcovers)
      exact ⟨_, p', hdeduct, hp', hle⟩

private def readChunk : SharedPoolChunk where
  acceleratorType := ""
  nodeLabels := ∅
  tolerations := []
  cohort := "co"
  flavor := "f"
  resource := "gpu"
  free := 8
  readAt := some 15
  pendingGPUs := 0
  coFree := ∅
  restricted := []
  classPriority := ∅
  borrowed := 0
  borrowerPriority := none
  restrictedClosed := false

private def readConstraints : BorrowConstraints where
  namespacePools := ∅
  namespaceBorrow := some ∅
  namespaceNominal := ∅
  sharedPools := [readChunk]
  namespaceCohorts := GoMap.set ∅ "x" ["co"]

private def resolvedDraw : BorrowDraw where
  ns := "x"
  modelID := "m"
  variant := "v"
  cohort := "co"
  flavor := "f"
  resource := "gpu"
  gpus := 8
  replicas := 1
  target := 1
  resolvedAt := some 20

private def admittedPod (seenAt : Int) : AdmittedGPUs := ⟨"x", "", 8, some seenAt⟩

/-- The read shows the pod admitted at 10 and not the draw resolved at 20; the pod covers the
draw, and the chunk keeps all its GPUs. -/
theorem resolved_draw_left_free :
    (deductUnreservedAt [readConstraints] ⟨[resolvedDraw], ∅, [admittedPod 10]⟩).map
      (fun c => c.sharedPools.map fun p => p.free) = [[8]] ∧
    max 0 (readChunk.free - unshownGPUs readChunk [resolvedDraw]) = 0 := by
  decide

/-- A pod admitted after the read is charged itself. -/
theorem deducted_with_later_pod :
    ∃ c' p', deductUnreservedAt [withChunk readConstraints readChunk 8 0]
        ⟨[resolvedDraw], ∅, [admittedPod 17]⟩ = [c'] ∧ c'.sharedPools = [p'] ∧
      p'.free ≤ max 0 (((8 : ℕ) : Int) - unshownGPUs readChunk [resolvedDraw]) := by
  apply (deducted_iff_charged (c := readConstraints) (by decide) readChunk {resolvedDraw}
    {admittedPod 17} (by
      intro d hd
      rw [Set.mem_singleton_iff.mp hd]
      decide)).mpr
  · intro d _ _ q hq _
    rw [Set.mem_singleton_iff.mp hq]
    decide
  · intro d hd
    exact mem_singleton.mp hd
  · intro q hq
    exact mem_singleton.mp (show q ∈ [admittedPod 17] from hq)

end LlmScaler.Borrow
