import LlmScaler.Release.Handback

/-!
# A pass over the waiting lenders

Every lender is handed what it lacks or nothing. Over all lenders of all pools the pass is one chain
of steps.
-/

namespace LlmScaler.Release

open Core Accelerator Borrow Kueue List

variable {c : BorrowCycle} {ch : ChunkRead}

theorem Reaches.marks (key : LenderKey) (touched : List ℕ) (st : Figures) :
    Reaches c st ⟨touched.foldl (fun ds i => ds.modify i (lenderStep key)) st.decisions, st.left⟩ := by
  induction touched generalizing st with
  | nil => exact Relation.ReflTransGen.refl
  | cons i touched ih =>
    rw [foldl_cons]
    exact (ih ⟨st.decisions.modify i (lenderStep key), st.left⟩).head (PassStep.mark st i key)

theorem marks_same (c : BorrowCycle) (ch : ChunkRead) (key : LenderKey) (touched : List ℕ) (decisions : List VariantDecision) :
    servedGPUs c ch (touched.foldl (fun ds i => ds.modify i (lenderStep key)) decisions) =
        servedGPUs c ch decisions ∧
      (touched.foldl (fun ds i => ds.modify i (lenderStep key)) decisions).map
        VariantDecision.targetReplicas = decisions.map VariantDecision.targetReplicas := by
  induction touched generalizing decisions with
  | nil => exact ⟨rfl, rfl⟩
  | cons i touched ih =>
    rw [foldl_cons]
    obtain ⟨hserved, htargets⟩ := ih (decisions.modify i (lenderStep key))
    refine ⟨hserved.trans (sumIf_modify (g := lenderStep key) (fun _ => rfl) (fun _ => rfl) _ i),
      htargets.trans (ext_getElem? fun j => ?_)⟩
    rw [getElem?_map, getElem?_map, getElem?_modify]
    cases decisions[j]? with
    | none => rfl
    | some d =>
      simp only [Option.map_eq_map, Option.map_some]
      split_ifs
      · rfl
      · rfl

theorem releaseTo_cases (g : LenderGovernor) (key : LenderKey) {cands : List LenderCandidate}
    {need : Int} (hneed : 0 < need) (decisions : List VariantDecision) (left : Left)
    (hreqs : ∀ cand ∈ cands, cand.req ∈ c.requests)
    (hdistinct : (cands.map fun cand => (cand.req.ns, cand.req.modelID)).Nodup) :
    let o := releaseTo g c key ch cands need decisions left
    o.out = none ∨
      (o.out ≠ none ∧ need ≤ o.released ∧
        o.released = handedBack c ch decisions o.decisions ∧
        (o.governor.lenderRel.find? key).map LenderRelease.gpus = some o.released ∧
        Reaches c ⟨decisions, left.get⟩ ⟨o.decisions, o.left.get⟩ ∧
        EndsWithUnit c ch need ⟨decisions, left.get⟩ o.decisions) := by
  intro o
  have hstart : TakingKept c ch need ⟨decisions, left.get⟩ cands ⟨decisions, left, 0, []⟩ := by
    refine ⟨⟨Relation.ReflTransGen.refl, ?_, .inl hneed⟩, fun _ _ _ _ hget _ => hget⟩
    rw [handedBack, sub_self]
  have hend := hstart.foldl hreqs hdistinct
  have ho : o = releaseTo g c key ch cands need decisions left := rfl
  unfold releaseTo at ho
  simp only at ho hend
  generalize hfold : cands.foldl (takeFrom c.states ch need decisions) ⟨decisions, left, 0, []⟩ = st
    at ho hend
  by_cases hshort : st.released < need
  · rw [if_pos hshort] at ho
    left
    rw [ho]
  · rw [if_neg hshort] at ho
    right
    obtain ⟨hserved, htargets⟩ := marks_same c ch key st.touched st.decisions
    have hhanded : ∀ before, handedBack c ch before (st.touched.foldl
        (fun ds i => ds.modify i (lenderStep key)) st.decisions) =
        handedBack c ch before st.decisions := by
      intro before
      rw [handedBack, hserved, handedBack]
    rw [ho]
    refine ⟨by simp, not_lt.mp hshort, ?_, ?_, ?_, ?_⟩
    · simp only [hhanded]
      exact hend.counted
    · simp only [GoMap.find?_set, if_true, Option.map_some, releaseEntry]
    · exact hend.reaches.trans (Reaches.marks key st.touched ⟨st.decisions, st.left.get⟩)
    · obtain ⟨mid, req, hreaches, hmem, hmid, hlast, p, hp, d, hget, hle⟩ :=
        hend.ends.resolve_left hshort
      refine ⟨mid, req, hreaches, hmem, hmid, htargets.trans hlast, p, hp, d, hget, ?_⟩
      simp only [hhanded]
      exact hle

section Candidates

variable (g : LenderGovernor) (key : LenderKey) (l : LenderState) (left : Left)

theorem candidacy_req {req : ModelScalingRequest} {cand : LenderCandidate}
    (h : candidacy g c key l ch left req = .candidate cand) : cand.req = req := by
  unfold candidacy at h
  split_ifs at h
  split at h
  · cases h
  · split_ifs at h
    obtain rfl := Candidacy.candidate.inj h
    rfl
  · obtain rfl := Candidacy.candidate.inj h
    rfl

theorem mem_candidates {cand : LenderCandidate} (h : cand ∈ candidates g c key l ch left) :
    cand.req ∈ c.requests := by
  obtain ⟨req, hreq, hcand⟩ := mem_filterMap.mp ((Sorting.mem_sort _).mp h)
  split at hcand
  · rename_i cand' hcandidacy
    obtain rfl := Option.some.inj hcand
    rw [candidacy_req g key l left hcandidacy]
    exact hreq
  · cases hcand

theorem nodup_candidates :
    ((candidates g c key l ch left).map fun cand => (cand.req.ns, cand.req.modelID)).Nodup := by
  refine (((Sorting.byKey candidateOrder).perm _).map _).nodup_iff.mpr ?_
  refine (map_filterMap_sublist (fun req cand hcand => ?_) c.requests).nodup c.requests_distinct
  split at hcand
  · rename_i cand' hcandidacy
    obtain rfl := Option.some.inj hcand
    rw [candidacy_req g key l left hcandidacy]
  · cases hcand

end Candidates

namespace BorrowCycle

/-- What a pass may still take of each namespace. -/
def releasable (c : BorrowCycle) (st : LenderPass) : Left :=
  st.left.getD (c.borrowedLeft st.decisions)

/-- What a lender lacks, net of everything that covers it. -/
def lackOf (c : BorrowCycle) (ch : ChunkRead) (st : LenderPass) (l : LenderState) : Int :=
  (lacking l (outranked st.governor c (lenderKey ch l) l ch (c.releasable st))
    (st.budget.getD (budgetOf st.governor c ch st.decisions (c.releasable st)))).1

end BorrowCycle

/-- A lender handed nothing: the decisions, what is left and the releases in flight are as before. -/
structure Unserved (c : BorrowCycle) (st st' : LenderPass) : Prop where
  decisions : st'.decisions = st.decisions
  left : c.releasable st' = c.releasable st
  out : st'.out = st.out
  inFlight : st'.governor.lenderRel = st.governor.lenderRel
  /-- The figures are not counted later on other decisions. -/
  counted : st.left ≠ none → st'.left ≠ none

/-- A lender handed back what it lacks. -/
structure Served (c : BorrowCycle) (ch : ChunkRead) (l : LenderState) (st st' : LenderPass) :
    Prop where
  lacks : 0 < c.lackOf ch st l
  covers : c.lackOf ch st l ≤ handedBack c ch st.decisions st'.decisions
  inFlight : (st'.governor.lenderRel.find? (lenderKey ch l)).map LenderRelease.gpus =
    some (handedBack c ch st.decisions st'.decisions)
  /-- It passes the need by at most one replica of its last unit. -/
  ends : EndsWithUnit c ch (c.lackOf ch st l) ⟨st.decisions, (c.releasable st).get⟩ st'.decisions
  reaches : Reaches c ⟨st.decisions, (c.releasable st).get⟩ ⟨st'.decisions, (c.releasable st').get⟩
  counted : st'.left ≠ none

theorem weighLender_cases (st : LenderPass) (l : LenderState) :
    Unserved c st (weighLender c ch (lenderKey ch l) l (c.releasable st)
      (st.budget.getD (budgetOf st.governor c ch st.decisions (c.releasable st))) st) ∨
    Served c ch l st (weighLender c ch (lenderKey ch l) l (c.releasable st)
      (st.budget.getD (budgetOf st.governor c ch st.decisions (c.releasable st))) st) := by
  have hlack : c.lackOf ch st l = (lacking l (outranked st.governor c (lenderKey ch l) l ch
      (c.releasable st)) (st.budget.getD (budgetOf st.governor c ch st.decisions
        (c.releasable st)))).1 := rfl
  -- nothing but the budget and the report changes where no release goes
  have hkept : ∀ (g : LenderGovernor) (b : Option PoolBudget),
      g.lenderRel = st.governor.lenderRel →
      Unserved c st { st with governor := g, left := some (c.releasable st), budget := b } :=
    fun g b hg => ⟨rfl, rfl, rfl, hg, fun _ => Option.some_ne_none _⟩
  unfold weighLender
  simp only
  rw [← hlack]
  split_ifs with houtside hcovered hborrowed
  · exact .inl (hkept _ _ rfl)
  · exact .inl (hkept _ _ rfl)
  · exact .inl (hkept _ _ rfl)
  · have hneed : 0 < c.lackOf ch st l := not_le.mp hcovered
    rcases releaseTo_cases st.governor (lenderKey ch l) hneed st.decisions (c.releasable st)
      (fun _ hcand => mem_candidates st.governor (lenderKey ch l) l (c.releasable st) hcand)
      (nodup_candidates st.governor (lenderKey ch l) l (c.releasable st)) with
      hnone | ⟨hsome, hcovers, hcounted, hflight, hreaches, hends⟩
    · rw [hnone]
      exact .inl (hkept _ _ rfl)
    · obtain ⟨out, hout⟩ := Option.ne_none_iff_exists'.mp hsome
      rw [hout]
      rw [hcounted] at hcovers hflight
      exact .inr ⟨hneed, hcovers, hflight, hends, hreaches, Option.some_ne_none _⟩

theorem serveLender_cases (st : LenderPass) (l : LenderState) :
    Unserved c st (serveLender c ch st l) ∨ Served c ch l st (serveLender c ch st l) := by
  have hsame : Unserved c st st := ⟨rfl, rfl, rfl, rfl, id⟩
  have hblock : ∀ b : LenderReleaseBlock, Unserved c st (st.block b) :=
    fun _ => ⟨rfl, rfl, rfl, rfl, id⟩
  unfold serveLender
  simp only
  by_cases hskip : (!l.waiting || reclaims l.reclaim none none ||
      decide (l.pendingGPUs ≤ 0)) = true
  · rw [if_pos hskip]
    exact .inl hsame
  · rw [if_neg hskip]
    cases hflight : st.governor.lenderRel.find? (lenderKey ch l) with
    | some e =>
      simp only
      split_ifs
      · exact .inl (hblock _)
      · exact .inl hsame
    | none =>
      simp only
      split_ifs with hdue hevicting
      · exact .inl hsame
      · exact .inl (hblock _)
      · exact weighLender_cases st l

/-- A pass reached by steps from the decisions it started with. -/
structure PassKept (c : BorrowCycle) (decisions : List VariantDecision) (st : LenderPass) : Prop where
  reaches : Reaches c ⟨decisions, (c.borrowedLeft decisions).get⟩
    ⟨st.decisions, (c.releasable st).get⟩
  unlowered : st.left = none → st.decisions = decisions

variable {decisions : List VariantDecision}

theorem PassKept.serveLender {st : LenderPass} (h : PassKept c decisions st) (l : LenderState) :
    PassKept c decisions (Release.serveLender c ch st l) := by
  rcases serveLender_cases st l with hunserved | hserved
  · refine ⟨?_, fun hnone => ?_⟩
    · rw [hunserved.decisions, hunserved.left]
      exact h.reaches
    · rw [hunserved.decisions]
      exact h.unlowered (by_contra fun hne => hunserved.counted hne hnone)
  · exact ⟨h.reaches.trans hserved.reaches, fun hnone => absurd hnone hserved.counted⟩

theorem passKept_lenderReleases (g : LenderGovernor) (c : BorrowCycle)
    (decisions : List VariantDecision) :
    PassKept c decisions (lenderReleases g c decisions) := by
  have hstart : PassKept c decisions ⟨{ g with report := ⟨[], []⟩ }, decisions, none, none, []⟩ :=
    ⟨Relation.ReflTransGen.refl, fun _ => rfl⟩
  unfold lenderReleases
  simp only
  split_ifs
  · exact hstart
  · refine foldlRecOn (motive := PassKept c decisions) _ _ hstart fun st hst ch _ => ?_
    unfold servePool
    split_ifs
    · exact hst
    · have hlenders : PassKept c decisions
          (ch.lenders.foldl (serveLender c ch) { st with budget := none }) :=
        foldlRecOn (motive := PassKept c decisions) _ _ ⟨hst.reaches, hst.unlowered⟩
          fun st hst l _ => hst.serveLender l
      unfold reportShared
      split
      · split_ifs
        · exact ⟨hlenders.reaches, hlenders.unlowered⟩
        · exact hlenders
      · exact hlenders

/-- The GPUs of a type a pass takes off what a namespace's variants keep. -/
def takenOn (c : BorrowCycle) (ns t : String) (before after : List VariantDecision) : Int :=
  keptOn c ((c.borrowedLeft before).get ns) ns t before -
    keptOn c ((c.borrowedLeft before).get ns) ns t after

/-- Every lender of a pass is handed at least what it lacks, and at most one replica of the last
unit more, or nothing, with every decision and figure as before; and after all of them no variant is
lowered below `minReplicas`, every P/D model that had replicas in all its roles has them in all or
in none, and what is taken of a namespace's type, lowered already or gated is past its guaranteed
figure. -/
theorem lender_releases_whole (g : LenderGovernor) (c : BorrowCycle)
    (decisions : List VariantDecision) :
    (∀ (ch : ChunkRead) (st : LenderPass) (l : LenderState),
      Unserved c st (serveLender c ch st l) ∨ Served c ch l st (serveLender c ch st l)) ∧
    (∀ (i : ℕ) (d : VariantDecision), decisions[i]? = some d →
      ∃ d', (lenderReleases g c decisions).decisions[i]? = some d' ∧ Lowered c.states d d') ∧
    (∀ pair ∈ c.requests, pair.disaggregated = true →
      AllServe decisions pair.ns pair.modelID →
        AllServe (lenderReleases g c decisions).decisions pair.ns pair.modelID ∨
          NoneServes (lenderReleases g c decisions).decisions pair.ns pair.modelID) ∧
    ∀ ns t, 0 < takenOn c ns t decisions (lenderReleases g c decisions).decisions →
      ∃ con ∈ counting c.borrowConstraints, ns ∈ (con.namespaceBorrow.getD ∅).keys ∧
        ∃ p limit, (con.namespacePools.get ns).find? t = some p ∧ p.limit = ((limit : ℕ) : ℕ∞) ∧
          (limit : Int) ≤ p.used - gatedOn (pastOf (con.namespacePools.get ns)) (c.gated.get ns) t -
            c.loweredOn ns t decisions -
            takenOn c ns t decisions (lenderReleases g c decisions).decisions := by
  have hreaches := (passKept_lenderReleases g c decisions).reaches
  refine ⟨fun ch st l => serveLender_cases st l, fun i d hget => ?_, fun pair hmem hpair hserve =>
    hreaches.balanced hmem hpair hserve, fun ns t htaken => ?_⟩
  · have hrel := hreaches.allLowered i
    simp only [hget] at hrel
    generalize (lenderReleases g c decisions).decisions[i]? = o at hrel
    cases hrel with
    | some hlow => exact ⟨_, rfl, hlow⟩
  · obtain ⟨_, hall⟩ := hreaches.taken (fun ns t => (c.borrowedLeft_spec ns t decisions).1) ns
    obtain ⟨hpos, heq⟩ := hall t
    rw [takenOn] at htaken ⊢
    simp only at hpos heq
    have hleft : 0 < ((c.borrowedLeft decisions).get ns).get t := by omega
    obtain ⟨con, hcon, hns, p, limit, hpool, hlimit, hused⟩ := c.borrowedLeft_past hleft
    exact ⟨con, hcon, hns, p, limit, hpool, hlimit, by omega⟩

/-- A read of a pool whose lender waits for 6 GPUs that Kueue does not reclaim. -/
def waitingRead : ChunkRead where
  acceleratorType := "H100"
  nodeLabels := ∅
  tolerations := []
  cohort := "research"
  flavor := "h100"
  resource := "nvidia.com/gpu"
  free := 0
  readAt := some (2 * minute)
  pendingGPUs := 6
  coFree := ∅
  restricted := []
  classPriority := ∅
  borrowed := 12
  borrowerPriority := none
  restrictedClosed := false
  rawFree := 0
  lenders := [⟨"batch", true, .never, 0, none, 0, 6, none, some 0⟩]
  stale := false
  coUnbound := []
  borrowerLowest := none
  evictingGPUs := 0
  evictionsRead := true
  stuckEvictingGPUs := 0
  releaseToNonReclaiming := true
  restricted_distinct := nodup_nil
  lenders_distinct := nodup_singleton _
  coUnbound_distinct := nodup_nil

/-- A P/D model with two replicas of 4 GPUs in each role, 12 GPUs past its guaranteed 4. -/
def pairCycle : BorrowCycle where
  now := 2 * minute
  constraints := [{
    namespacePools := GoMap.ofList [("x", GoMap.ofList [("H100", ⟨4, 16⟩)])]
    namespaceBorrow := some (GoMap.ofList [("x", GoMap.ofList
      [("H100", ⟨⊤, 0, 0, 0, false, ∅, ∅, none, []⟩)])])
    namespaceNominal := ∅
    sharedPools := [waitingRead.toSharedPoolChunk]
    namespaceCohorts := GoMap.ofList [("x", ["research"])]
    reads := [waitingRead]
    chunks_read := rfl }]
  requests := [⟨"m", "x", 1, true, [⟨"p", "prefill", 1, "H100"⟩, ⟨"d", "decode", 1, "H100"⟩],
    [⟨"p", "H100", 2, 2, true, some 0, 4, ""⟩, ⟨"d", "H100", 2, 2, true, some 1, 4, ""⟩]⟩]
  gated := ∅
  ledgerUnread := false
  requests_distinct := nodup_singleton _

/-- The decisions that keep the model as it is. -/
def pairDecisions : List VariantDecision :=
  [⟨"x", "m", "p", "prefill", 2, 2, 4, 8, .noChange, .v2, "", []⟩,
    ⟨"x", "m", "d", "decode", 2, 2, 4, 8, .noChange, .v2, "", []⟩]

/-- One pair is handed back for the 6 GPUs, and both roles keep a replica. -/
theorem lender_releases_whole_pair :
    let st := lenderReleases ⟨∅, ∅, ∅, ⟨[], []⟩⟩ pairCycle pairDecisions
    st.decisions.map VariantDecision.targetReplicas = [1, 1] ∧
      (AllServe st.decisions "x" "m" ∨ NoneServes st.decisions "x" "m") := by
  have hserve : AllServe pairDecisions "x" "m" := by
    unfold AllServe
    decide
  exact ⟨by decide +kernel, (lender_releases_whole ⟨∅, ∅, ∅, ⟨[], []⟩⟩ pairCycle pairDecisions).2.2.1 _
    (mem_singleton.mpr rfl) rfl hserve⟩

end LlmScaler.Release
