import LlmScaler.Release.Guaranteed
import LlmScaler.Release.Steps

/-!
# Releases are all or nothing

A candidate's turn gives units one after another; one that hands nothing back is undone, and so is a
release its candidates cannot cover. What is not undone is a chain of steps of the pass.
-/

namespace LlmScaler.Release

open Core Borrow List

variable {c : BorrowCycle} {ch : ChunkRead}

/-- The GPUs on a chunk's flavor that the variants keep. -/
def servedGPUs (c : BorrowCycle) (ch : ChunkRead) (decisions : List VariantDecision) : Int :=
  sumIf (fun d => ch.serves (c.accOfDecision d)) (keptGPUs c.states) decisions

/-- The GPUs on a chunk's flavor that decisions lowered hand back. -/
def handedBack (c : BorrowCycle) (ch : ChunkRead) (before after : List VariantDecision) : Int :=
  servedGPUs c ch before - servedGPUs c ch after

/-- The last unit of a release: until it the release was short of the need, and with it the need is
passed by at most one replica of the unit. -/
def EndsWithUnit (c : BorrowCycle) (ch : ChunkRead) (need : Int) (start : Figures)
    (decisions : List VariantDecision) : Prop :=
  ∃ mid req, Reaches c start mid ∧ req ∈ c.requests ∧
    handedBack c ch start.decisions mid.decisions < need ∧
    decisions.map VariantDecision.targetReplicas =
      (giveUnit c.states req (nextUnit c.states req ch mid.decisions)
        (mid.decisions, mid.left req.ns)).1.map VariantDecision.targetReplicas ∧
    ∃ p ∈ nextUnit c.states req ch mid.decisions, ∃ d, mid.decisions[p.1]? = some d ∧
      handedBack c ch start.decisions decisions ≤ need + d.gpr

theorem UnitGiven.servedGPUs_eq {req : ModelScalingRequest} {st st' : Figures} {freed : Int}
    {largest : ℕ} (h : UnitGiven c ch req st st' freed largest) :
    servedGPUs c ch st'.decisions = servedGPUs c ch st.decisions - freed := by
  have hunit := nextUnit_isUnit c.states req ch st.decisions
  have hdrop : unitDrop (fun d => ch.serves (c.accOfDecision d)) (keptGPUs c.states) st.decisions
      (nextUnit c.states req ch st.decisions) =
      unitDrop (fun d => ch.serves (accOf req d.variantName)) (keptGPUs c.states) st.decisions
        (nextUnit c.states req ch st.decisions) :=
    hunit.unitDrop_congr fun d hof => by rw [c.accOfDecision_eq h.mem hof]
  rw [servedGPUs, h.decisions, sumIf_giveUnit hunit _ fun _ _ => rfl, hdrop, servedGPUs,
    (unitTakes_spec hunit h.takes).2.1]

/-- A release under way: reached from its start, with what it handed back. -/
structure Underway (c : BorrowCycle) (ch : ChunkRead) (need : Int) (start now : Figures)
    (released : Int) : Prop where
  reaches : Reaches c start now
  counted : released = handedBack c ch start.decisions now.decisions
  /-- It is short of the need, or ended with its last unit. -/
  ends : released < need ∨ EndsWithUnit c ch need start now.decisions

theorem Underway.give {need released : Int} {start now now' : Figures} {req : ModelScalingRequest}
    {freed : Int} {largest : ℕ} (h : Underway c ch need start now released)
    (hshort : released < need) (hgiven : UnitGiven c ch req now now' freed largest)
    (hlarge : ¬ (largest : Int) < freed - (need - released)) :
    Underway c ch need start now' (released + freed) := by
  have hserved := hgiven.servedGPUs_eq
  have hreleased : released + freed = handedBack c ch start.decisions now'.decisions := by
    rw [h.counted, handedBack, handedBack, hserved]
    omega
  refine ⟨h.reaches.tail (.unit hgiven), hreleased, .inr ?_⟩
  obtain ⟨p, hp, d, hget, hgpr⟩ :=
    (unitTakes_spec (nextUnit_isUnit c.states req ch now.decisions) hgiven.takes).2.2.2
  refine ⟨now, req, h.reaches, hgiven.mem, h.counted ▸ hshort, ?_, p, hp, d, hget, ?_⟩
  · rw [hgiven.decisions]
  · rw [← hreleased, ← hgpr]
    omega

/-- A candidate's turn: what it gave, and which decisions it lowered. -/
structure TurnKept (c : BorrowCycle) (ch : ChunkRead) (need : Int) (start now : Figures)
    (released : Int) (req : ModelScalingRequest) (t : Turn) : Prop where
  underway : Underway c ch need start
    ⟨t.decisions, Function.update now.left req.ns t.left⟩ (released + t.gave)
  mine : ∀ i ∈ t.mine, ∃ d, now.decisions[i]? = some d ∧ d.isOf req.ns req.modelID = true
  others : ∀ i, i ∉ t.mine → t.decisions[i]? = now.decisions[i]?

section Turns

variable {need released : Int} {start now : Figures} {req : ModelScalingRequest} {touched : List ℕ}

theorem turnPass_cases (t : Turn) :
    turnPass c.states ch need req released touched t = .stop t ∨
      ∃ freed largest, released + t.gave < need ∧
        unitTakes c.states req ch (nextUnit c.states req ch t.decisions) t.decisions t.left =
          some (freed, largest) ∧
        ¬ (largest : Int) < freed - (need - released - t.gave) ∧
        turnPass c.states ch need req released touched t = .again
          { decisions := (giveUnit c.states req (nextUnit c.states req ch t.decisions)
              (t.decisions, t.left)).1
            left := (giveUnit c.states req (nextUnit c.states req ch t.decisions)
              (t.decisions, t.left)).2
            gave := t.gave + freed
            mine := t.mine ++ (nextUnit c.states req ch t.decisions).map Prod.fst } := by
  unfold turnPass
  by_cases hneed : need ≤ released + t.gave
  · rw [if_pos hneed]
    exact .inl rfl
  · rw [if_neg hneed]
    simp only
    cases htakes : unitTakes c.states req ch (nextUnit c.states req ch t.decisions) t.decisions
        t.left with
    | none => exact .inl rfl
    | some takes =>
      obtain ⟨freed, largest⟩ := takes
      simp only
      by_cases hlarge : (largest : Int) < freed - (need - released - t.gave)
      · rw [if_pos hlarge]
        exact .inl rfl
      · rw [if_neg hlarge]
        split_ifs
        · exact .inl rfl
        · exact .inr ⟨freed, largest, not_le.mp hneed, rfl, hlarge, rfl⟩

theorem TurnKept.pass (hreq : req ∈ c.requests) {t : Turn}
    (h : TurnKept c ch need start now released req t) :
    TurnKept c ch need start now released req
      (turnPass c.states ch need req released touched t).state := by
  rcases turnPass_cases t with hstop | ⟨freed, largest, hshort, htakes, hlarge, hagain⟩
  · rw [hstop]
    exact h
  · rw [hagain]
    have hunit := nextUnit_isUnit c.states req ch t.decisions
    have hgiven : UnitGiven c ch req ⟨t.decisions, Function.update now.left req.ns t.left⟩
        ⟨(giveUnit c.states req (nextUnit c.states req ch t.decisions) (t.decisions, t.left)).1,
          Function.update now.left req.ns (giveUnit c.states req
            (nextUnit c.states req ch t.decisions) (t.decisions, t.left)).2⟩ freed largest := by
      constructor
      · exact hreq
      · simp only [Function.update_self]
        exact htakes
      · simp only [Function.update_self]
      · simp only [Function.update_self, Function.update_idem]
    refine ⟨?_, fun i hi => ?_, fun i hi => ?_⟩
    · have hnext := h.underway.give hshort hgiven (by omega)
      rw [add_assoc] at hnext
      exact hnext
    · by_cases hmine : i ∈ t.mine
      · exact h.mine i hmine
      · have hi : i ∈ (nextUnit c.states req ch t.decisions).map Prod.fst :=
          (mem_append.mp hi).resolve_left hmine
        obtain ⟨p, hp, rfl⟩ := mem_map.mp hi
        obtain ⟨d, hget, hof, _⟩ := hunit.spare p hp
        exact ⟨d, h.others p.1 hmine ▸ hget, hof⟩
    · have hnot := not_or.mp (mem_append.not.mp hi)
      exact (getElem?_giveUnit hnot.2).trans (h.others i hnot.1)

theorem turnKept_turn (touched : List ℕ) (hreq : req ∈ c.requests)
    (h : Underway c ch need start now released) :
    TurnKept c ch need start now released req
      (turn c.states ch need req released touched now.decisions (now.left req.ns)) := by
  refine loop_invariant (fun t ht => ht.pass hreq) ⟨?_, by simp, fun _ _ => rfl⟩ _
  rw [add_zero]
  simpa only [Function.update_eq_self] using h

theorem totalTarget_giveUnit {states : States} {decisions : List VariantDecision}
    {left : GoMap String Int} {ns modelID : String} {unit : GivenUnit}
    (hunit : IsUnit states decisions ns modelID unit) (hne : unit ≠ []) :
    totalTarget (giveUnit states req unit (decisions, left)).1 < totalTarget decisions := by
  have htotal : ∀ ds : List VariantDecision, (totalTarget ds : Int) =
      sumIf (fun _ => true) (fun d => (d.targetReplicas : Int)) ds := by
    intro ds
    rw [totalTarget, sumIf, filter_true, Nat.cast_list_sum, map_map]
    rfl
  obtain ⟨p, rest, rfl⟩ := exists_cons_of_ne_nil hne
  obtain ⟨d, hget, _, hpos, hspare⟩ := hunit.spare p mem_cons_self
  have hrest := unitDrop_target_nonneg (fun _ => true) decisions rest
  have hone : (d.targetReplicas : Int) - ((d.lower p.2).targetReplicas : Int) = p.2 := by
    rw [VariantDecision.lower]
    simp only
    omega
  zify
  rw [htotal, htotal, sumIf_giveUnit hunit _ fun _ _ => rfl, unitDrop_cons hget, if_pos rfl, hone]
  omega

theorem turn_stops (decisions : List VariantDecision) (left : GoMap String Int) :
    ∃ last, turnPass c.states ch need req released touched last =
      .stop (turn c.states ch need req released touched decisions left) := by
  have hless : ∀ t : Turn, True → ∀ t', turnPass c.states ch need req released touched t = .again t' →
      True ∧ totalTarget t'.decisions < totalTarget t.decisions := by
    intro t _ t' ht
    refine ⟨trivial, ?_⟩
    rcases turnPass_cases t with hstop | ⟨freed, largest, _, htakes, _, hagain⟩
    · rw [hstop] at ht
      cases ht
    · rw [hagain] at ht
      obtain rfl := Core.Pass.again.inj ht
      have hunit := nextUnit_isUnit c.states req ch t.decisions
      exact totalTarget_giveUnit hunit (unitTakes_spec hunit htakes).1
  obtain ⟨last, _, hstop⟩ := loop_stops hless trivial (Nat.lt_succ_self _)
  exact ⟨last, hstop⟩

end Turns

theorem getElem?_restore {before : List VariantDecision} (mine : List ℕ)
    (decisions : List VariantDecision) (hlength : decisions.length = before.length) (i : ℕ) :
    (restore before decisions mine)[i]? = if i ∈ mine then before[i]? else decisions[i]? := by
  unfold restore
  induction mine generalizing decisions with
  | nil => simp
  | cons j mine ih =>
    rw [foldl_cons]
    cases hj : before[j]? with
    | none =>
      simp only
      rw [ih decisions hlength]
      by_cases hi : i ∈ mine
      · rw [if_pos hi, if_pos (mem_cons_of_mem _ hi)]
      · rw [if_neg hi]
        by_cases hij : i = j
        · subst hij
          rw [if_pos mem_cons_self, hj, List.getElem?_eq_none_iff, hlength]
          exact List.getElem?_eq_none_iff.mp hj
        · rw [if_neg (by simp [hij, hi])]
    | some d =>
      simp only
      rw [ih (decisions.set j d) (by rw [length_set, hlength])]
      by_cases hi : i ∈ mine
      · rw [if_pos hi, if_pos (mem_cons_of_mem _ hi)]
      · rw [if_neg hi]
        by_cases hij : i = j
        · subst hij
          have hlt := (List.getElem?_eq_some_iff.mp hj).1
          rw [if_pos mem_cons_self, getElem?_set_self (hlength ▸ hlt), hj]
        · rw [if_neg (by simp [hij, hi]), getElem?_set_ne (Ne.symm hij)]

theorem AllLowered.length {states : States} {before after : List VariantDecision}
    (h : AllLowered states before after) : after.length = before.length := by
  have hends : ∀ i, before.length ≤ i ↔ after.length ≤ i := by
    intro i
    have hrel := h i
    rw [← getElem?_eq_none_iff, ← getElem?_eq_none_iff]
    generalize before[i]? = o, after[i]? = o' at hrel ⊢
    cases hrel with
    | none => rfl
    | some => simp
  exact le_antisymm ((hends _).mp le_rfl) ((hends _).mpr le_rfl)

/-- A release's candidates so far: it is under way, and the decisions of those to come are as they
were. -/
structure TakingKept (c : BorrowCycle) (ch : ChunkRead) (need : Int) (start : Figures)
    (rest : List LenderCandidate) (st : Taking) : Prop where
  underway : Underway c ch need start ⟨st.decisions, st.left.get⟩ st.released
  untouched : ∀ cand ∈ rest, ∀ (i : ℕ) (d : VariantDecision), start.decisions[i]? = some d →
    d.isOf cand.req.ns cand.req.modelID = true → st.decisions[i]? = some d

section Release

variable {need : Int} {start : Figures} {st : Taking}

section Candidate

variable {cand : LenderCandidate} {rest : List LenderCandidate}
  (h : TakingKept c ch need start (cand :: rest) st)
include h

theorem TakingKept.getElem?_eq {i : ℕ} {d : VariantDecision} (hget : st.decisions[i]? = some d)
    (hof : d.isOf cand.req.ns cand.req.modelID = true) : start.decisions[i]? = some d := by
  have hrel := h.underway.reaches.allLowered i
  simp only [hget] at hrel
  generalize hstart : start.decisions[i]? = o at hrel
  cases hrel with
  | @some d₀ _ hlow =>
    have hsame := h.untouched cand mem_cons_self i d₀ hstart (hlow.isOf _ _ ▸ hof)
    rw [hsame] at hget
    exact hget

theorem TakingKept.restore_eq {t : Turn}
    (ht : TurnKept c ch need start ⟨st.decisions, st.left.get⟩ st.released cand.req t) :
    restore start.decisions t.decisions t.mine = st.decisions := by
  have hlength : t.decisions.length = start.decisions.length :=
    ht.underway.reaches.allLowered.length
  refine ext_getElem? fun i => ?_
  rw [getElem?_restore t.mine t.decisions hlength]
  split_ifs with hi
  · obtain ⟨d, hget, hof⟩ := ht.mine i hi
    rw [h.getElem?_eq hget hof]
    exact hget.symm
  · exact ht.others i hi

theorem TakingKept.takeFrom (hreq : cand.req ∈ c.requests)
    (hdistinct : ∀ other ∈ rest, (other.req.ns, other.req.modelID) ≠ (cand.req.ns,
      cand.req.modelID)) :
    TakingKept c ch need start rest (takeFrom c.states ch need start.decisions st cand) := by
  have hrest : ∀ other ∈ rest, ∀ (i : ℕ) (d : VariantDecision), start.decisions[i]? = some d →
      d.isOf other.req.ns other.req.modelID = true → st.decisions[i]? = some d :=
    fun other hother => h.untouched other (mem_cons_of_mem _ hother)
  unfold Release.takeFrom
  split_ifs with hneed
  · exact ⟨h.underway, hrest⟩
  · have hturn := turnKept_turn st.touched hreq h.underway
    simp only at hturn ⊢
    split_ifs with hgave
    · have hleft : (st.left.set cand.req.ns (st.left.get cand.req.ns)).get = st.left.get := by
        funext ns
        rw [GoMap.get_set]
        split_ifs with hns
        · rw [hns]
        · rfl
      have hdecisions := h.restore_eq hturn
      refine ⟨?_, fun other hother i d hget hof => ?_⟩
      · simp only [hleft, hdecisions]
        exact h.underway
      · simp only [hdecisions]
        exact hrest other hother i d hget hof
    · refine ⟨?_, fun other hother i d hget hof => ?_⟩
      · have hleft : ∀ m, (st.left.set cand.req.ns m).get =
            Function.update st.left.get cand.req.ns m := by
          intro m
          funext ns
          rw [GoMap.get_set, Function.update_apply]
        simp only [hleft]
        exact hturn.underway
      · have hsame := hrest other hother i d hget hof
        refine (hturn.others i fun hi => ?_).trans hsame
        obtain ⟨d', hget', hof'⟩ := hturn.mine i hi
        simp only [hsame, Option.some.injEq] at hget'
        subst hget'
        exact hdistinct other hother (VariantDecision.isOf_unique hof hof')

end Candidate

theorem TakingKept.foldl {cands : List LenderCandidate} (h : TakingKept c ch need start cands st)
    (hreqs : ∀ cand ∈ cands, cand.req ∈ c.requests)
    (hdistinct : (cands.map fun cand => (cand.req.ns, cand.req.modelID)).Nodup) :
    Underway c ch need start
      ⟨(cands.foldl (Release.takeFrom c.states ch need start.decisions) st).decisions,
        (cands.foldl (Release.takeFrom c.states ch need start.decisions) st).left.get⟩
      (cands.foldl (Release.takeFrom c.states ch need start.decisions) st).released := by
  induction cands generalizing st with
  | nil => exact h.underway
  | cons cand cands ih =>
    obtain ⟨hhead, htail⟩ := forall_mem_cons.mp hreqs
    rw [map_cons, nodup_cons] at hdistinct
    rw [foldl_cons]
    refine ih (h.takeFrom hhead fun other hother heq => ?_) htail hdistinct.2
    exact hdistinct.1 (mem_map.mpr ⟨other, hother, heq⟩)

end Release

end LlmScaler.Release
