import LlmScaler.Budget.Fits
import LlmScaler.Core.Sorting

/-!
# Which variants a wake chooses

A model at zero is woken by the cheapest decode and prefill that fit together, or by a decode alone.
The pair search walks both lists cheapest first and leaves a row at the first pair that is no better
than the best one found. That loses nothing whatever pairs fit: what it skips costs at least as much.
-/

namespace LlmScaler.ScaleFromZero

open LlmScaler.Core LlmScaler.Budget List

/-- The role of a variant: one that serves both stages counts as decode. -/
inductive Role where
  | prefill
  | decode
  | both
  deriving DecidableEq

/-- `Candidate`: an inactive variant that could be woken. -/
structure Candidate where
  variantName : String
  role : Role
  accelerator : String
  gpusPerReplica : Int
  cost : ℚ
  deriving DecidableEq

inductive SelectionOutcome where
  | pair
  | decodeOnly
  | alreadyServing
  | prefillCatchUp
  | noDecodeCandidate
  | noCapacity
  | prefillRequired
  deriving DecidableEq

/-- `SelectionInput`: what a serving set is chosen from. -/
structure SelectionInput where
  ns : String
  candidates : List Candidate
  decodeCovered : Bool
  prefillCovered : Bool
  constraints : List ResourceConstraints
  admitted : Demand
  /-- Whether the nodes, with what is reclaimed on them, hold a replica of each. -/
  place : List Candidate → Bool
  requirePrefill : Bool

/-- `demandOf`: one replica of each candidate, by accelerator. -/
def demandOf (set : List Candidate) : Demand :=
  set.foldl (fun demand c =>
    if Accelerator.isAcceleratorResolved c.accelerator then
      demand.modify c.accelerator (· + if c.gpusPerReplica ≤ 0 then 1 else c.gpusPerReplica.toNat)
    else demand) ∅

/-- `splitByRole`, the decode-capable half. -/
def decodes (candidates : List Candidate) : List Candidate :=
  candidates.filter fun c => c.role ≠ .prefill

/-- `splitByRole`, the prefill half. -/
def prefills (candidates : List Candidate) : List Candidate :=
  candidates.filter fun c => c.role = .prefill

/-- `sortByCost`: the cheapest first, equal ones by name. -/
def sortByCost (candidates : List Candidate) : List Candidate :=
  (Sorting.byKey fun c : Candidate => toLex (c.cost, c.variantName)).sort candidates

def pairCost (pair : Candidate × Candidate) : ℚ := pair.1.cost + pair.2.cost

namespace SelectionInput

variable (input : SelectionInput)

/-- `fits`: the set can be placed within the budget and on the nodes, together. -/
def fits (set : List Candidate) : Bool :=
  fitsGPUBudget input.constraints input.ns (addDemand (demandOf set) input.admitted) &&
    input.place set

/-- One row of the pair search: the prefills for one decode, and the best pair so far. -/
def pairRow (d : Candidate) :
    List Candidate → Option (Candidate × Candidate) → Option (Candidate × Candidate)
  | [], best => best
  | p :: ps, best =>
    if best.any fun b => pairCost b ≤ pairCost (d, p) then best
    else if input.fits [d, p] then some (d, p)
    else pairRow d ps best

/-- `cheapestFeasiblePair`, from both lists cheapest first. -/
def cheapestFeasiblePair (ds ps : List Candidate) : Option (Candidate × Candidate) :=
  ds.foldl (fun best d => input.pairRow d ps best) none

/-- `prefillCatchUp`: the cheapest prefill that fits, beside a decode that runs. -/
def prefillCatchUp : Option Candidate :=
  if input.prefillCovered then none
  else (sortByCost (prefills input.candidates)).find? fun p => input.fits [p]

/-- Whether the wake is of a pair: there are prefills and none is up. -/
def pairWanted : Bool := !(prefills input.candidates).isEmpty && !input.prefillCovered

def wantedPair : Option (Candidate × Candidate) :=
  if input.pairWanted then
    input.cheapestFeasiblePair (sortByCost (decodes input.candidates))
      (sortByCost (prefills input.candidates))
  else none

def decodeAlone : List Candidate × SelectionOutcome :=
  match (sortByCost (decodes input.candidates)).find? fun d => input.fits [d] with
  | some d => ([d], .decodeOnly)
  | none => ([], .noCapacity)

/-- `selectServingSet`: the cheapest set with which the model serves, or why there is none. -/
def selectServingSet : List Candidate × SelectionOutcome :=
  if input.decodeCovered then
    match input.prefillCatchUp with
    | some p => ([p], .prefillCatchUp)
    | none => ([], .alreadyServing)
  else if (decodes input.candidates).isEmpty then ([], .noDecodeCandidate)
  else
    match input.wantedPair with
    | some (d, p) => ([d, p], .pair)
    | none =>
      if input.pairWanted && input.requirePrefill then ([], .prefillRequired)
      else input.decodeAlone

variable {input}

/-- What a best pair so far is worth against a set of pairs searched. -/
structure Best (input : SelectionInput) (searched : Candidate × Candidate → Prop)
    (best : Option (Candidate × Candidate)) : Prop where
  fits : ∀ b ∈ best, searched b ∧ input.fits [b.1, b.2] = true
  least : ∀ q, searched q → input.fits [q.1, q.2] = true → ∃ b ∈ best, pairCost b ≤ pairCost q

theorem Best.pairRow {searched : Candidate × Candidate → Prop} {d : Candidate}
    {ps : List Candidate} {best : Option (Candidate × Candidate)}
    (hsorted : ps.Pairwise fun p q => p.cost ≤ q.cost) (h : Best input searched best) :
    Best input (fun q => searched q ∨ q.1 = d ∧ q.2 ∈ ps) (input.pairRow d ps best) := by
  induction ps with
  | nil => simpa [SelectionInput.pairRow] using h
  | cons p ps ih =>
    obtain ⟨hhead, htail⟩ := pairwise_cons.mp hsorted
    -- the head of the row is its cheapest pair
    have hrow {q : Candidate × Candidate} (hd : q.1 = d) (hq : q.2 ∈ p :: ps) :
        pairCost (d, p) ≤ pairCost q := by
      unfold pairCost
      rw [hd]
      rcases mem_cons.mp hq with heq | hq
      · rw [heq]
      · exact add_le_add le_rfl (hhead _ hq)
    rw [SelectionInput.pairRow]
    split_ifs with hworse hfits
    · obtain ⟨b, hb, hle⟩ := (Option.any_eq_true _ _).mp hworse
      have hle : pairCost b ≤ pairCost (d, p) := by simpa using hle
      constructor
      · exact fun b' hb' => (h.fits b' hb').imp_left .inl
      · rintro q (hq | ⟨hd, hq⟩) hfit
        · exact h.least q hq hfit
        · exact ⟨b, hb, hle.trans (hrow hd hq)⟩
    · constructor
      · intro b hb
        obtain rfl := Option.mem_some_iff.mp hb
        exact ⟨.inr ⟨rfl, mem_cons_self⟩, hfits⟩
      · intro q hq hfit
        refine ⟨(d, p), rfl, ?_⟩
        rcases hq with hq | ⟨hd, hq⟩
        · obtain ⟨b, hb, hle⟩ := h.least q hq hfit
          have hlt : pairCost (d, p) < pairCost b := by
            rw [Option.mem_def.mp hb] at hworse
            simpa using hworse
          exact hlt.le.trans hle
        · exact hrow hd hq
    · have hrest := ih htail
      constructor
      · intro b hb
        obtain ⟨hsearched, hfit⟩ := hrest.fits b hb
        exact ⟨hsearched.imp_right fun hand => ⟨hand.1, mem_cons_of_mem _ hand.2⟩, hfit⟩
      · rintro q (hq | ⟨hd, hq⟩) hfit
        · exact hrest.least q (.inl hq) hfit
        · rcases mem_cons.mp hq with heq | hq
          · rw [hd, heq] at hfit
            exact absurd hfit hfits
          · exact hrest.least q (.inr ⟨hd, hq⟩) hfit

theorem best_cheapestFeasiblePair (ds : List Candidate) {ps : List Candidate}
    (hsorted : ps.Pairwise fun p q => p.cost ≤ q.cost) :
    Best input (fun q => q.1 ∈ ds ∧ q.2 ∈ ps) (input.cheapestFeasiblePair ds ps) := by
  unfold cheapestFeasiblePair
  induction ds using reverseRecOn with
  | nil => exact ⟨by simp, by simp⟩
  | append_singleton ds d ih =>
    rw [foldl_concat]
    have hrow := ih.pairRow (d := d) hsorted
    constructor
    · intro b hb
      obtain ⟨hsearched, hfit⟩ := hrow.fits b hb
      refine ⟨?_, hfit⟩
      simp only [mem_append, mem_singleton]
      tauto
    · intro q hq hfit
      refine hrow.least q ?_ hfit
      simp only [mem_append, mem_singleton] at hq
      tauto

theorem sorted_sortByCost (l : List Candidate) :
    (sortByCost l).Pairwise fun p q => p.cost ≤ q.cost := by
  refine (pairwise_insertionSort_key _ l).imp fun {p q} hle => ?_
  rcases Prod.Lex.le_iff.mp hle with hlt | heq
  · exact hlt.le
  · exact heq.1.le

theorem mem_sortByCost {c : Candidate} {l : List Candidate} : c ∈ sortByCost l ↔ c ∈ l :=
  Sorting.mem_sort _

theorem find_sortByCost {l : List Candidate} {f : Candidate → Bool} {c : Candidate}
    (h : (sortByCost l).find? f = some c) :
    c ∈ l ∧ f c = true ∧ ∀ c' ∈ l, f c' = true → c.cost ≤ c'.cost := by
  obtain ⟨hf, before, after, heq, hnot⟩ := find?_eq_some_iff_append.mp h
  have hsorted := sorted_sortByCost l
  refine ⟨mem_sortByCost.mp (mem_of_find?_eq_some h), hf, fun c' hc' hf' => ?_⟩
  rw [← mem_sortByCost, heq] at hc'
  rw [heq, pairwise_append, pairwise_cons] at hsorted
  rcases mem_append.mp hc' with hc' | hc'
  · have := hnot c' hc'
    simp [hf'] at this
  · rcases mem_cons.mp hc' with rfl | hc'
    · exact le_rfl
    · exact hsorted.2.1.1 c' hc'

theorem best_wantedPair (h : input.pairWanted = true) :
    Best input (fun q => q.1 ∈ decodes input.candidates ∧ q.2 ∈ prefills input.candidates)
      input.wantedPair := by
  rw [wantedPair, if_pos h]
  simpa only [mem_sortByCost] using best_cheapestFeasiblePair
    (sortByCost (decodes input.candidates)) (sorted_sortByCost (prefills input.candidates))

theorem fits_of_wantedPair {q : Candidate × Candidate} (h : input.wantedPair = some q) :
    (q.1 ∈ decodes input.candidates ∧ q.2 ∈ prefills input.candidates) ∧
      input.fits [q.1, q.2] = true ∧ ∀ d' ∈ decodes input.candidates,
        ∀ p' ∈ prefills input.candidates, input.fits [d', p'] = true →
          q.1.cost + q.2.cost ≤ d'.cost + p'.cost := by
  have hwanted : input.pairWanted = true := by
    by_contra hnot
    rw [wantedPair, if_neg hnot] at h
    cases h
  have hbest := best_wantedPair hwanted
  rw [h] at hbest
  obtain ⟨hmem, hfit⟩ := hbest.fits q rfl
  refine ⟨hmem, hfit, fun d' hd' p' hp' hfit' => ?_⟩
  obtain ⟨b, hb, hle⟩ := hbest.least (d', p') ⟨hd', hp'⟩ hfit'
  obtain rfl := Option.mem_some_iff.mp hb
  exact hle

theorem no_pair_fits (h : input.wantedPair = none) (hwanted : input.pairWanted = true) :
    ∀ d ∈ decodes input.candidates, ∀ p ∈ prefills input.candidates,
      input.fits [d, p] = false := by
  intro d hd p hp
  by_contra hfit
  obtain ⟨b, hb, _⟩ := (best_wantedPair hwanted).least (d, p) ⟨hd, hp⟩ (by simpa using hfit)
  rw [h] at hb
  cases hb

end SelectionInput

end LlmScaler.ScaleFromZero
