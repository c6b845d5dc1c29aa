import LlmScaler.Borrow.NewState
import LlmScaler.Borrow.Spend

/-!
# A whole borrowing pass

A pass starts from the state the constraints give and takes any sequence of units, of any models in
any order, between which pools may be debited for growth without a gate and the node view may
change. What one call of `placeUnit` spends composes over the pass.
-/

namespace LlmScaler.Borrow

open LlmScaler.Core LlmScaler.Nodes LlmScaler.Budget List GoMap

theorem every_takeBetter {better : Int → Int → Bool} {known more : GoMap String Int} {P : Int → Prop}
    (hknown : known.Every fun _ n => P n) (hmore : more.Every fun _ n => P n) :
    (takeBetter better known more).Every fun _ n => P n := by
  unfold takeBetter
  refine foldlRecOn (motive := fun m => GoMap.Every m fun _ n => P n) _ _ hknown ?_
  intro m hm e he
  have hvalue : P e.2 := hmore e.1 e.2 (mem_entries.mp he)
  split
  · split_ifs
    · exact hm.set hvalue
    · exact hm
  · exact hm.set hvalue

theorem nonneg_mergeChunk {prev p : SharedPoolChunk} (hprev : prev.Nonneg) (hp : p.Nonneg) :
    (mergeChunk prev p).Nonneg :=
  ⟨le_min hprev.1 hp.1, every_takeBetter hprev.2 hp.2⟩

/-- Chunks kept by their own keys, with no figure below zero. -/
def Keyed (byKey : GoMap String SharedPoolChunk) : Prop :=
  byKey.Every fun k c => c.key = k ∧ c.Nonneg

theorem keyed_addChunk {byKey : GoMap String SharedPoolChunk} (h : Keyed byKey)
    {p : SharedPoolChunk} (hp : p.Nonneg) : Keyed (addChunk byKey p) := by
  unfold addChunk
  split
  next prev hprev =>
    obtain ⟨hkey, hnonneg⟩ := h _ _ hprev
    exact h.set ⟨hkey, nonneg_mergeChunk hnonneg hp⟩
  next => exact h.set ⟨rfl, hp⟩

def HoldsAtMost (byKey : GoMap String SharedPoolChunk) (key : String) (free : Int) : Prop :=
  ∃ c, byKey.find? key = some c ∧ c.free ≤ free

theorem holdsAtMost_addChunk {byKey : GoMap String SharedPoolChunk} {key : String} {free : Int}
    (h : HoldsAtMost byKey key free) (p : SharedPoolChunk) :
    HoldsAtMost (addChunk byKey p) key free := by
  obtain ⟨c, hc, hle⟩ := h
  unfold addChunk HoldsAtMost
  split
  next prev hprev =>
    rw [find?_set]
    split_ifs with heq
    · rw [heq, hprev] at hc
      cases hc
      exact ⟨_, rfl, le_trans (min_le_left _ _) hle⟩
    · exact ⟨c, hc, hle⟩
  next hnone =>
    rw [find?_set]
    split_ifs with heq
    · rw [heq, hnone] at hc
      cases hc
    · exact ⟨c, hc, hle⟩

theorem addChunk_holdsAtMost (byKey : GoMap String SharedPoolChunk) (p : SharedPoolChunk) :
    HoldsAtMost (addChunk byKey p) p.key p.free := by
  unfold addChunk HoldsAtMost
  split
  · exact ⟨_, by rw [find?_set, if_pos rfl], min_le_right _ _⟩
  · exact ⟨_, by rw [find?_set, if_pos rfl], le_refl _⟩

section Start

variable {constraints : List BorrowConstraints}

theorem mem_mergedChunks {c : SharedPoolChunk} :
    c ∈ mergedChunks constraints ↔ ∃ k, (chunksByKey constraints).find? k = some c := by
  unfold mergedChunks
  rw [Sorting.mem_sort, mem_map]
  constructor
  · rintro ⟨⟨k, c'⟩, he, rfl⟩
    exact ⟨k, mem_entries.mp he⟩
  · rintro ⟨k, hk⟩
    exact ⟨⟨k, c⟩, mem_entries.mpr hk, rfl⟩

def keyOfID (id : String × String × String) : String := id.1 ++ "/" ++ id.2.1 ++ "/" ++ id.2.2

section Merged

variable (h : ∀ c ∈ constraints, ∀ q ∈ c.sharedPools, q.Nonneg)
include h

theorem keyed_chunksByKey : Keyed (chunksByKey constraints) := by
  unfold chunksByKey
  refine foldlRecOn (motive := Keyed) _ _ every_empty ?_
  intro m hm q hq
  obtain ⟨c, hc, hq⟩ := mem_flatMap.mp hq
  exact keyed_addChunk hm (h c (mem_of_mem_filter hc) q hq)

theorem nonneg_mergedChunks : ∀ c ∈ mergedChunks constraints, c.Nonneg := by
  intro c hc
  obtain ⟨k, hk⟩ := mem_mergedChunks.mp hc
  exact (keyed_chunksByKey h k c hk).2

theorem nodup_mergedChunks : ((mergedChunks constraints).map SharedPoolChunk.id).Nodup := by
  have hperm := ((Sorting.byKey chunkOrder).perm
    ((chunksByKey constraints).entries.map Sigma.snd)).map SharedPoolChunk.id
  rw [mergedChunks, hperm.nodup_iff]
  apply Nodup.of_map keyOfID
  have hkeys : (((chunksByKey constraints).entries.map Sigma.snd).map SharedPoolChunk.id).map
      keyOfID = (chunksByKey constraints).keys := by
    rw [map_map, map_map, AList.keys, List.keys]
    apply map_congr_left
    intro e he
    exact (keyed_chunksByKey h e.1 e.2 (mem_entries.mp he)).1
  rw [hkeys]
  exact (chunksByKey constraints).keys_nodup

theorem mergedChunks_le {c : BorrowConstraints} (hc : c ∈ counting constraints)
    {q : SharedPoolChunk} (hq : q ∈ c.sharedPools) :
    ∃ m ∈ mergedChunks constraints, m.key = q.key ∧ m.free ≤ q.free := by
  obtain ⟨m, hm, hle⟩ := foldl_establishes (P := fun q m => HoldsAtMost m q.key q.free)
    (fun q m p hq => holdsAtMost_addChunk hq p) addChunk_holdsAtMost
    ((counting constraints).flatMap BorrowConstraints.sharedPools) ∅ q
    (mem_flatMap.mpr ⟨c, hc, hq⟩)
  exact ⟨m, mem_mergedChunks.mpr ⟨_, hm⟩, (keyed_chunksByKey h _ m hm).1, hle⟩

end Merged

/-- A namespace's cap of a type is at most the figure. -/
def CapAtMost (ns t : String) (cap : ℕ∞) (m : GoMap String (GoMap String NsBorrowLeft)) : Prop :=
  ∃ left, (m.get ns).find? t = some left ∧ left.cap ≤ cap

variable {cap : ℕ∞} {t : String}

theorem addLeft_keeps {perType : GoMap String NsBorrowLeft}
    (h : ∃ left, perType.find? t = some left ∧ left.cap ≤ cap) (t' : String) (b : NamespaceBorrow) :
    ∃ left, (addLeft perType t' b).find? t = some left ∧ left.cap ≤ cap := by
  obtain ⟨left, hleft, hle⟩ := h
  unfold addLeft
  split
  next prev hprev =>
    rw [find?_set]
    split_ifs with heq
    · rw [heq, hprev] at hleft
      cases hleft
      exact ⟨_, rfl, le_trans (min_le_left _ _) hle⟩
    · exact ⟨left, hleft, hle⟩
  next hnone =>
    rw [find?_set]
    split_ifs with heq
    · rw [heq, hnone] at hleft
      cases hleft
    · exact ⟨left, hleft, hle⟩

theorem addLeft_sets (perType : GoMap String NsBorrowLeft) (t : String) (b : NamespaceBorrow) :
    ∃ left, (addLeft perType t b).find? t = some left ∧ left.cap ≤ b.drawable := by
  unfold addLeft
  split
  · exact ⟨_, by rw [find?_set, if_pos rfl], min_le_right _ _⟩
  · exact ⟨_, by rw [find?_set, if_pos rfl], le_refl _⟩

variable {ns : String}

theorem addNamespace_keeps {m : GoMap String (GoMap String NsBorrowLeft)} (h : CapAtMost ns t cap m)
    (ns' : String) (perType : GoMap String NamespaceBorrow) :
    CapAtMost ns t cap (addNamespace m ns' perType) := by
  unfold CapAtMost addNamespace at *
  rw [get_set]
  split_ifs with heq
  · rw [heq] at h
    exact foldlRecOn (motive := fun left : GoMap String NsBorrowLeft =>
      ∃ b, left.find? t = some b ∧ b.cap ≤ cap) _ _ h fun left hleft e _ => addLeft_keeps hleft _ _
  · exact h

theorem addNamespace_sets (m : GoMap String (GoMap String NsBorrowLeft)) (ns : String)
    {perType : GoMap String NamespaceBorrow} {b : NamespaceBorrow} (hb : perType.find? t = some b) :
    CapAtMost ns t b.drawable (addNamespace m ns perType) := by
  unfold CapAtMost addNamespace
  rw [get_set_self]
  exact foldl_establishes (P := fun (e : Sigma fun _ : String => NamespaceBorrow)
    (left : GoMap String NsBorrowLeft) => ∃ l, left.find? e.1 = some l ∧ l.cap ≤ e.2.drawable)
    (fun e left e' h => addLeft_keeps h _ _) (fun left e => addLeft_sets left e.1 e.2)
    perType.entries (m.get ns) ⟨t, b⟩ (mem_entries.mpr hb)

theorem addBorrow_keeps {m : GoMap String (GoMap String NsBorrowLeft)} (h : CapAtMost ns t cap m)
    (c : BorrowConstraints) : CapAtMost ns t cap (addBorrow m c) :=
  foldlRecOn (motive := CapAtMost ns t cap) _ _ h fun _ hm _ _ => addNamespace_keeps hm _ _

theorem newBorrow_le {c : BorrowConstraints} (hc : c ∈ constraints)
    {perType : GoMap String NamespaceBorrow} {b : NamespaceBorrow}
    (hns : (c.namespaceBorrow.getD ∅).find? ns = some perType) (hb : perType.find? t = some b) :
    ((((newBorrow constraints).get ns).get t).cap) ≤ b.drawable := by
  have hset : ∀ m, CapAtMost ns t b.drawable (addBorrow m c) := by
    intro m
    exact foldl_establishes (P := fun (e : Sigma fun _ : String => GoMap String NamespaceBorrow) m =>
      ∀ t b, e.2.find? t = some b → CapAtMost e.1 t b.drawable m)
      (fun e m e' h t b hb => addNamespace_keeps (h t b hb) _ _)
      (fun m e t b hb => addNamespace_sets m e.1 hb)
      (c.namespaceBorrow.getD ∅).entries m ⟨ns, perType⟩ (mem_entries.mpr hns) t b hb
  obtain ⟨left, hleft, hle⟩ := foldl_establishes
    (P := fun c' m => c' = c → CapAtMost ns t b.drawable m)
    (fun c' m d h heq => addBorrow_keeps (h heq) d) (fun m c' heq => heq ▸ hset m)
    constraints ∅ c hc rfl
  unfold newBorrow
  rw [get_of_find? hleft]
  exact hle

end Start

theorem get_creditOf (draws : List BorrowDraw) (v chunk : String) :
    ((creditOf draws).get v).get chunk = sumIf (onKeys v chunk) BorrowDraw.gpus draws := by
  rw [sumIf_eq_sum_map]
  refine (foldl_raises (v := fun m : GoMap String (GoMap String Int) => (m.get v).get chunk)
    (fun m d => ?_) draws ∅).trans (zero_add _)
  rw [get_modify]
  by_cases hv : v = d.ns ++ "/" ++ d.variant
  · rw [if_pos hv, get_modify_add, ← hv]
    simp [onKeys, BorrowDraw.variantKey, hv, eq_comm]
  · have hoff : onKeys v chunk d = false := by
      simp [onKeys, BorrowDraw.variantKey, Ne.symm hv]
    rw [if_neg hv, hoff]
    simp

structure Visit where
  ns : String
  modelID : String
  borrows : Bool
  targets : GoMap String Int

def Visit.placer (v : Visit) (catalog : Catalog) : ModelPlacer :=
  ⟨v.ns, v.modelID, v.borrows, v.targets, catalog v.ns v.modelID⟩

inductive PassOp
  | placeUnit (v : Visit) (guaranteed : Option Figures) (unit : PlaceUnit) (k : GoMap String ℕ)
  | debitPool (ns acc : String) (n : Int)
  | nodes (view : Option NodeView)

def passNext (catalog : Catalog) (bs : BorrowState) : PassOp → BorrowState
  | .placeUnit v guaranteed unit k =>
    ((v.placer catalog).placeUnit unit ⟨bs, guaranteed⟩ k).pass.bs
  | .debitPool ns acc n => bs.debitPool ns acc n
  | .nodes view => { bs with nodes := view }

variable {bs : BorrowState}

theorem spent_passNext (catalog : Catalog) (hids : (bs.chunks.map SharedPoolChunk.id).Nodup)
    (op : PassOp) : ∃ new, Spent catalog bs (passNext catalog bs op) new := by
  cases op with
  | placeUnit v guaranteed unit k =>
    obtain ⟨new, hnew, _⟩ := (v.placer catalog).spent_placeUnit unit (s := ⟨bs, guaranteed⟩) k rfl hids
    exact ⟨new, hnew⟩
  | debitPool ns acc n => exact ⟨[], spent_debitPool ns acc n⟩
  | nodes view => exact ⟨[], { Spent.refl bs with }⟩

theorem spent_pass (catalog : Catalog) (hids : (bs.chunks.map SharedPoolChunk.id).Nodup)
    (ops : List PassOp) : ∃ new, Spent catalog bs (runFrom (passNext catalog) bs ops) new := by
  refine foldlRecOn (motive := fun bs' => ∃ new, Spent catalog bs bs' new) _ _ ⟨[], Spent.refl bs⟩
    fun bs' hbs op _ => ?_
  obtain ⟨new, hnew⟩ := hbs
  obtain ⟨more, hmore⟩ := spent_passNext catalog (hnew.ids ▸ hids) op
  exact ⟨new ++ more, hnew.trans hmore⟩

section Result

variable {catalog : Catalog} {bs bs' : BorrowState} {new : List BorrowDraw}

theorem Spent.chunk_within (h : Spent catalog bs bs' new) (hnonneg : ∀ c ∈ bs.chunks, c.Nonneg) :
    (∀ c' ∈ bs'.chunks, c'.Nonneg) ∧
      ∀ c ∈ bs.chunks, sumIf c.holds BorrowDraw.net new ≤ c.free := by
  have hboth : Forall₂ (fun c c' => c'.Nonneg ∧ sumIf c.holds BorrowDraw.net new ≤ c.free)
      bs.chunks bs'.chunks := by
    have hchunks := h.chunks
    generalize bs.chunks = cs at hchunks hnonneg ⊢
    generalize bs'.chunks = cs' at hchunks ⊢
    induction hchunks with
    | nil => exact .nil
    | cons hc _ ih =>
      obtain ⟨hhead, htail⟩ := forall_mem_cons.mp hnonneg
      obtain ⟨hnonneg', hspent⟩ := hc.spent hhead
      refine .cons ⟨hnonneg', ?_⟩ (ih htail)
      have hfree := hnonneg'.1
      omega
  generalize bs.chunks = cs at hboth ⊢
  generalize bs'.chunks = cs' at hboth ⊢
  induction hboth with
  | nil => simp
  | cons hc _ ih =>
    refine ⟨forall_mem_cons.mpr ⟨hc.1, ih.1⟩, forall_mem_cons.mpr ⟨hc.2, ih.2⟩⟩

end Result

theorem newBorrowState_draws {constraints : List BorrowConstraints} {nodes : Option NodeView}
    {rules : PassRules} (h : newBorrowState constraints nodes rules = some bs) :
    bs.draws = [] ∧ bs.credit = creditOf rules.borrowCredit ∧
      (bs.chunks = mergedChunks constraints ∧ bs.borrow = newBorrow constraints ∨
        bs.chunks = [] ∧ bs.borrow = ∅ ∧ hasBorrowing constraints = false) := by
  unfold newBorrowState at h
  split_ifs at h with hborrows hco
  · cases h
    exact ⟨rfl, rfl, .inl ⟨rfl, rfl⟩⟩
  · cases h
    exact ⟨rfl, rfl, .inr ⟨rfl, rfl, Bool.eq_false_iff.mpr hborrows⟩⟩

/-- Over every pass, of any models in any order, what is drawn on a shared chunk past the variants'
own credit stays within what it held at the start, the credit used within the variants' own earlier
draws, what a namespace draws of a type within every provider's cap, no chunk figure goes below zero
even within a unit, and a committed unit of several roles draws for every replica or for none. -/
theorem draws_within_pools (constraints : List BorrowConstraints) (nodes : Option NodeView)
    (rules : PassRules) (catalog : Catalog)
    (hchunks : ∀ c ∈ constraints, ∀ q ∈ c.sharedPools, q.Nonneg)
    (hcredit : ∀ d ∈ rules.borrowCredit, 0 ≤ d.gpus) (start : BorrowState)
    (hstart : newBorrowState constraints nodes rules = some start) (ops : List PassOp) :
    let fin := runFrom (passNext catalog) start ops
    (∀ c ∈ start.chunks, sumIf c.holds BorrowDraw.net fin.draws ≤ c.free) ∧
    (∀ c ∈ counting constraints, ∀ q ∈ c.sharedPools,
      ∃ m ∈ start.chunks, m.key = q.key ∧ m.free ≤ q.free) ∧
    (∀ v chunk, sumIf (onKeys v chunk) BorrowDraw.creditGPUs fin.draws ≤
      sumIf (onKeys v chunk) BorrowDraw.gpus rules.borrowCredit) ∧
    (∀ c ∈ constraints, ∀ ns perType t b, (c.namespaceBorrow.getD ∅).find? ns = some perType →
      perType.find? t = some b → ∀ n : ℕ, b.drawable = n →
      sumIf (countsAgainst catalog start ns t) BorrowDraw.gpus fin.draws ≤ n) ∧
    (∀ (v : Visit) guaranteed os, ∀ c ∈ ((v.placer catalog).placeOrders ⟨fin, guaranteed⟩
      os).1.bs.chunks, c.Nonneg) ∧
    (∀ (v : Visit) guaranteed (unit : PlaceUnit) k, 1 < unit.picked.length →
      ((v.placer catalog).placeUnit unit ⟨fin, guaranteed⟩ k).placed = true →
      ∃ new, ((v.placer catalog).placeUnit unit ⟨fin, guaranteed⟩ k).pass.bs.draws =
          fin.draws ++ new ∧
        (new = [] ∨ new.map BorrowDraw.variant = ((v.placer catalog).orders unit
          ((v.placer catalog).placeUnit unit ⟨fin, guaranteed⟩ k).counts).map Order.variant)) := by
  intro fin
  obtain ⟨hdraws, hcreditOf, hbuilt⟩ := newBorrowState_draws hstart
  have hids : (start.chunks.map SharedPoolChunk.id).Nodup := by
    rcases hbuilt with ⟨hmerged, _⟩ | ⟨hnone, _⟩
    · rw [hmerged]
      exact nodup_mergedChunks hchunks
    · rw [hnone]
      exact nodup_nil
  have hnonneg : ∀ c ∈ start.chunks, c.Nonneg := by
    rcases hbuilt with ⟨hmerged, _⟩ | ⟨hnone, _⟩
    · rw [hmerged]
      exact nonneg_mergedChunks hchunks
    · rw [hnone]
      simp
  obtain ⟨new, hspent⟩ := spent_pass catalog hids ops
  have hnew : fin.draws = new := by
    rw [hspent.draws, hdraws, nil_append]
  have hfinIds : (fin.chunks.map SharedPoolChunk.id).Nodup := by
    rw [hspent.ids]
    exact hids
  obtain ⟨hfinNonneg, hwithin⟩ := hspent.chunk_within hnonneg
  refine ⟨?_, ?_, ?_, ?_, ?_, ?_⟩
  · rw [hnew]
    exact hwithin
  · intro c hc q hq
    rcases hbuilt with ⟨hmerged, _⟩ | ⟨_, _, hnone⟩
    · rw [hmerged]
      exact mergedChunks_le hchunks hc hq
    · obtain ⟨hmem, hcounts⟩ := mem_filter.mp hc
      exact absurd hcounts (any_eq_false.mp hnone c hmem)
  · intro v chunk
    have hused := hspent.credit v chunk
    have hown : 0 ≤ sumIf (onKeys v chunk) BorrowDraw.gpus rules.borrowCredit :=
      sumIf_nonneg fun d hd _ => hcredit d hd
    rw [hcreditOf, get_creditOf] at hused
    rw [hnew]
    omega
  · intro c hc ns perType t b hns hb n hn
    rcases hbuilt with ⟨_, hborrow⟩ | ⟨_, _, hnone⟩
    · have hle := newBorrow_le hc hns hb
      rw [← hborrow, hn] at hle
      obtain ⟨cap, hcap, hcapLe⟩ := ENat.le_natCast_iff.mp hle
      obtain ⟨m, _, hsum⟩ := hspent.caps ns t cap hcap
      rw [hnew]
      omega
    · have hnot : c.namespaceBorrow = none :=
        Option.not_isSome_iff_eq_none.mp (any_eq_false.mp hnone c hc)
      rw [hnot] at hns
      cases hns
  · intro v guaranteed os
    obtain ⟨more, hmore, _⟩ := (v.placer catalog).spent_placeOrders (s := ⟨fin, guaranteed⟩) os rfl
      hfinIds
    exact (hmore.chunk_within hfinNonneg).1
  · intro v guaranteed unit k hroles hplaced
    obtain ⟨more, hmore, hwhole⟩ := (v.placer catalog).spent_placeUnit unit
      (s := ⟨fin, guaranteed⟩) k rfl hfinIds
    exact ⟨more, hmore.draws, hwhole hplaced hroles⟩

/-- One cohort with sixteen free GPUs, of which the namespace may draw eight. -/
private def oneCohort : BorrowConstraints where
  namespacePools := ∅
  namespaceBorrow := some (GoMap.set ∅ "x" (GoMap.set ∅ "H100"
    ⟨(8 : ℕ), 0, 0, 0, false, ∅, ∅, none, []⟩))
  namespaceNominal := ∅
  sharedPools := [⟨⟨"H100", ∅, []⟩, "co", "f", "gpu", 16, none, 0, ∅, [], ∅, 0, none, false⟩]
  namespaceCohorts := GoMap.set ∅ "x" ["co"]

private def noRules : PassRules :=
  ⟨fun _ _ _ => false, fun _ _ _ => false, fun _ _ => false, [], []⟩

private def eightGPUs : Catalog := fun _ _ _ => ⟨"H100", [8], 8, [], "", [], ∅, ""⟩

/-- Two replicas asked for with nothing guaranteed: the cap holds one. -/
private def askTwo : List PassOp :=
  [.placeUnit ⟨"x", "m", true, ∅⟩ (some (GoMap.set ∅ "H100" 0))
    ⟨["both"], GoMap.set ∅ "both" "v", nodup_singleton _⟩ (GoMap.set ∅ "both" 2)]

private def oneCohortState : BorrowState :=
  (newBorrowState [oneCohort] none noRules).get (by decide)

/-- A pass that draws once, up to the cap. -/
theorem draws_within_one_pool :
    newBorrowState [oneCohort] none noRules = some oneCohortState ∧
    ((runFrom (passNext eightGPUs) oneCohortState askTwo).draws.map BorrowDraw.gpus) = [8] ∧
    ∀ c ∈ oneCohortState.chunks, sumIf c.holds BorrowDraw.net
      (runFrom (passNext eightGPUs) oneCohortState askTwo).draws ≤ c.free := by
  have hstart : newBorrowState [oneCohort] none noRules = some oneCohortState :=
    (Option.some_get _).symm
  refine ⟨hstart, by decide, ?_⟩
  have hchunks : ∀ c ∈ [oneCohort], ∀ q ∈ c.sharedPools, q.Nonneg := by
    intro c hc q hq
    rw [mem_singleton.mp hc] at hq
    rw [mem_singleton.mp hq]
    exact ⟨by decide, every_empty⟩
  exact (draws_within_pools [oneCohort] none noRules eightGPUs hchunks (by decide) oneCohortState
    hstart askTwo).1

end LlmScaler.Borrow
