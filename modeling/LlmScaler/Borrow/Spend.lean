import LlmScaler.Borrow.Rollback

/-!
# What placements spend of the pools

One relation says what a placement may do to the figures of a borrowing state, given the draws it
recorded: it lowers each chunk by at least what the draws took past the variants' own credit and
leaves no figure below zero, it lowers the credit by what was re-placed, and the caps by what was
drawn. The relation holds of one replica, composes, and so holds of a unit and of a pass.
-/

namespace LlmScaler.Borrow

open LlmScaler.Core LlmScaler.Nodes LlmScaler.Accelerator LlmScaler.Budget List GoMap

/-- The GPUs a draw took past the variant's own credit. -/
def BorrowDraw.net (d : BorrowDraw) : Int := d.gpus - d.creditGPUs

def BorrowDraw.chunk (d : BorrowDraw) : String × String × String := (d.cohort, d.flavor, d.resource)

/-- No figure of the chunk is below zero. -/
def SharedPoolChunk.Nonneg (c : SharedPoolChunk) : Prop :=
  0 ≤ c.free ∧ c.coFree.Every fun _ n => 0 ≤ n

structure ChunkSpent (new : List BorrowDraw) (c c' : SharedPoolChunk) : Prop where
  same : SameChunk c c'
  /-- No figure goes below zero, and it holds less by what was drawn on it. -/
  spent : c.Nonneg → c'.Nonneg ∧ c'.free + sumIf c.holds BorrowDraw.net new ≤ c.free

/-- The variants of a pass, by namespace and model. -/
abbrev Catalog := String → String → String → VariantShape

/-- A draw of a variant, on a chunk, by their keys. -/
def onKeys (v chunk : String) (d : BorrowDraw) : Bool :=
  d.variantKey = v && d.cohort ++ "/" ++ d.flavor ++ "/" ++ d.resource = chunk

/-- A draw that counts against a namespace's cap of a type. -/
def countsAgainst (catalog : Catalog) (bs : BorrowState) (ns t : String) (d : BorrowDraw) : Bool :=
  d.ns = ns && findKey (bs.borrow.get ns) (catalog d.ns d.modelID d.variant).accelerator = some t

/-- What a placement that recorded the draws did to the figures. -/
structure Spent (catalog : Catalog) (bs bs' : BorrowState) (new : List BorrowDraw) : Prop where
  draws : bs'.draws = bs.draws ++ new
  keys : SameKeys bs.borrow bs'.borrow
  chunks : Forall₂ (ChunkSpent new) bs.chunks bs'.chunks
  credit : ∀ v chunk, sumIf (onKeys v chunk) BorrowDraw.creditGPUs new +
    max 0 ((bs'.credit.get v).get chunk) ≤ max 0 ((bs.credit.get v).get chunk)
  caps : ∀ ns t (n : ℕ), ((bs.borrow.get ns).get t).cap = n →
    ∃ m : ℕ, ((bs'.borrow.get ns).get t).cap = m ∧
      sumIf (countsAgainst catalog bs ns t) BorrowDraw.gpus new + m ≤ n
  on : ∀ d ∈ new, d.chunk ∈ bs.chunks.map SharedPoolChunk.id

section Chunks

variable {c c' c'' : SharedPoolChunk}

theorem SameChunk.id_eq (h : SameChunk c c') : c'.id = c.id := by
  rw [h]
  rfl

theorem SameChunk.holds_eq (h : SameChunk c c') : c'.holds = c.holds := by
  rw [h]
  rfl

theorem ids_of_sameChunks {cs cs' : List SharedPoolChunk} (h : Forall₂ SameChunk cs cs') :
    cs'.map SharedPoolChunk.id = cs.map SharedPoolChunk.id := by
  induction h with
  | nil => rfl
  | cons hc _ ih => rw [map_cons, map_cons, hc.id_eq, ih]

theorem ChunkSpent.refl (c : SharedPoolChunk) : ChunkSpent [] c c :=
  ⟨.refl c, fun h => ⟨h, by simp⟩⟩

theorem ChunkSpent.trans {new new' : List BorrowDraw} (h : ChunkSpent new c c')
    (h' : ChunkSpent new' c' c'') : ChunkSpent (new ++ new') c c'' where
  same := h.same.trans h'.same
  spent := by
    intro hc
    obtain ⟨hc', hspent⟩ := h.spent hc
    obtain ⟨hc'', hspent'⟩ := h'.spent hc'
    rw [h.same.holds_eq] at hspent'
    refine ⟨hc'', ?_⟩
    rw [sumIf_append]
    omega

end Chunks

namespace Spent

variable {catalog : Catalog} {bs bs' bs'' : BorrowState} {new new' : List BorrowDraw}

theorem sameChunks (h : Spent catalog bs bs' new) : Forall₂ SameChunk bs.chunks bs'.chunks :=
  h.chunks.imp fun _ _ hc => hc.same

theorem ids (h : Spent catalog bs bs' new) :
    bs'.chunks.map SharedPoolChunk.id = bs.chunks.map SharedPoolChunk.id :=
  ids_of_sameChunks h.sameChunks

theorem countsAgainst_eq (h : Spent catalog bs bs' new) (ns t : String) :
    countsAgainst catalog bs' ns t = countsAgainst catalog bs ns t := by
  funext d
  unfold countsAgainst
  rw [findKey_of_keys (h.keys.inner ns)]

theorem refl (bs : BorrowState) : Spent catalog bs bs [] where
  draws := (append_nil _).symm
  keys := .refl _
  chunks := forall₂_same.mpr fun c _ => ChunkSpent.refl c
  credit := by simp
  caps := fun ns t n hn => ⟨n, hn, by simp⟩
  on := by simp

theorem trans (h : Spent catalog bs bs' new) (h' : Spent catalog bs' bs'' new') :
    Spent catalog bs bs'' (new ++ new') where
  draws := by rw [h'.draws, h.draws, append_assoc]
  keys := h.keys.trans h'.keys
  chunks := by
    refine forall₂_comp ?_ h.chunks h'.chunks
    intro a b c
    exact ChunkSpent.trans
  credit := by
    intro v chunk
    have hfirst := h.credit v chunk
    have hsecond := h'.credit v chunk
    rw [sumIf_append]
    omega
  caps := by
    intro ns t n hn
    obtain ⟨m, hm, hle⟩ := h.caps ns t n hn
    obtain ⟨m', hm', hle'⟩ := h'.caps ns t m hm
    rw [h.countsAgainst_eq] at hle'
    refine ⟨m', hm', ?_⟩
    rw [sumIf_append]
    omega
  on := by
    intro d hd
    rcases mem_append.mp hd with hd | hd
    · exact h.on d hd
    · rw [← h.ids]
      exact h'.on d hd

end Spent

variable {c : SharedPoolChunk}

section Books

variable {catalog : Catalog} {bs : BorrowState}

theorem spent_books {bs' : BorrowState} (hdraws : bs'.draws = bs.draws)
    (hcredit : bs'.credit = bs.credit) (hkeys : SameKeys bs.borrow bs'.borrow)
    (hcaps : ∀ ns t, ((bs'.borrow.get ns).get t).cap = ((bs.borrow.get ns).get t).cap)
    (hchunks : Forall₂ (ChunkSpent []) bs.chunks bs'.chunks) : Spent catalog bs bs' [] where
  draws := by rw [hdraws, append_nil]
  keys := hkeys
  chunks := hchunks
  credit := by simp [hcredit]
  caps := by
    intro ns t n hn
    exact ⟨n, by rw [hcaps, hn], by simp⟩
  on := by simp

theorem caps_setLeft (ns : String) (ref : BorrowState.LeftRef) {f : NsBorrowLeft → NsBorrowLeft}
    (hf : ∀ b, (f b).cap = b.cap) (ns' t : String) :
    (((bs.setLeft ns ref f).borrow.get ns').get t).cap = ((bs.borrow.get ns').get t).cap := by
  cases ref with
  | counted k =>
    change ((((bs.borrow.rewrite ns fun perType => perType.rewrite k f).get ns').get t)).cap = _
    rw [get_rewrite_rewrite]
    split_ifs
    · exact hf _
    · rfl
  | nominal k => rfl

theorem spent_setLeft (ns : String) (ref : BorrowState.LeftRef) {f : NsBorrowLeft → NsBorrowLeft}
    (hf : ∀ b, (f b).cap = b.cap) : Spent catalog bs (bs.setLeft ns ref f) [] := by
  apply spent_books
  · cases ref with
    | counted k => rfl
    | nominal k => rfl
  · cases ref with
    | counted k => rfl
    | nominal k => rfl
  · exact (framed_setLeft bs ns ref f).borrow
  · exact caps_setLeft ns ref hf
  · rw [chunks_setLeft]
    exact forall₂_same.mpr fun c _ => ChunkSpent.refl c

theorem spent_chunks {cs : List SharedPoolChunk}
    (h : Forall₂ (ChunkSpent []) bs.chunks cs) :
    Spent catalog bs { bs with chunks := cs } [] :=
  spent_books rfl rfl (.refl _) (fun _ _ => rfl) h

theorem chunkSpent_debit (c : SharedPoolChunk) (n : Int) (hn : 0 < n) :
    ChunkSpent [] c { c with free := c.free - min c.free n } := by
  refine ⟨rfl, fun hc => ?_⟩
  have hfree := hc.1
  refine ⟨⟨?_, hc.2⟩, ?_⟩
  · dsimp only
    omega
  · rw [sumIf_nil]
    dsimp only
    omega

theorem spent_debitPool (ns acc : String) (n : Int) : Spent catalog bs (bs.debitPool ns acc n) [] :=
  spent_chunks (forall₂_debitChunks ChunkSpent.refl chunkSpent_debit _ n bs.chunks)

theorem nonneg_spendCo {kept requests : GoMap String Int} (hc : c.coFree.Every fun _ n => 0 ≤ n)
    (hfits : coFitsKept c.coFree kept requests = true) :
    (c.spendCo kept requests).coFree.Every fun _ n => 0 ≤ n := by
  intro res f' hf'
  unfold SharedPoolChunk.spendCo at hf'
  dsimp only at hf'
  rw [find?_mapValues] at hf'
  obtain ⟨f, hf, rfl⟩ := Option.map_eq_some_iff.mp hf'
  have hnonneg := hc res f hf
  have hle : requests.get res ≤ f + kept.get res := by
    have hall := all_eq_true.mp hfits ⟨res, f⟩ (mem_entries.mpr hf)
    exact of_decide_eq_true hall
  cases hreq : requests.find? res with
  | none => exact hnonneg
  | some n =>
    rw [get_of_find? hreq] at hle
    dsimp only [keptPart]
    omega

theorem chunkSpent_spendCo {kept requests : GoMap String Int}
    (hfits : coFitsKept c.coFree kept requests = true) :
    ChunkSpent [] c (c.spendCo kept requests) where
  same := rfl
  spent := by
    intro hc
    refine ⟨⟨hc.1, nonneg_spendCo hc.2 hfits⟩, ?_⟩
    rw [sumIf_nil]
    exact le_of_eq (add_zero _)

theorem spent_coGuaranteed (bs : BorrowState) (ns acc : String) (counted : Option String)
    (requests : GoMap String Int) (reclaim : Bool) :
    Spent catalog bs (bs.coGuaranteed ns acc counted requests reclaim).1 [] := by
  rcases coGuaranteed_cases bs ns acc counted requests reclaim with
    h | ⟨ref, h | ⟨r, kept, h, hr⟩⟩ <;> rw [h]
  · exact Spent.refl bs
  · exact spent_setLeft ns ref fun _ => rfl
  · have hleft : Spent catalog bs (bs.setLeft ns ref (·.spendCo requests)) [] :=
      spent_setLeft ns ref fun _ => rfl
    refine hleft.trans (spent_chunks ?_)
    rw [chunks_setLeft]
    refine forall₂_updateFirst ChunkSpent.refl ?_ hr
    intro c _ c' hc
    split_ifs at hc with hguard
    cases hc
    exact chunkSpent_spendCo (Bool.and_eq_true_iff.mp hguard).2

end Books

variable {s : PassState}

namespace ModelPlacer

variable (p : ModelPlacer) {catalog : Catalog}

theorem spent_growInto (bs : BorrowState) (ref : BorrowState.LeftRef) (o : Order)
    (took fromOwn : Reclaim) (onNode : Bool) :
    Spent catalog bs (p.growInto bs ref o took fromOwn onNode) [] := by
  have hleft : Spent catalog bs (bs.setLeft p.ns ref (lessFresh (took.sub fromOwn))) [] :=
    spent_setLeft p.ns ref fun _ => rfl
  have hown : Spent catalog bs { bs.setLeft p.ns ref (lessFresh (took.sub fromOwn)) with
      reclaimCredit := lessOwn bs (p.variantKey o.variant) (p.shapes o.variant).accelerator
        fromOwn } [] :=
    { hleft with }
  have hdebited := hown.trans (spent_debitPool p.ns (p.shapes o.variant).accelerator
    (took.pool - fromOwn.pool + took.gpus))
  unfold growInto
  dsimp only
  split_ifs
  · exact { hdebited with }
  · exact hdebited

theorem spent_commitGuaranteed (s : PassState) (bs : BorrowState) (o : Order)
    (nodes : Option NodeView) (onNode : Bool) :
    Spent catalog bs (p.commitGuaranteed s bs o nodes onNode).bs [] := by
  have hplaced : ∀ flavors, Spent catalog bs { bs with nodes := nodes, flavors := flavors } [] :=
    fun _ => { Spent.refl bs with }
  unfold commitGuaranteed
  dsimp only
  split
  · exact (hplaced _).trans (p.spent_growInto _ _ _ _ _ _)
  · exact hplaced _

theorem spent_placeGuaranteed (s : PassState) (o : Order) :
    Spent catalog s.bs (p.placeGuaranteed s o).1.bs [] := by
  have hco : Spent catalog s.bs (p.coSpent s o) [] := spent_coGuaranteed ..
  rcases p.placeGuaranteed_cases s o with h | h
  · rw [h]
    exact hco
  · rw [h]
    exact hco.trans (p.spent_commitGuaranteed s _ o _ _)

theorem holds_iff_id {d : BorrowDraw} : c.holds d = true ↔ c.id = d.chunk := by
  unfold SharedPoolChunk.holds SharedPoolChunk.id BorrowDraw.chunk
  simp [and_assoc]

theorem chunkSpent_other {d : BorrowDraw} (h : c.id ≠ d.chunk) :
    ChunkSpent [d] c c where
  same := .refl c
  spent := by
    intro hc
    refine ⟨hc, ?_⟩
    rw [sumIf_cons, if_neg (fun hholds => h (holds_iff_id.mp hholds)), sumIf_nil]
    omega

variable {d : Drawn} {need : ℕ} {o : Order}

theorem chunkSpent_draw {b : NsBorrowLeft} {c' : SharedPoolChunk}
    (hc : p.drawOn s.bs o b need c = some (d, c')) : ChunkSpent [p.drawOf o need d] c c' := by
  obtain ⟨_, hneed, hco, hown, hchunk, _, hc'⟩ := p.drawOn_eq_some hc
  constructor
  · rw [hc']
    rfl
  · intro hnonneg
    have hholds : c.holds (p.drawOf o need d) = true := by
      rw [holds_iff_id, ← hchunk]
      rfl
    have hnet : (p.drawOf o need d).net = need - if 0 < d.fromOwn then d.fromOwn else 0 := rfl
    have hdrawable : c.drawable (p.shapes o.variant).priorityClass b.priority ≤ c.free := by
      unfold SharedPoolChunk.drawable
      have hrestricted : 0 ≤ ((c.restricted.filter (c.closedTo (p.shapes o.variant).priorityClass
          b.priority)).map fun r => (r.gpus : Int)).sum := by
        exact sum_nonneg (forall_mem_map.mpr fun r _ => Int.natCast_nonneg r.gpus)
      have hfree := hnonneg.1
      omega
    have hfree : c'.free = c.free - (need - d.fromOwn) := by rw [hc']
    have hcoFree : c'.coFree = (c.spendCo b.coKept (p.shapes o.variant).replicaRequests).coFree := by
      rw [hc']
    have hfree0 := hnonneg.1
    refine ⟨⟨?_, ?_⟩, ?_⟩
    · omega
    · rw [hcoFree]
      exact nonneg_spendCo hnonneg.2 hco
    · rw [sumIf_cons, if_pos hholds, sumIf_nil, hnet, hfree]
      split_ifs
      · omega
      · omega

variable {chunks : List SharedPoolChunk} {k : String}

theorem credit_commitDraw (hown : d.fromOwn ≤ p.ownDraw s.bs o.variant d.chunk) (v chunk : String) :
    sumIf (onKeys v chunk) BorrowDraw.creditGPUs [p.drawOf o need d] +
      max 0 (((p.commitDraw s o k need d chunks).bs.credit.get v).get chunk) ≤
        max 0 ((s.bs.credit.get v).get chunk) := by
  have hcredit : (p.commitDraw s o k need d chunks).bs.credit =
      lessCredit s.bs (p.variantKey o.variant) d := rfl
  unfold ownDraw at hown
  rw [hcredit, sumIf_cons, sumIf_nil]
  unfold lessCredit
  by_cases hpos : 0 < d.fromOwn
  · have hcreditGPUs : (p.drawOf o need d).creditGPUs = d.fromOwn := if_pos hpos
    have hinner : (s.bs.credit.get (p.variantKey o.variant)).has d.chunk.key = true := by
      apply has_of_get_ne
      intro hzero
      rw [hzero] at hown
      change d.fromOwn ≤ 0 at hown
      omega
    have houter : s.bs.credit.has (p.variantKey o.variant) = true := by
      apply has_of_get_ne
      intro hempty
      rw [hempty] at hinner
      cases hinner
    rw [if_pos hpos, hcreditGPUs, get_rewrite_rewrite]
    have hon : onKeys v chunk (p.drawOf o need d) = true ↔
        (v = p.variantKey o.variant ∧ s.bs.credit.has (p.variantKey o.variant) = true) ∧
          chunk = d.chunk.key ∧
          (s.bs.credit.get (p.variantKey o.variant)).has d.chunk.key = true := by
      simp only [onKeys, Bool.and_eq_true, decide_eq_true_eq, hinner, houter, and_true]
      exact and_congr eq_comm eq_comm
    by_cases hkeys : onKeys v chunk (p.drawOf o need d) = true
    · rw [if_pos hkeys, if_pos (hon.mp hkeys)]
      obtain ⟨⟨rfl, _⟩, rfl, _⟩ := hon.mp hkeys
      omega
    · rw [if_neg hkeys, if_neg (fun h => hkeys (hon.mpr h))]
      omega
  · have hcreditGPUs : (p.drawOf o need d).creditGPUs = 0 := if_neg hpos
    rw [if_neg hpos, hcreditGPUs, ite_self]
    omega

theorem caps_commitDraw (hp : p.shapes = catalog p.ns p.modelID)
    (hk : p.borrowKey s.bs (p.shapes o.variant).accelerator = some k)
    (hcap : (need : ℕ∞) ≤ (s.bs.left p.ns (.counted k)).cap) (ns t : String) (n : ℕ)
    (hn : ((s.bs.borrow.get ns).get t).cap = n) :
    ∃ m : ℕ, (((p.commitDraw s o k need d chunks).bs.borrow.get ns).get t).cap = m ∧
      sumIf (countsAgainst catalog s.bs ns t) BorrowDraw.gpus [p.drawOf o need d] + m ≤ n := by
  have hborrow : (p.commitDraw s o k need d chunks).bs.borrow =
      s.bs.borrow.rewrite p.ns fun perType =>
        perType.rewrite k (lessDraw (p.shapes o.variant).replicaRequests need) := rfl
  have hgpus : (p.drawOf o need d).gpus = need := rfl
  have hfound : findKey (s.bs.borrow.get p.ns) (p.shapes o.variant).accelerator = some k := by
    unfold borrowKey at hk
    split_ifs at hk
    exact hk
  rw [hborrow, get_rewrite_rewrite, sumIf_cons, sumIf_nil, hgpus]
  by_cases hkeys : ns = p.ns ∧ t = k
  · obtain ⟨rfl, rfl⟩ := hkeys
    have hinner : (s.bs.borrow.get p.ns).has t = true :=
      has_iff_mem_keys.mpr (findKey_mem hfound)
    have houter : s.bs.borrow.has p.ns = true := by
      apply has_of_get_ne
      intro hempty
      rw [hempty] at hinner
      cases hinner
    rw [if_pos ⟨⟨rfl, houter⟩, rfl, hinner⟩]
    have hle : need ≤ n := by
      have hleft : (s.bs.left p.ns (.counted t)).cap = n := hn
      rw [hleft] at hcap
      exact_mod_cast hcap
    refine ⟨n - need, ?_, ?_⟩
    · change ((s.bs.borrow.get p.ns).get t).cap - (need : ℕ∞) = _
      rw [hn]
      norm_cast
    · split_ifs
      · push_cast [hle]
        omega
      · push_cast [hle]
        omega
  · have hoff : countsAgainst catalog s.bs ns t (p.drawOf o need d) = false := by
      unfold countsAgainst
      rw [Bool.eq_false_iff]
      intro hon
      simp only [Bool.and_eq_true, decide_eq_true_eq] at hon
      obtain ⟨hns, ht⟩ := hon
      change p.ns = ns at hns
      subst hns
      change findKey (s.bs.borrow.get p.ns) (catalog p.ns p.modelID o.variant).accelerator = some t at ht
      rw [← hp, hfound] at ht
      exact hkeys ⟨rfl, (Option.some.inj ht).symm⟩
    rw [hoff, if_neg (fun h => hkeys ⟨h.1.1, h.2.1⟩)]
    exact ⟨n, hn, by simp⟩

theorem spent_commitDraw (hp : p.shapes = catalog p.ns p.modelID)
    (hids : (s.bs.chunks.map SharedPoolChunk.id).Nodup)
    (hk : p.borrowKey s.bs (p.shapes o.variant).accelerator = some k)
    (hcap : p.past s o.variant ≤ (s.bs.left p.ns (.counted k)).cap)
    (hdrawn : updateFirst (p.drawOn s.bs o (s.bs.left p.ns (.counted k)) (p.past s o.variant))
      s.bs.chunks = some (d, chunks)) :
    Spent catalog s.bs (p.commitDraw s o k (p.past s o.variant) d chunks).bs
      [p.drawOf o (p.past s o.variant) d] := by
  obtain ⟨before, c, c', after, hchunks, rfl, hc⟩ := updateFirst_eq_some hdrawn
  obtain ⟨_, _, _, hown, hchunk, _, _⟩ := p.drawOn_eq_some hc
  have hid : (p.drawOf o (p.past s o.variant) d).chunk = c.id := by
    rw [← hchunk]
    rfl
  refine ⟨rfl, (framed_setLeft s.bs p.ns (.counted k) _).borrow, ?_, ?_,
    p.caps_commitDraw hp hk hcap, ?_⟩
  · -- the other chunks have other names
    rw [hchunks, map_append, map_cons] at hids
    obtain ⟨_, hrest, hdisjoint⟩ := nodup_append.mp hids
    obtain ⟨hafter, _⟩ := nodup_cons.mp hrest
    rw [hchunks]
    apply rel_append
    · refine forall₂_same.mpr fun a ha => chunkSpent_other ?_
      rw [hid]
      exact hdisjoint _ (mem_map_of_mem ha) _ mem_cons_self
    · refine .cons (p.chunkSpent_draw hc) ?_
      refine forall₂_same.mpr fun a ha => chunkSpent_other ?_
      rw [hid]
      intro heq
      exact hafter (heq ▸ mem_map_of_mem ha)
  · apply p.credit_commitDraw
    rw [hown, hchunk]
    exact min_le_left _ _
  · intro e he
    rw [mem_singleton.mp he, hid, hchunks]
    simp

theorem spent_placeReplica (o : Order) (hp : p.shapes = catalog p.ns p.modelID)
    (hids : (s.bs.chunks.map SharedPoolChunk.id).Nodup) :
    ∃ new, Spent catalog s.bs (p.placeReplica s o).1.bs new ∧
      new.map BorrowDraw.variant = if (p.placeReplica s o).2 = .drew then [o.variant] else [] := by
  unfold placeReplica
  by_cases hleft : (p.shapes o.variant).gpus ≤
      guaranteedLeft s.guaranteed (p.shapes o.variant).accelerator
  · rw [if_pos hleft]
    refine ⟨[], p.spent_placeGuaranteed s o, ?_⟩
    rcases p.placeGuaranteed_cases s o with h | h
    · rw [h]
      rfl
    · rw [h]
      rfl
  · rw [if_neg hleft]
    rcases p.placeBorrowed_cases s o with h | ⟨k, d, chunks, hk, hcap, hdrawn, h⟩
    · rw [h]
      exact ⟨[], Spent.refl _, rfl⟩
    · rw [h]
      exact ⟨_, p.spent_commitDraw hp hids hk hcap hdrawn, rfl⟩

end ModelPlacer

def SameButNodes (s t : PassState) : Prop :=
  ∃ nodes, t = { s with bs := { s.bs with nodes := nodes } }

theorem sameButNodes_restore {s' : PassState} (h : Framed s.bs s'.bs) :
    SameButNodes s (s'.restore s.save) := by
  have hbs := restore_save_bs h
  refine ⟨PassState.restoreNodes s'.bs.nodes (s.bs.nodes.map NodeView.saveDebits), ?_⟩
  obtain ⟨bs, guaranteed⟩ := s
  exact congrArg (fun b => PassState.mk b guaranteed) hbs

theorem SameButNodes.trans {t u : PassState} (h : SameButNodes s t) (h' : SameButNodes t u) :
    SameButNodes s u := by
  obtain ⟨nodes, rfl⟩ := h
  obtain ⟨nodes', rfl⟩ := h'
  exact ⟨nodes', rfl⟩

namespace ModelPlacer

variable (p : ModelPlacer) (unit : PlaceUnit) {catalog : Catalog}

theorem spent_placeOrders (os : List Order) (hp : p.shapes = catalog p.ns p.modelID)
    (hids : (s.bs.chunks.map SharedPoolChunk.id).Nodup) :
    ∃ new, Spent catalog s.bs (p.placeOrders s os).1.bs new ∧
      (new.map BorrowDraw.variant).Sublist (os.map Order.variant) ∧
      ∀ n, (p.placeOrders s os).2 = some n → new.length = n.1 := by
  induction os generalizing s with
  | nil =>
    refine ⟨[], Spent.refl _, Sublist.refl _, ?_⟩
    intro n hn
    cases hn
    rfl
  | cons o os ih =>
    obtain ⟨first, hfirst, hvariant⟩ := p.spent_placeReplica o hp hids
    have hnext : ((p.placeReplica s o).1.bs.chunks.map SharedPoolChunk.id).Nodup := by
      rw [hfirst.ids]
      exact hids
    obtain ⟨rest, hrest, hsub, hlen⟩ := ih hnext
    unfold placeOrders
    split
    next s' heq =>
      rw [heq] at hfirst hvariant
      refine ⟨first, hfirst, ?_, fun n hn => by cases hn⟩
      rw [hvariant]
      exact nil_sublist _
    next s' heq =>
      rw [heq] at hfirst hvariant hrest hlen
      refine ⟨first ++ rest, hfirst.trans hrest, ?_, ?_⟩
      · rw [map_append, hvariant]
        exact hsub.cons _
      · intro n hn
        obtain ⟨m, hm, rfl⟩ := Option.map_eq_some_iff.mp hn
        have hnil : first = [] := map_eq_nil_iff.mp hvariant
        rw [hnil]
        exact hlen m hm
    next s' heq =>
      rw [heq] at hfirst hvariant hrest hlen
      refine ⟨first ++ rest, hfirst.trans hrest, ?_, ?_⟩
      · rw [map_append, hvariant]
        exact hsub.cons_cons _
      · intro n hn
        obtain ⟨m, hm, rfl⟩ := Option.map_eq_some_iff.mp hn
        have hone : first.length = 1 := by
          have hmap := congrArg List.length hvariant
          rw [length_map] at hmap
          exact hmap
        rw [length_append, hlen m hm, hone]
        exact Nat.add_comm _ _

/-- A unit that places, when it has several roles, draws for every replica or for none. -/
theorem spent_tryUnit (k : GoMap String ℕ) (hp : p.shapes = catalog p.ns p.modelID)
    (hids : (s.bs.chunks.map SharedPoolChunk.id).Nodup) :
    ∃ new, Spent catalog s.bs (p.tryUnit unit s k).1.bs new ∧
      ((p.tryUnit unit s k).2 = .placed → 1 < unit.picked.length →
        new = [] ∨ new.map BorrowDraw.variant = (p.orders unit k).map Order.variant) := by
  obtain ⟨new, hnew, hsub, hlen⟩ := p.spent_placeOrders (p.orders unit k) hp hids
  unfold tryUnit
  split
  next s' heq =>
    rw [heq] at hnew
    exact ⟨new, hnew, fun hplaced => by cases hplaced⟩
  next s' n heq =>
    have hcount := p.placeOrders_length heq
    rw [heq] at hnew hlen
    split_ifs with hstraddles
    · exact ⟨new, hnew, fun hplaced => by cases hplaced⟩
    · refine ⟨new, hnew, ?_⟩
      intro _ hroles
      have hn := hlen n rfl
      rcases Nat.eq_zero_or_pos n.1 with hzero | hpos
      · exact .inl (length_eq_zero_iff.mp (hn.trans hzero))
      · -- no replica was left on the guaranteed figure
        refine .inr (hsub.eq_of_length ?_)
        rw [length_map, length_map]
        omega

/-- A relation between the state before and the state after that a replica placed on the guaranteed
figure keeps to, and with it all that a unit leaves when it is not committed. -/
structure FillRel (R : BorrowState → BorrowState → Prop) : Prop where
  trans : ∀ {a b c}, R a b → R b c → R a c
  nodes : ∀ (bs : BorrowState) nodes, R bs { bs with nodes := nodes }
  guaranteed : ∀ s o, (p.placeReplica s o).2 = .guaranteed → R s.bs (p.placeReplica s o).1.bs

namespace FillRel

variable {p} {R : BorrowState → BorrowState → Prop} (h : p.FillRel R)

include h

theorem refl (bs : BorrowState) : R bs bs := h.nodes bs bs.nodes

theorem same {s t : PassState} (hsame : SameButNodes s t) : R s.bs t.bs := by
  obtain ⟨nodes, rfl⟩ := hsame
  exact h.nodes s.bs nodes

theorem fillRole (v : String) (todo n : ℕ) (s : PassState) :
    R s.bs (p.fillRole v todo n s).1.bs := by
  induction todo generalizing n s with
  | zero => exact h.refl _
  | succ todo ih =>
    unfold ModelPlacer.fillRole
    split_ifs with hholds hplaced
    · exact h.trans (h.guaranteed s _ hplaced) (ih (n + 1) _)
    · exact h.same (sameButNodes_restore (p.framed_placeReplica s _))
    · exact h.refl _

theorem fillGuaranteed (k : GoMap String ℕ) (roles : List String) (s : PassState) :
    R s.bs (p.fillGuaranteed unit k roles s).1.bs := by
  induction roles generalizing s with
  | nil => exact h.refl _
  | cons role roles ih =>
    have hfill := h.fillRole (unit.variantOf.get role) (k.get role) 0 s
    unfold ModelPlacer.fillGuaranteed
    split_ifs
    · exact h.trans hfill (ih _)
    · exact hfill
    · exact ih s

theorem rolledBack (u : UnitState) : R u.pass.bs (p.rolledBack unit u).1.bs := by
  have hrestored := h.same (sameButNodes_restore (p.framed_tryUnit unit u.pass u.counts))
  unfold ModelPlacer.rolledBack
  split_ifs
  · exact h.trans hrestored (h.fillGuaranteed unit u.counts unit.picked _)
  · exact hrestored

/-- The call returns from a state that trims alone led to. -/
theorem returns (s : PassState) (k : GoMap String ℕ) :
    ∃ u, R s.bs u.pass.bs ∧ p.unitBody unit u = .stop (p.placeUnit unit s k) := by
  refine p.placeUnit_returns unit (fun u u' hu hagain => ?_) (h.refl s.bs)
  have hpass := p.unitBody_pass unit u
  rw [hagain] at hpass
  cases hpass with
  | trimmed _ _ _ => exact h.trans hu (h.rolledBack unit u)

end FillRel

theorem fillRel_spent (hp : p.shapes = catalog p.ns p.modelID) :
    p.FillRel fun bs bs' =>
      (bs.chunks.map SharedPoolChunk.id).Nodup → Spent catalog bs bs' [] where
  trans hab hbc hids := (hab hids).trans (hbc ((hab hids).ids ▸ hids))
  nodes bs nodes _ := { Spent.refl bs with }
  guaranteed s o hplaced hids := by
    obtain ⟨new, hnew, hvariant⟩ := p.spent_placeReplica o hp hids
    rw [hplaced, if_neg (by decide)] at hvariant
    rwa [map_eq_nil_iff.mp hvariant] at hnew

/-- One call of `placeUnit`: it spends what the unit it commits drew, and a unit of several roles
drew for every replica or for none. -/
theorem spent_placeUnit (k : GoMap String ℕ) (hp : p.shapes = catalog p.ns p.modelID)
    (hids : (s.bs.chunks.map SharedPoolChunk.id).Nodup) :
    ∃ new, Spent catalog s.bs (p.placeUnit unit s k).pass.bs new ∧
      ((p.placeUnit unit s k).placed = true → 1 < unit.picked.length →
        new = [] ∨ new.map BorrowDraw.variant =
          (p.orders unit (p.placeUnit unit s k).counts).map Order.variant) := by
  have hfill := p.fillRel_spent hp
  obtain ⟨u, hu, hstop⟩ := hfill.returns unit s k
  have hu := hu hids
  have hnext := hids
  rw [← hu.ids] at hnext
  have hpass := p.unitBody_pass unit u
  rw [hstop] at hpass
  generalize p.placeUnit unit s k = result at hpass ⊢
  cases hpass with
  | placed hplaced =>
    obtain ⟨new, hnew, hwhole⟩ := p.spent_tryUnit unit u.counts hp hnext
    exact ⟨new, hu.trans hnew, fun _ => hwhole hplaced⟩
  | filled _ _ =>
    exact ⟨[], hu.trans (hfill.rolledBack unit u hnext), fun _ _ => .inl rfl⟩
  | refused _ _ =>
    exact ⟨[], hu.trans (hfill.rolledBack unit u hnext), fun _ _ => .inl rfl⟩

end ModelPlacer

end LlmScaler.Borrow
