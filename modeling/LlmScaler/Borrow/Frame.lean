import LlmScaler.Borrow.Placement
import LlmScaler.Nodes.Debits

/-!
# What a placement leaves alone

Placing a replica keeps the keys of the allowances, every chunk up to the three figures that are
saved, the snapshot of the node view, and whatever was recorded before it. That frame is all a
rollback needs: restored to what was saved, the state is the one saved, up to the node view's
topology domains.
-/

namespace LlmScaler.Borrow

open LlmScaler.Core LlmScaler.Nodes LlmScaler.Accelerator LlmScaler.Budget List GoMap

/-- The same chunk up to the figures a pass changes. -/
def SameChunk (c c' : SharedPoolChunk) : Prop :=
  c' = { c with free := c'.free, restrictedClosed := c'.restrictedClosed, coFree := c'.coFree }

/-- What a placement keeps of a view: all but the debits, their owners and the domains taken. -/
def viewFixed (v : NodeView) : List NodeSlot × String × Time := (v.slots, v.owner, v.takenAt)

structure SameKeys (m m' : GoMap String (GoMap String NsBorrowLeft)) : Prop where
  outer : m'.keys = m.keys
  inner : ∀ ns, (m'.get ns).keys = (m.get ns).keys

/-- The later state is the earlier one up to the figures a placement changes and what it records. -/
structure Framed (bs bs' : BorrowState) : Prop where
  borrow : SameKeys bs.borrow bs'.borrow
  ownFlavors : bs'.ownFlavors = bs.ownFlavors
  lent : SameKeys bs.lent bs'.lent
  chunks : Forall₂ SameChunk bs.chunks bs'.chunks
  cohorts : bs'.cohorts = bs.cohorts
  nodes : bs'.nodes.map viewFixed = bs.nodes.map viewFixed
  draws : bs.draws <+: bs'.draws
  flavors : bs.flavors <+: bs'.flavors
  reclaims : bs.reclaims <+: bs'.reclaims
  blocked : bs'.blocked = bs.blocked
  blockedIn : bs'.blockedIn = bs.blockedIn
  reclaimBlocked : bs'.reclaimBlocked = bs.reclaimBlocked
  heldPast : bs'.heldPast = bs.heldPast

section Relations

variable {c c' c'' : SharedPoolChunk} {m m' m'' : GoMap String (GoMap String NsBorrowLeft)}

theorem SameChunk.refl (c : SharedPoolChunk) : SameChunk c c := rfl

theorem SameChunk.trans (h : SameChunk c c') (h' : SameChunk c' c'') : SameChunk c c'' := by
  unfold SameChunk at h h' ⊢
  rw [h'] at ⊢
  rw [h]

theorem sameChunks_refl (cs : List SharedPoolChunk) : Forall₂ SameChunk cs cs :=
  forall₂_same.mpr fun c _ => SameChunk.refl c

theorem SameKeys.refl (m : GoMap String (GoMap String NsBorrowLeft)) : SameKeys m m :=
  ⟨rfl, fun _ => rfl⟩

theorem SameKeys.trans (h : SameKeys m m') (h' : SameKeys m' m'') : SameKeys m m'' :=
  ⟨h'.outer.trans h.outer, fun ns => (h'.inner ns).trans (h.inner ns)⟩

theorem sameKeys_rewrite (m : GoMap String (GoMap String NsBorrowLeft)) (ns k : String)
    (f : NsBorrowLeft → NsBorrowLeft) :
    SameKeys m (m.rewrite ns fun perType => perType.rewrite k f) := by
  constructor
  · exact keys_rewrite _ _ _
  · intro ns'
    rw [get_rewrite]
    split_ifs
    · exact keys_rewrite _ _ _
    · rfl

end Relations

namespace Framed

variable {bs bs' bs'' : BorrowState}

theorem refl (bs : BorrowState) : Framed bs bs :=
  ⟨.refl _, rfl, .refl _, sameChunks_refl _, rfl, rfl, prefix_rfl, prefix_rfl,
    prefix_rfl, rfl, rfl, rfl, rfl⟩

theorem trans (h : Framed bs bs') (h' : Framed bs' bs'') : Framed bs bs'' where
  borrow := h.borrow.trans h'.borrow
  ownFlavors := h'.ownFlavors.trans h.ownFlavors
  lent := h.lent.trans h'.lent
  chunks := by
    refine forall₂_comp ?_ h.chunks h'.chunks
    intro a b c
    exact SameChunk.trans
  cohorts := h'.cohorts.trans h.cohorts
  nodes := h'.nodes.trans h.nodes
  draws := h.draws.trans h'.draws
  flavors := h.flavors.trans h'.flavors
  reclaims := h.reclaims.trans h'.reclaims
  blocked := h'.blocked.trans h.blocked
  blockedIn := h'.blockedIn.trans h.blockedIn
  reclaimBlocked := h'.reclaimBlocked.trans h.reclaimBlocked
  heldPast := h'.heldPast.trans h.heldPast

end Framed

theorem restoreLeft_eq {m saved : GoMap String (GoMap String NsBorrowLeft)}
    (h : SameKeys saved m) : restoreLeft m saved = saved := by
  have hkeys : (restoreLeft m saved).keys = saved.keys := (keys_mapValues m _).trans h.outer
  apply ext_keys hkeys
  intro ns hns
  rw [hkeys, ← h.outer] at hns
  obtain ⟨perType, hfound⟩ := GoMap.mem_keys.mp hns
  have hrestored : (restoreLeft m saved).find? ns = some (perType.writeBack (saved.get ns)) := by
    rw [restoreLeft, find?_mapValues, hfound]
    rfl
  have hinner := h.inner ns
  rw [get_of_find? hfound] at hinner
  rw [get_of_find? hrestored, writeBack_eq hinner]

theorem restoreChunks_eq {cs cs' : List SharedPoolChunk} (h : Forall₂ SameChunk cs cs') :
    List.zipWith PassState.restoreChunk cs'
      (cs.map fun c => ⟨c.free, c.restrictedClosed, c.coFree⟩) = cs := by
  induction h with
  | nil => rfl
  | cons hc _ ih =>
    rw [map_cons, zipWith_cons_cons, ih, hc]
    rfl

theorem restore_save_bs {s s' : PassState} (h : Framed s.bs s'.bs) :
    (s'.restore s.save).bs = { s.bs with
      nodes := PassState.restoreNodes s'.bs.nodes (s.bs.nodes.map NodeView.saveDebits) } := by
  apply BorrowState.ext
  · exact restoreLeft_eq h.borrow
  · exact h.ownFlavors
  · exact restoreLeft_eq h.lent
  · exact restoreChunks_eq h.chunks
  · exact h.cohorts
  · rfl
  · exact (prefix_iff_eq_take.mp h.draws).symm
  · rfl
  · rfl
  · exact (prefix_iff_eq_take.mp h.flavors).symm
  · exact (prefix_iff_eq_take.mp h.reclaims).symm
  · exact h.blocked
  · exact h.blockedIn
  · exact h.reclaimBlocked
  · exact h.heldPast

theorem restoreNodes_eq {nodes nodes' : Option NodeView}
    (hfixed : nodes'.map viewFixed = nodes.map viewFixed)
    (hdomains : nodes'.map NodeView.domains = nodes.map NodeView.domains) :
    PassState.restoreNodes nodes' (nodes.map NodeView.saveDebits) = nodes := by
  cases nodes with
  | none =>
    cases nodes' with
    | none => rfl
    | some v' => cases hfixed
  | some v =>
    cases nodes' with
    | none => cases hfixed
    | some v' =>
      obtain ⟨slots, debit, owner, owned, takenAt, domains⟩ := v
      obtain ⟨slots', debit', owner', owned', takenAt', domains'⟩ := v'
      cases hfixed
      cases hdomains
      rfl

theorem restore_save {s s' : PassState} (h : Framed s.bs s'.bs)
    (hdomains : s'.bs.nodes.map NodeView.domains = s.bs.nodes.map NodeView.domains) :
    s'.restore s.save = s := by
  have hbs := restore_save_bs h
  rw [restoreNodes_eq h.nodes hdomains] at hbs
  obtain ⟨bs, guaranteed⟩ := s
  exact congrArg (fun b => PassState.mk b guaranteed) hbs

theorem viewFixed_place (v : NodeView) (r : ReplicaFit) : viewFixed (v.place r).1 = viewFixed v := by
  have hstep := NodeView.place_step (v := v) r
  generalize (v.place r).1 = w at hstep
  unfold viewFixed
  cases hstep with
  | unchanged => rfl
  | charged _ => simp
  | inDomain _ _ _ => simp [NodeView.takeDomain]

theorem viewFixed_placeOn (nodes : Option NodeView) (r : ReplicaFit) :
    (placeOn nodes r).1.map viewFixed = nodes.map viewFixed := by
  cases nodes with
  | none => rfl
  | some v => exact congrArg some (viewFixed_place v r)

section Updates

variable {bs bs' : BorrowState}

theorem framed_setLeft (bs : BorrowState) (ns : String) (ref : BorrowState.LeftRef)
    (f : NsBorrowLeft → NsBorrowLeft) : Framed bs (bs.setLeft ns ref f) := by
  cases ref with
  | counted k => exact { Framed.refl bs with borrow := sameKeys_rewrite _ _ _ _ }
  | nominal k => exact { Framed.refl bs with lent := sameKeys_rewrite _ _ _ _ }

theorem framed_chunks {cs : List SharedPoolChunk} (h : Forall₂ SameChunk bs.chunks cs) :
    Framed bs { bs with chunks := cs } :=
  { Framed.refl bs with chunks := h }

theorem forall₂_debitChunks {R : SharedPoolChunk → SharedPoolChunk → Prop} (hrefl : ∀ c, R c c)
    (hdebit : ∀ c (n : Int), 0 < n → R c { c with free := c.free - min c.free n })
    (test : SharedPoolChunk → Bool) (n : Int) (cs : List SharedPoolChunk) :
    Forall₂ R cs (BorrowState.debitChunks test n cs) := by
  induction cs generalizing n with
  | nil => exact .nil
  | cons c cs ih =>
    unfold BorrowState.debitChunks
    split_ifs with htest hn
    · exact forall₂_same.mpr fun c _ => hrefl c
    · exact .cons (hdebit c n (not_le.mp hn)) (ih _)
    · exact .cons (hrefl c) (ih n)

theorem framed_debitPool (ns acc : String) (n : Int) : Framed bs (bs.debitPool ns acc n) :=
  framed_chunks (forall₂_debitChunks SameChunk.refl (fun _ _ _ => rfl) _ n bs.chunks)

@[simp] theorem chunks_setLeft (ns : String) (ref : BorrowState.LeftRef)
    (f : NsBorrowLeft → NsBorrowLeft) : (bs.setLeft ns ref f).chunks = bs.chunks := by
  cases ref with
  | counted k => rfl
  | nominal k => rfl

/-- Fitting the co-resources does nothing, or spends what an allowance has of them, and maybe what a
chunk it fits has. -/
theorem coGuaranteed_cases (bs : BorrowState) (ns acc : String) (counted : Option String)
    (requests : GoMap String Int) (reclaim : Bool) :
    let out := (bs.coGuaranteed ns acc counted requests reclaim).1
    out = bs ∨ ∃ ref, out = bs.setLeft ns ref (·.spendCo requests) ∨
      ∃ r kept, out = { bs.setLeft ns ref (·.spendCo requests) with chunks := r.2 } ∧
        updateFirst (fun c => if bs.isCohortChunk ns acc c && !c.coFree.keys.isEmpty &&
          coFitsKept c.coFree kept requests then some ((), c.spendCo kept requests) else none)
            bs.chunks = some r := by
  unfold BorrowState.coGuaranteed
  cases counted with
  | none =>
    cases findKey (bs.lent.get ns) acc with
    | none => exact .inl rfl
    | some k =>
      dsimp only
      split_ifs
      · exact .inl rfl
      · exact .inr ⟨.nominal k, .inl rfl⟩
      · exact .inl rfl
  | some k =>
    dsimp only
    split_ifs
    · exact .inr ⟨.counted k, .inl rfl⟩
    · split
      next r hr => exact .inr ⟨.counted k, .inr ⟨r, _, rfl, hr⟩⟩
      next => exact .inl rfl
    · exact .inl rfl

theorem framed_coGuaranteed (bs : BorrowState) (ns acc : String) (counted : Option String)
    (requests : GoMap String Int) (reclaim : Bool) :
    Framed bs (bs.coGuaranteed ns acc counted requests reclaim).1 := by
  rcases coGuaranteed_cases bs ns acc counted requests reclaim with
    h | ⟨ref, h | ⟨r, kept, h, hr⟩⟩ <;> rw [h]
  · exact Framed.refl bs
  · exact framed_setLeft bs ns ref _
  · apply (framed_setLeft bs ns ref _).trans
    apply framed_chunks
    rw [chunks_setLeft]
    refine forall₂_updateFirst SameChunk.refl ?_ hr
    intro c _ c' hc
    split_ifs at hc
    cases hc
    rfl

end Updates

namespace ModelPlacer

variable (p : ModelPlacer)

theorem framed_growInto (bs : BorrowState) (ref : BorrowState.LeftRef) (o : Order)
    (took fromOwn : Reclaim) (onNode : Bool) :
    Framed bs (p.growInto bs ref o took fromOwn onNode) := by
  have hdebited : Framed bs (({ bs.setLeft p.ns ref (lessFresh (took.sub fromOwn)) with
      reclaimCredit := lessOwn bs (p.variantKey o.variant) (p.shapes o.variant).accelerator
        fromOwn }).debitPool p.ns (p.shapes o.variant).accelerator
          (took.pool - fromOwn.pool + took.gpus)) := by
    refine Framed.trans ?_ (framed_debitPool _ _ _)
    exact { framed_setLeft bs p.ns ref (lessFresh (took.sub fromOwn)) with }
  unfold growInto
  dsimp only
  split_ifs
  · exact { hdebited with reclaims := hdebited.reclaims.trans (prefix_append _ _) }
  · exact hdebited

theorem framed_commitGuaranteed (s : PassState) (bs : BorrowState) (o : Order)
    {nodes : Option NodeView} (hnodes : nodes.map viewFixed = bs.nodes.map viewFixed)
    (onNode : Bool) : Framed bs (p.commitGuaranteed s bs o nodes onNode).bs := by
  have hplaced : ∀ flavors, bs.flavors <+: flavors →
      Framed bs { bs with nodes := nodes, flavors := flavors } :=
    fun _ hflavors => { Framed.refl bs with nodes := hnodes, flavors := hflavors }
  unfold commitGuaranteed
  dsimp only
  split
  case' h_1 => refine (hplaced _ ?_).trans (p.framed_growInto _ _ _ _ _ _)
  case' h_2 => refine hplaced _ ?_
  all_goals
    split
    · split_ifs
      · exact prefix_append _ _
      · exact prefix_rfl
    · exact prefix_rfl

/-- The state once a replica within the guaranteed figure has spent its co-resources. -/
abbrev coSpent (s : PassState) (o : Order) : BorrowState :=
  (s.bs.coGuaranteed p.ns (p.shapes o.variant).accelerator
    (p.borrowKey s.bs (p.shapes o.variant).accelerator) (p.shapes o.variant).replicaRequests
    (p.reclaims s.bs o.variant)).1

/-- A replica within the guaranteed figure is refused, its co-resources maybe spent, or commits. -/
theorem placeGuaranteed_cases (s : PassState) (o : Order) :
    let bs := p.coSpent s o
    let placed := placeOn bs.nodes (p.onQueueFlavor bs o.variant)
    p.placeGuaranteed s o = ({ s with bs := bs }, .refused) ∨
      p.placeGuaranteed s o = (p.commitGuaranteed s bs o placed.1 placed.2, .guaranteed) := by
  intro bs placed
  unfold placeGuaranteed
  dsimp only
  split_ifs
  · exact .inr rfl
  · exact .inl rfl
  · exact .inl rfl

theorem framed_placeGuaranteed (s : PassState) (o : Order) :
    Framed s.bs (p.placeGuaranteed s o).1.bs := by
  have hco : Framed s.bs (p.coSpent s o) := framed_coGuaranteed ..
  rcases p.placeGuaranteed_cases s o with h | h
  · rw [h]
    exact hco
  · rw [h]
    exact hco.trans (p.framed_commitGuaranteed s _ o (viewFixed_placeOn _ _) _)

theorem drawOn_eq_some {bs : BorrowState} {o : Order} {b : NsBorrowLeft} {need : ℕ}
    {c c' : SharedPoolChunk} {d : Drawn} (h : p.drawOn bs o b need c = some (d, c')) :
    bs.isCohortChunk p.ns (p.shapes o.variant).accelerator c = true ∧
    need ≤ c.drawable (p.shapes o.variant).priorityClass b.priority + p.ownDraw bs o.variant c ∧
    coFitsKept c.coFree b.coKept (p.shapes o.variant).replicaRequests = true ∧
    d.fromOwn = min (p.ownDraw bs o.variant c) need ∧ d.chunk = c ∧
    d.nodes = (placeOn bs.nodes
      { p.replica bs o.variant with flavor := some c.toFlavorPlacement }).1 ∧
    c' = { c.spendCo b.coKept (p.shapes o.variant).replicaRequests with
      free := c.free - (need - d.fromOwn)
      restrictedClosed := c'.restrictedClosed } := by
  unfold drawOn at h
  dsimp only at h
  split_ifs at h with hguard
  cases h
  simp only [Bool.and_eq_true, decide_eq_true_eq] at hguard
  obtain ⟨⟨⟨⟨⟨hcohort, _⟩, hneed⟩, hco⟩, _⟩, _⟩ := hguard
  exact ⟨hcohort, hneed, hco, rfl, rfl, rfl, rfl⟩

/-- A replica past the guaranteed figure is refused, or draws on a chunk within the cap. -/
theorem placeBorrowed_cases (s : PassState) (o : Order) :
    p.placeBorrowed s o = (s, .refused) ∨
      ∃ k d chunks, p.borrowKey s.bs (p.shapes o.variant).accelerator = some k ∧
        p.past s o.variant ≤ (s.bs.left p.ns (.counted k)).cap ∧
        updateFirst (p.drawOn s.bs o (s.bs.left p.ns (.counted k)) (p.past s o.variant))
          s.bs.chunks = some (d, chunks) ∧
        p.placeBorrowed s o = (p.commitDraw s o k (p.past s o.variant) d chunks, .drew) := by
  unfold placeBorrowed
  cases hk : p.borrowKey s.bs (p.shapes o.variant).accelerator with
  | none => exact .inl rfl
  | some k =>
    dsimp only
    split_ifs with hblocked hcap
    · exact .inl rfl
    · exact .inl rfl
    · cases hdrawn : updateFirst
        (p.drawOn s.bs o (s.bs.left p.ns (.counted k)) (p.past s o.variant)) s.bs.chunks with
      | none => exact .inl rfl
      | some r => exact .inr ⟨k, r.1, r.2, rfl, not_lt.mp hcap, hdrawn, rfl⟩

theorem past_eq {s : PassState} {v : String} (h : ¬ ((p.shapes v).gpus : ℕ∞) ≤
      guaranteedLeft s.guaranteed (p.shapes v).accelerator) :
    ∃ left : ℕ, guaranteedLeft s.guaranteed (p.shapes v).accelerator = left ∧
      left < (p.shapes v).gpus ∧ p.past s v = (p.shapes v).gpus - left := by
  obtain ⟨left, hleft⟩ := ENat.ne_top_iff_exists.mp (ne_top_of_lt (not_le.mp h))
  refine ⟨left, hleft.symm, ?_, ?_⟩
  · rw [← hleft] at h
    exact Nat.cast_lt.mp (not_le.mp h)
  · unfold past
    rw [← hleft]
    rfl

theorem framed_placeBorrowed (s : PassState) (o : Order) :
    Framed s.bs (p.placeBorrowed s o).1.bs := by
  rcases p.placeBorrowed_cases s o with h | ⟨k, d, chunks, _, _, hdrawn, h⟩
  · rw [h]
    exact Framed.refl _
  · obtain ⟨_, c, c', _, _, _, hc⟩ := updateFirst_eq_some hdrawn
    obtain ⟨_, _, _, _, _, hnodes, _⟩ := p.drawOn_eq_some hc
    rw [h]
    refine { framed_setLeft s.bs p.ns (.counted k)
      (lessDraw (p.shapes o.variant).replicaRequests (p.past s o.variant)) with
        chunks := ?_, nodes := ?_, draws := ?_, flavors := ?_ }
    · refine forall₂_updateFirst SameChunk.refl ?_ hdrawn
      intro c d c' hc
      obtain ⟨_, _, _, _, _, _, hc'⟩ := p.drawOn_eq_some hc
      rw [hc']
      rfl
    · change d.nodes.map viewFixed = _
      rw [hnodes]
      exact viewFixed_placeOn _ _
    · exact prefix_append _ _
    · exact prefix_append _ _

theorem framed_placeReplica (s : PassState) (o : Order) :
    Framed s.bs (p.placeReplica s o).1.bs := by
  unfold placeReplica
  split_ifs
  · exact p.framed_placeGuaranteed s o
  · exact p.framed_placeBorrowed s o

end ModelPlacer

end LlmScaler.Borrow
