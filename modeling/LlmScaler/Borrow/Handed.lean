import LlmScaler.Borrow.Pass

/-!
# The draws a pass hands to the record

A pass notes each replica that drew and each one that grew into nominal Kueue reclaims, with what of
it was re-placed on the variant's own entry in flight. The draws are folded into one per variant and
chunk, whose credits stay within its figures.
-/

namespace LlmScaler.Borrow

open LlmScaler.Core LlmScaler.Nodes List

namespace BorrowDraw

variable (d : BorrowDraw)

/-- The variant and chunk a draw is folded under. -/
def foldKey : String × String × String × String × String :=
  (d.ns, d.variant, d.cohort, d.flavor, d.resource)

/-- A draw with another of its variant and chunk folded in. -/
def fold (more : BorrowDraw) : BorrowDraw :=
  { d with
    gpus := d.gpus + more.gpus
    replicas := d.replicas + more.replicas
    creditGPUs := d.creditGPUs + more.creditGPUs
    creditReplicas := d.creditReplicas + more.creditReplicas
    target := max d.target more.target
    closesRestricted := d.closesRestricted || more.closesRestricted }

end BorrowDraw

/-- One draw folded into those before it. -/
def foldDraw (out : List BorrowDraw) (d : BorrowDraw) : List BorrowDraw :=
  match updateFirst (fun e : BorrowDraw =>
    if e.foldKey = d.foldKey then some ((), e.fold d) else none) out with
  | some r => r.2
  | none => out ++ [d]

/-- `drawsByVariant`: the pass's draws, one per variant and chunk. -/
def BorrowState.drawsByVariant (bs : BorrowState) : List BorrowDraw := bs.draws.foldl foldDraw []

/-- What a pass hands to the record: its draws folded, and its growth by reclaim. -/
def BorrowState.handed (bs : BorrowState) : List BorrowDraw := bs.drawsByVariant ++ bs.reclaims

/-- The credits of a draw are its own. -/
structure BorrowDraw.Credited (d : BorrowDraw) : Prop where
  gpus : d.creditGPUs ≤ d.gpus
  after : d.creditAfter ≤ d.after
  kept : d.creditKept ≤ d.kept
  /-- What is all on credit has all its replicas on credit. -/
  whole : d.creditGPUs = d.gpus → d.creditAfter = d.after → d.creditKept = d.kept →
    d.creditReplicas = d.replicas

/-- A draw on a chunk has no growth within nominal. -/
def BorrowDraw.Plain (d : BorrowDraw) : Prop :=
  d.after = 0 ∧ d.creditAfter = 0 ∧ d.kept = 0 ∧ d.creditKept = 0

theorem BorrowDraw.Plain.fold {d e : BorrowDraw} (hd : d.Plain) (hcd : d.Credited)
    (hce : e.Credited) (he : e.Plain) : (d.fold e).Credited ∧ (d.fold e).Plain := by
  obtain ⟨hafter, hcreditAfter, hkept, hcreditKept⟩ := hd
  obtain ⟨hafter', hcreditAfter', hkept', hcreditKept'⟩ := he
  have hgpus := hcd.gpus
  have hgpus' := hce.gpus
  refine ⟨⟨?_, hcd.after, hcd.kept, ?_⟩, hafter, hcreditAfter, hkept, hcreditKept⟩
  · exact add_le_add hgpus hgpus'
  · intro hwhole _ _
    change d.creditGPUs + e.creditGPUs = d.gpus + e.gpus at hwhole
    have hfirst := hcd.whole (by omega) (by omega) (by omega)
    have hsecond := hce.whole (by omega) (by omega) (by omega)
    change d.creditReplicas + e.creditReplicas = d.replicas + e.replicas
    omega

theorem credited_foldDraw {out : List BorrowDraw} {d : BorrowDraw}
    (hout : ∀ e ∈ out, e.Credited ∧ e.Plain) (hd : d.Credited ∧ d.Plain) :
    ∀ e ∈ foldDraw out d, e.Credited ∧ e.Plain := by
  unfold foldDraw
  split
  next r heq =>
    obtain ⟨before, a, a', after, rfl, hr, ha⟩ := updateFirst_eq_some heq
    rw [hr]
    intro e he
    rcases mem_append.mp he with he | he
    · exact hout e (mem_append_left _ he)
    · rcases mem_cons.mp he with rfl | he
      · have hmem := hout a (mem_append_right _ mem_cons_self)
        split_ifs at ha
        cases ha
        exact hmem.2.fold hmem.1 hd.1 hd.2
      · exact hout e (mem_append_right _ (mem_cons_of_mem a he))
  next =>
    intro e he
    rcases mem_append.mp he with he | he
    · exact hout e he
    · rw [mem_singleton.mp he]
      exact hd

theorem credited_drawsByVariant {bs : BorrowState} (h : ∀ d ∈ bs.draws, d.Credited ∧ d.Plain) :
    ∀ d ∈ bs.drawsByVariant, d.Credited := by
  have hfold : ∀ e ∈ bs.drawsByVariant, e.Credited ∧ e.Plain :=
    foldlRecOn (motive := fun out => ∀ e ∈ out, e.Credited ∧ e.Plain) bs.draws foldDraw
      (by simp) fun out hout d hd => credited_foldDraw hout (h d hd)
  exact fun d hd => (hfold d hd).1

/-- A relation between the state before and the state after that each replica keeps to, and with it
every step of a pass. -/
structure StepRel (R : BorrowState → BorrowState → Prop) : Prop where
  trans : ∀ {a b c}, R a b → R b c → R a c
  nodes : ∀ (bs : BorrowState) nodes, R bs { bs with nodes := nodes }
  debitPool : ∀ (bs : BorrowState) ns acc n, R bs (bs.debitPool ns acc n)
  replica : ∀ (p : ModelPlacer) s o, R s.bs (p.placeReplica s o).1.bs

namespace StepRel

variable {R : BorrowState → BorrowState → Prop} (h : StepRel R) (p : ModelPlacer)
  (unit : PlaceUnit)

include h

theorem refl (bs : BorrowState) : R bs bs := h.nodes bs bs.nodes

theorem fillRel : p.FillRel R := ⟨h.trans, h.nodes, fun s o _ => h.replica p s o⟩

theorem placeOrders (s : PassState) (os : List Order) : R s.bs (p.placeOrders s os).1.bs :=
  p.rel_placeOrders h.refl h.trans (h.replica p) s os

theorem tryUnit (s : PassState) (k : GoMap String ℕ) : R s.bs (p.tryUnit unit s k).1.bs := by
  rw [p.tryUnit_fst]
  exact h.placeOrders p s _

theorem placeUnit (s : PassState) (k : GoMap String ℕ) : R s.bs (p.placeUnit unit s k).pass.bs := by
  obtain ⟨u, hu, hstop⟩ := (h.fillRel p).returns unit s k
  have hpass := p.unitBody_pass unit u
  rw [hstop] at hpass
  generalize p.placeUnit unit s k = result at hpass ⊢
  cases hpass with
  | placed _ => exact h.trans hu (h.tryUnit p unit u.pass u.counts)
  | filled _ _ => exact h.trans hu ((h.fillRel p).rolledBack unit u)
  | refused _ _ => exact h.trans hu ((h.fillRel p).rolledBack unit u)

theorem pass (catalog : Catalog) (bs : BorrowState) (ops : List PassOp) :
    R bs (runFrom (passNext catalog) bs ops) := by
  refine foldlRecOn (motive := R bs) _ _ (h.refl bs) fun bs hbs op _ => h.trans hbs ?_
  cases op with
  | placeUnit v guaranteed unit k => exact h.placeUnit (v.placer catalog) unit ⟨bs, guaranteed⟩ k
  | debitPool ns acc n => exact h.debitPool bs ns acc n
  | nodes view => exact h.nodes bs view

end StepRel

/-- The draws and reclaims noted from one state to another, their credits their own. -/
def Noted (bs bs' : BorrowState) : Prop :=
  ∃ draws reclaims, bs'.draws = bs.draws ++ draws ∧ bs'.reclaims = bs.reclaims ++ reclaims ∧
    (∀ d ∈ draws, d.Credited ∧ d.Plain) ∧ ∀ d ∈ reclaims, d.Credited

theorem Noted.of_same {bs bs' : BorrowState} (hdraws : bs'.draws = bs.draws)
    (hreclaims : bs'.reclaims = bs.reclaims) : Noted bs bs' :=
  ⟨[], [], by rw [hdraws, append_nil], by rw [hreclaims, append_nil], by simp, by simp⟩

theorem Noted.trans {a b c : BorrowState} (h : Noted a b) (h' : Noted b c) : Noted a c := by
  obtain ⟨draws, reclaims, hdraws, hreclaims, hd, hr⟩ := h
  obtain ⟨draws', reclaims', hdraws', hreclaims', hd', hr'⟩ := h'
  refine ⟨draws ++ draws', reclaims ++ reclaims', ?_, ?_, ?_, ?_⟩
  · rw [hdraws', hdraws, append_assoc]
  · rw [hreclaims', hreclaims, append_assoc]
  · exact forall_mem_append.mpr ⟨hd, hd'⟩
  · exact forall_mem_append.mpr ⟨hr, hr'⟩

theorem noted_setLeft (bs : BorrowState) (ns : String) (ref : BorrowState.LeftRef)
    (f : NsBorrowLeft → NsBorrowLeft) : Noted bs (bs.setLeft ns ref f) := by
  cases ref with
  | counted k => exact .of_same rfl rfl
  | nominal k => exact .of_same rfl rfl

theorem noted_coGuaranteed (bs : BorrowState) (ns acc : String) (counted : Option String)
    (requests : GoMap String Int) (reclaim : Bool) :
    Noted bs (bs.coGuaranteed ns acc counted requests reclaim).1 := by
  rcases coGuaranteed_cases bs ns acc counted requests reclaim with
    h | ⟨ref, h | ⟨r, kept, h, -⟩⟩ <;> rw [h]
  · exact .of_same rfl rfl
  · exact noted_setLeft bs ns ref _
  · exact (noted_setLeft bs ns ref _).trans (.of_same rfl rfl)

namespace ModelPlacer

variable (p : ModelPlacer)

/-- A replica grown into nominal is credited what it re-placed of its variant's own growth. -/
theorem credited_reclaimDraw (bs : BorrowState) (o : Order) (took own : Reclaim)
    (hhole : took.needsHole = false) (onNode : Bool) :
    (p.reclaimDraw bs o took (took.atMost own) onNode).Credited where
  gpus := min_le_left _ _
  after := min_le_left _ _
  kept := min_le_left _ _
  whole := by
    intro hgpus hafter hkept
    have hsame : took.atMost own = took := by
      obtain ⟨after, kept, gpus, hole⟩ := took
      cases hhole
      change min gpus own.gpus = gpus at hgpus
      change min after own.after = after at hafter
      change min kept own.kept = kept at hkept
      simp only [Reclaim.atMost, hgpus, hafter, hkept]
    change (if took.atMost own = took then (1 : Int) else 0) = 1
    rw [if_pos hsame]

theorem noted_growInto (bs : BorrowState) (ref : BorrowState.LeftRef) (o : Order)
    (took own : Reclaim) (hhole : took.needsHole = false) (onNode : Bool) :
    Noted bs (p.growInto bs ref o took (took.atMost own) onNode) := by
  have hleft := noted_setLeft bs p.ns ref (lessFresh (took.sub (took.atMost own)))
  unfold growInto
  dsimp only
  split_ifs
  · apply hleft.trans
    refine ⟨[], [p.reclaimDraw bs o took (took.atMost own) onNode], (append_nil _).symm, rfl,
      by simp, ?_⟩
    exact forall_mem_singleton.mpr (p.credited_reclaimDraw bs o took own hhole onNode)
  · exact hleft.trans (.of_same rfl rfl)

theorem noted_commitGuaranteed (s : PassState) (bs : BorrowState) (o : Order)
    (nodes : Option NodeView) (onNode : Bool) :
    Noted bs (p.commitGuaranteed s bs o nodes onNode).bs := by
  unfold commitGuaranteed
  dsimp only
  split
  · exact Noted.trans (.of_same rfl rfl) (p.noted_growInto _ _ o _ _ rfl onNode)
  · exact .of_same rfl rfl

theorem noted_commitDraw {s : PassState} {o : Order} {k : String} {need : ℕ} {d : Drawn}
    {chunks : List SharedPoolChunk} (hneed : 0 < need) (hown : d.fromOwn ≤ need) :
    Noted s.bs (p.commitDraw s o k need d chunks).bs := by
  refine ⟨[p.drawOf o need d], [], rfl, (append_nil _).symm, ?_, by simp⟩
  refine forall_mem_singleton.mpr ⟨⟨?_, le_refl _, le_refl _, ?_⟩, rfl, rfl, rfl, rfl⟩
  · change (if 0 < d.fromOwn then d.fromOwn else 0) ≤ (need : Int)
    split_ifs
    · exact hown
    · exact Int.natCast_nonneg need
  · intro hwhole _ _
    change (if 0 < d.fromOwn then d.fromOwn else 0) = (need : Int) at hwhole
    change (if 0 < d.fromOwn then (1 : Int) else 0) = 1
    split_ifs at hwhole ⊢
    · rfl
    · omega

theorem noted_placeReplica (s : PassState) (o : Order) :
    Noted s.bs (p.placeReplica s o).1.bs := by
  unfold placeReplica
  by_cases hfits : ((p.shapes o.variant).gpus : ℕ∞) ≤
      guaranteedLeft s.guaranteed (p.shapes o.variant).accelerator
  · rw [if_pos hfits]
    have hco : Noted s.bs (p.coSpent s o) := noted_coGuaranteed ..
    rcases p.placeGuaranteed_cases s o with h | h
    · rw [h]
      exact hco
    · rw [h]
      exact hco.trans (p.noted_commitGuaranteed s _ o _ _)
  · rw [if_neg hfits]
    rcases p.placeBorrowed_cases s o with h | ⟨k, d, chunks, _, _, hdrawn, h⟩
    · rw [h]
      exact .of_same rfl rfl
    · rw [h]
      obtain ⟨_, c, c', _, _, _, hc⟩ := updateFirst_eq_some hdrawn
      obtain ⟨_, _, _, hown, _, _, _⟩ := p.drawOn_eq_some hc
      obtain ⟨left, _, hlt, hpast⟩ := p.past_eq hfits
      exact p.noted_commitDraw (by omega) (hown.trans_le (min_le_right _ _))

end ModelPlacer

theorem stepRel_noted : StepRel Noted where
  trans := Noted.trans
  nodes := fun _ _ => .of_same rfl rfl
  debitPool := fun _ _ _ _ => .of_same rfl rfl
  replica := fun p s o => p.noted_placeReplica s o

theorem credited_handed (catalog : Catalog) {start : BorrowState} (hdraws : start.draws = [])
    (hreclaims : start.reclaims = []) (ops : List PassOp) :
    ∀ d ∈ (runFrom (passNext catalog) start ops).handed, d.Credited := by
  obtain ⟨draws, reclaims, hd, hr, hcredited, hcredited'⟩ := stepRel_noted.pass catalog start ops
  rw [hdraws, nil_append] at hd
  rw [hreclaims, nil_append] at hr
  refine forall_mem_append.mpr ⟨credited_drawsByVariant ?_, ?_⟩
  · rw [hd]
    exact hcredited
  · rw [hr]
    exact hcredited'

end LlmScaler.Borrow
