import LlmScaler.Ledger.Funding

/-!
# What is committed over a run

The planner starts a donor set in one go, its primary, its contributors and the link, and a restart
restores the marks it finds in one go. With these as single actions beside the ledger's other
operations, every state a run reaches is funded.
-/

namespace LlmScaler.Ledger

open LlmScaler.Core
open List hiding set

/-- One donor replica of a set, and the random suffix its transfer's identifier gets. -/
structure ShareDonor where
  role : String
  gpus : Nat
  salt : String

/-- The identifiers of transfers started one after another. -/
def issuedFrom (incarnation : String) : Nat → List String → List String
  | _, [] => []
  | n, salt :: salts => issuedID incarnation .transfer (n + 1) salt ::
    issuedFrom incarnation (n + 1) salts

namespace ShareLedger

variable (l : ShareLedger)

/-- The transfer that carries a set's receiver. -/
def setPrimary (rc variant : String) (grow : Nat) (urgent : Bool) (setID : String)
    (d : ShareDonor) : ShareTransfer :=
  { donor := d.role, receiver := rc, receiverVariant := variant, gpus := max grow 1
    donorGPUs := d.gpus, setID, urgent }

/-- The transfer of a further donor replica of a set. -/
def setContributor (d : ShareDonor) : ShareTransfer :=
  { donor := d.role, donorGPUs := d.gpus, setID := "pending" }

/-- The operations that start a donor set's transfers, linked. -/
def startShareSet (rc variant : String) (grow : Nat) (urgent : Bool) (held : Held) (now : Int)
    (tm : ShareTimings) : List ShareDonor → List LedgerOp
  | [] => []
  -- a single donor replica is an ordinary transfer
  | [d] => [.start (setPrimary rc variant grow urgent "" d) d.salt held now tm]
  | d :: ds =>
    .start (setPrimary rc variant grow urgent "pending" d) d.salt held now tm ::
      ds.map (fun c => .start (setContributor c) c.salt held now tm) ++
      [.linkSet (issuedID l.incarnation .transfer (l.nextID + 1) d.salt)
        (issuedFrom l.incarnation (l.nextID + 1) (ds.map (·.salt)))]

def markedMembers (marks : List ShareTransfer) (set : String) : List String :=
  (marks.filter fun m => m.isContributor = true ∧ m.setID = set).map (·.id)

/-- The operations that restore the marks found after a restart, sets linked. -/
def restoreMarks (marks : List ShareTransfer) (committed : Held) : List LedgerOp :=
  marks.map (fun m => .restore m (committed.get m.donor)) ++
    ((marks.filter (·.isContributor)).map (·.setID)).dedup.map fun set =>
      .linkSet set (markedMembers marks set)

end ShareLedger

/-- What the planner and the actuator do to the ledger, each taken as a whole. -/
inductive ShareAction where
  | startShareSet (rc variant : String) (grow : Nat) (urgent : Bool) (set : List ShareDonor)
      (held : Held) (now : Int) (tm : ShareTimings)
  | restoreMarks (marks : List ShareTransfer) (committed : Held)
  | op (o : LedgerOp)

def ShareAction.ops (l : ShareLedger) : ShareAction → List LedgerOp
  | .startShareSet rc variant grow urgent set held now tm =>
    l.startShareSet rc variant grow urgent held now tm set
  | .restoreMarks marks committed => ShareLedger.restoreMarks marks committed
  | .op o => [o]

namespace History

def act (h : History) (a : ShareAction) : History := runFrom History.next h (a.ops h.ledger)

/-- Restored marks give at least their receivers' GPUs, set by set, and sets are complete. -/
def MarksFunded (h : History) (marks : List ShareTransfer) : Prop :=
  (marks.map (·.id)).Nodup ∧ ∀ m ∈ marks, h.restorable m ∧ m.setPending = 0 ∧
    (m.receiver = "" → m.gpus = 0) ∧
    (m.isContributor = true → m.receiver = "" ∧ ∃ p ∈ marks, p.isSetPrimary = true ∧ p.id = m.setID) ∧
    (m.isSetPrimary = true → m.gpus ≤ m.donorGPUs +
      gives (marks.filter fun c => c.isContributor = true ∧ c.setID = m.id))

instance (h : History) (marks : List ShareTransfer) : Decidable (h.MarksFunded marks) :=
  inferInstanceAs (Decidable (_ ∧ _))

/-- What started and restored transfers and sets have to meet: they give at least what their
receiver takes, and without a receiver nothing is taken. -/
def FundGuard (h : History) : ShareAction → Prop
  | .startShareSet rc _ grow _ set .. => rc ≠ "" ∧ max grow 1 ≤ (set.map (·.gpus)).sum
  | .restoreMarks marks _ => h.MarksFunded marks
  | .op (.start t ..) => t.setID = "" ∧ (t.receiver = "" → t.gpus = 0)
  | .op (.startFill receiver _ gpus ..) => receiver = "" → gpus = 0
  | .op (.restore ..) | .op (.linkSet ..) => False
  | .op _ => True

instance (h : History) (a : ShareAction) : Decidable (h.FundGuard a) :=
  match a with
  | .startShareSet .. => inferInstanceAs (Decidable (_ ∧ _))
  | .restoreMarks marks _ => inferInstanceAs (Decidable (h.MarksFunded marks))
  | .op (.start ..) => inferInstanceAs (Decidable (_ ∧ _))
  | .op (.startFill ..) => inferInstanceAs (Decidable (_ → _))
  | .op (.restore ..) | .op (.linkSet ..) => inferInstanceAs (Decidable False)
  | .op (.cancel ..) | .op (.forget ..) | .op (.redirect ..) | .op (.plannedRunning ..)
  | .op (.receiverFilled ..) | .op .takeReleased | .op (.observe ..) =>
    inferInstanceAs (Decidable True)

/-- The invariant of the states a run reaches. -/
structure Funding (h : History) : Prop where
  ids : h.IDs
  funded : Funded h.ledger.transfers
  sets : ∀ t ∈ h.ledger.transfers, t.isContributor = true → t.setID ∈ h.known

namespace Funding

variable {h h' : History}

theorem init (incarnation : String) : Funding (.init incarnation) where
  ids := .init incarnation
  funded := .nil
  sets := by simp [History.init, newShareLedger]

theorem append (hf : Funding h) (us : List ShareTransfer) (hids : IDs h')
    (htransfers : h'.ledger.transfers = h.ledger.transfers ++ us) (hus : Funded us)
    (hknown : ∀ id ∈ h.known, id ∈ h'.known) (hnew : ∀ t ∈ us, t.id ∉ h.known)
    (hsets : ∀ t ∈ us, t.isContributor = true → t.setID ∈ us.map (·.id)) : Funding h' := by
  refine { ids := hids, funded := ?_, sets := ?_ }
  · rw [htransfers]
    refine hf.funded.append hus (htransfers ▸ hids.nodup) ?_ ?_
    · intro p hp _
      rw [contributorsOf, filter_eq_nil_iff]
      intro c hc hcond
      simp only [decide_eq_true_eq] at hcond
      obtain ⟨u, hu, hid⟩ := mem_map.mp (hsets c hc hcond.2.1)
      exact hnew u hu (hid ▸ hcond.2.2 ▸ hf.ids.known p hp)
    · intro p hp _
      rw [contributorsOf, filter_eq_nil_iff]
      intro c hc hcond
      simp only [decide_eq_true_eq] at hcond
      exact hnew p hp (hcond.2.2 ▸ hf.sets c hc hcond.2.1)
  · intro t ht hcon
    rw [htransfers, mem_append] at ht
    rcases ht with ht | ht
    · exact hknown _ (hf.sets t ht hcon)
    · obtain ⟨u, hu, hid⟩ := mem_map.mp (hsets t ht hcon)
      rw [← hid]
      exact hids.known u (htransfers ▸ mem_append_right _ hu)

private theorem append_single (hf : Funding h) {t : ShareTransfer} (hids : IDs h')
    (htransfers : h'.ledger.transfers = h.ledger.transfers ++ [t]) (hset : t.setID = "")
    (hr : t.receiver = "" → t.gpus = 0) (hd : t.state = .releasing → t.gpus ≤ t.donorGPUs)
    (hknown : ∀ id ∈ h.known, id ∈ h'.known) (hnew : t.id ∉ h.known) : Funding h' := by
  refine hf.append [t] hids htransfers ?_ hknown (forall_mem_singleton.mpr hnew) ?_
  · constructor
    · simp
    · simpa using hr
    · simpa [hset] using hd
    · simp [ShareTransfer.isContributor, hset]
    · simp [ShareTransfer.isSetPrimary, hset]
    · simp [ShareTransfer.isSetPrimary, hset]
  · simp [ShareTransfer.isContributor, hset]

theorem single (hf : Funding h) {op : LedgerOp} (hg : h.FundGuard (.op op)) :
    Funding (h.next op) := by
  by_cases hop : op.minor = true
  · obtain ⟨hstarts, -, hentered, -, -, -, -, -⟩ := h.minor_record hop
    have hid : h.IDsGuard op := by
      cases op <;> trivial
    obtain ⟨ts, hsub, hall⟩ := h.minor_changes hop
    refine { ids := hf.ids.next op hid, funded := (hf.funded.sublist hsub).minorChange hall
             sets := ?_ }
    have hsame := h.minor_transfers (k := fun t => (t.isContributor, t.setID))
      (fun t t' ht => by cases ht <;> rfl) hop
    intro t ht hcon
    obtain ⟨u, hu, heq⟩ := mem_map.mp (hsame.subset (mem_map_of_mem ht))
    simp only [Prod.mk.injEq] at heq
    rw [known, hstarts, hentered, ← heq.2]
    exact hf.sets u hu (heq.1.trans hcon)
  cases op with
  | start t salt held now tm =>
    have hl := ShareLedger.eq_of_withoutMoves (h.ledger.start_withoutMoves now tm t salt held)
    refine hf.append_single (hf.ids.next _ trivial) hl.1 hg.1 hg.2 (fun _ => ?_) (h.known_next _)
      (hf.ids.fresh _ _ _ (Nat.lt_succ_self _))
    simp only [ShareLedger.admitted, hg.1, true_and]
    split <;> omega
  | startFill receiver variant gpus urgent salt held now tm =>
    exact hf.append_single (t := h.ledger.idleFill receiver variant gpus urgent salt held now tm)
      (hf.ids.next _ trivial) rfl rfl hg (fun hstate => by cases hstate) (h.known_next _)
      (hf.ids.fresh _ _ _ (Nat.lt_succ_self _))
  | observe held now tm =>
    refine { ids := hf.ids.next _ trivial, funded := hf.funded.observe held now tm, sets := ?_ }
    intro t ht hcon
    obtain ⟨u, hu, heq⟩ := mem_map.mp
      ((h.ledger.observe_fixed_sublist held now tm).subset (mem_map_of_mem ht))
    have hset : u.setID = t.setID := by
      have := congrArg ShareTransfer.setID heq
      exact this
    have hcon' : u.fixed.isContributor = true := by rw [heq]; exact hcon
    have := hf.sets u hu hcon'
    simp only [known, next, map_append, mem_append, hset] at this ⊢
    tauto
  | restore | linkSet => exact hg.elim
  | cancel | forget | redirect | plannedRunning | receiverFilled | takeReleased =>
    exact absurd rfl hop

/-- What a start leaves of the transfer it is given, apart from its identifier. -/
private def asked (t : ShareTransfer) : String × String × Nat × Nat × Nat :=
  (t.setID, t.receiver, t.gpus, t.donorGPUs, t.setReleased)

private theorem starts_run (ss : List (ShareTransfer × String)) (hss : ∀ s ∈ ss, s.1.setID ≠ "")
    (h : History) (held : Held) (now : Int) (tm : ShareTimings) :
    ∃ us, (runFrom History.next h (ss.map fun s => .start s.1 s.2 held now tm)).ledger.transfers =
        h.ledger.transfers ++ us ∧
      us.map (·.id) = issuedFrom h.ledger.incarnation h.ledger.nextID (ss.map (·.2)) ∧
      us.map asked = ss.map (asked ·.1) ∧ (∀ u ∈ us, u.state = .releasing) ∧
      ∀ id ∈ h.known,
        id ∈ (runFrom History.next h (ss.map fun s => .start s.1 s.2 held now tm)).known := by
  induction ss generalizing h with
  | nil => exact ⟨[], by simp, rfl, rfl, by simp, fun _ hid => hid⟩
  | cons s ss ih =>
    have hl := ShareLedger.eq_of_withoutMoves (h.ledger.start_withoutMoves now tm s.1 s.2 held)
    obtain ⟨us, htransfers, hids, hasked, hstate, hknown⟩ :=
      ih (fun s hs => hss s (mem_cons_of_mem _ hs)) (h.next (.start s.1 s.2 held now tm))
    have hts : (h.next (.start s.1 s.2 held now tm)).ledger.transfers =
        h.ledger.transfers ++ [h.ledger.admitted s.1 s.2 held now tm] := hl.1
    have hnext : (h.next (.start s.1 s.2 held now tm)).ledger.nextID = h.ledger.nextID + 1 := hl.2.1
    have hinc : (h.next (.start s.1 s.2 held now tm)).ledger.incarnation = h.ledger.incarnation :=
      hl.2.2.1
    rw [hinc, hnext] at hids
    refine ⟨h.ledger.admitted s.1 s.2 held now tm :: us, ?_, ?_, ?_, ?_, ?_⟩
    · rw [map_cons, runFrom_cons, htransfers, hts, append_assoc, singleton_append]
    · rw [map_cons, hids]
      rfl
    · rw [map_cons, map_cons, hasked]
      simp [asked, ShareLedger.admitted, hss s mem_cons_self]
    · intro u hu
      rcases mem_cons.mp hu with rfl | hu
      · rfl
      · exact hstate u hu
    · exact fun id hid => hknown id (h.known_next _ id hid)

private theorem funded_set {p : ShareTransfer} {cs : List ShareTransfer}
    (hnodup : ((p :: cs).map (·.id)).Nodup) (hpid : p.id ≠ "") (hset : p.setID = p.id)
    (hr : p.receiver ≠ "") (hpend : p.setPending = cs.length)
    (hcs : ∀ c ∈ cs, c.setID = p.id ∧ c.state = .releasing ∧ c.receiver = "" ∧ c.gpus = 0)
    (hcover : p.gpus ≤ p.donorGPUs + gives cs) : Funded (p :: cs) := by
  rw [map_cons, nodup_cons] at hnodup
  have hcon : ∀ c ∈ cs, c.isContributor = true := by
    intro c hc
    refine ShareTransfer.isContributor_iff.mpr ⟨(hcs c hc).1 ▸ hpid, fun heq => ?_⟩
    refine hnodup.1 ?_
    rw [← (hcs c hc).1, heq]
    exact mem_map_of_mem hc
  have hpcon : p.isContributor = false := by
    rw [← Bool.not_eq_true, ShareTransfer.isContributor_iff]
    exact fun h => h.2 hset
  have hcontrib : contributorsOf p.id (p :: cs) = cs := by
    rw [contributorsOf, filter_cons_of_neg (by simp [hpcon]), filter_eq_self]
    intro c hc
    simp [(hcs c hc).2.1, hcon c hc, (hcs c hc).1]
  have hprimary : ∀ t ∈ p :: cs, t.isSetPrimary = true → t = p := by
    intro t ht htp
    rcases mem_cons.mp ht with rfl | ht
    · rfl
    · exact absurd (ShareTransfer.isSetPrimary_iff.mp htp).2
        (ShareTransfer.isContributor_iff.mp (hcon t ht)).2
  refine { nodup := ?_, receiver := ?_, single := ?_, contributor := ?_, pending := ?_
           covered := ?_ }
  · rw [map_cons, nodup_cons]
    exact hnodup
  · intro t ht htr
    rcases mem_cons.mp ht with rfl | ht
    · exact absurd htr hr
    · exact (hcs t ht).2.2.2
  · intro t ht _ htset
    rcases mem_cons.mp ht with rfl | ht
    · exact absurd (hset.symm.trans htset) hpid
    · exact absurd htset ((hcs t ht).1 ▸ hpid)
  · intro t ht _ htcon
    rcases mem_cons.mp ht with rfl | ht
    · rw [hpcon] at htcon
      cases htcon
    · exact (hcs t ht).2.2.1
  · intro t ht _ htp
    obtain rfl := hprimary t ht htp
    rw [hcontrib, hpend]
  · intro t ht _ htp _
    obtain rfl := hprimary t ht htp
    rw [hcontrib]
    omega

private theorem ids_runFrom {ops : List LedgerOp} (hops : ∀ op ∈ ops, ∀ h : History, h.IDsGuard op)
    (hi : IDs h) : IDs (runFrom History.next h ops) :=
  foldlRecOn _ _ hi fun h hi op hop => hi.next op (hops op hop h)

private theorem exists_of_mem_issuedFrom {incarnation : String} {n : Nat} {salts : List String}
    {id : String} (h : id ∈ issuedFrom incarnation n salts) :
    ∃ m salt, n < m ∧ id = issuedID incarnation .transfer m salt := by
  induction salts generalizing n with
  | nil => cases h
  | cons salt salts ih =>
    rcases mem_cons.mp h with rfl | h
    · exact ⟨n + 1, salt, Nat.lt_succ_self n, rfl⟩
    · obtain ⟨m, s, hm, heq⟩ := ih h
      exact ⟨m, s, by omega, heq⟩

private theorem map_linked_of_not_named {p : String} {cs : List String} {ts : List ShareTransfer}
    (h : ∀ t ∈ ts, t.id ∉ p :: cs) : ts.map (ShareLedger.linked p cs) = ts := by
  refine (map_congr_left fun t ht => ?_).trans (map_id ts)
  have hnot := h t ht
  rw [mem_cons, not_or] at hnot
  rw [ShareLedger.linked, if_neg hnot.1, if_neg hnot.2, id]

private theorem linked_set (hf : Funding h) (s₀ : ShareTransfer × String)
    (ss : List (ShareTransfer × String)) (held : Held) (now : Int) (tm : ShareTimings)
    (hset : s₀.1.setID ≠ "") (hr : s₀.1.receiver ≠ "")
    (hss : ∀ s ∈ ss, s.1.setID ≠ "" ∧ s.1.receiver = "" ∧ s.1.gpus = 0)
    (hcover : s₀.1.gpus ≤ s₀.1.donorGPUs + (ss.map (·.1.donorGPUs)).sum) :
    Funding ((runFrom History.next h
      ((s₀ :: ss).map fun s => .start s.1 s.2 held now tm)).next
        (.linkSet (issuedID h.ledger.incarnation .transfer (h.ledger.nextID + 1) s₀.2)
          (issuedFrom h.ledger.incarnation (h.ledger.nextID + 1) (ss.map (·.2))))) := by
  obtain ⟨us, htransfers, hids, hasked, hstate, hknown⟩ := starts_run (s₀ :: ss) (fun s hs => by
    rcases mem_cons.mp hs with rfl | hs
    · exact hset
    · exact (hss s hs).1) h held now tm
  have hi : IDs (runFrom History.next h ((s₀ :: ss).map fun s => .start s.1 s.2 held now tm)) := by
    refine ids_runFrom (fun op hop _ => ?_) hf.ids
    obtain ⟨s, -, rfl⟩ := mem_map.mp hop
    trivial
  have hfresh : ∀ u ∈ us, u.id ∉ h.known := by
    intro u hu
    have hmem : u.id ∈ us.map (·.id) := mem_map_of_mem hu
    rw [hids] at hmem
    obtain ⟨m, salt, hm, heq⟩ := exists_of_mem_issuedFrom hmem
    rw [heq]
    exact hf.ids.fresh _ m salt hm
  -- the started transfers are the primary and the contributors
  obtain ⟨p, cs, rfl⟩ : ∃ p cs, us = p :: cs := by
    cases us with
    | nil => simp at hasked
    | cons p cs => exact ⟨p, cs, rfl⟩
  rw [map_cons, map_cons, issuedFrom, cons.injEq] at hids
  rw [map_cons, map_cons, cons.injEq] at hasked
  rw [← hids.1, ← hids.2]
  have hnodup : ((h.ledger.transfers ++ p :: cs).map (·.id)).Nodup := htransfers ▸ hi.nodup
  have hnew : ((p :: cs).map (·.id)).Nodup := by
    rw [map_append, nodup_append] at hnodup
    exact hnodup.2.1
  have hpid : p.id ≠ "" := hids.1 ▸ issuedID_ne_empty _ _ _ _
  have hold : h.ledger.transfers.map (ShareLedger.linked p.id (cs.map (·.id))) =
      h.ledger.transfers := by
    refine map_linked_of_not_named fun t ht hmem => ?_
    rw [← map_cons] at hmem
    obtain ⟨u, hu, hid⟩ := mem_map.mp hmem
    exact hfresh u hu (hid ▸ hf.ids.known t ht)
  have hlinkp : ShareLedger.linked p.id (cs.map (·.id)) p =
      { p with setID := p.id, setPending := (cs.map (·.id)).length } := if_pos rfl
  have hlinkc : ∀ c ∈ cs, ShareLedger.linked p.id (cs.map (·.id)) c = { c with setID := p.id } := by
    intro c hc
    rw [map_cons, nodup_cons] at hnew
    have hne : c.id ≠ p.id := fun heq => hnew.1 (heq ▸ mem_map_of_mem hc)
    rw [ShareLedger.linked, if_neg hne, if_pos (mem_map_of_mem hc)]
  have hlinked : ((p :: cs).map (ShareLedger.linked p.id (cs.map (·.id)))).map (·.id) =
      (p :: cs).map (·.id) := by
    rw [map_map]
    exact map_congr_left fun t _ => ShareLedger.linked_id ..
  have hgives : gives (cs.map (ShareLedger.linked p.id (cs.map (·.id)))) =
      (ss.map (·.1.donorGPUs)).sum := by
    have hD := congrArg (map fun a => a.2.2.2.1) hasked.2
    rw [map_map, map_map] at hD
    rw [gives, map_map]
    refine congrArg sum (Eq.trans (map_congr_left fun c hc => ?_) hD)
    rw [Function.comp_apply, hlinkc c hc]
    rfl
  refine hf.append ((p :: cs).map (ShareLedger.linked p.id (cs.map (·.id))))
    (hi.next _ trivial) ?_ ?_ hknown ?_ ?_
  · change (ShareLedger.linkSet _ _ _).transfers = _
    rw [ShareLedger.linkSet_transfers, htransfers, map_append, hold]
  · have hp := hasked.1
    simp only [asked, Prod.mk.injEq] at hp
    rw [map_cons, hlinkp]
    refine funded_set ?_ hpid rfl (hp.2.1 ▸ hr) (by simp) ?_ ?_
    · rw [map_cons, hlinkp] at hlinked
      rw [hlinked]
      exact hnew
    · intro c hc
      obtain ⟨c₀, hc₀, rfl⟩ := mem_map.mp hc
      rw [hlinkc c₀ hc₀]
      obtain ⟨s, hs, heq⟩ := mem_map.mp (hasked.2 ▸ mem_map_of_mem hc₀)
      simp only [asked, Prod.mk.injEq] at heq
      exact ⟨rfl, hstate c₀ (mem_cons_of_mem _ hc₀), heq.2.1 ▸ (hss s hs).2.1,
        heq.2.2.1 ▸ (hss s hs).2.2⟩
    · rw [hgives]
      change p.gpus ≤ p.donorGPUs + _
      rw [hp.2.2.1, hp.2.2.2.1]
      exact hcover
  · intro t ht
    obtain ⟨u, hu, rfl⟩ := mem_map.mp ht
    rw [ShareLedger.linked_id]
    exact hfresh u hu
  · intro t ht hcon
    rw [hlinked]
    obtain ⟨u, hu, rfl⟩ := mem_map.mp ht
    rcases mem_cons.mp hu with rfl | hu
    · rw [hlinkp]
      exact mem_map_of_mem mem_cons_self
    · rw [hlinkc u hu]
      exact mem_map_of_mem mem_cons_self

theorem startShareSet (hf : Funding h) {rc variant : String} {grow : Nat} {urgent : Bool}
    {set : List ShareDonor} {held : Held} {now : Int} {tm : ShareTimings}
    (hg : h.FundGuard (.startShareSet rc variant grow urgent set held now tm)) :
    Funding (h.act (.startShareSet rc variant grow urgent set held now tm)) := by
  obtain ⟨hrc, hgives⟩ := hg
  match set, hgives with
  | [], _ => exact hf
  | [d], _ =>
    have hsingle : h.FundGuard (.op (.start (ShareLedger.setPrimary rc variant grow urgent "" d)
        d.salt held now tm)) := ⟨rfl, fun hr => absurd hr hrc⟩
    exact hf.single hsingle
  | d :: d' :: ds, hgives =>
    have hlinked := hf.linked_set (ShareLedger.setPrimary rc variant grow urgent "pending" d, d.salt)
      ((d' :: ds).map fun c => (ShareLedger.setContributor c, c.salt)) held now tm
      (by simp [ShareLedger.setPrimary]) hrc
      (by simp [ShareLedger.setContributor]) (by simpa [ShareLedger.setPrimary,
        ShareLedger.setContributor, Function.comp_def] using hgives)
    rw [act, ShareAction.ops, ShareLedger.startShareSet, runFrom_append]
    · simpa [Function.comp_def] using hlinked
    · simp

private theorem restores_run (marks : List ShareTransfer) (committed : Held) (h : History)
    (hi : IDs h) (hnodup : (marks.map (·.id)).Nodup) (hmarks : ∀ m ∈ marks, h.restorable m) :
    let h' := runFrom History.next h (marks.map fun m => .restore m (committed.get m.donor))
    IDs h' ∧ h'.ledger.transfers = h.ledger.transfers ++
        marks.map (fun m => ShareLedger.restored m (committed.get m.donor)) ∧
      ∀ id ∈ h.known, id ∈ h'.known := by
  induction marks generalizing h with
  | nil => exact ⟨hi, by simp, fun _ hid => hid⟩
  | cons m marks ih =>
    rw [map_cons, nodup_cons] at hnodup
    have hknown (id : String) : id ∈ (h.next (.restore m (committed.get m.donor))).known ↔
        id ∈ h.known ∨ id = m.id := by
      simp only [known, next, map_append, mem_append, map_cons, map_nil,
        mem_singleton, ShareLedger.restored]
      tauto
    obtain ⟨hids, htransfers, hmore⟩ := ih (h.next (.restore m (committed.get m.donor)))
      (hi.next _ (hmarks m mem_cons_self)) hnodup.2 (by
        intro u hu
        obtain ⟨hnew, hrest⟩ := hmarks u (mem_cons_of_mem _ hu)
        refine ⟨?_, hrest⟩
        rw [hknown, not_or]
        exact ⟨hnew, fun heq => hnodup.1 (heq ▸ mem_map_of_mem hu)⟩)
    refine ⟨hids, ?_, fun id hid => hmore id ((hknown id).mpr (.inl hid))⟩
    rw [map_cons, runFrom_cons, htransfers]
    simp [History.next, ShareLedger.restore]

private def markedSets (marks : List ShareTransfer) : List String :=
  ((marks.filter (·.isContributor)).map (·.setID)).dedup

private def linkedAll (marks : List ShareTransfer) (sets : List String) (t : ShareTransfer) :
    ShareTransfer :=
  sets.foldl (fun t set => ShareLedger.linked set (ShareLedger.markedMembers marks set) t) t

private theorem links_run (marks : List ShareTransfer) (sets : List String) (h : History)
    (hi : IDs h) :
    let h' := runFrom History.next h
      (sets.map fun set => .linkSet set (ShareLedger.markedMembers marks set))
    IDs h' ∧ h'.ledger.transfers = h.ledger.transfers.map (linkedAll marks sets) ∧
      h'.known = h.known := by
  induction sets generalizing h with
  | nil => exact ⟨hi, (map_id _).symm, rfl⟩
  | cons set sets ih =>
    obtain ⟨hids, htransfers, hknown⟩ := ih
      (h.next (.linkSet set (ShareLedger.markedMembers marks set))) (hi.next _ trivial)
    refine ⟨hids, ?_, hknown⟩
    rw [map_cons, runFrom_cons, htransfers]
    change (ShareLedger.linkSet _ _ _).transfers.map _ = _
    rw [ShareLedger.linkSet_transfers, map_map]
    rfl

variable {marks : List ShareTransfer}

/-- Linking the sets of the marks writes the counters of the primaries, and nothing else. -/
private theorem linkedAll_eq {sets : List String} {t : ShareTransfer}
    (hmember : ∀ set, t.id ∈ ShareLedger.markedMembers marks set → t.setID = set)
    (hset : t.id ∈ sets → t.setID = t.id) :
    linkedAll marks sets t = if t.id ∈ sets then
      { t with setPending := (ShareLedger.markedMembers marks t.id).length } else t := by
  induction sets generalizing t with
  | nil => rfl
  | cons set sets ih =>
    have hlinked : ShareLedger.linked set (ShareLedger.markedMembers marks set) t =
        if t.id = set then { t with setPending := (ShareLedger.markedMembers marks t.id).length }
        else t := by
      rw [ShareLedger.linked]
      by_cases heq : t.id = set
      · have : t.setID = set := (hset (heq ▸ mem_cons_self)).trans heq
        rw [if_pos heq, if_pos heq, heq, ← this]
      · rw [if_neg heq, if_neg heq]
        split
        · next hmem => rw [← hmember set hmem]
        · rfl
    change linkedAll marks sets (ShareLedger.linked set _ t) = _
    rw [hlinked]
    by_cases heq : t.id = set
    · have hih := ih (t := { t with
          setPending := (ShareLedger.markedMembers marks t.id).length }) hmember
        fun hmem => hset (mem_cons_of_mem _ hmem)
      have hmem : t.id ∈ set :: sets := heq ▸ mem_cons_self
      rw [if_pos heq, hih, if_pos hmem]
      split <;> rfl
    · rw [if_neg heq, ih hmember fun hmem => hset (mem_cons_of_mem _ hmem)]
      simp [heq]

private theorem mem_markedMembers {set id : String} :
    id ∈ ShareLedger.markedMembers marks set ↔
      ∃ m ∈ marks, m.isContributor = true ∧ m.setID = set ∧ m.id = id := by
  simp [ShareLedger.markedMembers, and_assoc]

private theorem mem_markedSets {set : String} :
    set ∈ markedSets marks ↔ ∃ m ∈ marks, m.isContributor = true ∧ m.setID = set := by
  simp [markedSets, and_assoc]

private def restoredMark (marks : List ShareTransfer) (committed : Held) (m : ShareTransfer) :
    ShareTransfer :=
  let t := ShareLedger.restored m (committed.get m.donor)
  if m.id ∈ markedSets marks then
    { t with setPending := (ShareLedger.markedMembers marks m.id).length } else t

private theorem restoredMark_fields (marks : List ShareTransfer) (committed : Held)
    (m : ShareTransfer) :
    (restoredMark marks committed m).id = m.id ∧
      (restoredMark marks committed m).setID = m.setID ∧
      (restoredMark marks committed m).state = .releasing ∧
      (restoredMark marks committed m).receiver = m.receiver ∧
      (restoredMark marks committed m).gpus = m.gpus ∧
      (restoredMark marks committed m).donorGPUs =
        (if m.setID = "" ∧ m.donorGPUs < m.gpus then m.gpus else m.donorGPUs) ∧
      (restoredMark marks committed m).isContributor = m.isContributor ∧
      (restoredMark marks committed m).isSetPrimary = m.isSetPrimary := by
  unfold restoredMark
  dsimp only
  split <;> exact ⟨rfl, rfl, rfl, rfl, rfl, rfl, rfl, rfl⟩

private theorem contributorsOf_restoredMark (marks : List ShareTransfer) (committed : Held)
    (set : String) :
    contributorsOf set (marks.map (restoredMark marks committed)) =
      (marks.filter fun m => m.isContributor = true ∧ m.setID = set).map
        (restoredMark marks committed) := by
  rw [contributorsOf, filter_map]
  congr 1
  refine filter_congr fun m _ => ?_
  obtain ⟨-, hset, hstate, -, -, -, hcon, -⟩ := restoredMark_fields marks committed m
  simp only [Function.comp_apply, hset, hstate, hcon, true_and]

private theorem funded_marks (committed : Held) (hg : h.MarksFunded marks) :
    Funded (marks.map (restoredMark marks committed)) := by
  obtain ⟨hnodup, hmarks⟩ := hg
  have hlen (set : String) :
      (contributorsOf set (marks.map (restoredMark marks committed))).length =
        (ShareLedger.markedMembers marks set).length := by
    rw [contributorsOf_restoredMark, ShareLedger.markedMembers, length_map, length_map]
  refine { nodup := ?_, receiver := ?_, single := ?_, contributor := ?_, pending := ?_
           covered := ?_ }
  · have hmap : (marks.map (restoredMark marks committed)).map (·.id) = marks.map (·.id) := by
      rw [map_map]
      exact map_congr_left fun m _ => (restoredMark_fields marks committed m).1
    rw [hmap]
    exact hnodup
  · intro t ht hr
    obtain ⟨m, hm, rfl⟩ := mem_map.mp ht
    obtain ⟨-, -, -, hrec, hgpus, -⟩ := restoredMark_fields marks committed m
    rw [hgpus]
    exact (hmarks m hm).2.2.1 (hrec ▸ hr)
  · intro t ht _ hset
    obtain ⟨m, hm, rfl⟩ := mem_map.mp ht
    obtain ⟨-, hsetm, -, -, hgpus, hdonor, -⟩ := restoredMark_fields marks committed m
    rw [hgpus, hdonor, ← hsetm, hset]
    simp only [true_and]
    split <;> omega
  · intro t ht _ hcon
    obtain ⟨m, hm, rfl⟩ := mem_map.mp ht
    obtain ⟨-, -, -, hrec, -, -, hconm, -⟩ := restoredMark_fields marks committed m
    rw [hrec]
    exact ((hmarks m hm).2.2.2.1 (hconm ▸ hcon)).1
  · intro t ht _ _
    obtain ⟨m, hm, rfl⟩ := mem_map.mp ht
    rw [hlen, (restoredMark_fields marks committed m).1, restoredMark]
    split
    · exact le_rfl
    · next hno =>
      -- a set without contributors waits for none
      have hnil : ShareLedger.markedMembers marks m.id = [] := by
        rw [eq_nil_iff_forall_not_mem]
        intro id hid
        obtain ⟨c, hc, hcon, hset, -⟩ := mem_markedMembers.mp hid
        exact hno (mem_markedSets.mpr ⟨c, hc, hcon, hset⟩)
      rw [hnil]
      exact (hmarks m hm).2.1.ge
  · intro t ht _ hprimary _
    obtain ⟨m, hm, rfl⟩ := mem_map.mp ht
    obtain ⟨hid, -, -, -, hgpus, hdonor, -, hp⟩ := restoredMark_fields marks committed m
    have hcover := (hmarks m hm).2.2.2.2 (hp ▸ hprimary)
    have hgives : gives (contributorsOf m.id (marks.map (restoredMark marks committed))) =
        gives (marks.filter fun c => c.isContributor = true ∧ c.setID = m.id) := by
      rw [contributorsOf_restoredMark, gives, gives, map_map]
      refine congrArg sum (map_congr_left fun c hc => ?_)
      have hcon : c.isContributor = true := (of_decide_eq_true (mem_filter.mp hc).2).1
      rw [Function.comp_apply, (restoredMark_fields marks committed c).2.2.2.2.2.1, if_neg]
      exact fun h => (ShareTransfer.isContributor_iff.mp hcon).1 h.1
    rw [hid, hgives, hgpus, hdonor]
    split <;> omega

theorem restoreMarks (hf : Funding h) {committed : Held}
    (hg : h.FundGuard (.restoreMarks marks committed)) :
    Funding (h.act (.restoreMarks marks committed)) := by
  have hfunded := funded_marks committed hg
  obtain ⟨hnodup, hmarks⟩ := hg
  obtain ⟨hids₁, htransfers₁, hknown₁⟩ :=
    restores_run marks committed h hf.ids hnodup fun m hm => (hmarks m hm).1
  obtain ⟨hids₂, htransfers₂, hknown₂⟩ := links_run marks (markedSets marks) _ hids₁
  rw [← runFrom_append] at hids₂ htransfers₂ hknown₂
  have hfresh : ∀ m ∈ marks, m.id ∉ h.known := fun m hm => (hmarks m hm).1.1
  -- the transfers from before are neither members nor primaries of the restored sets
  have hold : h.ledger.transfers.map (linkedAll marks (markedSets marks)) =
      h.ledger.transfers := by
    refine (map_congr_left fun t ht => ?_).trans (map_id _)
    have hnot : t.id ∉ markedSets marks := by
      intro hmem
      obtain ⟨c, hc, hcon, hset⟩ := mem_markedSets.mp hmem
      obtain ⟨-, p, hp, -, hpid⟩ := (hmarks c hc).2.2.2.1 hcon
      exact hfresh p hp (hpid.trans hset ▸ hf.ids.known t ht)
    rw [linkedAll_eq _ fun hmem => absurd hmem hnot, if_neg hnot, id]
    intro set hmem
    obtain ⟨c, hc, -, -, hid⟩ := mem_markedMembers.mp hmem
    exact absurd (hid ▸ hf.ids.known t ht) (hfresh c hc)
  have hnew : (marks.map fun m => ShareLedger.restored m (committed.get m.donor)).map
      (linkedAll marks (markedSets marks)) = marks.map (restoredMark marks committed) := by
    rw [map_map]
    refine map_congr_left fun m hm => ?_
    rw [Function.comp_apply, linkedAll_eq]
    · rfl
    · intro set hmem
      obtain ⟨c, hc, -, hset, hid⟩ := mem_markedMembers.mp hmem
      obtain rfl := inj_on_of_nodup_map hnodup hc hm hid
      exact hset
    · intro hmem
      obtain ⟨c, hc, hcon, hset⟩ := mem_markedSets.mp hmem
      obtain ⟨-, p, hp, hprimary, hpid⟩ := (hmarks c hc).2.2.2.1 hcon
      obtain rfl := inj_on_of_nodup_map hnodup hp hm (hpid.trans hset)
      exact (ShareTransfer.isSetPrimary_iff.mp hprimary).2
  refine hf.append (marks.map (restoredMark marks committed)) hids₂ ?_ hfunded ?_ ?_ ?_
  · rw [← hnew, ← hold]
    refine htransfers₂.trans ?_
    rw [htransfers₁, map_append, hold]
  · intro id hid
    exact hknown₂ ▸ hknown₁ id hid
  · intro t ht
    obtain ⟨m, hm, rfl⟩ := mem_map.mp ht
    rw [(restoredMark_fields marks committed m).1]
    exact hfresh m hm
  · intro t ht hcon
    obtain ⟨m, hm, rfl⟩ := mem_map.mp ht
    obtain ⟨-, hset, -, -, -, -, hconm, -⟩ := restoredMark_fields marks committed m
    obtain ⟨-, p, hp, -, hpid⟩ := (hmarks m hm).2.2.2.1 (hconm ▸ hcon)
    rw [hset, ← hpid, ← (restoredMark_fields marks committed p).1, map_map]
    exact mem_map.mpr ⟨p, hp, rfl⟩

theorem act (hf : Funding h) {a : ShareAction} (hg : h.FundGuard a) : Funding (h.act a) := by
  cases a with
  | startShareSet => exact hf.startShareSet hg
  | restoreMarks => exact hf.restoreMarks hg
  | op o => exact hf.single hg

end Funding

/-- In every state that a run of funded starts reaches, and for every reading: what is
committed and unreleased is at least what is held and filling, and, while no set has lost a
contributor that did not release, at most what is held and promised. -/
theorem committed_within_promised (incarnation : String) (acts : List ShareAction)
    (hrun : Keeps History.act FundGuard (.init incarnation) acts) (held : Held) :
    let l := (runFrom History.act (.init incarnation) acts).ledger
    held.total + l.filling ≤ (l.committed held).total + l.unreleased ∧
      (Whole l.transfers →
        (l.committed held).total + l.unreleased ≤ held.total + l.promised) := by
  intro l
  have hf : Funding (runFrom History.act (.init incarnation) acts) :=
    hrun.invariant Funding (fun _ _ hf hg => hf.act hg) (.init incarnation)
  exact ⟨l.held_le_committed hf.funded held,
    fun hw => l.committed_le_promised hf.funded hw held⟩

/-- A set of two donors, one of which has given by the time of the Observe. -/
def setActs (running : GoMap String Bool) : List ShareAction :=
  let tm : ShareTimings := { window := 5, releaseTimeout := 10, fillTimeout := 10 }
  [.startShareSet "r" "v" 8 false [⟨"a", 4, ""⟩, ⟨"b", 4, ""⟩]
      (GoMap.ofList [("a", 8), ("b", 8), ("r", 0)]) 0 tm,
    .op (.plannedRunning running ∅),
    .op (.observe (GoMap.ofList [("a", 8), ("b", 4), ("r", 0)]) 1 tm)]

/-- The contributor has released: the set is short of what it released, and no more. -/
theorem committed_within_promised_set :
    let held : Held := GoMap.ofList [("a", 8), ("b", 4), ("r", 0)]
    let l := (runFrom History.act (.init "i") (setActs ∅)).ledger
    (l.promised = 4 ∧ Whole l.transfers) ∧
      held.total + l.filling ≤ (l.committed held).total + l.unreleased ∧
        (Whole l.transfers →
          (l.committed held).total + l.unreleased ≤ held.total + l.promised) := by
  intro held l
  exact ⟨by decide, committed_within_promised "i" (setActs ∅) (by decide) held⟩

/-- The contributor's donor lost the wrong pod: until the next Observe ends its primary, the
receiver is committed GPUs that nobody gives. -/
theorem committed_above_promised :
    ∃ acts, Keeps History.act FundGuard (.init "i") acts ∧ ∃ held : Held,
      let l := (runFrom History.act (.init "i") acts).ledger
      held.total + l.promised < (l.committed held).total + l.unreleased := by
  refine ⟨setActs (GoMap.ofList [("i-t2-", true)]), by decide,
    GoMap.ofList [("a", 8), ("b", 4), ("r", 0)], ?_⟩
  decide

end History

end LlmScaler.Ledger
