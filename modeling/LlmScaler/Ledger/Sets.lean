import LlmScaler.Ledger.Identifiers

/-!
# Donor sets release whole

A donor set's receiver may be raised only when every contributor has released. The
ledger tracks this with a counter on the primary, the contributors still in the
list, and a map of the contributors whose donors the reading shows. The invariant
`Sets` ties the three to the record of the run: the counter is never below the
number of linked contributors that have not entered Filling.
-/

namespace LlmScaler.Ledger

open LlmScaler.Core List ShareLedger Row ShareTransfer

namespace History

def linkedTo (h : History) (primary : String) : List String :=
  (h.links.filter (·.1 = primary)).map (·.2)

def enteredIDs (h : History) : List String := h.entered.map (·.id)

/-- The contributors linked to the primary that have not entered Filling. -/
def waitingFor (h : History) (primary : String) : Finset String :=
  (h.linkedTo primary).toFinset \ h.enteredIDs.toFinset

/-- Not yet a member of a linked set. -/
def unlinked (t : ShareTransfer) : Prop := t.setID = "" ∨ t.setID = "pending"

instance (t : ShareTransfer) : Decidable (unlinked t) := inferInstanceAs (Decidable (_ ∨ _))

/-- `a` is a contributor of the set whose primary is `b`. -/
def contributes (a b : ShareTransfer) : Prop := a.isContributor = true ∧ a.setID = b.id

instance (a b : ShareTransfer) : Decidable (contributes a b) :=
  inferInstanceAs (Decidable (_ ∧ _))

/-- What a step has to meet for its run to release every set whole: transfers start
outside any set, a set is linked once, with its primary in the ledger ahead of its
contributors, and a reading that shows the donor of a releasing primary also shows the
donors of its contributors still releasing. -/
def SetsGuard (h : History) : LedgerOp → Prop
  | .start t .. => unlinked t
  | .restore .. => False
  | .linkSet primary contributors =>
    (∃ t ∈ h.ledger.transfers, t.id = primary) ∧
      (∀ t ∈ h.ledger.transfers, t.id = primary ∨ t.id ∈ contributors → unlinked t) ∧
      h.ledger.transfers.Pairwise fun a b => ¬ (b.id = primary ∧ a.id ∈ contributors)
  | .observe held .. =>
    ∀ p ∈ h.ledger.transfers, p.isSetPrimary = true → shownReleasing held p →
      ∀ c ∈ h.ledger.transfers, c.state = .releasing → contributes c p → shownReleasing held c
  | _ => True

instance (h : History) (op : LedgerOp) : Decidable (h.SetsGuard op) :=
  match op with
  | .start t .. => inferInstanceAs (Decidable (unlinked t))
  | .restore .. => inferInstanceAs (Decidable False)
  | .linkSet .. => inferInstanceAs (Decidable (_ ∧ _ ∧ _))
  | .observe .. => inferInstanceAs (Decidable (∀ _ ∈ _, _))
  | .startFill .. | .cancel .. | .forget .. | .redirect .. | .plannedRunning ..
  | .receiverFilled .. | .takeReleased => inferInstanceAs (Decidable True)

/-- Sets are linked once, with the primary ahead of its contributors. -/
structure Linkage (h : History) : Prop where
  ids : h.IDs
  linked_known : ∀ e ∈ h.links, e.1 ∈ h.known ∧ e.2 ∈ h.known
  member : ∀ t ∈ h.ledger.transfers,
    unlinked t ∨ t.setID = t.id ∨ (t.setID, t.id) ∈ h.links
  primary : ∀ t ∈ h.ledger.transfers, ∀ e ∈ h.links, e.1 = t.id → t.setID = t.id
  order : h.ledger.transfers.Pairwise fun a b => ¬ contributes a b

/-- The invariant of runs that meet `SetsGuard`. -/
structure Sets (h : History) : Prop extends Linkage h where
  unreleased : ∀ t ∈ h.ledger.transfers, t.state = .releasing → t.id ∉ h.enteredIDs
  pending : ∀ t ∈ h.ledger.transfers, t.state = .releasing → t.isSetPrimary = true →
    ((h.waitingFor t.id).card : Int) ≤ t.setPending

end History

def ShareTransfer.place (t : ShareTransfer) : String × String := (t.id, t.setID)

namespace History

theorem contributes_iff {a b : ShareTransfer} :
    contributes a b ↔ a.place.2 ≠ "" ∧ a.place.2 ≠ a.place.1 ∧ a.place.2 = b.place.1 := by
  rw [contributes, isContributor_iff, and_assoc]
  rfl

theorem mem_linkedTo {h : History} {p c : String} : c ∈ h.linkedTo p ↔ (p, c) ∈ h.links := by
  simp only [linkedTo, mem_map, mem_filter, decide_eq_true_eq]
  constructor
  · rintro ⟨e, ⟨he, rfl⟩, rfl⟩
    exact he
  · intro he
    exact ⟨(p, c), ⟨he, rfl⟩, rfl⟩

theorem mem_enteredIDs_observe {h : History} {held : Held} {now : Int} {tm : ShareTimings}
    {id : String} : id ∈ (h.next (.observe held now tm)).enteredIDs ↔
      id ∈ h.enteredIDs ∨ id ∈ (h.ledger.observe held now tm).released.map (·.id) := by
  simp only [enteredIDs, next, map_append, mem_append]

theorem mem_waitingFor {h : History} {p c : String} :
    c ∈ h.waitingFor p ↔ (p, c) ∈ h.links ∧ c ∉ h.enteredIDs := by
  rw [waitingFor, Finset.mem_sdiff, mem_toFinset, mem_toFinset, mem_linkedTo]

variable {t : ShareTransfer}

theorem mem_linkedBy {l : ShareLedger} {p : String} {cs : List String} {e : String × String} :
    e ∈ l.linkedBy p cs ↔
      e.1 = p ∧ e.2 ∈ cs ∧ e.2 ≠ p ∧ ∃ t ∈ l.transfers, t.id = e.2 := by
  simp only [ShareLedger.linkedBy, mem_map, mem_filter, decide_eq_true_eq]
  constructor
  · rintro ⟨t, ⟨ht, hc, hne⟩, rfl⟩
    exact ⟨rfl, hc, hne, t, ht, rfl⟩
  · rintro ⟨rfl, hc, hne, t, ht, hid⟩
    exact ⟨t, ⟨ht, hid ▸ hc, hid ▸ hne⟩, Prod.ext rfl hid⟩

namespace Linkage

variable {h h' : History}

theorem mem_links (hl : Linkage h) {a b : ShareTransfer} (ha : a ∈ h.ledger.transfers)
    (hb : b.id ≠ "pending") (hab : contributes a b) : (b.id, a.id) ∈ h.links := by
  obtain ⟨hcon, hset⟩ := hab
  obtain ⟨hne, hnid⟩ := isContributor_iff.mp hcon
  rcases hl.member a ha with (hu | hu) | hid | hlink
  · exact absurd hu hne
  · exact absurd (hset.symm.trans hu) hb
  · exact absurd hid hnid
  · exact hset ▸ hlink

/-- A named transfer is on record, so its set is neither empty nor the placeholder once linked. -/
theorem setID_ne_id (hl : Linkage h) (ht : t ∈ h.ledger.transfers) (hu : unlinked t) :
    t.setID ≠ t.id := by
  intro heq
  have hnamed := hl.ids.named t.id (hl.ids.known t ht)
  rcases hu with hu | hu
  · exact hnamed.1 (heq ▸ hu)
  · exact hnamed.2 (heq ▸ hu)

theorem of_sublist (hl : Linkage h) (hids : h'.IDs)
    (hplace : (h'.ledger.transfers.map (·.place)).Sublist (h.ledger.transfers.map (·.place)))
    (hlinks : h'.links = h.links) (hknown : ∀ id ∈ h.known, id ∈ h'.known) : Linkage h' where
  ids := hids
  linked_known e he := by
    rw [hlinks] at he
    exact (hl.linked_known e he).imp (hknown _) (hknown _)
  member t ht := by
    obtain ⟨u, hu, heq⟩ := mem_map.mp (hplace.subset (mem_map_of_mem ht))
    obtain ⟨hid, hset⟩ := Prod.mk.inj heq
    rw [hlinks, ← hid, unlinked, ← hset]
    exact hl.member u hu
  primary t ht e he heid := by
    obtain ⟨u, hu, heq⟩ := mem_map.mp (hplace.subset (mem_map_of_mem ht))
    obtain ⟨hid, hset⟩ := Prod.mk.inj heq
    rw [hlinks] at he
    rw [← hid] at heid
    rw [← hid, ← hset]
    exact hl.primary u hu e he heid
  order := by
    have hpw := hl.order
    simp only [contributes_iff] at hpw ⊢
    rw [← pairwise_map (f := ShareTransfer.place)
      (R := fun a b : String × String => ¬ (a.2 ≠ "" ∧ a.2 ≠ a.1 ∧ a.2 = b.1))] at hpw ⊢
    exact hpw.sublist hplace

theorem of_append (hl : Linkage h) (hids : h'.IDs)
    (htransfers : h'.ledger.transfers = h.ledger.transfers ++ [t]) (hset : unlinked t)
    (hnew : t.id ∉ h.known) (hlinks : h'.links = h.links) (hknown : ∀ id ∈ h.known, id ∈ h'.known) :
    Linkage h' where
  ids := hids
  linked_known e he := by
    rw [hlinks] at he
    exact (hl.linked_known e he).imp (hknown _) (hknown _)
  member u hu := by
    rw [htransfers, mem_append, mem_singleton] at hu
    rw [hlinks]
    rcases hu with hu | rfl
    · exact hl.member u hu
    · exact .inl hset
  primary u hu e he heid := by
    rw [htransfers, mem_append, mem_singleton] at hu
    rw [hlinks] at he
    rcases hu with hu | rfl
    · exact hl.primary u hu e he heid
    · exact absurd (heid ▸ (hl.linked_known e he).1) hnew
  order := by
    rw [htransfers, pairwise_append]
    refine ⟨hl.order, pairwise_singleton _ _, ?_⟩
    refine fun a ha => forall_mem_singleton.mpr fun hat => ?_
    have hmem : t ∈ h'.ledger.transfers := by simp [htransfers]
    have hlink := hl.mem_links ha (hids.named _ (hids.known t hmem)).2 hat
    exact hnew (hl.linked_known _ hlink).1

section LinkSet
variable (p : String) (cs : List String)

private theorem linked_setID (t : ShareTransfer) :
    ((t.id = p ∨ t.id ∈ cs) ∧ (ShareLedger.linked p cs t).setID = p) ∨
      (t.id ≠ p ∧ t.id ∉ cs ∧ ShareLedger.linked p cs t = t) := by
  unfold ShareLedger.linked
  by_cases hp : t.id = p
  · simp [hp]
  by_cases hc : t.id ∈ cs
  · simp [hp, hc]
  · simp [hp, hc]

theorem linkSet {p : String} {cs : List String} (hl : Linkage h) (hg : h.SetsGuard (.linkSet p cs)) :
    Linkage (h.next (.linkSet p cs)) := by
  obtain ⟨⟨tp, htp, htpid⟩, hunlinked, horder⟩ := hg
  have htransfers : (h.next (.linkSet p cs)).ledger.transfers =
      h.ledger.transfers.map (ShareLedger.linked p cs) := linkSet_transfers ..
  have hlinks : (h.next (.linkSet p cs)).links = h.links ++ h.ledger.linkedBy p cs := rfl
  refine { ids := hl.ids.next (.linkSet p cs) trivial, linked_known := ?_, member := ?_
           primary := ?_, order := ?_ }
  · intro e he
    rw [hlinks, mem_append] at he
    rcases he with he | he
    · exact hl.linked_known e he
    · obtain ⟨hp, -, -, t, ht, hid⟩ := mem_linkedBy.mp he
      exact ⟨(htpid.trans hp.symm) ▸ hl.ids.known tp htp, hid ▸ hl.ids.known t ht⟩
  · intro t' ht'
    rw [htransfers, mem_map] at ht'
    obtain ⟨t, ht, rfl⟩ := ht'
    rw [linked_id, hlinks]
    rcases linked_setID p cs t with ⟨hin, hset⟩ | ⟨-, -, heq⟩
    · rw [hset]
      by_cases hp : t.id = p
      · exact .inr (.inl hp.symm)
      · refine .inr (.inr (mem_append_right _ ?_))
        exact mem_linkedBy.mpr ⟨rfl, hin.resolve_left hp, hp, t, ht, rfl⟩
    · rw [heq]
      exact (hl.member t ht).imp_right (.imp_right fun h => mem_append_left _ h)
  · intro t' ht' e he heid
    rw [htransfers, mem_map] at ht'
    obtain ⟨t, ht, rfl⟩ := ht'
    rw [linked_id] at heid ⊢
    rw [hlinks, mem_append] at he
    rcases linked_setID p cs t with ⟨hin, hset⟩ | ⟨hnp, -, heq⟩
    · rw [hset]
      rcases he with he | he
      · exact absurd (hl.primary t ht e he heid) (hl.setID_ne_id ht (hunlinked t ht hin))
      · exact (mem_linkedBy.mp he).1.symm.trans heid
    · rw [heq]
      rcases he with he | he
      · exact hl.primary t ht e he heid
      · exact absurd (heid.symm.trans (mem_linkedBy.mp he).1) hnp
  · rw [htransfers, pairwise_map]
    have hboth := hl.order.and horder
    refine hboth.imp ?_
    rintro a b ⟨hab, hpc⟩ ⟨hcon, hset⟩
    obtain ⟨hne, hnid⟩ := isContributor_iff.mp hcon
    rw [linked_id] at hnid hset
    rcases linked_setID p cs a with ⟨hin, hseta⟩ | ⟨-, -, heq⟩
    · rw [hseta] at hnid hset
      rcases hin with hin | hin
      · exact hnid hin.symm
      · exact hpc ⟨hset.symm, hin⟩
    · rw [heq] at hcon hset
      exact hab ⟨hcon, hset⟩

end LinkSet

end Linkage

namespace Sets

variable {h h' : History}

theorem init (incarnation : String) : Sets (.init incarnation) where
  ids := .init incarnation
  linked_known := by simp [History.init]
  member := by simp [History.init, newShareLedger]
  primary := by simp [History.init, newShareLedger]
  order := by simp [History.init, newShareLedger]
  unreleased := by simp [History.init, newShareLedger]
  pending := by simp [History.init, newShareLedger]

theorem minor (hs : Sets h) {op : LedgerOp} (hop : op.minor = true) (hid : h.IDsGuard op) :
    Sets (h.next op) := by
  obtain ⟨-, hlinks, hentered, -, -, -, -, -⟩ := h.minor_record hop
  have hwait (p : String) : (h.next op).waitingFor p = h.waitingFor p := by
    rw [waitingFor, waitingFor, linkedTo, linkedTo, enteredIDs, enteredIDs, hlinks, hentered]
  have hfigures := h.minor_transfers (k := fun t => (t.place, t.state, t.setPending))
    (fun t t' ht => by cases ht <;> rfl) hop
  -- every transfer left stands for one before, with the same place, state and counter
  have hback : ∀ t ∈ (h.next op).ledger.transfers, ∃ u ∈ h.ledger.transfers,
      u.place = t.place ∧ u.state = t.state ∧ u.setPending = t.setPending := by
    intro t ht
    obtain ⟨u, hu, heq⟩ := mem_map.mp (hfigures.subset (mem_map_of_mem ht))
    simp only [Prod.mk.injEq] at heq
    exact ⟨u, hu, heq⟩
  have hplace := h.minor_transfers (k := fun t => t.place) (fun t t' ht => by cases ht <;> rfl) hop
  refine { toLinkage := hs.toLinkage.of_sublist (hs.ids.next op hid) hplace hlinks (h.known_next op)
           unreleased := ?_, pending := ?_ }
  · intro t ht hstate
    obtain ⟨u, hu, hp, hst, -⟩ := hback t ht
    rw [enteredIDs, hentered, ← (Prod.mk.inj hp).1]
    exact hs.unreleased u hu (hst ▸ hstate)
  · intro t ht hstate hprimary
    obtain ⟨u, hu, hp, hst, hpend⟩ := hback t ht
    obtain ⟨hid', hset⟩ := Prod.mk.inj hp
    rw [hwait, ← hpend, ← hid']
    refine hs.pending u hu (hst ▸ hstate) ?_
    rw [isSetPrimary_iff, hid', hset]
    exact isSetPrimary_iff.mp hprimary

variable {tm : ShareTimings} {held : Held}

variable {now : Int}

theorem start (hs : Sets h) {salt : String} (hset : unlinked t) :
    Sets (h.next (.start t salt held now tm)) := by
  have hl := eq_of_withoutMoves (h.ledger.start_withoutMoves now tm t salt held)
  have hids := hs.ids.next (.start t salt held now tm) trivial
  have hnew : (h.ledger.admitted t salt held now tm).id ∉ h.known :=
    hs.ids.fresh _ _ _ (Nat.lt_succ_self _)
  have htransfers : (h.next (.start t salt held now tm)).ledger.transfers =
      h.ledger.transfers ++ [h.ledger.admitted t salt held now tm] := hl.1
  refine { toLinkage := hs.toLinkage.of_append hids htransfers hset hnew rfl (h.known_next _)
           unreleased := ?_, pending := ?_ }
  · intro u hu hstate
    rw [htransfers, mem_append, mem_singleton] at hu
    rcases hu with hu | rfl
    · exact hs.unreleased u hu hstate
    · exact fun hmem => hnew (mem_append_right _ hmem)
  · intro u hu hstate hprimary
    rw [htransfers, mem_append, mem_singleton] at hu
    rcases hu with hu | rfl
    · exact hs.pending u hu hstate hprimary
    · obtain ⟨hne, heq⟩ := isSetPrimary_iff.mp hprimary
      rcases hset with hset | hset
      · exact absurd hset hne
      · exact absurd (heq.symm.trans hset) (issuedID_ne_pending _ _ _ _)

theorem startFill (hs : Sets h) {receiver variant : String} {gpus : Nat} {urgent : Bool}
    {salt : String} : Sets (h.next (.startFill receiver variant gpus urgent salt held now tm)) := by
  have hids := hs.ids.next (.startFill receiver variant gpus urgent salt held now tm) trivial
  have hnew : (h.ledger.idleFill receiver variant gpus urgent salt held now tm).id ∉ h.known :=
    hs.ids.fresh _ _ _ (Nat.lt_succ_self _)
  have hentered : (h.next (.startFill receiver variant gpus urgent salt held now tm)).enteredIDs =
      h.enteredIDs ++ [(h.ledger.idleFill receiver variant gpus urgent salt held now tm).id] := by
    simp [enteredIDs, next]
  refine { toLinkage := hs.toLinkage.of_append hids rfl (.inl rfl) hnew rfl (h.known_next _)
           unreleased := ?_, pending := ?_ }
  · intro u hu hstate
    change u ∈ h.ledger.transfers ++ [_] at hu
    rw [mem_append, mem_singleton] at hu
    rw [hentered, mem_append, mem_singleton]
    rcases hu with hu | rfl
    · rintro (hmem | heq)
      · exact hs.unreleased u hu hstate hmem
      · exact hnew (heq ▸ hs.ids.known u hu)
    · cases hstate
  · intro u hu hstate hprimary
    change u ∈ h.ledger.transfers ++ [_] at hu
    rw [mem_append, mem_singleton] at hu
    rcases hu with hu | rfl
    · refine le_trans ?_ (hs.pending u hu hstate hprimary)
      refine Int.ofNat_le.mpr (Finset.card_le_card fun c hc => ?_)
      rw [mem_waitingFor, hentered, mem_append] at hc
      rw [mem_waitingFor]
      exact ⟨hc.1, fun hmem => hc.2 (.inl hmem)⟩
    · cases hstate

theorem linkSet (hs : Sets h) {p : String} {cs : List String}
    (hg : h.SetsGuard (.linkSet p cs)) : Sets (h.next (.linkSet p cs)) := by
  have hlinkage := hs.toLinkage.linkSet hg
  obtain ⟨-, hunlinked, -⟩ := hg
  have htransfers : (h.next (.linkSet p cs)).ledger.transfers =
      h.ledger.transfers.map (ShareLedger.linked p cs) := linkSet_transfers ..
  refine { toLinkage := hlinkage, unreleased := ?_, pending := ?_ }
  · intro t' ht' hstate
    rw [htransfers, mem_map] at ht'
    obtain ⟨t, ht, rfl⟩ := ht'
    rw [linked_state] at hstate
    rw [linked_id]
    exact hs.unreleased t ht hstate
  · intro t' ht' hstate hprimary
    rw [htransfers, mem_map] at ht'
    obtain ⟨t, ht, rfl⟩ := ht'
    rw [linked_state] at hstate
    obtain ⟨hne, hset⟩ := isSetPrimary_iff.mp hprimary
    rw [linked_id] at hset ⊢
    rcases Linkage.linked_setID p cs t with ⟨hin, hsetp⟩ | ⟨hnp, -, heq⟩
    · -- the new primary: it was in no set, so all its links are those just made
      have hp : t.id = p := hset.symm.trans hsetp
      have hold : ∀ e ∈ h.links, e.1 ≠ t.id := fun e he heid =>
        hs.setID_ne_id ht (hunlinked t ht hin) (hs.primary t ht e he heid)
      have hsub : (h.next (.linkSet p cs)).waitingFor t.id ⊆ cs.toFinset := by
        intro c hc
        rw [mem_waitingFor] at hc
        rcases mem_append.mp hc.1 with he | he
        · exact absurd rfl (hold _ he)
        · exact mem_toFinset.mpr (mem_linkedBy.mp he).2.1
      have hpend : (ShareLedger.linked p cs t).setPending = cs.length := by
        simp [ShareLedger.linked, hp]
      rw [hpend]
      exact Int.ofNat_le.mpr ((Finset.card_le_card hsub).trans (toFinset_card_le cs))
    · rw [heq] at hprimary ⊢
      refine le_trans ?_ (hs.pending t ht hstate hprimary)
      refine Int.ofNat_le.mpr (Finset.card_le_card fun c hc => ?_)
      rw [mem_waitingFor] at hc ⊢
      refine ⟨?_, hc.2⟩
      rcases mem_append.mp hc.1 with he | he
      · exact he
      · exact absurd (mem_linkedBy.mp he).1 hnp

theorem released_subset_waitingFor (hs : Sets h) {p : ShareTransfer} (hp : p ∈ h.ledger.transfers)
    (ht : t ∈ (h.ledger.observe held now tm).released) (htp : contributes t p) :
    t.id ∈ h.waitingFor p.id := by
  rw [observe_released] at ht
  obtain ⟨as, r, bs, hrows, hskip, rfl⟩ := exists_of_mem_releasedFrom ht
  have hr : r ∈ h.ledger.rows held := by simp [hrows]
  have hmem := h.ledger.row_mem hr
  have hstate : r.t.state = .releasing := by
    refine h.ledger.ok_releasing held hr ?_
    have := Cycle.releasable_of_skips_eq_false hskip
    simp only [after_releasable] at this
    simp [Row.ok, this]
  have htp' : contributes r.t p := htp
  have hlink := hs.mem_links hmem (hs.ids.named _ (hs.ids.known p hp)).2 htp'
  exact mem_waitingFor.mpr ⟨hlink, hs.unreleased r.t hmem hstate⟩

theorem observe (hs : Sets h) (held : Held) (now : Int) (tm : ShareTimings) :
    Sets (h.next (.observe held now tm)) := by
  have hids := hs.ids.next (.observe held now tm) trivial
  have hplace : Static ShareTransfer.place := fun _ => rfl
  refine { toLinkage := hs.toLinkage.of_sublist hids
             (hplace.map_sublist (h.ledger.observe_fixed_sublist held now tm)) rfl (h.known_next _)
           unreleased := ?_, pending := ?_ }
  · intro u hu hstate
    have hnot := h.ledger.id_not_mem_released held now tm hs.ids.nodup hu hstate
    obtain ⟨r, hr, hrs, -, -, -, rfl⟩ := h.ledger.exists_row_of_releasing held now tm hu hstate
    have hmem := h.ledger.row_mem hr
    rw [mem_enteredIDs_observe]
    rintro (hin | hin)
    · exact hs.unreleased r.t hmem hrs hin
    · exact hnot hin
  · intro u hu hstate hprimary
    obtain ⟨r, hr, hrs, -, -, -, rfl⟩ := h.ledger.exists_row_of_releasing held now tm hu hstate
    have hmem := h.ledger.row_mem hr
    have hold := hs.pending r.t hmem hrs hprimary
    set rel := (h.ledger.observe held now tm).released with hrel
    -- the contributors released this cycle are distinct and were waited for
    have hnodup : ((contributionsTo r.t rel).map (·.id)).Nodup := by
      have hid : Static (fun t : ShareTransfer => t.id) := fun _ => rfl
      exact (hs.ids.nodup.sublist (hid.map_sublist
        (h.ledger.observe_released_fixed_sublist held now tm))).sublist
          (filter_sublist.map _)
    have hsub : ((contributionsTo r.t rel).map (·.id)).toFinset ⊆ h.waitingFor r.t.id := by
      intro c hc
      obtain ⟨t, ht, rfl⟩ := mem_map.mp (mem_toFinset.mp hc)
      obtain ⟨ht, hcond⟩ := mem_filter.mp ht
      simp only [Bool.and_eq_true, beq_iff_eq] at hcond
      exact hs.released_subset_waitingFor hmem ht ⟨hcond.1.1, hcond.1.2.symm⟩
    have hdiff : (h.next (.observe held now tm)).waitingFor r.t.id ⊆
        h.waitingFor r.t.id \ ((contributionsTo r.t rel).map (·.id)).toFinset := by
      intro c hc
      rw [mem_waitingFor, mem_enteredIDs_observe] at hc
      rw [Finset.mem_sdiff, mem_waitingFor]
      refine ⟨⟨hc.1, fun hin => hc.2 (.inl hin)⟩, fun hin => hc.2 (.inr ?_)⟩
      exact (filter_sublist.map _).subset (mem_toFinset.mp hin)
    have hcard := (Finset.card_le_card hdiff).trans_eq (Finset.card_sdiff_of_subset hsub)
    have hle := Finset.card_le_card hsub
    rw [toFinset_card_of_nodup hnodup, length_map] at hcard hle
    change ((_ : Nat) : Int) ≤ r.t.setPending - (contributionsTo r.t rel).length
    change (((h.next (.observe held now tm)).waitingFor r.t.id).card : Int) ≤ _
    omega

theorem next (hs : Sets h) {op : LedgerOp} (hg : h.SetsGuard op) : Sets (h.next op) := by
  cases op with
  | start => exact hs.start hg
  | startFill => exact hs.startFill
  | restore => exact hg.elim
  | linkSet => exact hs.linkSet hg
  | observe held now tm => exact hs.observe held now tm
  | cancel | forget | redirect | plannedRunning | receiverFilled | takeReleased =>
    exact hs.minor rfl trivial

private theorem card_live (hs : Sets h) (held : Held) (now : Int) (tm : ShareTimings) (p : String) :
    ((h.ledger.cycle held now tm).live p) =
      (((h.ledger.rows held).filter fun r => r.isLive && r.t.setID == p).map
        (·.t.id)).toFinset.card := by
  have hnodup : (((h.ledger.rows held).filter fun r => r.isLive && r.t.setID == p).map
      (·.t.id)).Nodup := by
    refine Nodup.sublist (filter_sublist.map _) ?_
    have := hs.ids.nodup
    rwa [← h.ledger.rows_map_t held, map_map] at this
  rw [toFinset_card_of_nodup hnodup, length_map, ← countP_eq_length_filter]
  rfl

private theorem contributor_released {l : ShareLedger} {r : Row} (hr : r ∈ l.rows held)
    (hcon : r.t.isContributor = true) (hsome : r.releasable.isSome = true)
    (hback : r.holdsBack = false) : r.t.id ∈ (l.observe held now tm).released.map (·.id) := by
  obtain ⟨as, bs, hrows⟩ := append_of_mem hr
  have hprimary : r.t.isSetPrimary = false := by
    rw [ShareTransfer.isContributor, Bool.and_eq_true, Bool.not_eq_true'] at hcon
    exact hcon.2
  have hready : r.ok = true ∧ r.wrongPod = false ∧ r.t.plannedUnknown = false := by
    simp only [Row.holdsBack, hsome, hcon, Bool.true_and, Bool.and_true, Bool.or_eq_false_iff,
      Bool.not_eq_false'] at hback
    exact ⟨hback.1.1, hback.1.2, hback.2⟩
  have hskip : (l.cycle held now tm).skips
      (r.after (releasedFrom (l.cycle held now tm) [] as) (l.cycle held now tm).now) = false := by
    have hp : (r.t.after (releasedFrom (l.cycle held now tm) [] as)
        (l.cycle held now tm).now).isSetPrimary = false := hprimary
    simp only [Cycle.skips, Cycle.broken, Row.ok, Row.wrongPod, after_t, after_releasable,
      hp, Bool.false_and, Bool.or_false] at hready ⊢
    simp only [hready.1, Bool.not_true, Bool.false_or]
    exact Bool.or_eq_false_iff.mpr ⟨hready.1 ▸ hready.2.1, hready.2.2⟩
  have := mem_releasedFrom [] as bs hskip
  rw [nil_append, ← hrows, ← observe_released] at this
  exact mem_map.mpr ⟨_, this, rfl⟩

private theorem contributionsTo_before (hs : Sets h) {c : Cycle} {as bs : List Row} {r : Row}
    (hrows : h.ledger.rows held = as ++ r :: bs) :
    contributionsTo r.t (releasedFrom c [] as) = [] := by
  have horder := hs.order
  rw [← h.ledger.rows_map_t held, hrows, map_append, map_cons,
    pairwise_append] at horder
  rw [contributionsTo, filter_eq_nil_iff]
  intro t ht hcond
  simp only [Bool.and_eq_true, beq_iff_eq] at hcond
  obtain ⟨as', r', bs', has, -, rfl⟩ := exists_of_mem_releasedFrom ht
  refine horder.2.2 r'.t (mem_map_of_mem (by simp [has])) r.t mem_cons_self ?_
  exact ⟨hcond.1.1, hcond.1.2.symm⟩

/-- In a guarded Observe, a primary that is released has had every contributor released. -/
theorem contributors_released (hs : Sets h) (hg : h.SetsGuard (.observe held now tm))
    {p : ShareTransfer} (hp : p ∈ (h.ledger.observe held now tm).released)
    (hprimary : p.isSetPrimary = true) {c : String} (hc : c ∈ h.linkedTo p.id) :
    c ∈ (h.next (.observe held now tm)).enteredIDs := by
  rw [mem_enteredIDs_observe, or_iff_not_imp_left]
  intro hnew
  rw [observe_released] at hp
  obtain ⟨as, r, bs, hrows, hskip, rfl⟩ := exists_of_mem_releasedFrom hp
  rw [nil_append] at hskip
  have hr : r ∈ h.ledger.rows held := by simp [hrows]
  have hmem (r' : Row) (hr' : r' ∈ h.ledger.rows held) := h.ledger.row_mem hr'
  have hok : r.ok = true := by
    have := Cycle.releasable_of_skips_eq_false hskip
    rw [after_releasable] at this
    simp [Row.ok, this]
  have hshown : shownReleasing held r.t := shownReleasing_of_ok hr hok
  have hprimary' : r.t.isSetPrimary = true := hprimary
  have hc' : c ∈ h.linkedTo r.t.id := hc
  -- at its turn the primary was neither waiting nor broken, with its counter untouched
  have hturn : (h.ledger.cycle held now tm).waiting r.t.id = false ∧
      r.t.setPending ≤ (h.ledger.cycle held now tm).live r.t.id := by
    have hp : (r.t.after (releasedFrom (h.ledger.cycle held now tm) [] as)
        (h.ledger.cycle held now tm).now).isSetPrimary = true := hprimary
    have hpend : (r.t.after (releasedFrom (h.ledger.cycle held now tm) [] as)
        (h.ledger.cycle held now tm).now).setPending = r.t.setPending := by
      rw [ShareTransfer.after, hs.contributionsTo_before hrows]
      simp
    simp only [Cycle.skips, Cycle.broken, after_t, hp, hpend, id_after,
      Bool.true_and, Bool.or_eq_false_iff, decide_eq_false_iff_not, not_lt] at hskip
    exact ⟨hskip.1.1.1.2, hskip.1.1.2⟩
  -- the contributors still listed are as many as those waited for, so they are the same
  have hlive : (((h.ledger.rows held).filter fun r' => r'.isLive && r'.t.setID == r.t.id).map
      (·.t.id)).toFinset = h.waitingFor r.t.id := by
    refine Finset.eq_of_subset_of_card_le ?_ ?_
    · intro id hid
      obtain ⟨r', hr', rfl⟩ := mem_map.mp (mem_toFinset.mp hid)
      obtain ⟨hr', hcond⟩ := mem_filter.mp hr'
      simp only [Row.isLive, Bool.and_eq_true, beq_iff_eq] at hcond
      have hnamed := hs.ids.named _ (hs.ids.known _ (hmem r hr))
      exact mem_waitingFor.mpr ⟨hs.mem_links (hmem r' hr') hnamed.2 ⟨hcond.1.2, hcond.2⟩,
        hs.unreleased _ (hmem r' hr') hcond.1.1⟩
    · have hcard := hs.card_live held now tm r.t.id
      have hpend := hs.pending r.t (hmem r hr) hshown.1 hprimary'
      rw [← hcard]
      have := hturn.2
      omega
  have hwait : c ∈ h.waitingFor r.t.id := mem_waitingFor.mpr ⟨mem_linkedTo.mp hc', hnew⟩
  rw [← hlive] at hwait
  obtain ⟨r', hr', rfl⟩ := mem_map.mp (mem_toFinset.mp hwait)
  obtain ⟨hr', hcond⟩ := mem_filter.mp hr'
  simp only [Row.isLive, Bool.and_eq_true, beq_iff_eq] at hcond
  have hshown' := hg r.t (hmem r hr) hprimary' hshown r'.t (hmem r' hr') hcond.1.1
    ⟨hcond.1.2, hcond.2⟩
  refine contributor_released hr' hcond.1.2 ((isSome_releasable_of_mem_scan hr').mpr hshown') ?_
  have hnone := hturn.1
  simp only [ShareLedger.cycle, Cycle.of, any_eq_false, Bool.and_eq_true, beq_iff_eq,
    not_and] at hnone
  rw [← Bool.not_eq_true]
  exact fun hback => hnone r' hr' hback hcond.2

end Sets

/-- In every run whose steps meet `SetsGuard`, a donor set's primary enters Filling only
in an Observe by whose end every contributor linked to it has entered Filling. -/
theorem primary_released_with_contributors (incarnation : String) (ops : List LedgerOp)
    (held : Held) (now : Int) (tm : ShareTimings)
    (hrun : Keeps History.next SetsGuard (.init incarnation) (ops ++ [.observe held now tm])) :
    ∀ p ∈ ((run incarnation ops).ledger.observe held now tm).released, p.isSetPrimary = true →
      ∀ c ∈ (run incarnation ops).linkedTo p.id,
        c ∈ ((run incarnation ops).next (.observe held now tm)).enteredIDs := by
  obtain ⟨hops, hlast⟩ := hrun.last
  have hsets : Sets (run incarnation ops) :=
    hops.invariant Sets (fun _ _ hs hg => hs.next hg) (Sets.init incarnation)
  intro p hp hprimary c hc
  exact hsets.contributors_released hlast hp hprimary hc

/-- A primary of donor `a` and a contributor of donor `b`, started and linked at time 0. -/
def pairOps (tm : ShareTimings) : List LedgerOp :=
  let held : Held := GoMap.ofList [("a", 8), ("b", 8), ("r", 0)]
  [.start { donor := "a", receiver := "r", gpus := 8, donorGPUs := 4, setID := "pending" } ""
      held 0 tm,
    .start { donor := "b", donorGPUs := 4, setID := "pending" } "" held 0 tm,
    .linkSet "i-t1-" ["i-t2-"]]

/-- Both donors have fallen by their replica: primary and contributor are released together. -/
theorem primary_released_with_contributors_pair :
    let tm : ShareTimings := { window := 5, releaseTimeout := 10, fillTimeout := 10 }
    let held : Held := GoMap.ofList [("a", 4), ("b", 4), ("r", 0)]
    ((run "i" (pairOps tm)).ledger.observe held 1 tm).released.map (·.id) = ["i-t1-", "i-t2-"] ∧
      ∀ p ∈ ((run "i" (pairOps tm)).ledger.observe held 1 tm).released, p.isSetPrimary = true →
        ∀ c ∈ (run "i" (pairOps tm)).linkedTo p.id,
          c ∈ ((run "i" (pairOps tm)).next (.observe held 1 tm)).enteredIDs := by
  intro tm held
  exact ⟨by decide, primary_released_with_contributors "i" (pairOps tm) held 1 tm (by decide)⟩

/-- With the contributor's donor missing from the reading, the primary is released alone. -/
theorem primary_released_alone :
    ∃ ops held now tm, ∃ p ∈ ((run "i" ops).ledger.observe held now tm).released,
      p.isSetPrimary = true ∧ ∃ c ∈ (run "i" ops).linkedTo p.id,
        c ∉ ((run "i" ops).next (.observe held now tm)).enteredIDs := by
  refine ⟨pairOps { window := 5, releaseTimeout := 10, fillTimeout := 10 },
    GoMap.ofList [("a", 4), ("r", 0)], 1,
    { window := 5, releaseTimeout := 10, fillTimeout := 10 }, ?_⟩
  decide

end History

end LlmScaler.Ledger
