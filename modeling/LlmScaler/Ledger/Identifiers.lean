import LlmScaler.Ledger.History

/-!
# Identifiers in a run

Every identifier a run has seen is on its record, the transfers in the ledger carry
distinct ones, and the counter keeps the next one fresh. A restored transfer brings
its own identifier, written by an earlier incarnation.
-/

namespace LlmScaler.Ledger

open LlmScaler.Core List

namespace History

/-- The identifiers a run has seen. -/
def known (h : History) : List String := h.starts.map (·.id) ++ h.entered.map (·.id)

/-- A mark that an earlier incarnation wrote, for a transfer the run has not seen. -/
def restorable (h : History) (t : ShareTransfer) : Prop :=
  t.id ∉ h.known ∧ t.id ≠ "" ∧ t.id ≠ "pending" ∧
    ¬ (h.ledger.incarnation.toList ++ ['-']) <+: t.id.toList

instance (h : History) (t : ShareTransfer) : Decidable (h.restorable t) :=
  inferInstanceAs (Decidable (_ ∧ _ ∧ _ ∧ _))

/-- Identifiers are distinct, on record, and never issued twice. -/
structure IDs (h : History) : Prop where
  fresh : ∀ k n s, h.ledger.nextID < n → issuedID h.ledger.incarnation k n s ∉ h.known
  known : ∀ t ∈ h.ledger.transfers, t.id ∈ h.known
  nodup : (h.ledger.transfers.map (·.id)).Nodup
  named : ∀ id ∈ h.known, id ≠ "" ∧ id ≠ "pending"

/-- What a run has to promise about the identifiers it brings in. -/
def IDsGuard (h : History) : LedgerOp → Prop
  | .restore t _ => h.restorable t
  | _ => True

/-- Nothing leaves the record. -/
theorem known_next (h : History) (op : LedgerOp) : ∀ id ∈ h.known, id ∈ (h.next op).known := by
  intro id hid
  cases op with
  | start | startFill | restore | observe =>
    simp only [known, next, map_append, mem_append] at hid ⊢
    tauto
  | linkSet | cancel | forget | redirect | plannedRunning | receiverFilled | takeReleased =>
    exact hid

end History

theorem prefix_issuedID (incarnation : String) (k : IDKind) (n : Nat) (s : String) :
    (incarnation.toList ++ ['-']) <+: (issuedID incarnation k n s).toList := by
  refine ⟨k.letter :: ((Nat.repr n).toList ++ '-' :: s.toList), ?_⟩
  simp [issuedID]

theorem issuedID_ne_pending (incarnation : String) (k : IDKind) (n : Nat) (s : String) :
    issuedID incarnation k n s ≠ "pending" := by
  intro h
  have hmem : '-' ∈ (issuedID incarnation k n s).toList :=
    (prefix_issuedID incarnation k n s).subset (by simp)
  rw [h] at hmem
  exact absurd hmem (by decide)

namespace History.IDs

variable {h h' : History}

theorem init (incarnation : String) : IDs (.init incarnation) where
  fresh := by simp [History.known, History.init]
  known := by simp [History.init, newShareLedger]
  nodup := by simp [History.init, newShareLedger]
  named := by simp [History.known, History.init]

theorem of_sublist (hi : IDs h)
    (hids : (h'.ledger.transfers.map (·.id)).Sublist (h.ledger.transfers.map (·.id)))
    (hknown : ∀ id, id ∈ h'.known ↔ id ∈ h.known)
    (hnext : h'.ledger.nextID = h.ledger.nextID)
    (hinc : h'.ledger.incarnation = h.ledger.incarnation) : IDs h' where
  fresh k n s hn := by
    rw [hnext] at hn
    rw [hinc, hknown]
    exact hi.fresh k n s hn
  known t ht := by
    have hmem : t.id ∈ h.ledger.transfers.map (·.id) := hids.subset (mem_map_of_mem ht)
    obtain ⟨u, hu, hid⟩ := mem_map.mp hmem
    rw [hknown, ← hid]
    exact hi.known u hu
  nodup := hi.nodup.sublist hids
  named id hid := hi.named id ((hknown id).mp hid)

theorem of_append (hi : IDs h) {t : ShareTransfer}
    (htransfers : h'.ledger.transfers = h.ledger.transfers ++ [t])
    (hknown : ∀ id, id ∈ h'.known ↔ id ∈ h.known ∨ id = t.id)
    (hnext : h.ledger.nextID ≤ h'.ledger.nextID)
    (hinc : h'.ledger.incarnation = h.ledger.incarnation)
    (hnew : t.id ∉ h.known) (hnamed : t.id ≠ "" ∧ t.id ≠ "pending")
    (hlater : ∀ k n s, h'.ledger.nextID < n → issuedID h.ledger.incarnation k n s ≠ t.id) :
    IDs h' where
  fresh k n s hn := by
    rw [hinc, hknown, not_or]
    exact ⟨hi.fresh k n s (by omega), hlater k n s hn⟩
  known u hu := by
    rw [htransfers, mem_append, mem_singleton] at hu
    rw [hknown]
    rcases hu with hu | rfl
    · exact .inl (hi.known u hu)
    · exact .inr rfl
  nodup := by
    rw [htransfers, map_append, nodup_append]
    refine ⟨hi.nodup, by simp, ?_⟩
    intro a ha b hb heq
    obtain ⟨u, hu, rfl⟩ := mem_map.mp ha
    simp only [map_cons, map_nil, mem_singleton] at hb
    exact hnew (hb ▸ heq ▸ hi.known u hu)
  named id hid := by
    rcases (hknown id).mp hid with hid | rfl
    · exact hi.named id hid
    · exact hnamed

theorem next (hi : IDs h) (op : LedgerOp) (hg : h.IDsGuard op) : IDs (h.next op) := by
  by_cases hop : op.minor = true
  · obtain ⟨hs, -, he, -, -, -, hn, hinc⟩ := h.minor_record hop
    refine hi.of_sublist (h.minor_transfers (fun t t' ht => ?_) hop) (fun id => ?_) hn hinc
    · cases ht <;> rfl
    · rw [History.known, History.known, hs, he]
  cases op with
  | start t salt held now tm =>
    have hl := ShareLedger.eq_of_withoutMoves (h.ledger.start_withoutMoves now tm t salt held)
    refine hi.of_append hl.1 (fun id => ?_) (hl.2.1 ▸ Nat.le_succ _) hl.2.2.1
      (hi.fresh _ _ _ (Nat.lt_succ_self _)) ⟨issuedID_ne_empty _ _ _ _, issuedID_ne_pending _ _ _ _⟩ ?_
    · simp only [History.known, History.next, map_append, mem_append, map_cons,
        map_nil, mem_singleton]
      tauto
    · intro k n s hn heq
      have := issuedID_counter heq
      rw [show (h.next (.start t salt held now tm)).ledger.nextID = h.ledger.nextID + 1 from hl.2.1]
        at hn
      omega
  | startFill receiver variant gpus urgent salt held now tm =>
    refine hi.of_append (t := h.ledger.idleFill receiver variant gpus urgent salt held now tm) rfl
      (fun id => ?_) (Nat.le_succ _) rfl (hi.fresh _ _ _ (Nat.lt_succ_self _))
      ⟨issuedID_ne_empty _ _ _ _, issuedID_ne_pending _ _ _ _⟩ ?_
    · simp only [History.known, History.next, map_append, mem_append, map_cons,
        map_nil, mem_singleton]
      tauto
    · intro k n s hn heq
      have := issuedID_counter heq
      change h.ledger.nextID + 1 < n at hn
      omega
  | restore t heldDonor =>
    obtain ⟨hnew, hne, hnp, hpre⟩ := hg
    refine hi.of_append (t := ShareLedger.restored t heldDonor) rfl (fun id => ?_) le_rfl rfl hnew
      ⟨hne, hnp⟩ ?_
    · simp only [History.known, History.next, map_append, mem_append, map_cons,
        map_nil, mem_singleton]
      tauto
    · intro k n s _ heq
      have hprefix := prefix_issuedID h.ledger.incarnation k n s
      rw [heq] at hprefix
      exact hpre hprefix
  | linkSet primary contributors =>
    refine hi.of_sublist ?_ (fun id => Iff.rfl) rfl rfl
    change ((h.ledger.linkSet primary contributors).transfers.map (·.id)).Sublist _
    rw [h.ledger.linkSet_map fun _ _ _ => rfl]
  | observe held now tm =>
    have hid : Static (fun t : ShareTransfer => t.id) := fun _ => rfl
    refine hi.of_sublist (hid.map_sublist (h.ledger.observe_fixed_sublist held now tm))
      (fun id => ?_) rfl rfl
    have hrel := hid.map_sublist (h.ledger.observe_released_fixed_sublist held now tm)
    simp only [History.known, History.next, map_append, mem_append]
    refine ⟨?_, by tauto⟩
    rintro (hs | he | hr)
    · exact .inl hs
    · exact .inr he
    · obtain ⟨u, hu, rfl⟩ := mem_map.mp (hrel.subset hr)
      simpa [History.known] using hi.known u hu
  | cancel | forget | redirect | plannedRunning | receiverFilled | takeReleased =>
    exact absurd rfl hop

/-- In every run whose restored marks were written by earlier incarnations, no identifier is given
twice, and those of the transfers in the ledger are distinct and on record. -/
theorem ids_of_run (incarnation : String) {ops : List LedgerOp}
    (h : Keeps History.next History.IDsGuard (.init incarnation) ops) :
    IDs (History.run incarnation ops) :=
  h.invariant IDs (fun _ op hi hg => hi.next op hg) (.init incarnation)

/-- A mark of incarnation `a` restored, then a transfer started. -/
theorem ids_of_restored :
    IDs (.run "b" [.restore { id := "a-t1-x" } 1, .start {} "x" ∅ 0 ⟨1, 1, 1, 0, 0, 0⟩]) :=
  ids_of_run "b" ⟨(by decide : (History.init "b").restorable _), trivial, trivial⟩

end History.IDs

end LlmScaler.Ledger
