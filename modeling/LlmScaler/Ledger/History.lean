import LlmScaler.Core.Run
import LlmScaler.Ledger.ObserveSpec

/-!
# Runs of the ledger and what they leave on record

A run is a list of ledger operations taken in any order. Beside the ledger, a
history keeps what the operations did: the transfers started and the donor counts
they started from, the links made, the transfers that entered Filling, the ends, and
the readings. Nothing in the ledger reads the record.
-/

namespace LlmScaler.Ledger

open LlmScaler.Core ShareLedger

/-- One operation of the ledger, with everything its caller passes. -/
inductive LedgerOp where
  | start (t : ShareTransfer) (salt : String) (held : Held) (now : Int) (tm : ShareTimings)
  | startFill (receiver variant : String) (gpus : Nat) (urgent : Bool) (salt : String)
      (held : Held) (now : Int) (tm : ShareTimings)
  | restore (t : ShareTransfer) (heldDonor : Int)
  | linkSet (primary : String) (contributors : List String)
  | cancel (id : String) (now : Int) (tm : ShareTimings)
  | forget (id : String) (tm : ShareTimings)
  | redirect (id : String) (hold : Int)
  | plannedRunning (running unknown : GoMap String Bool)
  | receiverFilled (filled : Option Held)
  | takeReleased
  | observe (held : Held) (now : Int) (tm : ShareTimings)

/-- A ledger and the record of the run that led to it. -/
structure History where
  ledger : ShareLedger
  /-- The transfers started or restored, each as it was recorded then. -/
  starts : List ShareTransfer := []
  links : List (String × String) := []
  /-- The transfers that entered Filling, each as it was then. -/
  entered : List ShareTransfer := []
  ended : List ShareTransferEnd := []
  readings : List Held := []
  fills : List Held := []

/-- The history before any operation. -/
def History.init (incarnation : String) : History := { ledger := newShareLedger incarnation }

/-- The contributors a `linkSet` links: those it names that are in the ledger. -/
def ShareLedger.linkedBy (l : ShareLedger) (primary : String) (contributors : List String) :
    List (String × String) :=
  (l.transfers.filter fun t => t.id ∈ contributors ∧ t.id ≠ primary).map fun t => (primary, t.id)

def History.next (h : History) : LedgerOp → History
  | .start t salt held now tm =>
    { h with
      ledger := h.ledger.start t salt held now tm
      starts := h.starts ++ [h.ledger.admitted t salt held now tm]
      readings := h.readings ++ [held] }
  | .startFill receiver variant gpus urgent salt held now tm =>
    { h with
      ledger := h.ledger.startFill receiver variant gpus urgent salt held now tm
      entered := h.entered ++ [h.ledger.idleFill receiver variant gpus urgent salt held now tm] }
  | .restore t heldDonor =>
    { h with
      ledger := h.ledger.restore t heldDonor
      starts := h.starts ++ [ShareLedger.restored t heldDonor]
      readings := h.readings ++ [GoMap.ofList [(t.donor, heldDonor)]] }
  | .linkSet primary contributors =>
    { h with
      ledger := h.ledger.linkSet primary contributors
      links := h.links ++ h.ledger.linkedBy primary contributors }
  | .cancel id now tm => { h with ledger := (h.ledger.cancel id now tm).1 }
  | .forget id tm => { h with ledger := h.ledger.forget id tm }
  | .redirect id hold => { h with ledger := (h.ledger.redirect id hold).1 }
  | .plannedRunning running unknown =>
    { h with ledger := h.ledger.plannedRunning running unknown }
  | .receiverFilled filled => { h with ledger := h.ledger.receiverFilled filled }
  | .takeReleased => { h with ledger := h.ledger.takeReleased.1 }
  | .observe held now tm =>
    let o := h.ledger.observe held now tm
    { h with
      ledger := o.ledger
      entered := h.entered ++ o.released
      ended := h.ended ++ o.ended
      readings := h.readings ++ [held]
      fills := h.fills ++ [h.ledger.rheld held] }

def History.run (incarnation : String) (ops : List LedgerOp) : History :=
  runFrom History.next (.init incarnation) ops

/-- The operations that only drop transfers or change fields outside the release itself. -/
def LedgerOp.minor : LedgerOp → Bool
  | .cancel .. | .forget .. | .redirect .. | .plannedRunning .. | .receiverFilled ..
  | .takeReleased => true
  | _ => false

/-- The changes a minor operation makes to a transfer it keeps. -/
inductive MinorChange (t : ShareTransfer) : ShareTransfer → Prop
  | same : MinorChange t t
  | redirected : t.redirectable = true → MinorChange t (ShareLedger.redirectedTransfer t)
  | planned (running unknown : Bool) :
      MinorChange t { t with plannedRunning := running, plannedUnknown := unknown }

private theorem minorChange_same (ts : List ShareTransfer) : List.Forall₂ MinorChange ts ts :=
  List.forall₂_same.mpr fun _ _ => .same

private theorem forall₂_mapFirst {p : ShareTransfer → Bool} {f : ShareTransfer → ShareTransfer}
    (h : ∀ t, p t = true → MinorChange t (f t)) (ts : List ShareTransfer) :
    List.Forall₂ MinorChange ts (ShareLedger.mapFirst p f ts) := by
  induction ts with
  | nil => exact .nil
  | cons t ts ih =>
    rw [ShareLedger.mapFirst]
    split
    · next hp => exact .cons (h t hp) (minorChange_same ts)
    · exact .cons .same ih

private theorem map_eq_of_minorChange {α : Type*} {k : ShareTransfer → α}
    (hk : ∀ t t', MinorChange t t' → k t' = k t) {ts us : List ShareTransfer}
    (h : List.Forall₂ MinorChange ts us) : us.map k = ts.map k := by
  induction h with
  | nil => rfl
  | cons hchange _ ih => rw [List.map_cons, List.map_cons, hk _ _ hchange, ih]

theorem History.minor_changes (h : History) {op : LedgerOp} (hop : op.minor = true) :
    ∃ ts, ts.Sublist h.ledger.transfers ∧
      List.Forall₂ MinorChange ts (h.next op).ledger.transfers := by
  cases op with
  | start | startFill | restore | linkSet | observe => simp [LedgerOp.minor] at hop
  | cancel id now tm =>
    change ∃ ts, _ ∧ List.Forall₂ _ ts (h.ledger.cancel id now tm).1.transfers
    rcases h.ledger.cancel_withoutMoves id now tm with heq | ⟨-, heq⟩
    · rw [(eq_of_withoutMoves heq).1]
      exact ⟨_, List.Sublist.refl _, minorChange_same _⟩
    · rw [(eq_of_withoutMoves heq).1]
      exact ⟨_, List.eraseP_sublist, minorChange_same _⟩
  | forget id tm =>
    change ∃ ts, _ ∧ List.Forall₂ _ ts (h.ledger.forget id tm).transfers
    rw [(eq_of_withoutMoves (h.ledger.forget_withoutMoves id tm)).1]
    exact ⟨_, List.eraseP_sublist, minorChange_same _⟩
  | redirect id hold =>
    refine ⟨h.ledger.transfers, List.Sublist.refl _, ?_⟩
    change List.Forall₂ _ _ (h.ledger.redirect id hold).1.transfers
    unfold ShareLedger.redirect
    split
    · exact minorChange_same _
    · refine forall₂_mapFirst (fun t ht => ?_) _
      simp only [Bool.and_eq_true] at ht
      exact .redirected ht.2
  | plannedRunning running unknown =>
    refine ⟨h.ledger.transfers, List.Sublist.refl _, ?_⟩
    change List.Forall₂ _ _ (h.ledger.plannedRunning running unknown).transfers
    rw [ShareLedger.plannedRunning, List.forall₂_map_right_iff, List.forall₂_same]
    exact fun t _ => .planned (running.get t.id) (unknown.get t.id)
  | receiverFilled => exact ⟨_, List.Sublist.refl _, minorChange_same _⟩
  | takeReleased => exact ⟨_, List.Sublist.refl _, minorChange_same _⟩

/-- Minor operations keep the order of the transfers and every figure they do not change. -/
theorem History.minor_transfers {α : Type*} {k : ShareTransfer → α}
    (hk : ∀ t t', MinorChange t t' → k t' = k t) (h : History) {op : LedgerOp}
    (hop : op.minor = true) :
    ((h.next op).ledger.transfers.map k).Sublist (h.ledger.transfers.map k) := by
  obtain ⟨ts, hsub, hall⟩ := h.minor_changes hop
  rw [map_eq_of_minorChange hk hall]
  exact hsub.map k

theorem History.minor_record (h : History) {op : LedgerOp} (hop : op.minor = true) :
    (h.next op).starts = h.starts ∧ (h.next op).links = h.links ∧
      (h.next op).entered = h.entered ∧ (h.next op).ended = h.ended ∧
      (h.next op).readings = h.readings ∧ (h.next op).fills = h.fills ∧
      (h.next op).ledger.nextID = h.ledger.nextID ∧
      (h.next op).ledger.incarnation = h.ledger.incarnation := by
  cases op with
  | start | startFill | restore | linkSet | observe => simp [LedgerOp.minor] at hop
  | cancel id now tm =>
    refine ⟨rfl, rfl, rfl, rfl, rfl, rfl, ?_⟩
    change (h.ledger.cancel id now tm).1.nextID = _ ∧ (h.ledger.cancel id now tm).1.incarnation = _
    rcases h.ledger.cancel_withoutMoves id now tm with heq | ⟨-, heq⟩
    · have := eq_of_withoutMoves heq
      exact ⟨this.2.1, this.2.2.1⟩
    · have := eq_of_withoutMoves heq
      exact ⟨this.2.1, this.2.2.1⟩
  | forget id tm =>
    have := eq_of_withoutMoves (h.ledger.forget_withoutMoves id tm)
    exact ⟨rfl, rfl, rfl, rfl, rfl, rfl, this.2.1, this.2.2.1⟩
  | redirect id hold =>
    refine ⟨rfl, rfl, rfl, rfl, rfl, rfl, ?_⟩
    change (h.ledger.redirect id hold).1.nextID = _ ∧ (h.ledger.redirect id hold).1.incarnation = _
    unfold ShareLedger.redirect
    split <;> exact ⟨rfl, rfl⟩
  | plannedRunning => exact ⟨rfl, rfl, rfl, rfl, rfl, rfl, rfl, rfl⟩
  | receiverFilled => exact ⟨rfl, rfl, rfl, rfl, rfl, rfl, rfl, rfl⟩
  | takeReleased => exact ⟨rfl, rfl, rfl, rfl, rfl, rfl, rfl, rfl⟩

end LlmScaler.Ledger
