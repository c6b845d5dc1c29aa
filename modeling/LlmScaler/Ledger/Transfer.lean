import Mathlib

/-!
# Transfers of the utilization-share ledger

A transfer moves one receiver replica: its donor gives GPUs and its receiver gets
them once they are released. Times and durations are integers on one clock, role
keys are strings with the empty string for "no role", and GPU counts are naturals.
The identifiers the ledger issues carry a counter, and the counter can be read back
from the identifier whatever its random suffix is.
-/

namespace LlmScaler.Ledger

/-- A transfer's place in the state machine between two cycles. -/
inductive ShareTransferState where
  /-- The donor's target is lowered; the receiver's is not. -/
  | releasing
  /-- Released: the receiver's target is raised and its pods are not yet scheduled. -/
  | filling
  deriving DecidableEq, Repr

/-- How a transfer left the ledger. -/
inductive ShareTransferOutcome where
  | done
  | fillTimeout
  | aborted
  | wrongPod
  deriving DecidableEq, Repr

/-- One transfer, with the fields the ledger itself reads or writes. -/
structure ShareTransfer where
  id : String := ""
  /-- Role key of the donor; empty for a fill from idle GPUs. -/
  donor : String := ""
  /-- Role key of the receiver; empty for a refill, a return or a set's contributor. -/
  receiver : String := ""
  receiverVariant : String := ""
  gpus : Nat := 0
  donorGPUs : Nat := 0
  entitled : Bool := false
  returned : Bool := false
  urgent : Bool := false
  /-- Links the transfers of one donor set; empty for a single-donor transfer. -/
  setID : String := ""
  state : ShareTransferState := .releasing
  started : Int := 0
  deadline : Int := 0
  /-- The donor's held GPUs when the transfer started, less what others released since. -/
  donorBase : Int := 0
  /-- The receiver's GPUs when the transfer entered Filling, plus what landed since. -/
  receiverBase : Int := 0
  fillingSince : Int := 0
  receiverBaseUnset : Bool := false
  /-- On a set's primary, the GPUs its contributors have released while it waits. -/
  setReleased : Nat := 0
  /-- On a set's primary, how many contributors have not released yet. -/
  setPending : Int := 0
  plannedRunning : Bool := false
  plannedUnknown : Bool := false
  deriving DecidableEq, Repr

namespace ShareTransfer

/-- Whether the transfer carries a donor set's receiver. -/
def isSetPrimary (t : ShareTransfer) : Bool :=
  t.setID != "" && t.setID == t.id

/-- A member of a donor set that is not its primary. -/
def isContributor (t : ShareTransfer) : Bool :=
  t.setID != "" && !t.isSetPrimary

/-- The key a transfer's excess is summed under: its set, or itself. -/
def setKey (t : ShareTransfer) : String :=
  if t.setID != "" then t.setID else t.id

/-- Still releasing, for a receiver, not part of a donor set, and not a return. -/
def redirectable (t : ShareTransfer) : Bool :=
  t.state == .releasing && t.receiver != "" && t.setID == "" && !t.returned

theorem isSetPrimary_iff {t : ShareTransfer} :
    t.isSetPrimary = true ↔ t.setID ≠ "" ∧ t.setID = t.id := by
  simp [isSetPrimary]

theorem isContributor_iff {t : ShareTransfer} :
    t.isContributor = true ↔ t.setID ≠ "" ∧ t.setID ≠ t.id := by
  simp only [isContributor, Bool.and_eq_true, Bool.not_eq_true', bne_iff_ne]
  rw [← Bool.not_eq_true, isSetPrimary_iff]
  tauto

theorem setKey_eq_id_iff {t : ShareTransfer} : t.setKey = t.id ↔ t.isContributor = false := by
  rw [← Bool.not_eq_true, isContributor_iff, setKey]
  by_cases h : t.setID = "" <;> simp [h]

end ShareTransfer

/-- A transfer that left the ledger in a cycle. -/
structure ShareTransferEnd where
  transfer : ShareTransfer
  outcome : ShareTransferOutcome
  /-- Set on an abort that is not the donor's failure when its donor had released. -/
  donorReleased : Bool := false
  deriving DecidableEq, Repr

/-- The derived timings the ledger runs with. -/
structure ShareTimings where
  window : Int
  releaseTimeout : Int
  fillTimeout : Int
  reversalHold : Int := 0
  swingWindow : Int := 0
  swingReversals : Int := 0
  deriving DecidableEq, Repr

/-- The changes of direction that make a swing when the policy sets none. -/
def defaultSwingReversals : Int := 3

/-- The changes of direction a swing takes. -/
def ShareTimings.reversals (tm : ShareTimings) : Int :=
  if tm.swingReversals > 0 then tm.swingReversals else defaultSwingReversals

/-- What an issued identifier is for: a transfer or a fill from idle GPUs. -/
inductive IDKind where
  | transfer
  | fill
  deriving DecidableEq, Repr

/-- The letter before the counter of an issued identifier. -/
def IDKind.letter : IDKind → Char
  | .transfer => 't'
  | .fill => 'f'

/-- The identifier with counter `n`: `incarnation-tN-salt` or `incarnation-fN-salt`. -/
def issuedID (incarnation : String) (kind : IDKind) (n : Nat) (salt : String) : String :=
  incarnation ++ String.ofList ('-' :: kind.letter :: (Nat.repr n).toList ++ '-' :: salt.toList)

private theorem digits_append_dash_inj {m n : Nat} {s t : List Char}
    (h : (Nat.repr m).toList ++ '-' :: s = (Nat.repr n).toList ++ '-' :: t) : m = n := by
  have hdash (k : Nat) : '-' ∉ (Nat.repr k).toList := by
    intro hmem
    rw [Nat.toList_repr] at hmem
    have := Nat.isDigit_of_mem_toDigits (by omega) (by omega) hmem
    simp [Char.isDigit] at this
  have htake : ∀ (a : List Char) (u : List Char), '-' ∉ a →
      (a ++ '-' :: u).takeWhile (· != '-') = a := by
    intro a u ha
    rw [List.takeWhile_append_of_pos fun c hc => by simpa using ne_of_mem_of_not_mem hc ha]
    simp
  have hl := htake _ s (hdash m)
  rw [h, htake _ t (hdash n), Nat.toList_repr, Nat.toList_repr] at hl
  rw [← Nat.ofDigitChars_toDigits (n := m) (by omega) (le_refl 10), ← hl,
    Nat.ofDigitChars_toDigits (by omega) le_rfl]

/-- An issued identifier determines its counter, whatever was issued and with which suffix. -/
theorem issuedID_counter {incarnation : String} {k k' : IDKind} {n n' : Nat} {s s' : String}
    (h : issuedID incarnation k n s = issuedID incarnation k' n' s') : n = n' := by
  have hl := congrArg String.toList h
  simp only [issuedID, String.toList_append, String.toList_ofList, List.append_cancel_left_eq,
    List.cons_append, List.cons.injEq, true_and] at hl
  exact digits_append_dash_inj hl.2

theorem issuedID_ne_empty (incarnation : String) (k : IDKind) (n : Nat) (s : String) :
    issuedID incarnation k n s ≠ "" := by
  intro h
  have hl := congrArg String.toList h
  simp [issuedID] at hl

end LlmScaler.Ledger
