import LlmScaler.Core.GoMap
import LlmScaler.Ledger.Transfer

/-!
# The utilization-share ledger and its operations

The ledger holds a group's transfers across cycles and the move history its
anti-oscillation rules read. Every operation but `observe` is here: starting and
linking transfers, the idle fills, cancelling, forgetting, redirecting to a wake,
and the three figures the planner reads (`committed`, `unreleased`, `promised`).
-/

namespace LlmScaler.Ledger

open LlmScaler.Core

/-- Held or filled GPUs per role, as one cycle reads them. -/
abbrev Held := GoMap String Int

/-- A redirected transfer's GPUs, held for the woken model. -/
structure ShareWakeHold where
  gpus : Nat
  id : String
  hold : Int
  /-- When the hold ends; none while the release is still under way. -/
  untilTime : Option Int := none
  deriving DecidableEq, Repr

/-- One role's side of a transfer. -/
structure ShareMove where
  time : Int
  received : Bool
  id : String := ""
  deriving DecidableEq, Repr

/-- The ledger of one group: its transfers in start order and the move history. -/
structure ShareLedger where
  transfers : List ShareTransfer := []
  nextID : Nat := 0
  incarnation : String
  wakeHolds : List ShareWakeHold := []
  aborts : GoMap String Nat := ∅
  giveAfter : GoMap String Int := ∅
  unsteerable : GoMap String Bool := ∅
  busyUntil : GoMap String Int := ∅
  filled : Option Held := none
  lastGave : GoMap String Int := ∅
  lastGot : GoMap String Int := ∅
  noPair : GoMap (String × String) Int := ∅
  moves : GoMap String (List ShareMove) := ∅
  cancels : GoMap String (List ShareMove) := ∅
  swingUntil : GoMap String Int := ∅
  releases : List Int := []
  /-- The transfers that entered Filling since `takeReleased` was last called. -/
  released : List ShareTransfer := []

def newShareLedger (incarnation : String) : ShareLedger := { incarnation }

/-- The changes of direction within the swing window before `time`, of sorted moves. -/
def reversalsAt (tm : ShareTimings) (ms : List ShareMove) (time : Int) : Nat :=
  ((ms.zip ms.tail).takeWhile fun p => p.2.time ≤ time).countP fun p =>
    decide (time - p.1.time ≤ tm.swingWindow) && p.2.received != p.1.received

/-- When the last swing the sorted moves begin ends, if they begin one. -/
def swingEnd (tm : ShareTimings) (ms : List ShareMove) : Option Int :=
  ms.foldl (fun acc m =>
    if tm.reversals ≤ reversalsAt tm ms m.time ∧ acc.all (· < m.time + tm.swingWindow) then
      some (m.time + tm.swingWindow)
    else acc) none

/-- Binds `role` to the value, or removes it when there is none. -/
def putOrDelete (m : GoMap String Int) (role : String) : Option Int → GoMap String Int
  | some v => m.set role v
  | none => m.delete role

namespace ShareLedger

/-- Recomputes the role's last move each way and its swing from its moves. -/
def rederive (l : ShareLedger) (role : String) (tm : ShareTimings) : ShareLedger :=
  let moves := l.moves.get role
  let sorted := (moves ++ l.cancels.get role).insertionSort fun a b => a.time ≤ b.time
  { l with
    lastGot := putOrDelete l.lastGot role ((moves.filter (·.received)).getLast?.map (·.time))
    lastGave := putOrDelete l.lastGave role ((moves.filter (!·.received)).getLast?.map (·.time))
    swingUntil := putOrDelete l.swingUntil role (swingEnd tm sorted) }

/-- Notes a role's transfer direction, dropping moves too old to matter. -/
def recordMove (l : ShareLedger) (role : String) (received : Bool) (id : String) (now : Int)
    (tm : ShareTimings) : ShareLedger :=
  let keep := max tm.reversalHold (2 * tm.swingWindow)
  let kept := (l.moves.get role).filter fun m => now - m.time ≤ keep
  { l with moves := l.moves.set role (kept ++ [ShareMove.mk now received id]) }.rederive role tm

/-- Notes a cancelled transfer of the role, once per cycle and direction. -/
def recordCancel (l : ShareLedger) (role : String) (received : Bool) (now : Int)
    (tm : ShareTimings) : ShareLedger :=
  let cs := (l.cancels.get role).filter fun m => now - m.time ≤ 2 * tm.swingWindow
  if cs.any fun m => m.time == now && m.received == received then
    { l with cancels := l.cancels.set role cs }
  else
    { l with cancels := l.cancels.set role (cs ++ [ShareMove.mk now received ""]) }.rederive role tm

/-- Removes the transfer's moves from the role's history. -/
def unrecord (l : ShareLedger) (role id : String) (tm : ShareTimings) : ShareLedger :=
  if l.moves.has role then
    { l with moves := l.moves.modify role (·.filter fun m => m.id != id) }.rederive role tm
  else l

/-- The transfer `start` records: in Releasing, its donor's held GPUs as its base. -/
def admitted (l : ShareLedger) (t : ShareTransfer) (salt : String) (held : Held) (now : Int)
    (tm : ShareTimings) : ShareTransfer :=
  { t with
    id := issuedID l.incarnation .transfer (l.nextID + 1) salt
    -- a set member gives one donor replica of several, so its figure is left alone
    donorGPUs := if t.setID = "" ∧ t.donorGPUs < t.gpus then t.gpus else t.donorGPUs
    state := .releasing
    started := now
    deadline := now + tm.releaseTimeout
    donorBase := held.get t.donor }

/-- Records a newly admitted transfer, in Releasing. -/
def start (l : ShareLedger) (t : ShareTransfer) (salt : String) (held : Held) (now : Int)
    (tm : ShareTimings) : ShareLedger :=
  let t' := l.admitted t salt held now tm
  let l' := { l with nextID := l.nextID + 1, transfers := l.transfers ++ [t'] }
  if t'.entitled then l'
  else
    let l'' := l'.recordMove t'.donor false t'.id now tm
    if t'.receiver != "" then l''.recordMove t'.receiver true t'.id now tm else l''

/-- The fill `startFill` records: no donor, in Filling from the start. -/
def idleFill (l : ShareLedger) (receiver variant : String) (gpus : Nat) (urgent : Bool)
    (salt : String) (held : Held) (now : Int) (tm : ShareTimings) : ShareTransfer :=
  { id := issuedID l.incarnation .fill (l.nextID + 1) salt
    receiver, receiverVariant := variant, gpus, entitled := true, urgent, state := .filling
    started := now, deadline := now + tm.fillTimeout
    receiverBase := held.get receiver, fillingSince := now }

/-- Records a receiver raised into idle GPUs. -/
def startFill (l : ShareLedger) (receiver variant : String) (gpus : Nat) (urgent : Bool)
    (salt : String) (held : Held) (now : Int) (tm : ShareTimings) : ShareLedger :=
  { l with
    nextID := l.nextID + 1
    transfers := l.transfers ++ [l.idleFill receiver variant gpus urgent salt held now tm] }

/-- The transfer `restore` reinstates from a donor pod's mark. -/
def restored (t : ShareTransfer) (heldDonor : Int) : ShareTransfer :=
  { t with
    donorGPUs := if t.setID = "" ∧ t.donorGPUs < t.gpus then t.gpus else t.donorGPUs
    state := .releasing
    donorBase := heldDonor }

/-- Reinstates a Releasing transfer read back from its donor pods' marks after a restart. -/
def restore (l : ShareLedger) (t : ShareTransfer) (heldDonor : Int) : ShareLedger :=
  { l with transfers := l.transfers ++ [restored t heldDonor] }

/-- Makes `primary` the receiver-carrying member of a set and `contributors` the others. -/
def linkSet (l : ShareLedger) (primary : String) (contributors : List String) : ShareLedger :=
  let linked := l.transfers.map fun t =>
    if t.id = primary ∨ t.id ∈ contributors then { t with setID := primary } else t
  { l with
    transfers := linked.map fun t =>
      if t.id = primary then { t with setPending := contributors.length } else t }

def transfer (l : ShareLedger) (id : String) : Option ShareTransfer :=
  l.transfers.find? (·.id == id)

/-- The receiver of the set whose primary is `id`, while the primary is in the ledger. -/
def setReceiver (l : ShareLedger) (id : String) : String :=
  match l.transfer id with
  | some t => t.receiver
  | none => ""

/-- Drops a transfer that never took effect, and the moves recorded for it. -/
def forget (l : ShareLedger) (id : String) (tm : ShareTimings) : ShareLedger :=
  match l.transfer id with
  | none => l
  | some t =>
    let l' := { l with transfers := l.transfers.eraseP (·.id == id) }.unrecord t.donor id tm
    if t.receiver != "" then l'.unrecord t.receiver id tm else l'

/-- Removes a transfer that is still Releasing and inside the window; reports whether it did. -/
def cancel (l : ShareLedger) (id : String) (now : Int) (tm : ShareTimings) :
    ShareLedger × Bool :=
  match l.transfer id with
  | none => (l, false)
  | some t =>
    if t.state ≠ .releasing ∨ tm.window ≤ now - t.started then (l, false)
    else
      let rc := if t.receiver = "" then l.setReceiver t.setID else t.receiver
      let l' := l.forget t.id tm
      if t.entitled then (l', true)
      else
        let l' := l'.recordCancel t.donor false now tm
        if rc = "" then (l', true)
        else
          let l' := l'.recordCancel rc true now tm
          ({ l' with noPair := l'.noPair.set (t.donor, rc) (now + tm.reversalHold) }, true)

/-- The redirected form of a transfer: the release proceeds and raises nobody. -/
def redirectedTransfer (t : ShareTransfer) : ShareTransfer :=
  { t with receiver := "", receiverVariant := "", gpus := 0, urgent := false }

/-- Replaces the first element that meets `p`. -/
def mapFirst {α : Type*} (p : α → Bool) (f : α → α) : List α → List α
  | [] => []
  | a :: as => if p a then f a :: as else a :: mapFirst p f as

/-- Hands a Releasing transfer's GPUs to a woken model; returns the transfer as it was. -/
def redirect (l : ShareLedger) (id : String) (hold : Int) :
    ShareLedger × Option ShareTransfer :=
  match l.transfers.find? fun t => t.id == id && t.redirectable with
  | none => (l, none)
  | some t =>
    ({ l with
        transfers := mapFirst (fun u => u.id == id && u.redirectable) redirectedTransfer l.transfers
        wakeHolds := l.wakeHolds ++ [{ gpus := t.donorGPUs, id := t.id, hold }] },
      some t)

/-- Records which transfers still have a planned donor pod running, or one not readable. -/
def plannedRunning (l : ShareLedger) (running unknown : GoMap String Bool) : ShareLedger :=
  { l with
    transfers := l.transfers.map fun t =>
      { t with plannedRunning := running.get t.id, plannedUnknown := unknown.get t.id } }

/-- Gives the next Observe the filled GPUs to judge receivers by. -/
def receiverFilled (l : ShareLedger) (filled : Option Held) : ShareLedger :=
  { l with filled }

/-- Returns the transfers released since the last call and forgets them. -/
def takeReleased (l : ShareLedger) : ShareLedger × List ShareTransfer :=
  ({ l with released := [] }, l.released)

/-- What each role holds, minus what it is still giving, plus what it is promised. -/
def committed (l : ShareLedger) (held : Held) : Held :=
  l.transfers.foldl (fun out t =>
    match t.state with
    | .releasing =>
      let out := out.modify t.donor (· - t.donorGPUs)
      if t.receiver ≠ "" then out.modify t.receiver (· + t.gpus) else out
    | .filling =>
      if t.receiver ≠ "" then out.modify t.receiver (· + t.gpus) else out) held

/-- GPUs released for a receiver that it does not yet hold. -/
def promised (l : ShareLedger) : Nat :=
  (l.transfers.map fun t =>
    match t.state with
    | .filling => t.gpus
    | .releasing => t.setReleased).sum

/-- What releasing transfers took off their donors beyond their receiver's replica, per set. -/
def excess (l : ShareLedger) : GoMap String Int :=
  l.transfers.foldl (fun excess t =>
    if t.state = .releasing then
      let excess := excess.modify t.setKey (· + t.donorGPUs)
      if t.receiver ≠ "" then excess.modify t.setKey (· - t.gpus) else excess
    else excess) ∅

/-- The GPUs releasing transfers took off their donors' commitment and gave no receiver. -/
def unreleased (l : ShareLedger) : Int :=
  (l.excess.entries.map fun e => max e.2 0).sum

/-! ## What the operations leave alone

The move history never touches the transfers, so each operation's effect on them is
the one line of its definition. -/

section Frame
variable (l : ShareLedger) (role id : String) (received : Bool) (now : Int) (tm : ShareTimings)

def withoutMoves : ShareLedger :=
  { l with
    lastGave := ∅, lastGot := ∅, noPair := ∅, moves := ∅, cancels := ∅, swingUntil := ∅ }

/-- Ledgers that agree but for their move history hold the same transfers and counters. -/
theorem eq_of_withoutMoves {l l' : ShareLedger} (h : l.withoutMoves = l'.withoutMoves) :
    l.transfers = l'.transfers ∧ l.nextID = l'.nextID ∧ l.incarnation = l'.incarnation ∧
      l.filled = l'.filled := by
  have htransfers := congrArg ShareLedger.transfers h
  have hnext := congrArg ShareLedger.nextID h
  have hinc := congrArg ShareLedger.incarnation h
  have hfilled := congrArg ShareLedger.filled h
  exact ⟨htransfers, hnext, hinc, hfilled⟩

@[simp] theorem rederive_withoutMoves :
    (l.rederive role tm).withoutMoves = l.withoutMoves := rfl

@[simp] theorem recordMove_withoutMoves :
    (l.recordMove role received id now tm).withoutMoves = l.withoutMoves := rfl

@[simp] theorem recordCancel_withoutMoves :
    (l.recordCancel role received now tm).withoutMoves = l.withoutMoves := by
  unfold recordCancel
  dsimp only
  split <;> rfl

@[simp] theorem unrecord_withoutMoves :
    (l.unrecord role id tm).withoutMoves = l.withoutMoves := by
  unfold unrecord
  split <;> rfl

theorem holdPair_withoutMoves (noPair : GoMap (String × String) Int) :
    { l with noPair }.withoutMoves = l.withoutMoves := rfl

theorem start_withoutMoves (t : ShareTransfer) (salt : String) (held : Held) :
    (l.start t salt held now tm).withoutMoves =
      { l with
        nextID := l.nextID + 1
        transfers := l.transfers ++ [l.admitted t salt held now tm] }.withoutMoves := by
  unfold start
  dsimp only
  split
  · rfl
  split <;> simp

theorem forget_withoutMoves :
    (l.forget id tm).withoutMoves =
      { l with transfers := l.transfers.eraseP (·.id == id) }.withoutMoves := by
  unfold forget
  cases h : l.transfer id with
  | none =>
    have herase : l.transfers.eraseP (·.id == id) = l.transfers := by
      rw [List.eraseP_of_forall_not]
      simpa [transfer] using h
    simp [herase]
  | some t =>
    dsimp only
    split <;> simp

theorem cancel_withoutMoves :
    (l.cancel id now tm).1.withoutMoves = l.withoutMoves ∨
      (∃ t, l.transfer id = some t ∧ t.state = .releasing ∧ now - t.started < tm.window) ∧
        (l.cancel id now tm).1.withoutMoves =
          { l with transfers := l.transfers.eraseP (·.id == id) }.withoutMoves := by
  unfold cancel
  cases h : l.transfer id with
  | none => exact .inl rfl
  | some t =>
    have hid : t.id = id := by simpa using List.find?_some h
    dsimp only
    generalize (if t.receiver = "" then l.setReceiver t.setID else t.receiver) = rc
    split
    · exact .inl rfl
    · next hnot =>
      rw [not_or, not_not, not_le] at hnot
      refine .inr ⟨⟨t, rfl, hnot⟩, ?_⟩
      rw [← l.forget_withoutMoves id tm, ← hid]
      split
      · rfl
      split
      · simp
      · rw [holdPair_withoutMoves, recordCancel_withoutMoves, recordCancel_withoutMoves]

/-- A transfer once `linkSet` has named a set. -/
def linked (primary : String) (contributors : List String) (t : ShareTransfer) : ShareTransfer :=
  if t.id = primary then { t with setID := primary, setPending := contributors.length }
  else if t.id ∈ contributors then { t with setID := primary }
  else t

theorem linkSet_transfers (primary : String) (contributors : List String) :
    (l.linkSet primary contributors).transfers = l.transfers.map (linked primary contributors) := by
  rw [linkSet, List.map_map]
  refine List.map_congr_left fun t _ => ?_
  rw [Function.comp_apply, linked]
  by_cases hp : t.id = primary
  · simp [hp]
  by_cases hc : t.id ∈ contributors
  · simp [hp, hc]
  · simp [hp, hc]

theorem linked_eq (primary : String) (contributors : List String) (t : ShareTransfer) :
    ∃ set pending, linked primary contributors t = { t with setID := set, setPending := pending } := by
  unfold linked
  split
  · exact ⟨_, _, rfl⟩
  split
  · exact ⟨_, t.setPending, rfl⟩
  · exact ⟨t.setID, t.setPending, rfl⟩

@[simp] theorem linked_id (primary : String) (contributors : List String) (t : ShareTransfer) :
    (linked primary contributors t).id = t.id := by
  obtain ⟨_, _, heq⟩ := linked_eq primary contributors t
  rw [heq]

@[simp] theorem linked_state (primary : String) (contributors : List String)
    (t : ShareTransfer) : (linked primary contributors t).state = t.state := by
  obtain ⟨_, _, heq⟩ := linked_eq primary contributors t
  rw [heq]

theorem linkSet_map {α : Type*} {k : ShareTransfer → α}
    (hk : ∀ t set pending, k { t with setID := set, setPending := pending } = k t)
    (primary : String) (contributors : List String) :
    (l.linkSet primary contributors).transfers.map k = l.transfers.map k := by
  rw [linkSet_transfers, List.map_map]
  refine List.map_congr_left fun t _ => ?_
  obtain ⟨_, _, heq⟩ := linked_eq primary contributors t
  rw [Function.comp_apply, heq, hk]

end Frame

end ShareLedger

end LlmScaler.Ledger
