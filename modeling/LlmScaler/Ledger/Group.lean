import LlmScaler.Core.Run
import LlmScaler.Ledger.Observe

/-!
# A group's ledger and its anti-oscillation holds

Beside the transfers and the move history, the ledger keeps what the holds on giving read: the
donors whose workload is changing, the roles whose need stepped away from its mean, and when each
role was last in the group. A run is a list of timed operations under one set of timings.
-/

namespace LlmScaler.Ledger

open LlmScaler.Core

/-- A donor held while its workload changes. -/
structure ShareChangingHold where
  donor : String
  variant : String := ""
  /-- The roles whose transfers from it were refused while it holds. -/
  receivers : List String := []
  reason : String := ""
  since : Int
  untilTime : Int
  /-- The cycles in a row its workload has read stable since. -/
  steadyCycles : Nat := 0
  deriving DecidableEq, Repr

/-- The ledger of one group with the per-role records its holds read. -/
structure GroupLedger extends ShareLedger where
  changing : GoMap String ShareChangingHold := ∅
  /-- The roles whose need has stayed on one side of its mean for longer than a move takes. -/
  stepped : GoMap String Bool := ∅
  /-- When each role was last in the group or in a live transfer. -/
  seen : GoMap String Int := ∅

def newGroupLedger (incarnation : String) : GroupLedger :=
  { toShareLedger := newShareLedger incarnation }

namespace ShareLedger

/-- The role gave within the reversal hold. -/
def receivingHeld (l : ShareLedger) (role : String) (now : Int) (tm : ShareTimings) : Bool :=
  (l.lastGave.find? role).any fun t => now - t < tm.reversalHold

/-- The role received within the reversal hold. -/
def gotHeld (l : ShareLedger) (role : String) (now : Int) (tm : ShareTimings) : Bool :=
  (l.lastGot.find? role).any fun t => now - t < tm.reversalHold

/-- The role is backing off after an aborted release. -/
def backingOff (l : ShareLedger) (role : String) (now : Int) : Bool :=
  (l.giveAfter.find? role).any (now < ·)

/-- A transfer between the two was cancelled within the reversal hold. -/
def pairHeld (l : ShareLedger) (donor receiver : String) (now : Int) : Bool :=
  (l.noPair.find? (donor, receiver)).any (now < ·)

/-- The role's moves changed direction often enough for a swing that is still on. -/
def swingOn (l : ShareLedger) (role : String) (now : Int) : Bool :=
  (l.swingUntil.find? role).any (now < ·)

end ShareLedger

namespace GroupLedger

def isChanging (g : GroupLedger) (role : String) (now : Int) : Bool :=
  (g.changing.find? role).any (now < ·.untilTime)

/-- The role is changing, or it has given all it can and still gives to a live transfer. -/
def givingBusy (g : GroupLedger) (role : String) (now : Int) : Bool :=
  g.isChanging role now || ((g.busyUntil.find? role).any (now < ·) &&
    g.transfers.any fun t => t.donor == role && t.state == .releasing)

/-- The role may not give for a reason no shortfall lifts. -/
def givingBlocked (g : GroupLedger) (role : String) (now : Int) : Bool :=
  g.backingOff role now || g.givingBusy role now

def givingHeld (g : GroupLedger) (role : String) (now : Int) (tm : ShareTimings) : Bool :=
  g.givingBlocked role now || g.gotHeld role now tm

/-- The role is planned on its mean need now. -/
def swinging (g : GroupLedger) (role : String) (now : Int) : Bool :=
  g.swingOn role now && !g.stepped.get role

/-- Backs the donor off as an abort does: its pods could not be marked. -/
def markFailed (g : GroupLedger) (donor : String) (now : Int) (tm : ShareTimings) : GroupLedger :=
  if donor = "" then g
  else
    let n := g.aborts.get donor + 1
    { g with
      aborts := g.aborts.set donor n
      giveAfter := g.giveAfter.set donor (now + tm.releaseTimeout * 2 ^ min (n - 1) 4)
      unsteerable := g.unsteerable.set donor true }

/-- Keeps the donor from being asked again until a release lands, or for a release timeout. -/
def holdGiving (g : GroupLedger) (donor : String) (now : Int) (tm : ShareTimings) : GroupLedger :=
  if donor ≠ "" ∧ (g.busyUntil.find? donor).all (· < now + tm.releaseTimeout) then
    { g with busyUntil := g.busyUntil.set donor (now + tm.releaseTimeout) }
  else g

/-- The hold a changing donor continues, or a new one when there is none or it has ended. -/
def changingHold (g : GroupLedger) (donor : String) (now : Int) (tm : ShareTimings) :
    ShareChangingHold :=
  match g.changing.find? donor with
  | some h =>
    if now < h.untilTime then { h with untilTime := max h.untilTime (now + tm.releaseTimeout) }
    else { donor, since := now, untilTime := now + tm.releaseTimeout }
  | none => { donor, since := now, untilTime := now + tm.releaseTimeout }

/-- Keeps a donor whose workload is changing from being asked again until it is stable. -/
def holdChanging (g : GroupLedger) (donor variant receiver reason : String) (now : Int)
    (tm : ShareTimings) : GroupLedger :=
  if donor = "" then g
  else
    let h := g.changingHold donor now tm
    let receivers :=
      if receiver ≠ "" ∧ receiver ∉ h.receivers then h.receivers ++ [receiver] else h.receivers
    { g with
      changing := g.changing.set donor { h with variant, reason, steadyCycles := 0, receivers } }

/-- Records one cycle's look at a held donor's workload. -/
def observeChanging (g : GroupLedger) (donor : String) (stable : Bool) (reason : String)
    (confirm : Int) : GroupLedger :=
  match g.changing.find? donor with
  | none => g
  | some h =>
    if !stable then
      { g with
        changing := g.changing.set donor
          { h with steadyCycles := 0, reason := if reason ≠ "" then reason else h.reason } }
    else if max confirm 1 ≤ h.steadyCycles + 1 then
      { g with changing := g.changing.delete donor }
    else
      { g with changing := g.changing.set donor { h with steadyCycles := h.steadyCycles + 1 } }

/-- Stores this cycle's verdicts on whether each role's need stepped away from its mean. -/
def recordNeeds (g : GroupLedger) (verdicts : List (String × Bool)) : GroupLedger :=
  { g with stepped := verdicts.foldl (fun m v => m.set v.1 v.2) g.stepped }

/-- The roles the ledger keeps records of; `others` have a need or a blocked fill on record. -/
def recorded (g : GroupLedger) (others : List String) : List String :=
  g.aborts.keys ++ g.giveAfter.keys ++ others ++ g.lastGave.keys ++ g.lastGot.keys ++
    g.moves.keys ++ g.cancels.keys ++ g.swingUntil.keys

/-- When each role was last seen, this cycle's roles and live transfers counted in. -/
def seenNow (g : GroupLedger) (present others : List String) (now : Int) : GoMap String Int :=
  let seen := present.foldl (fun s r => s.set r now) g.seen
  let seen := g.transfers.foldl (fun s t =>
    let s := s.set t.donor now
    if t.receiver ≠ "" then s.set t.receiver now else s) seen
  -- a role recorded before it was first seen starts its absence now
  (g.recorded others).foldl (fun s r => if s.has r then s else s.set r now) seen

/-- The longest any window reads a role's history. -/
def horizon (tm : ShareTimings) : Int :=
  max (max tm.reversalHold (2 * tm.swingWindow)) (tm.releaseTimeout * 16)

/-- The roles gone for longer than the horizon. -/
def isGone (seen : GoMap String Int) (now : Int) (tm : ShareTimings) (role : String) : Bool :=
  (seen.find? role).any fun t => horizon tm < now - t

/-- Forgets the history of roles gone from the group and from every live transfer for long. -/
def retain (g : GroupLedger) (present others : List String) (now : Int) (tm : ShareTimings) :
    GroupLedger :=
  let seen := g.seenNow present others now
  let gone := isGone seen now tm
  { g with
    seen := seen.deleteFunc fun r _ => gone r
    noPair := g.noPair.deleteFunc fun _ u => u ≤ now
    aborts := g.aborts.deleteFunc fun r _ => gone r
    unsteerable := g.unsteerable.deleteFunc fun r _ => gone r
    busyUntil := g.busyUntil.deleteFunc fun r _ => gone r
    changing := g.changing.deleteFunc fun r _ => gone r
    giveAfter := g.giveAfter.deleteFunc fun r _ => gone r
    lastGave := g.lastGave.deleteFunc fun r _ => gone r
    lastGot := g.lastGot.deleteFunc fun r _ => gone r
    moves := g.moves.deleteFunc fun r _ => gone r
    cancels := g.cancels.deleteFunc fun r _ => gone r
    swingUntil := g.swingUntil.deleteFunc fun r _ => gone r
    stepped := g.stepped.deleteFunc fun r _ => gone r }

/-- No role is forgotten this cycle. -/
def NoneGone (g : GroupLedger) (present others : List String) (now : Int) (tm : ShareTimings) :
    Prop :=
  ∀ role ∈ (g.seenNow present others now).keys,
    isGone (g.seenNow present others now) now tm role = false

instance (g : GroupLedger) (present others : List String) (now : Int) (tm : ShareTimings) :
    Decidable (g.NoneGone present others now tm) :=
  inferInstanceAs (Decidable (∀ role ∈ _, _))

theorem NoneGone.not_gone {g : GroupLedger} {present others : List String} {now : Int}
    {tm : ShareTimings} (h : g.NoneGone present others now tm) (role : String) :
    isGone (g.seenNow present others now) now tm role = false := by
  by_cases hmem : role ∈ (g.seenNow present others now).keys
  · exact h role hmem
  · rw [GoMap.mem_keys, not_exists] at hmem
    rw [isGone, Option.eq_none_iff_forall_ne_some.mpr hmem, Option.any_none]

/-- A cycle that forgets no role drops the pair holds that have ended, and nothing else. -/
theorem retain_of_noneGone {g : GroupLedger} {present others : List String} {now : Int}
    {tm : ShareTimings} (h : g.NoneGone present others now tm) :
    g.retain present others now tm = { g with
      seen := g.seenNow present others now
      noPair := g.noPair.deleteFunc fun _ u => u ≤ now } := by
  have hkeep {ν : Type} (m : GoMap String ν) :
      m.deleteFunc (fun r _ => isGone (g.seenNow present others now) now tm r) = m :=
    GoMap.deleteFunc_of_forall fun e _ => h.not_gone e.1
  simp only [retain, hkeep]

end GroupLedger

/-- One operation on a group's ledger, with what its caller passes beside the time. -/
inductive GroupOp where
  | start (t : ShareTransfer) (salt : String) (held : Held)
  | startFill (receiver variant : String) (gpus : Nat) (urgent : Bool) (salt : String) (held : Held)
  | restore (t : ShareTransfer) (heldDonor : Int)
  | linkSet (primary : String) (contributors : List String)
  | cancel (id : String)
  | forget (id : String)
  | redirect (id : String) (hold : Int)
  | plannedRunning (running unknown : GoMap String Bool)
  | receiverFilled (filled : Option Held)
  | takeReleased
  | observe (held : Held)
  | markFailed (donor : String)
  | holdGiving (donor : String)
  | holdChanging (donor variant receiver reason : String)
  | observeChanging (donor : String) (stable : Bool) (reason : String) (confirm : Int)
  | recordNeeds (verdicts : List (String × Bool))
  | retain (present others : List String)

namespace GroupLedger

def lift (g : GroupLedger) (f : ShareLedger → ShareLedger) : GroupLedger :=
  { g with toShareLedger := f g.toShareLedger }

/-- Takes one operation at time `now`. -/
def take (tm : ShareTimings) (g : GroupLedger) (now : Int) : GroupOp → GroupLedger
  | .start t salt held => g.lift (·.start t salt held now tm)
  | .startFill receiver variant gpus urgent salt held =>
    g.lift (·.startFill receiver variant gpus urgent salt held now tm)
  | .restore t heldDonor => g.lift (·.restore t heldDonor)
  | .linkSet primary contributors => g.lift (·.linkSet primary contributors)
  | .cancel id => g.lift fun l => (l.cancel id now tm).1
  | .forget id => g.lift (·.forget id tm)
  | .redirect id hold => g.lift fun l => (l.redirect id hold).1
  | .plannedRunning running unknown => g.lift (·.plannedRunning running unknown)
  | .receiverFilled filled => g.lift (·.receiverFilled filled)
  | .takeReleased => g.lift fun l => l.takeReleased.1
  | .observe held => g.lift fun l => (l.observe held now tm).ledger
  | .markFailed donor => g.markFailed donor now tm
  | .holdGiving donor => g.holdGiving donor now tm
  | .holdChanging donor variant receiver reason =>
    g.holdChanging donor variant receiver reason now tm
  | .observeChanging donor stable reason confirm => g.observeChanging donor stable reason confirm
  | .recordNeeds verdicts => g.recordNeeds verdicts
  | .retain present others => g.retain present others now tm

/-- The ledger after a list of timed operations. -/
def run (tm : ShareTimings) (g : GroupLedger) (ops : List (Int × GroupOp)) : GroupLedger :=
  runFrom (fun g op => g.take tm op.1 op.2) g ops

@[simp] theorem run_nil (tm : ShareTimings) (g : GroupLedger) : g.run tm [] = g := rfl

@[simp] theorem run_cons (tm : ShareTimings) (g : GroupLedger) (op : Int × GroupOp)
    (ops : List (Int × GroupOp)) : g.run tm (op :: ops) = (g.take tm op.1 op.2).run tm ops := rfl

end GroupLedger

end LlmScaler.Ledger
