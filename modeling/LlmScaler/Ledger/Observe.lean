import LlmScaler.Ledger.State

/-!
# One cycle of the ledger: Observe

`observe` advances every transfer from what the cluster shows this cycle. It runs in
four passes over the transfers in start order, as the source does: a scan that reads
which releases the donors' counts show, the loop that moves released transfers to
Filling, the filter that ends transfers, and the removal of the contributors of sets
whose primary ended. The maps keyed by a transfer's address are a second component
of each row of the list, so nothing rests on identifiers being distinct.
-/

namespace LlmScaler.Ledger

open LlmScaler.Core

/-- A transfer with its entry of this cycle's `releasable` map; none when it has no entry. -/
structure Row where
  t : ShareTransfer
  releasable : Option Bool
  deriving DecidableEq, Repr

namespace Row

/-- The value `releasable[t]`. -/
def ok (r : Row) : Bool := r.releasable.getD false

/-- The donor shrank while a planned pod still runs. -/
def wrongPod (r : Row) : Bool := r.ok && r.t.plannedRunning

/-- A contributor with an entry that keeps its set's primary from releasing. -/
def holdsBack (r : Row) : Bool :=
  r.releasable.isSome && (!r.ok || r.wrongPod || r.t.plannedUnknown) && r.t.isContributor

/-- A contributor still releasing. -/
def isLive (r : Row) : Bool := r.t.state == .releasing && r.t.isContributor

end Row

/-- The first pass: which transfers their donors' counts show released, in start order. -/
def scan (held : Held) : (base given : Held) → List ShareTransfer → List Row
  | _, _, [] => []
  | base, given, t :: ts =>
    if t.state ≠ .releasing ∨ t.donor = "" ∨ held.has t.donor = false then
      ⟨t, none⟩ :: scan held base given ts
    else
      let base := if base.has t.donor then base else base.set t.donor t.donorBase
      let given := given.modify t.donor (· + t.donorGPUs)
      ⟨t, some (decide (held.get t.donor ≤ base.get t.donor - given.get t.donor))⟩ ::
        scan held base given ts

/-- What the passes after the scan read of the cycle. -/
structure Cycle where
  rheld : Held
  now : Int
  tm : ShareTimings
  /-- The set identifiers with a contributor that has an entry and is not released. -/
  waiting : String → Bool
  /-- How many contributors of a set are still releasing before the release loop. -/
  live : String → Nat

/-- The cycle's readings over the scanned rows. -/
def Cycle.of (rheld : Held) (now : Int) (tm : ShareTimings) (rows : List Row) : Cycle where
  rheld := rheld
  now := now
  tm := tm
  waiting := fun id => rows.any fun r => r.holdsBack && r.t.setID == id
  live := fun id => rows.countP fun r => r.isLive && r.t.setID == id

/-- A set whose pending contributor is no longer in the ledger. -/
def Cycle.broken (c : Cycle) (t : ShareTransfer) : Bool :=
  t.isSetPrimary && decide ((c.live t.id : Int) < t.setPending)

/-- A primary's figures once its contributor `t` has released. -/
def credit (t u : ShareTransfer) : ShareTransfer :=
  if t.isContributor && u.id == t.setID && u.state == .releasing then
    { u with setReleased := u.setReleased + t.donorGPUs, setPending := u.setPending - 1 }
  else u

/-- Records on `u` that `t`'s donor released `t`'s GPUs. -/
def rebaseDonor (t : ShareTransfer) (now : Int) (u : ShareTransfer) : ShareTransfer :=
  if u.state = .releasing ∧ u.donor = t.donor ∧ u.started < now then
    { u with donorBase := u.donorBase - t.donorGPUs }
  else u

def enterFilling (c : Cycle) (t : ShareTransfer) : ShareTransfer :=
  { t with
    state := .filling
    deadline := c.now + c.tm.fillTimeout
    receiverBase := c.rheld.get t.receiver
    receiverBaseUnset := t.receiver != "" && !c.rheld.has t.receiver
    fillingSince := c.now }

/-- How many completed releases the ledger remembers. -/
def shareReleaseSamples : Nat := 20

/-- The state of the release loop: the rows visited, the rows to visit, and its effects. -/
structure ReleaseLoop where
  visited : List Row := []
  rest : List Row
  releases : List Int
  wakeHolds : List ShareWakeHold
  aborts : GoMap String Nat
  giveAfter : GoMap String Int
  busyUntil : GoMap String Int
  released : List ShareTransfer := []

def ReleaseLoop.rows (s : ReleaseLoop) : List Row := s.visited ++ s.rest

/-- A row the release loop passes over. -/
def Cycle.skips (c : Cycle) (r : Row) : Bool :=
  !r.ok || (r.t.isSetPrimary && c.waiting r.t.id) || c.broken r.t || r.wrongPod ||
    r.t.plannedUnknown

/-- What the release of `t` does to another row. -/
def Row.onRelease (t : ShareTransfer) (now : Int) (r : Row) : Row :=
  { r with t := rebaseDonor t now (credit t r.t) }

def releaseStep (c : Cycle) (s : ReleaseLoop) : ReleaseLoop :=
  match s.rest with
  | [] => s
  | r :: rest =>
    if c.skips r then { s with visited := s.visited ++ [r], rest }
    else
      let t := enterFilling c r.t
      let releases := s.releases ++ [c.now - t.started]
      { visited := s.visited.map (Row.onRelease t c.now) ++ [{ r with t }]
        rest := rest.map (Row.onRelease t c.now)
        releases := releases.drop (releases.length - shareReleaseSamples)
        wakeHolds := s.wakeHolds.map fun h =>
          if h.id = t.id ∧ h.untilTime = none then { h with untilTime := some (c.now + h.hold) }
          else h
        aborts := s.aborts.delete t.donor
        giveAfter := s.giveAfter.delete t.donor
        busyUntil := s.busyUntil.delete t.donor
        released := s.released ++ [t] }

def releaseLoop (c : Cycle) (l : ShareLedger) (rows : List Row) : ReleaseLoop :=
  (releaseStep c)^[rows.length]
    { rest := rows, releases := l.releases, wakeHolds := l.wakeHolds, aborts := l.aborts
      giveAfter := l.giveAfter, busyUntil := l.busyUntil }

/-- The state of the filter: what it keeps, what it ends, and the back-offs it sets. -/
structure Filter where
  keep : List ShareTransfer := []
  ended : List ShareTransferEnd := []
  filled : List ShareTransfer := []
  wrong : List ShareTransfer := []
  got : Held := ∅
  rbase : Held := ∅
  abortedNow : List String := []
  aborts : GoMap String Nat
  giveAfter : GoMap String Int
  unsteerable : GoMap String Bool

namespace Filter

def keeps (s : Filter) (t : ShareTransfer) : Filter := { s with keep := s.keep ++ [t] }

def ends (s : Filter) (t : ShareTransfer) (outcome : ShareTransferOutcome)
    (donorReleased : Bool) : Filter :=
  { s with ended := s.ended ++ [{ transfer := t, outcome, donorReleased }] }

/-- Backs the donor off, doubling per consecutive abort up to 16 times, once a cycle. -/
def backOff (s : Filter) (donor : String) (now : Int) (tm : ShareTimings) : Filter :=
  if donor ≠ "" ∧ donor ∉ s.abortedNow then
    let n := s.aborts.get donor + 1
    { s with
      abortedNow := donor :: s.abortedNow
      aborts := s.aborts.set donor n
      giveAfter := s.giveAfter.set donor (now + tm.releaseTimeout * 2 ^ min (n - 1) 4)
      unsteerable := s.unsteerable.delete donor }
  else s

/-- Counts a fill toward its receiver: the base of the first fill, and all GPUs so far. -/
def tally (s : Filter) (t : ShareTransfer) : Filter :=
  { s with
    rbase := if s.rbase.has t.receiver then s.rbase else s.rbase.set t.receiver t.receiverBase
    got := s.got.modify t.receiver (· + t.gpus) }

/-- The receiver's count covers every fill tallied so far. -/
def landed (s : Filter) (rheld : Held) (receiver : String) : Bool :=
  decide (s.rbase.get receiver + s.got.get receiver ≤ rheld.get receiver)

end Filter

/-- The filter's turn for a transfer still releasing. -/
def filterReleasing (c : Cycle) (s : Filter) (r : Row) : Filter :=
  let t := r.t
  if c.broken t then s.ends t .aborted (r.ok && !t.plannedRunning)
  else if r.wrongPod && !t.plannedUnknown then
    { s.ends t .wrongPod false with wrong := s.wrong ++ [t] }
  else if t.deadline ≤ c.now ∧ t.isSetPrimary ∧ r.ok then s.ends t .aborted true
  else if t.deadline ≤ c.now then (s.ends t .aborted false).backOff t.donor c.now c.tm
  else s.keeps t

def filterFilling (c : Cycle) (s : Filter) (t : ShareTransfer) : Filter :=
  if c.rheld.has t.receiver ∨ t.receiver = "" then
    if t.receiverBaseUnset then
      -- seen for the first time since it entered Filling: judged from the next cycle
      s.keeps { t with
        receiverBase := c.rheld.get t.receiver, receiverBaseUnset := false, fillingSince := c.now }
    else
      let s := s.tally t
      if s.landed c.rheld t.receiver then
        { s.ends t .done false with filled := s.filled ++ [t] }
      else if t.deadline ≤ c.now then s.ends t .fillTimeout false
      else s.keeps t
  else if t.deadline ≤ c.now then s.ends t .fillTimeout false
  else s.keeps t

def filterStep (c : Cycle) (s : Filter) (r : Row) : Filter :=
  match r.t.state with
  | .releasing => filterReleasing c s r
  | .filling => filterFilling c s r.t

/-- Counts a fill that landed into the base of a receiver's other fill. -/
def rebaseReceiver (f : ShareTransfer) (now : Int) (u : ShareTransfer) : ShareTransfer :=
  if u.state = .filling ∧ u.receiver = f.receiver ∧ u.receiver ≠ "" ∧ u.fillingSince < now then
    { u with receiverBase := u.receiverBase + f.gpus }
  else u

/-- The set's primary ended this cycle without its receiver holding the GPUs. -/
def setGone (ended : List ShareTransferEnd) (id : String) : Bool :=
  ended.any fun e => e.transfer.isSetPrimary && e.outcome != .done && e.transfer.id == id

/-- A contributor still releasing of a set whose primary ended. -/
def orphaned (ended : List ShareTransferEnd) (t : ShareTransfer) : Bool :=
  t.state == .releasing && setGone ended t.setID && !t.isSetPrimary

/-- What one Observe leaves: the ledger, and the transfers that left it. -/
structure Observed where
  ledger : ShareLedger
  released : List ShareTransfer
  ended : List ShareTransferEnd

namespace ShareLedger

/-- The counts receivers are judged by: the filled replicas when the caller gave them. -/
def rheld (l : ShareLedger) (held : Held) : Held := l.filled.getD held

def rows (l : ShareLedger) (held : Held) : List Row := scan held ∅ ∅ l.transfers

def cycle (l : ShareLedger) (held : Held) (now : Int) (tm : ShareTimings) : Cycle :=
  .of (l.rheld held) now tm (l.rows held)

def releasePass (l : ShareLedger) (held : Held) (now : Int) (tm : ShareTimings) : ReleaseLoop :=
  releaseLoop (l.cycle held now tm) l (l.rows held)

/-- The ledger's filter, over the rows the release loop leaves. -/
def filterPass (l : ShareLedger) (held : Held) (now : Int) (tm : ShareTimings) : Filter :=
  let s := l.releasePass held now tm
  s.rows.foldl (filterStep (l.cycle held now tm))
    { aborts := s.aborts, giveAfter := s.giveAfter, unsteerable := l.unsteerable }

/-- The kept transfers once the wrong-pod ends and the landed fills are counted in. -/
def settled (f : Filter) (now : Int) : List ShareTransfer :=
  let keep := f.wrong.foldl (fun ts t => ts.map (rebaseDonor t now)) f.keep
  f.filled.foldl (fun ts t => ts.map (rebaseReceiver t now)) keep

/-- Advances every transfer from what the cluster shows this cycle. -/
def observe (l : ShareLedger) (held : Held) (now : Int) (tm : ShareTimings) : Observed :=
  let s := l.releasePass held now tm
  let f := l.filterPass held now tm
  let ts := settled f now
  let gone := (ts.filter (orphaned f.ended)).map fun t =>
    ({ transfer := t, outcome := .aborted } : ShareTransferEnd)
  { ledger := { l with
      transfers := ts.filter (!orphaned f.ended ·)
      filled := none
      releases := s.releases
      wakeHolds := s.wakeHolds
      busyUntil := s.busyUntil
      aborts := f.aborts
      giveAfter := f.giveAfter
      unsteerable := f.unsteerable
      released := l.released ++ s.released }
    released := s.released
    ended := f.ended ++ gone }

end ShareLedger

end LlmScaler.Ledger
