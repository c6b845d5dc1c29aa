import LlmScaler.Core.Run
import LlmScaler.Core.Sorting
import LlmScaler.Core.Tally
import LlmScaler.Core.Time

/-!
# The borrow governor's cooldowns

After a preemption or a placement-timeout release a model borrows nothing new for a cooldown, in
each cohort its namespace borrows in, or in all of them when it has none. In a cohort the cooldown
doubles on a repeat. `Observe` drops what has ended and clamps what is too far away; a restart writes
the clocks rounded up to the minute and reads them back. No time here is the zero time.
-/

namespace LlmScaler.Governor

open Core

/-- `BorrowSettings`, as far as the cooldowns read them. -/
structure Settings where
  cooldown : Int
  placementTimeout : Int
  cooldown_pos : 0 < cooldown

def maxBackoffLevel : ℕ := 2

def maxBackoff : Int := 40 * minute

def sameEvent : Int := minute

def maxLedgerItems : ℕ := 4096

/-- `BackoffEntry`: one model's cooldown in one cohort. -/
structure BackoffEntry where
  untilTime : Int
  level : ℕ
  lastAt : Int
  preempted : Bool
  deriving DecidableEq

/-- `BorrowGovernor`, as far as the marks of a model's events go; its persisted ledger has the same
two parts. -/
structure BorrowGovernor where
  backoff : GoMap String BackoffEntry
  modelCooldown : GoMap String Int

def newBorrowGovernor : BorrowGovernor := ⟨∅, ∅⟩

def modelKey (ns modelID : String) : String := ns ++ "/" ++ modelID

def backoffKey (ns modelID cohort : String) : String := modelKey ns modelID ++ "@" ++ cohort

/-- `backoffFor`: the cooldown at a backoff level. -/
def Settings.backoffFor (s : Settings) (level : ℕ) : Int :=
  min (s.cooldown * 2 ^ level) (max maxBackoff s.cooldown)

def Settings.longest (s : Settings) : Int := s.backoffFor maxBackoffLevel

def markModelCooldown (s : Settings) (g : BorrowGovernor) (key : String) (at' : Int) :
    BorrowGovernor :=
  let ends := at' + s.cooldown
  match g.modelCooldown.find? key with
  | none => { g with modelCooldown := g.modelCooldown.set key ends }
  | some cur =>
    if cur < ends then { g with modelCooldown := g.modelCooldown.set key ends } else g

/-- One event of a model: when it happened, whether it was a preemption, and how long the replicas
of a placement-timeout release had waited. -/
structure Event where
  time : Int
  preempted : Bool
  timeout : Int
  deriving DecidableEq

/-- The cooldown of a model in a cohort after an event. -/
def marked (s : Settings) (ev : Event) : Option BackoffEntry → BackoffEntry
  | none => ⟨ev.time + s.backoffFor 0, 0, ev.time, ev.preempted⟩
  | some e =>
    if ev.time - e.lastAt < sameEvent then e
    else if !ev.preempted && e.preempted && ev.time < e.untilTime then e
    else if !ev.preempted && e.preempted &&
        ev.time < e.lastAt + (ev.timeout + s.placementTimeout) then
      -- the same event, landing after its cooldown ended
      ⟨ev.time + s.backoffFor e.level, e.level, ev.time, false⟩
    else
      let level := if ev.time < e.untilTime + s.cooldown then min (e.level + 1) maxBackoffLevel else 0
      let ends := ev.time + s.backoffFor level
      ⟨if ends < e.untilTime then e.untilTime else ends, level, ev.time, ev.preempted⟩

def markBackoffAfter (s : Settings) (g : BorrowGovernor) (key : String) (cohorts : List String)
    (ev : Event) : BorrowGovernor :=
  if cohorts.isEmpty then markModelCooldown s g key ev.time
  else cohorts.foldl (fun g c =>
    let k := key ++ "@" ++ c
    { g with backoff := g.backoff.set k (marked s ev (g.backoff.find? k)) }) g

/-- `BorrowBlockedIn`: whether a model may not draw on a cohort's pools. -/
def borrowBlockedIn (g : BorrowGovernor) (ns modelID cohort : String) (now : Int) : Bool :=
  (g.backoff.find? (backoffKey ns modelID cohort)).any fun e => now < e.untilTime

/-- The part of `BorrowBlocked` that reads a model's cooldown in all cohorts. -/
def borrowBlocked (g : BorrowGovernor) (ns modelID : String) (now : Int) : Bool :=
  (g.modelCooldown.find? (modelKey ns modelID)).any fun ends => now < ends

/-- A clock no further away than a cooldown. -/
def clamped (now cooldown ends : Int) : Int :=
  if cooldown < ends - now then now + cooldown else ends

def pruneClocks (s : Settings) (g : BorrowGovernor) (now : Int) : BorrowGovernor where
  backoff := (g.backoff.deleteFunc fun _ e => !decide (now < e.untilTime + s.cooldown)).mapValues
    fun _ e => { e with untilTime := clamped now s.longest e.untilTime }
  modelCooldown := (g.modelCooldown.deleteFunc fun _ ends => !decide (now < ends)).mapValues
    fun _ ends => clamped now s.cooldown ends

/-- `Ledger`: the clocks rounded up to the minute. -/
def ledger (g : BorrowGovernor) : BorrowGovernor where
  backoff := g.backoff.mapValues fun _ e =>
    { e with untilTime := roundUp minute e.untilTime, lastAt := truncate second e.lastAt }
  modelCooldown := g.modelCooldown.mapValues fun _ ends => roundUp minute ends

def boundedKeys {ν : Type*} (m : GoMap String ν) : List String :=
  (m.keys.insertionSort (· ≤ ·)).take maxLedgerItems

/-- One persisted binding added, if it passes a check and the key is not held. -/
def restoreClock {ν : Type*} (usable : String → ν → Bool) (src dst : GoMap String ν) (k : String) :
    GoMap String ν :=
  match src.find? k with
  | none => dst
  | some v => if !dst.has k && usable k v then dst.set k v else dst

/-- `restoreClocks`: the persisted bindings a map does not hold added. -/
def restoreClocks {ν : Type*} (usable : String → ν → Bool) (dst src : GoMap String ν) :
    GoMap String ν :=
  (boundedKeys src).foldl (restoreClock usable src) dst

def restore (g l : BorrowGovernor) : BorrowGovernor where
  backoff := restoreClocks (fun k e => decide ('@' ∈ k.toList) && decide (e.level ≤ maxBackoffLevel))
    g.backoff l.backoff
  modelCooldown := restoreClocks (fun k _ => k != "") g.modelCooldown l.modelCooldown

def restart (g : BorrowGovernor) : BorrowGovernor := restore newBorrowGovernor (ledger g)

inductive Op
  | mark (ns modelID : String) (cohorts : List String) (ev : Event)
  | observe
  | restart

/-- Something that happens, and the clock then. -/
structure Action where
  now : Int
  op : Op

/-- A governor and the clock of the last action on it. -/
structure Clocked where
  now : Int
  governor : BorrowGovernor

def next (s : Settings) (st : Clocked) (a : Action) : Clocked where
  now := a.now
  governor :=
    match a.op with
    | .mark ns modelID cohorts ev => markBackoffAfter s st.governor (modelKey ns modelID) cohorts ev
    | .observe => pruneClocks s st.governor a.now
    | .restart => restart st.governor

/-- When an action is one of a run: the clock does not go back, an event is not in the future, and a
restart finds the ledger within its bounds. -/
def Ok (st : Clocked) (a : Action) : Prop :=
  st.now ≤ a.now ∧
    match a.op with
    | .mark _ _ _ ev => ev.time ≤ a.now
    | .observe => True
    | .restart => st.governor.backoff.keys.length ≤ maxLedgerItems ∧
        st.governor.modelCooldown.keys.length ≤ maxLedgerItems

instance (st : Clocked) : ∀ a, Decidable (Ok st a)
  | ⟨_, .mark _ _ _ _⟩ => inferInstanceAs (Decidable (_ ∧ _))
  | ⟨_, .observe⟩ => inferInstanceAs (Decidable (_ ∧ True))
  | ⟨_, .restart⟩ => inferInstanceAs (Decidable (_ ∧ _ ∧ _))

end LlmScaler.Governor
