import LlmScaler.Core.Sorting
import LlmScaler.Core.Tally
import LlmScaler.Core.Time

/-!
# The need history and its stored form

The ledger keeps each role's need readings over a swing window and since when they are recorded. For
storage across restarts the readings become one sustained level per bucket, the highest that two
readings in a row ending in it reached, the newest 180 buckets of them; a restore reads each level
back as two readings at its instant.
-/

namespace LlmScaler.Ledger

open LlmScaler.Core

def shareHistoryMaxSamples : ℕ := 180

def shareHistoryMaxGap : Int := 10 * minute

def shareHistorySkew : Int := minute

def maxShareBudgetGPUs : ℚ := 2 ^ 20

/-- `shareNeedSample`: one need reading. -/
structure NeedSample where
  time : Int
  need : ℚ
  deriving DecidableEq, Repr

/-- `ShareNeedSample`: one stored level. -/
structure StoredSample where
  stamp : Time
  need : ℚ

/-- `ShareRoleNeedHistory`: one role's stored history. -/
structure RoleNeedHistory where
  since : Time
  samples : List StoredSample

structure NeedLedger where
  needs : GoMap String (List NeedSample)
  needsSince : GoMap String Int

def NeedLedger.fresh : NeedLedger := ⟨∅, ∅⟩

/-- One role's need recorded: what is older than the window goes, and a history that has all aged
out starts again. -/
def recordNeed (now window : Int) (l : NeedLedger) (role : String) (need : ℚ) : NeedLedger :=
  let kept := (l.needs.get role).filter fun x => ¬ window < now - x.time
  { needs := l.needs.set role (kept ++ [⟨now, need⟩])
    needsSince := if !l.needsSince.has role || kept.isEmpty then l.needsSince.set role now
      else l.needsSince }

/-- `RecordNeeds`: this cycle's needs recorded. -/
def recordNeeds (l : NeedLedger) (needs : GoMap String ℚ) (now window : Int) : NeedLedger :=
  needs.entries.foldl (fun l e => recordNeed now window l e.1 e.2) l

def inARow (s : List NeedSample) : List (NeedSample × NeedSample) := s.zip s.tail

/-- What two readings in a row reach. -/
def levelOf (p : NeedSample × NeedSample) : ℚ := min p.1.need p.2.need

/-- The highest level of readings in a row. -/
def peakOf (s : List NeedSample) : ℚ := (inARow s).foldl (fun peak p => max peak (levelOf p)) 0

def NeedLedger.peakNeed (l : NeedLedger) (role : String) (current : ℚ) : ℚ :=
  if (l.needs.get role).length < 2 then current else peakOf (l.needs.get role)

def NeedLedger.peakKnown (l : NeedLedger) (role : String) (now window : Int) : Bool :=
  match l.needsSince.find? role with
  | some since => window ≤ now - since
  | none => false

/-- `shareHistoryBucket`: the width one stored sample stands for. -/
def shareHistoryBucket (window : Int) : Int :=
  let per := (window + shareHistoryMaxSamples - 1).tdiv shareHistoryMaxSamples
  if minute < per then per else minute

/-- `shareNeedValid`, of a finite need. -/
def shareNeedValid (need : ℚ) : Bool := 0 ≤ need

/-- Readings in a row whose level is stored: usable needs, within the window. -/
def stores (now window : Int) (p : NeedSample × NeedSample) : Bool :=
  !(window < now - p.1.time) && shareNeedValid p.1.need && shareNeedValid p.2.need

/-- A level stored: joined to its bucket's, stamped with the bucket's last reading. -/
def storeLevel (bucket : Int) (samples : List NeedSample) (p : NeedSample × NeedSample) :
    List NeedSample :=
  match samples.getLast? with
  | some last =>
    if truncate bucket last.time = truncate bucket p.2.time then
      samples.dropLast ++ [⟨p.2.time, max last.need (levelOf p)⟩]
    else samples ++ [⟨p.2.time, levelOf p⟩]
  | none => [⟨p.2.time, levelOf p⟩]

/-- The readings in a row a store of a role's history reads. -/
def storedPairs (now window : Int) (s : List NeedSample) : List (NeedSample × NeedSample) :=
  (inARow s).filter (stores now window)

def bucketLevels (now window : Int) (s : List NeedSample) : List NeedSample :=
  (storedPairs now window s).foldl (storeLevel (shareHistoryBucket window)) []

def newest {α : Type*} (n : ℕ) (l : List α) : List α := l.drop (l.length - n)

def storedLevels (now window : Int) (s : List NeedSample) : List NeedSample :=
  newest shareHistoryMaxSamples (bucketLevels now window s)

def needHistory (l : NeedLedger) (now window : Int) : GoMap String RoleNeedHistory :=
  l.needsSince.mapValues fun role since =>
    ⟨some since, (storedLevels now window (l.needs.get role)).map fun x => ⟨some x.time, x.need⟩⟩

/-- `ShareNeedRestore`: what a restore restored. -/
structure NeedRestore where
  roles : ℕ
  knownNow : ℕ
  /-- The earliest time a restored role's peak becomes known. -/
  knownAt : Time

/-- A stored sample read back, unless it is no usable need of the window. -/
def readSample (now window : Int) (x : StoredSample) : Option NeedSample :=
  match x.stamp with
  | none => none
  | some t =>
    if !shareNeedValid x.need || window < now - t || shareHistorySkew < t - now then none
    else some ⟨t, min x.need maxShareBudgetGPUs⟩

/-- The samples of a role read back, oldest first. -/
def readSamples (now window : Int) (rh : RoleNeedHistory) : List NeedSample :=
  newest shareHistoryMaxSamples
    ((Sorting.byKey NeedSample.time).sort (rh.samples.filterMap (readSample now window)))

/-- Since when a restored role counts as recorded: no earlier than its samples cover. -/
def restoredSince (bucket : Int) (since : Time) (oldest : Int) : Int :=
  match since with
  | none => oldest
  | some s =>
    if oldest < s then oldest
    else if s < truncate bucket oldest - bucket then truncate bucket oldest - bucket
    else s

/-- Each sample as two readings at its instant. -/
def twice (samples : List NeedSample) : List NeedSample := samples.flatMap fun x => [x, x]

/-- The start of a role's record: the earlier of the restored and the ledger's own. -/
def earlierSince (since : Int) : Option Int → Int
  | none => since
  | some cur => if since < cur then since else cur

/-- One role's stored history merged into the ledger. -/
def restoreRole (now window : Int) (st : NeedLedger × NeedRestore) (role : String)
    (rh : RoleNeedHistory) : NeedLedger × NeedRestore :=
  match readSamples now window rh with
  | [] => st
  | oldest :: rest =>
    let needs := st.1.needs.set role ((Sorting.byKey NeedSample.time).sort
      (st.1.needs.get role ++ twice (oldest :: rest)))
    let last := (oldest :: rest).getLast (List.cons_ne_nil _ _)
    if shareHistoryMaxGap < now - last.time then
      (⟨needs, st.1.needsSince⟩, { st.2 with roles := st.2.roles + 1 })
    else
      let since := earlierSince (restoredSince (shareHistoryBucket window) rh.since oldest.time)
        (st.1.needsSince.find? role)
      let l : NeedLedger := ⟨needs, st.1.needsSince.set role since⟩
      let known := since + window
      (l, { roles := st.2.roles + 1
            knownNow := if l.peakKnown role now window then st.2.knownNow + 1 else st.2.knownNow
            knownAt := match st.2.knownAt with
              | none => some known
              | some t => if known < t then some known else some t })

def restoreNeedHistory (l : NeedLedger) (h : GoMap String RoleNeedHistory) (now window : Int) :
    NeedLedger × NeedRestore :=
  h.entries.foldl (fun st e => restoreRole now window st e.1 e.2) (l, ⟨0, 0, none⟩)

example : shareHistoryBucket (180 * minute) = minute := by decide
example : shareHistoryBucket (360 * minute) = 2 * minute := by decide

end LlmScaler.Ledger
