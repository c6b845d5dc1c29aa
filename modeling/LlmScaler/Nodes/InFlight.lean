import LlmScaler.Nodes.View

/-!
# The in-flight ledger

The replicas a decision admitted onto node holes whose pods hold no node yet. An entry is per
variant: how many replicas are to hold a node, how many did when it was admitted, and each higher
count seen since. It holds its holes until it expires. How an entry's pods are counted is not
modelled; what the counting gives is an input of `settle`.
-/

namespace LlmScaler.Nodes

open LlmScaler.Core

/-- `InFlightTTL`: five minutes. -/
def inFlightTTL : Int := 300 * second

/-- `sightedFor`: how long a variant stays sighted. -/
def sightedFor : Int := 2 * inFlightTTL

/-- `InFlightOwner`: the owner the ledger's holes are charged to. -/
def inFlightOwner : String := "in-flight"

/-- A replica some of whose pods hold a node. -/
structure PartialReplica where
  node : String
  placedGPUs : List ℕ
  deriving DecidableEq, Repr

/-- What a variant's pods hold. -/
structure Placed where
  whole : ℕ
  partials : List PartialReplica
  deriving DecidableEq, Repr

/-- A placed count and when it was first observed. -/
structure PlacedAt where
  n : ℕ
  seenAt : Int
  deriving DecidableEq, Repr

/-- A partial replica and, per placed pod, when it was first seen placed. -/
structure PartialSeen extends PartialReplica where
  seenAt : List Time
  deriving DecidableEq, Repr

/-- One variant's replicas in flight. -/
structure InFlightEntry where
  shape : ReplicaShape
  want : ℕ
  /-- The replicas that held one when the entry was admitted. -/
  base : ℕ
  seen : List PlacedAt
  expires : Int
  ttl : Int
  partials : List PartialSeen

structure InFlightAdmission where
  key : String
  shape : ReplicaShape
  want : ℕ
  placedNow : ℕ
  ttl : Int
  existingOnly : Bool
  unplaced : Bool

structure InFlightLedger where
  entries : GoMap String InFlightEntry
  /-- When a committed admission last named each variant. -/
  sighted : GoMap String Int
  /-- The restored entries no committed admission has updated. -/
  restored : GoMap String Bool

def InFlightLedger.new : InFlightLedger := ⟨∅, ∅, ∅⟩

namespace InFlightLedger

variable (l : InFlightLedger)

/-- The shape of an admission on an entry: holes on a flavor stay on it while nothing more is
wanted. -/
def admittedShape (a : InFlightAdmission) (e : InFlightEntry) : ReplicaShape :=
  if a.shape.flavor.isNone ∧ e.shape.flavor.isSome ∧ a.want ≤ e.want then
    { a.shape with flavor := e.shape.flavor, placements := e.shape.placements }
  else a.shape

def admittedTTL (a : InFlightAdmission) (e : InFlightEntry) : Int :=
  if a.shape.flavor.isNone ∧ e.shape.flavor.isSome ∧ a.want ≤ e.want then
    max (max a.ttl inFlightTTL) e.ttl
  else max a.ttl inFlightTTL

/-- An entry after an admission that names its variant again. -/
def readmitted (a : InFlightAdmission) (e : InFlightEntry) (now : Int) : InFlightEntry where
  shape := admittedShape a e
  want := a.want
  base := max e.base a.placedNow
  seen := e.seen
  expires := if e.want < a.want then now + admittedTTL a e
    else e.expires + (admittedTTL a e - e.ttl)
  ttl := admittedTTL a e
  partials := e.partials

/-- The entry of a variant that had none. -/
def firstAdmitted (a : InFlightAdmission) (now : Int) : InFlightEntry where
  shape := a.shape
  want := a.want
  base := a.placedNow
  seen := []
  expires := now + max a.ttl inFlightTTL
  ttl := max a.ttl inFlightTTL
  partials := []

def admitEntry (sighted : Bool) (a : InFlightAdmission) (now : Int)
    (entries : GoMap String InFlightEntry) : GoMap String InFlightEntry :=
  if a.want ≤ a.placedNow then entries.delete a.key
  else match entries.find? a.key with
    | none =>
      if a.existingOnly && (a.unplaced || sighted) then entries
      else entries.set a.key (firstAdmitted a now)
    | some e => entries.set a.key (readmitted a e now)

/-- `admitLocked`: one admission, a sighting of its variant when committed. -/
def admitOne (a : InFlightAdmission) (now : Int) (sight : Bool) : InFlightLedger where
  entries := admitEntry (l.sighted.has a.key) a now l.entries
  sighted := if sight then l.sighted.set a.key now else l.sighted
  restored := if sight then l.restored.delete a.key else l.restored

/-- `Admit`: an admission of its own. -/
def admitNow (key : String) (shape : ReplicaShape) (want placedNow : ℕ) (now : Int) :
    InFlightLedger :=
  l.admitOne ⟨key, shape, want, placedNow, 0, false, false⟩ now true

def admitList (adms : List InFlightAdmission) (now : Int) (sight : Bool) : InFlightLedger :=
  adms.foldl (fun l a => l.admitOne a now sight) l

/-- What a provisional admission replaced, per variant. -/
abbrev Mark := List (String × Option InFlightEntry)

/-- `Provisional`: admit at once, remembering what the admissions replaced. -/
def provisional (adms : List InFlightAdmission) (now : Int) : InFlightLedger × Mark :=
  (l.admitList adms now false,
    ((adms.map InFlightAdmission.key).dedup).map fun k => (k, l.entries.find? k))

/-- The entries set back as a mark has them. -/
def setBack (mark : Mark) (entries : GoMap String InFlightEntry) : GoMap String InFlightEntry :=
  mark.foldl (fun es p => match p.2 with
    | none => es.delete p.1
    | some e => es.set p.1 e) entries

/-- `Commit`: set a provisional admission back and admit the cycle's final one. -/
def commit (mark : Mark) (adms : List InFlightAdmission) (now : Int) : InFlightLedger :=
  admitList
    { l with
      entries := setBack mark l.entries
      sighted := l.sighted.deleteFunc fun _ seenAt => sightedFor < now - seenAt } adms now true

/-- `Forget`: drop a variant's entry. -/
def forget (key : String) : InFlightLedger := { l with entries := l.entries.delete key }

/-- The first unused partial of the same node. -/
def takeNode (node : String) : List PartialSeen → Option (PartialSeen × List PartialSeen)
  | [] => none
  | o :: os =>
    if o.node = node then some (o, os)
    else (takeNode node os).map fun p => (p.1, o :: p.2)

/-- The times of the placed pods: each keeps when one of its GPUs was first seen. -/
def mergeTimes (now : Int) : List ℕ → List (ℕ × Time) → List Time
  | [], _ => []
  | g :: gs, old =>
    match old.find? fun p => p.1 = g with
    | some p => p.2 :: mergeTimes now gs (old.erase p)
    | none => some now :: mergeTimes now gs old

/-- `mergePartial`: the partial replicas counted now, each placed pod with when it was first
seen. -/
def mergePartial (now : Int) : List PartialSeen → List PartialReplica → List PartialSeen
  | _, [] => []
  | old, c :: cs =>
    match takeNode c.node old with
    | some (o, rest) =>
      ⟨c, mergeTimes now c.placedGPUs (o.placedGPUs.zip o.seenAt)⟩ :: mergePartial now rest cs
    | none => ⟨c, mergeTimes now c.placedGPUs []⟩ :: mergePartial now old cs

def lastSeen (e : InFlightEntry) : Option ℕ := e.seen.getLast?.map PlacedAt.n

/-- An entry after a count that leaves it in flight. -/
def counted (e : InFlightEntry) (p : Placed) (now : Int) : InFlightEntry :=
  { e with
    seen := if e.base < p.whole ∧ ((lastSeen e).all fun n => n < p.whole) then
      e.seen ++ [⟨p.whole, now⟩] else e.seen
    partials := mergePartial now e.partials p.partials }

/-- An entry after the counts of a settle; dropped when long expired or all placed. -/
def settleEntry (observed : GoMap String Placed) (now : Int) (k : String) (e : InFlightEntry) :
    Option InFlightEntry :=
  if max e.ttl inFlightTTL < now - e.expires then none
  else match observed.find? k with
    | none => some e
    | some p => if e.want ≤ p.whole then none else some (counted e p now)

/-- `settle`: count each entry's placed replicas. -/
def settle (observed : GoMap String Placed) (now : Int) : InFlightLedger :=
  { l with entries := (l.entries.keys.insertionSort (· ≤ ·)).foldl (fun es k =>
      match es.find? k with
      | none => es
      | some e => match settleEntry observed now k e with
        | none => es.delete k
        | some e' => es.set k e') l.entries }

end InFlightLedger

/-- `inFlightReplicaOwner`: the owner of the hole of a variant's `n`-th replica. -/
def inFlightReplicaOwner (key : String) (n : ℕ) : String :=
  inFlightOwner ++ "\x00" ++ key ++ "\x00" ++ toString n

namespace NodeView

variable (v : NodeView)

def restOf (pods placed : List ℕ) : List ℕ :=
  (placed.foldl (fun rest g => rest.erase g) pods).filter fun g => 0 < g

/-- The placed pods the snapshot does not show, held on their node as far as it has GPUs free. -/
def holdPlaced (node : ℕ) (p : PartialSeen) : NodeView :=
  (p.placedGPUs.zip p.seenAt).foldl (fun v q =>
    if q.2.after v.takenAt ∧ 0 < v.free node ∧ 0 < q.1 then v.charge node (min q.1 (v.free node))
    else v) v

/-- The topology domain a partial replica is held in, empty for none. -/
def partialDomain (r : ReplicaFit) (node : Option ℕ) : String :=
  match node with
  | some i => if r.domain ≠ "" then labelAt v.slots i r.domain else ""
  | none => ""

/-- The pods not placed yet, held in the partial replica's domain. -/
def holdRest (r : ReplicaFit) (rest : List ℕ) (d : String) : NodeView :=
  match v.bestFit ((rest.insertionSort (· ≥ ·)).map fun g => ⟨g, eligibleFit v.slots r⟩)
      (if d = "" then "" else r.domain) d with
  | none => v
  | some taken =>
    if d ≠ "" then (v.chargeAll taken).takeDomain (domainID r.domain d) else v.chargeAll taken

/-- `holdPartial`: hold the pods of a partial replica that hold no node yet. -/
def holdPartial (r : ReplicaFit) (p : PartialSeen) : NodeView :=
  if r.pods = [] then v
  else
    let held := match slotOf v.slots p.node with
      | some i => v.holdPlaced i p
      | none => v
    if restOf r.pods p.placedGPUs = [] then held
    else held.holdRest r (restOf r.pods p.placedGPUs) (v.partialDomain r (slotOf v.slots p.node))

/-- The hole of an entry's `i`-th held replica: its other pods when it is partial, else whole. -/
def holdReplica (key : String) (e : InFlightEntry) (placed i : ℕ) : NodeView :=
  let v := v.setOwner (inFlightReplicaOwner key (placed + i + 1))
  match e.partials[i]? with
  | some p => v.holdPartial (fitOf v.slots e.shape) p
  | none => (v.place (fitOf v.slots e.shape)).1

/-- The replicas of an entry that the view's snapshot shows placed. -/
def shownPlaced (e : InFlightEntry) : ℕ :=
  e.seen.foldl (fun placed s =>
    if Time.after (some s.seenAt) v.takenAt then placed else max placed s.n) e.base

def holdEntry (key : String) (e : InFlightEntry) : NodeView :=
  (List.range (e.want - v.shownPlaced e)).foldl
    (fun v' i => v'.holdReplica key e (v.shownPlaced e) i) v

/-- `holdOn` after its settle: debit the replicas the ledger holds. -/
def holdOn (l : InFlightLedger) (now : Int) : NodeView :=
  ((l.entries.keys.insertionSort (· ≤ ·)).foldl (fun v k =>
    match l.entries.find? k with
    | none => v
    | some e => if now < e.expires then v.holdEntry k e else v) v).setOwner v.owner

/-- The variant and the number of a replica the ledger holds a hole for. -/
def heldReplica (owner : String) : Option (String × Int) :=
  match (owner.toList.splitOn '\x00').map String.ofList with
  | [start, key, num] =>
    if start = inFlightOwner then num.toInt?.map fun n => (key, n) else none
  | _ => none

/-- The owners of holes whose replicas' pods do not exist yet. -/
def uncreated (created : GoMap String ℕ) (owner : String) : Bool :=
  match heldReplica owner with
  | none => false
  | some (key, n) => match created.find? key with
    | none => false
    | some have_ => have_ < n

/-- `ReleaseUncreated`: take back the holes of replicas whose pods do not exist yet. -/
def releaseUncreated (created : GoMap String ℕ) : NodeView :=
  { v with
    debit := giveBackOwners (v.owned.getD ∅) (uncreated created) v.debit
    owned := v.owned.map fun m => m.deleteFunc fun owner _ => uncreated created owner
    domains := v.domains.deleteFunc fun _ owner =>
      uncreated created owner && (v.owned.getD ∅).has owner }

end NodeView

end LlmScaler.Nodes
