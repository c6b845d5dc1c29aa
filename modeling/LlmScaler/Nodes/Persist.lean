import LlmScaler.Nodes.Holds

/-!
# The persisted in-flight ledger

The live entries are written to the controller status, within bounds on their number and size, and
read back after a restart. How a ledger is turned into text and back is a parameter that is assumed
to round-trip. The reader drops an entry with more partial replicas than replicas still to place,
which the running ledger can have: a placed count never falls, while the replicas it counted may
become partial again.
-/

namespace LlmScaler.Nodes

open LlmScaler.Core List GoMap

def inFlightFormat : ℕ := 1

def maxInFlightPersisted : ℕ := 512

/-- `maxInFlightBytes`: 128 KiB. -/
def maxInFlightBytes : ℕ := 128 * 1024

/-- `maxInFlightPods`: the pods of one replica. -/
def maxInFlightPods : ℕ := 256

/-- One variant's replicas in flight, as persisted. -/
structure PersistedInFlightEntry where
  accelerator : String
  podGPUs : List ℕ
  gpus : ℕ
  tolerations : List Toleration
  domainKey : String
  placements : List PodPlacement
  flavor : Option FlavorPlacement
  want : ℕ
  placed : ℕ
  expires : Int
  ttlSeconds : Int
  partials : List PartialReplica

/-- The ledger as the controller status keeps it. -/
structure PersistedInFlight where
  version : ℕ
  entries : GoMap String PersistedInFlightEntry

/-- A text encoding that round-trips. -/
structure Encoding (τ : Type) where
  isEmpty : τ → Bool
  encode : PersistedInFlight → τ
  decode : τ → Except String PersistedInFlight
  entryBytes : PersistedInFlightEntry → ℕ
  decode_encode : ∀ p, decode (encode p) = .ok p
  encode_nonempty : ∀ p, isEmpty (encode p) = false

namespace InFlightEntry

/-- The replicas counted placed: when admitted, or since. -/
def placed (e : InFlightEntry) : ℕ := e.seen.foldl (fun n s => max n s.n) e.base

def persisted (e : InFlightEntry) : PersistedInFlightEntry where
  accelerator := e.shape.accelerator
  podGPUs := e.shape.podGPUs
  gpus := e.shape.gpus
  tolerations := e.shape.tolerations
  domainKey := e.shape.domainKey
  placements := e.shape.placements
  flavor := e.shape.flavor
  want := e.want
  placed := e.placed
  expires := e.expires
  ttlSeconds := (e.ttl + second - 1) / second
  partials := e.partials.map PartialSeen.toPartialReplica

end InFlightEntry

/-- The order entries are kept in: the holds that end last first, on a tie by key. -/
def byEnd : Sorting fun p q : String × PersistedInFlightEntry =>
    decide (toLex (-p.2.expires, p.1) < toLex (-q.2.expires, q.1)) :=
  Sorting.byKey fun p : String × PersistedInFlightEntry => toLex (-p.2.expires, p.1)

/-- The loop of `MarshalInFlight` that keeps entries while their number and size are in bounds. -/
def keepBounded (entryBytes : PersistedInFlightEntry → ℕ) :
    ℕ → ℕ → List (String × PersistedInFlightEntry) → List (String × PersistedInFlightEntry)
  | _, _, [] => []
  | count, size, p :: ps =>
    if maxInFlightPersisted ≤ count then []
    else if maxInFlightBytes < size + (p.1.utf8ByteSize + entryBytes p.2) then []
    else p :: keepBounded entryBytes (count + 1) (size + (p.1.utf8ByteSize + entryBytes p.2)) ps

/-- `persistedEntryOK`: the entry has only figures this controller is believed to write. -/
def persistedEntryOK (k : String) (pe : PersistedInFlightEntry) : Bool :=
  hasSlash k && pe.placed < pe.want && pe.want ≤ maxLedgerReplicas &&
    (inFlightTTL / second ≤ pe.ttlSeconds) && pe.podGPUs.length ≤ maxInFlightPods &&
    pe.partials.length ≤ pe.want - pe.placed &&
    pe.partials.all fun r => r.placedGPUs.length ≤ maxInFlightPods

namespace InFlightLedger

variable {τ : Type} (c : Encoding τ) (l : InFlightLedger)

/-- The entries that still hold a replica, as persisted. -/
def live (now : Int) : List (String × PersistedInFlightEntry) :=
  (l.entries.bindings.filter fun p => now < p.2.expires && p.2.placed < p.2.want).map
    fun p => (p.1, p.2.persisted)

/-- The live entries within the format's bounds. -/
def keptLive (now : Int) : List (String × PersistedInFlightEntry) :=
  keepBounded c.entryBytes 0 0 (byEnd.sort (l.live now))

def marshalInFlight (now : Int) : τ :=
  c.encode ⟨inFlightFormat, GoMap.ofList (l.keptLive c now)⟩

def unmarshalInFlight (text : τ) : Except String PersistedInFlight :=
  if c.isEmpty text then .ok ⟨inFlightFormat, ∅⟩
  else match c.decode text with
    | .error err => .error ("in-flight ledger: " ++ err)
    | .ok p =>
      if p.version ≠ inFlightFormat then
        .error ("in-flight ledger: version " ++ toString p.version ++ ", this build reads " ++
          toString inFlightFormat)
      else .ok p

def restoredTTL (maxTTL : Int) (pe : PersistedInFlightEntry) : Int :=
  min pe.ttlSeconds (max maxTTL inFlightTTL / second) * second

def restoredEntry (now maxTTL : Int) (k : String) (pe : PersistedInFlightEntry) :
    InFlightEntry where
  shape := ⟨k, pe.accelerator, pe.podGPUs, pe.gpus, pe.tolerations, pe.domainKey, pe.placements,
    pe.flavor⟩
  want := pe.want
  base := pe.placed
  seen := []
  expires := min pe.expires (now + restoredTTL maxTTL pe)
  ttl := restoredTTL maxTTL pe
  partials := pe.partials.map fun r => ⟨r, List.replicate r.placedGPUs.length none⟩

def restorable (p : PersistedInFlight) (now : Int) : List (String × PersistedInFlightEntry) :=
  byEnd.sort (p.entries.bindings.filter fun q => persistedEntryOK q.1 q.2 && now < q.2.expires)

/-- The loop of `RestoreInFlight`: an entry the ledger holds already is left as it is. -/
def restoreList (now maxTTL : Int) (l : InFlightLedger) :
    List (String × PersistedInFlightEntry) → InFlightLedger × ℕ
  | [] => (l, 0)
  | q :: qs =>
    if l.entries.has q.1 then restoreList now maxTTL l qs
    else
      let r := restoreList now maxTTL
        { l with
          entries := l.entries.set q.1 (restoredEntry now maxTTL q.1 q.2)
          restored := l.restored.set q.1 true } qs
      (r.1, r.2 + 1)

/-- `RestoreInFlight`: the ledger, how many entries it restored and how many it dropped. -/
def restoreInFlight (p : PersistedInFlight) (now maxTTL : Int) : InFlightLedger × ℕ × ℕ :=
  let r := restoreList now maxTTL l ((restorable p now).take maxInFlightPersisted)
  (r.1, r.2, (p.entries.bindings.filter fun q => !persistedEntryOK q.1 q.2).length +
    ((restorable p now).length - maxInFlightPersisted))

end InFlightLedger

variable {k : String}

section Written

theorem keepBounded_sublist (entryBytes : PersistedInFlightEntry → ℕ) (count size : ℕ)
    (ps : List (String × PersistedInFlightEntry)) :
    (keepBounded entryBytes count size ps).Sublist ps := by
  induction ps generalizing count size with
  | nil => exact Sublist.refl []
  | cons p ps ih =>
    unfold keepBounded
    split_ifs
    · exact nil_sublist _
    · exact nil_sublist _
    · exact (ih _ _).cons_cons p

theorem length_keepBounded (entryBytes : PersistedInFlightEntry → ℕ) {count : ℕ} (size : ℕ)
    (hcount : count ≤ maxInFlightPersisted) (ps : List (String × PersistedInFlightEntry)) :
    count + (keepBounded entryBytes count size ps).length ≤ maxInFlightPersisted := by
  induction ps generalizing count size with
  | nil => exact hcount
  | cons p ps ih =>
    unfold keepBounded
    split_ifs with hfull
    · exact hcount
    · exact hcount
    · have hcount' : count + 1 ≤ maxInFlightPersisted := by omega
      have := ih (size + (p.1.utf8ByteSize + entryBytes p.2)) hcount'
      rw [length_cons]
      omega

variable {τ : Type} {c : Encoding τ} {l : InFlightLedger} {now : Int}

theorem mem_live {pe : PersistedInFlightEntry} :
    (k, pe) ∈ l.live now ↔ ∃ e, l.entries.find? k = some e ∧ now < e.expires ∧
      e.placed < e.want ∧ pe = e.persisted := by
  unfold InFlightLedger.live
  constructor
  · intro h
    obtain ⟨⟨k', e⟩, hmem, heq⟩ := mem_map.mp h
    obtain ⟨rfl, rfl⟩ := Prod.mk.inj heq
    obtain ⟨hb, hlive⟩ := mem_filter.mp hmem
    rw [Bool.and_eq_true, decide_eq_true_eq, decide_eq_true_eq] at hlive
    exact ⟨e, mem_bindings.mp hb, hlive.1, hlive.2, rfl⟩
  · rintro ⟨e, hf, hexp, hwant, rfl⟩
    apply mem_map.mpr
    refine ⟨(k, e), mem_filter.mpr ⟨mem_bindings.mpr hf, ?_⟩, rfl⟩
    rw [Bool.and_eq_true, decide_eq_true_eq, decide_eq_true_eq]
    exact ⟨hexp, hwant⟩

theorem nodup_live : ((l.live now).map Prod.fst).Nodup := by
  unfold InFlightLedger.live
  rw [map_map]
  exact (filter_sublist.map Prod.fst).nodup (nodup_bindings l.entries)

theorem nodup_keptLive : ((l.keptLive c now).map Prod.fst).Nodup := by
  have hsorted : ((byEnd.sort (l.live now)).map Prod.fst).Nodup :=
    ((byEnd.perm _).map Prod.fst).nodup_iff.mpr nodup_live
  exact ((keepBounded_sublist c.entryBytes 0 0 _).map Prod.fst).nodup hsorted

theorem live_of_mem_keptLive {q : String × PersistedInFlightEntry} (h : q ∈ l.keptLive c now) :
    q ∈ l.live now :=
  byEnd.mem_sort.mp ((keepBounded_sublist c.entryBytes 0 0 _).subset h)

theorem unmarshal_marshal : InFlightLedger.unmarshalInFlight c (l.marshalInFlight c now) =
    .ok ⟨inFlightFormat, GoMap.ofList (l.keptLive c now)⟩ := by
  unfold InFlightLedger.unmarshalInFlight InFlightLedger.marshalInFlight
  rw [c.encode_nonempty, c.decode_encode]
  rfl

end Written

variable {e : InFlightEntry}

section Restored

variable {now maxTTL : Int}

theorem find?_restoreList {qs : List (String × PersistedInFlightEntry)} {l : InFlightLedger}
    (hnodup : (qs.map Prod.fst).Nodup) (hnew : ∀ q ∈ qs, l.entries.find? q.1 = none) :
    (InFlightLedger.restoreList now maxTTL l qs).1.entries.find? k = some e ↔
      l.entries.find? k = some e ∨
        ∃ pe, (k, pe) ∈ qs ∧ e = InFlightLedger.restoredEntry now maxTTL k pe := by
  induction qs generalizing l with
  | nil => simp [InFlightLedger.restoreList]
  | cons q qs ih =>
    obtain ⟨hq, hnodup⟩ := nodup_cons.mp hnodup
    obtain ⟨hqnew, hnew⟩ := forall_mem_cons.mp hnew
    have hhas : l.entries.has q.1 = false := by
      rw [Bool.eq_false_iff, Ne, GoMap.has_iff_mem_keys, GoMap.mem_keys, hqnew]
      rintro ⟨_, hcontra⟩
      cases hcontra
    unfold InFlightLedger.restoreList
    rw [hhas, if_neg Bool.false_ne_true]
    dsimp only
    rw [ih hnodup]
    · rw [find?_set]
      by_cases hk : k = q.1
      · subst hk
        rw [if_pos rfl, hqnew]
        constructor
        · rintro (heq | ⟨pe, hmem, rfl⟩)
          · cases heq
            exact .inr ⟨q.2, mem_cons_self, rfl⟩
          · exact absurd (mem_map_of_mem hmem) hq
        · rintro (hcontra | ⟨pe, hmem, rfl⟩)
          · cases hcontra
          · rcases mem_cons.mp hmem with heq | hmem
            · exact .inl (by rw [← heq])
            · exact absurd (mem_map_of_mem hmem) hq
      · rw [if_neg hk]
        constructor
        · rintro (hold | ⟨pe, hmem, rfl⟩)
          · exact .inl hold
          · exact .inr ⟨pe, mem_cons_of_mem q hmem, rfl⟩
        · rintro (hold | ⟨pe, hmem, rfl⟩)
          · exact .inl hold
          · rcases mem_cons.mp hmem with heq | hmem
            · exact absurd (congrArg Prod.fst heq) hk
            · exact .inr ⟨pe, hmem, rfl⟩
    · intro q' hq'
      have hne : q'.1 ≠ q.1 := by
        intro heq
        exact hq (heq ▸ mem_map_of_mem hq')
      rw [find?_set, if_neg hne]
      exact hnew q' hq'

theorem nodup_restorable (p : PersistedInFlight) :
    ((InFlightLedger.restorable p now).map Prod.fst).Nodup := by
  apply ((byEnd.perm _).map Prod.fst).nodup_iff.mpr
  exact (filter_sublist.map Prod.fst).nodup (nodup_bindings p.entries)

variable {τ : Type} {c : Encoding τ} {l : InFlightLedger} {m : Int}

theorem mem_restorable_keptLive {pe : PersistedInFlightEntry} :
    (k, pe) ∈ InFlightLedger.restorable
        ⟨inFlightFormat, GoMap.ofList (l.keptLive c m)⟩ now ↔
      (k, pe) ∈ l.keptLive c m ∧ persistedEntryOK k pe = true ∧ now < pe.expires := by
  unfold InFlightLedger.restorable
  rw [Sorting.mem_sort, mem_filter, mem_bindings, find?_ofList nodup_keptLive,
    Bool.and_eq_true, decide_eq_true_eq]

theorem length_restorable_keptLive : (InFlightLedger.restorable
    ⟨inFlightFormat, GoMap.ofList (l.keptLive c m)⟩ now).length ≤ maxInFlightPersisted := by
  have hsub : (InFlightLedger.restorable
      ⟨inFlightFormat, GoMap.ofList (l.keptLive c m)⟩ now).Subperm (l.keptLive c m) := by
    apply subperm_of_subset (nodup_restorable _).of_map
    rintro ⟨k, pe⟩ hmem
    exact (mem_restorable_keptLive.mp hmem).1
  have hlen := length_keepBounded c.entryBytes 0 (Nat.zero_le maxInFlightPersisted)
    (byEnd.sort (l.live m))
  rw [Nat.zero_add] at hlen
  exact hsub.length_le.trans hlen

theorem find?_restoreInFlight :
    (InFlightLedger.new.restoreInFlight
        ⟨inFlightFormat, GoMap.ofList (l.keptLive c m)⟩ now maxTTL).1.entries.find? k = some e ↔
      ∃ pe, (k, pe) ∈ l.keptLive c m ∧ persistedEntryOK k pe = true ∧ now < pe.expires ∧
        e = InFlightLedger.restoredEntry now maxTTL k pe := by
  unfold InFlightLedger.restoreInFlight
  dsimp only
  rw [take_of_length_le length_restorable_keptLive,
    find?_restoreList (nodup_restorable _) (fun _ _ => rfl)]
  constructor
  · rintro (hcontra | ⟨pe, hmem, rfl⟩)
    · cases hcontra
    · obtain ⟨h1, h2, h3⟩ := mem_restorable_keptLive.mp hmem
      exact ⟨pe, h1, h2, h3, rfl⟩
  · rintro ⟨pe, h1, h2, h3, rfl⟩
    exact .inr ⟨pe, mem_restorable_keptLive.mpr ⟨h1, h2, h3⟩, rfl⟩

end Restored

/-- The same hold: want, placed count, shape, partial replicas and expiry. -/
structure SameHold (e e' : InFlightEntry) : Prop where
  want : e'.want = e.want
  placed : e'.placed = e.placed
  shape : e'.shape = e.shape
  partials : e'.partials.map PartialSeen.toPartialReplica =
    e.partials.map PartialSeen.toPartialReplica
  expires : e'.expires = e.expires

theorem InFlightEntry.Kept.sameHold {maxTTL t now : Int} (h : e.Kept maxTTL t k) (hle : t ≤ now) :
    SameHold e (InFlightLedger.restoredEntry now maxTTL k e.persisted) := by
  obtain ⟨s, hs⟩ := h.whole
  have hseconds : (e.ttl + second - 1) / second = s := by
    rw [hs, second_eq]
    omega
  have httl : InFlightLedger.restoredTTL maxTTL e.persisted = e.ttl := by
    change min ((e.ttl + second - 1) / second) (max maxTTL inFlightTTL / second) * second = e.ttl
    have hle := h.ttl_le
    rw [hseconds]
    generalize max maxTTL inFlightTTL = most at hle
    rw [hs, second_eq] at hle ⊢
    omega
  refine ⟨rfl, rfl, ?_, ?_, ?_⟩
  · rw [← h.variant]
    rfl
  · change ((e.partials.map PartialSeen.toPartialReplica).map _).map _ = _
    rw [map_map]
    exact map_id _
  · change min e.expires (now + InFlightLedger.restoredTTL maxTTL e.persisted) = e.expires
    have := h.expires_le
    rw [httl]
    omega

/-- Of an entry that fits the format the reader refuses only one with too many partials. -/
theorem InFlightEntry.Kept.persistedEntryOK_iff {maxTTL t : Int} (h : e.Kept maxTTL t k)
    (hwant : e.placed < e.want) (hpods : e.shape.podGPUs.length ≤ maxInFlightPods)
    (hparts : ∀ p ∈ e.partials, p.placedGPUs.length ≤ maxInFlightPods) :
    persistedEntryOK k e.persisted = true ↔ e.partials.length ≤ e.want - e.placed := by
  have hTTL : inFlightTTL = 300000000000 := by decide
  have hseconds : inFlightTTL / second ≤ (e.ttl + second - 1) / second := by
    have := h.le_ttl
    rw [hTTL] at this ⊢
    rw [second_eq]
    omega
  have hall : (e.partials.map PartialSeen.toPartialReplica).all
      (fun r => r.placedGPUs.length ≤ maxInFlightPods) = true := by
    rw [all_eq_true, forall_mem_map]
    exact fun p hp => decide_eq_true (hparts p hp)
  simp [persistedEntryOK, persisted, h.slash, h.want_le, hwant, hpods, hseconds, hall]

/-- A live entry within the format's bounds: it holds replicas until after the restart, is among
the entries written, and its pods are within the format's. -/
structure Persists {τ : Type} (c : Encoding τ) (l : InFlightLedger) (written now : Int) (k : String)
    (e : InFlightEntry) : Prop where
  find : l.entries.find? k = some e
  live : now < e.expires
  holds : e.placed < e.want
  kept : k ∈ (l.keptLive c written).map Prod.fst
  pods : e.shape.podGPUs.length ≤ maxInFlightPods
  placedPods : ∀ p ∈ e.partials, p.placedGPUs.length ≤ maxInFlightPods

/-- The ledger after a restart: what was written, read back into an empty one. -/
def InFlightLedger.restart {τ : Type} (c : Encoding τ) (l : InFlightLedger)
    (written now maxTTL : Int) : Except String InFlightLedger :=
  (InFlightLedger.unmarshalInFlight c (l.marshalInFlight c written)).map fun p =>
    (InFlightLedger.new.restoreInFlight p now maxTTL).1

section Restart

variable {τ : Type} {c : Encoding τ} {l : InFlightLedger} {written now maxTTL : Int}

theorem restart_eq : l.restart c written now maxTTL = .ok (InFlightLedger.new.restoreInFlight
    ⟨inFlightFormat, GoMap.ofList (l.keptLive c written)⟩ now maxTTL).1 := by
  unfold InFlightLedger.restart
  rw [unmarshal_marshal]
  rfl

theorem Persists.mem_keptLive (h : Persists c l written now k e) :
    (k, e.persisted) ∈ l.keptLive c written := by
  obtain ⟨⟨k', pe⟩, hmem, rfl⟩ := mem_map.mp h.kept
  obtain ⟨e', hfind, _, _, rfl⟩ := mem_live.mp (live_of_mem_keptLive hmem)
  have heq : e' = e := Option.some.inj (hfind.symm.trans h.find)
  rw [← heq]
  exact hmem

end Restart

/-- Every hold after a restart is one of the ledger that was written, unchanged. And every live
hold within the format's bounds is there if and only if none has more partial replicas than
replicas still to place. -/
theorem restart_holds_iff {τ : Type} (c : Encoding τ) (maxTTL start written now : Int)
    (ops : List (ℕ × LedgerOp)) (hops : ∀ op ∈ ops, op.2.Regular maxTTL)
    (hwritten : (runFrom LedgerState.next (.start start) ops).now ≤ written)
    (hnow : written ≤ now) :
    ∃ l', (runFrom LedgerState.next (.start start) ops).ledger.restart c written now maxTTL =
        .ok l' ∧
      (∀ k e', l'.entries.find? k = some e' → ∃ e,
        (runFrom LedgerState.next (.start start) ops).ledger.entries.find? k = some e ∧
          now < e.expires ∧ SameHold e e') ∧
      ((∀ k e, Persists c (runFrom LedgerState.next (.start start) ops).ledger written now k e →
          ∃ e', l'.entries.find? k = some e' ∧ SameHold e e') ↔
        ∀ k e, Persists c (runFrom LedgerState.next (.start start) ops).ledger written now k e →
          e.partials.length ≤ e.want - e.placed) := by
  have hkept := LedgerState.kept_run start hops
  generalize runFrom LedgerState.next (.start start) ops = s at hkept hwritten
  refine ⟨_, restart_eq, ?_, ?_⟩
  · intro k e' hf
    obtain ⟨pe, hmem, _, hlive, rfl⟩ := find?_restoreInFlight.mp hf
    obtain ⟨e, hfind, _, _, rfl⟩ := mem_live.mp (live_of_mem_keptLive hmem)
    exact ⟨e, hfind, hlive, (hkept.entries k e hfind).sameHold (hwritten.trans hnow)⟩
  · constructor
    · intro hall k e hp
      obtain ⟨e', hf, _⟩ := hall k e hp
      obtain ⟨pe, hmem, hok, _, _⟩ := find?_restoreInFlight.mp hf
      obtain ⟨e'', hfind, _, _, rfl⟩ := mem_live.mp (live_of_mem_keptLive hmem)
      cases Option.some.inj (hfind.symm.trans hp.find)
      exact ((hkept.entries k e hp.find).persistedEntryOK_iff hp.holds hp.pods hp.placedPods).mp hok
    · intro hall k e hp
      have hk := hkept.entries k e hp.find
      refine ⟨_, find?_restoreInFlight.mpr ⟨e.persisted, hp.mem_keptLive, ?_, hp.live, rfl⟩,
        hk.sameHold (hwritten.trans hnow)⟩
      exact (hk.persistedEntryOK_iff hp.holds hp.pods hp.placedPods).mpr (hall k e hp)

private def plain : Encoding (Option PersistedInFlight) where
  isEmpty text := text.isNone
  encode := some
  decode
    | some p => .ok p
    | none => .error "no ledger"
  entryBytes _ := 100
  decode_encode _ := rfl
  encode_nonempty _ := rfl

/-- Two replicas, each of a leader and a worker. -/
private def group : ReplicaShape := ⟨"ns/v", "H100", [1, 1], 2, [], "", [], none⟩

private def admission : InFlightAdmission := ⟨"ns/v", group, 2, 0, 0, false, false⟩

/-- The first replica places; the second only in part. -/
private def placing : List (ℕ × LedgerOp) :=
  [(0, .commit [admission]), (1, .settle (GoMap.set ∅ "ns/v" ⟨1, [⟨"b", [1]⟩]⟩))]

/-- Then the first replica loses its worker. -/
private def losing : List (ℕ × LedgerOp) :=
  placing ++ [(1, .settle (GoMap.set ∅ "ns/v" ⟨0, [⟨"a", [1]⟩, ⟨"b", [1]⟩]⟩))]

private theorem losing_regular : ∀ op ∈ losing, op.2.Regular 0 := by
  have hadm : admission.Regular 0 :=
    ⟨by decide, rfl, by decide, ⟨0, by decide⟩, by decide⟩
  intro op hop a ha
  simp only [losing, placing, cons_append, nil_append, mem_cons, not_mem_nil,
    or_false] at hop
  rcases hop with rfl | rfl | rfl
  · cases mem_singleton.mp ha
    exact hadm
  · cases ha
  · cases ha

private def entryAfter (ops : List (ℕ × LedgerOp)) : InFlightEntry :=
  ((runFrom LedgerState.next (.start 0) ops).ledger.entries.find? "ns/v").getD
    (InFlightLedger.firstAdmitted admission 0)

/-- A live hold of one replica that a restart drops: the variant counted a replica placed before
it lost a pod, so it has two partial replicas and one replica still to place. -/
theorem restart_drops_losing : (∀ op ∈ losing, op.2.Regular 0) ∧
    Persists plain (runFrom LedgerState.next (.start 0) losing).ledger 10 20 "ns/v"
      (entryAfter losing) ∧
    ∃ l', (runFrom LedgerState.next (.start 0) losing).ledger.restart plain 10 20 0 = .ok l' ∧
      l'.entries.find? "ns/v" = none := by
  refine ⟨losing_regular, ⟨rfl, by decide, by decide, by decide, by decide, by decide⟩,
    _, restart_eq, ?_⟩
  exact Option.isNone_iff_eq_none.mp (by decide)

private theorem placing_entries :
    (runFrom LedgerState.next (.start 0) placing).ledger.entries =
      GoMap.set ∅ "ns/v" (entryAfter placing) := rfl

/-- Before the loss the hold is restored. -/
theorem restart_keeps_placing : Persists plain
      (runFrom LedgerState.next (.start 0) placing).ledger 10 20 "ns/v" (entryAfter placing) ∧
    ∃ l' e', (runFrom LedgerState.next (.start 0) placing).ledger.restart plain 10 20 0 = .ok l' ∧
      l'.entries.find? "ns/v" = some e' ∧ SameHold (entryAfter placing) e' := by
  have hp : Persists plain (runFrom LedgerState.next (.start 0) placing).ledger 10 20 "ns/v"
      (entryAfter placing) := ⟨rfl, by decide, by decide, by decide, by decide, by decide⟩
  have hops : ∀ op ∈ placing, op.2.Regular 0 := fun op hop =>
    losing_regular op (mem_append_left _ hop)
  obtain ⟨l', hl', _, hiff⟩ :=
    restart_holds_iff plain 0 0 10 20 placing hops (by decide) (by decide)
  obtain ⟨e', hf, hsame⟩ := hiff.mpr (by
    intro k e hke
    have hfind := hke.find
    rw [placing_entries, find?_set] at hfind
    split_ifs at hfind
    · cases hfind
      decide
    · cases hfind) "ns/v" (entryAfter placing) hp
  exact ⟨hp, l', e', hl', hf, hsame⟩

end LlmScaler.Nodes
