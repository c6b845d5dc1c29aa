import LlmScaler.Core.Run
import LlmScaler.Core.Tally
import LlmScaler.Nodes.InFlight

/-!
# Holds over the ledger's runs

The ledger of a running process: the wakes and the cycles admit, a cycle's provisional admission is
set back when the cycle commits, and every node view settles the entries first. The clock never runs
back.
-/

namespace LlmScaler.Nodes

open LlmScaler.Core List GoMap

def maxLedgerReplicas : ℕ := 100000

/-- The ledger, the mark of the cycle under way and the clock. -/
structure LedgerState where
  ledger : InFlightLedger
  mark : InFlightLedger.Mark
  now : Int

inductive LedgerOp
  | admitNow (key : String) (shape : ReplicaShape) (want placedNow : ℕ)
  | provisional (adms : List InFlightAdmission)
  | commit (adms : List InFlightAdmission)
  | wake (adms : List InFlightAdmission)
  | settle (observed : GoMap String Placed)
  | forget (key : String)

/-- The process before its first operation. -/
def LedgerState.start (now : Int) : LedgerState := ⟨.new, [], now⟩

/-- The state after an operation that comes some nanoseconds after the last. -/
def LedgerState.next (s : LedgerState) (op : ℕ × LedgerOp) : LedgerState :=
  match op.2 with
  | .admitNow key shape want placedNow =>
    ⟨s.ledger.admitNow key shape want placedNow (s.now + op.1), s.mark, s.now + op.1⟩
  | .provisional adms =>
    ⟨(s.ledger.provisional adms (s.now + op.1)).1, (s.ledger.provisional adms (s.now + op.1)).2,
      s.now + op.1⟩
  | .commit adms => ⟨s.ledger.commit s.mark adms (s.now + op.1), [], s.now + op.1⟩
  | .wake adms => ⟨s.ledger.commit [] adms (s.now + op.1), s.mark, s.now + op.1⟩
  | .settle observed => ⟨s.ledger.settle observed (s.now + op.1), s.mark, s.now + op.1⟩
  | .forget key => ⟨s.ledger.forget key, s.mark, s.now + op.1⟩

def hasSlash (key : String) : Bool := key.toList.contains '/'

/-- An admission as the engines make them: of the variant its key names, of no more replicas than
the ledger keeps, for whole seconds and no longer than the longest hold. -/
structure InFlightAdmission.Regular (maxTTL : Int) (a : InFlightAdmission) : Prop where
  slash : hasSlash a.key = true
  variant : a.shape.variant = a.key
  want_le : a.want ≤ maxLedgerReplicas
  whole : second ∣ a.ttl
  ttl_le : a.ttl ≤ max maxTTL inFlightTTL

def LedgerOp.admissions : LedgerOp → List InFlightAdmission
  | .admitNow key shape want placedNow => [⟨key, shape, want, placedNow, 0, false, false⟩]
  | .provisional adms => adms
  | .commit adms => adms
  | .wake adms => adms
  | .settle _ => []
  | .forget _ => []

def LedgerOp.Regular (maxTTL : Int) (op : LedgerOp) : Prop :=
  ∀ a ∈ op.admissions, a.Regular maxTTL

/-- What an entry of the ledger keeps. -/
structure InFlightEntry.Kept (maxTTL now : Int) (key : String) (e : InFlightEntry) : Prop where
  slash : hasSlash key = true
  variant : e.shape.variant = key
  want_le : e.want ≤ maxLedgerReplicas
  whole : second ∣ e.ttl
  le_ttl : inFlightTTL ≤ e.ttl
  ttl_le : e.ttl ≤ max maxTTL inFlightTTL
  expires_le : e.expires ≤ now + e.ttl

section Entries

variable {maxTTL now : Int} {key : String} {e : InFlightEntry} {a : InFlightAdmission}

theorem InFlightEntry.Kept.later (h : e.Kept maxTTL now key) {now' : Int} (hle : now ≤ now') :
    e.Kept maxTTL now' key :=
  { h with expires_le := le_trans h.expires_le (by omega) }

theorem second_dvd_inFlightTTL : second ∣ inFlightTTL := ⟨300, by decide⟩

theorem second_dvd_max {s t : Int} (hs : second ∣ s) (ht : second ∣ t) : second ∣ max s t := by
  rcases max_choice s t with h | h
  · rw [h]
    exact hs
  · rw [h]
    exact ht

theorem InFlightAdmission.Regular.ttl (ha : a.Regular maxTTL) :
    second ∣ max a.ttl inFlightTTL ∧ max a.ttl inFlightTTL ≤ max maxTTL inFlightTTL :=
  ⟨second_dvd_max ha.whole second_dvd_inFlightTTL, max_le ha.ttl_le (le_max_right _ _)⟩

theorem InFlightEntry.Kept.admittedTTL (h : e.Kept maxTTL now key) (ha : a.Regular maxTTL) :
    second ∣ InFlightLedger.admittedTTL a e ∧ inFlightTTL ≤ InFlightLedger.admittedTTL a e ∧
      InFlightLedger.admittedTTL a e ≤ max maxTTL inFlightTTL := by
  obtain ⟨hdvd, hle⟩ := ha.ttl
  unfold InFlightLedger.admittedTTL
  split_ifs
  · refine ⟨second_dvd_max hdvd h.whole, ?_, max_le hle h.ttl_le⟩
    exact le_trans (le_max_right _ _) (le_max_left _ _)
  · exact ⟨hdvd, le_max_right _ _, hle⟩

theorem InFlightLedger.variant_admittedShape :
    (InFlightLedger.admittedShape a e).variant = a.shape.variant := by
  unfold InFlightLedger.admittedShape
  split_ifs
  · rfl
  · rfl

theorem InFlightEntry.Kept.readmitted (h : e.Kept maxTTL now a.key) (ha : a.Regular maxTTL) :
    (InFlightLedger.readmitted a e now).Kept maxTTL now a.key := by
  obtain ⟨hdvd, hge, hle⟩ := h.admittedTTL ha
  refine ⟨ha.slash, ?_, ha.want_le, hdvd, hge, hle, ?_⟩
  · exact InFlightLedger.variant_admittedShape.trans ha.variant
  · have hexp := h.expires_le
    change (if e.want < a.want then now + InFlightLedger.admittedTTL a e
      else e.expires + (InFlightLedger.admittedTTL a e - e.ttl)) ≤
        now + InFlightLedger.admittedTTL a e
    split_ifs
    · exact le_refl _
    · omega

theorem InFlightAdmission.Regular.kept_firstAdmitted (ha : a.Regular maxTTL) :
    (InFlightLedger.firstAdmitted a now).Kept maxTTL now a.key :=
  ⟨ha.slash, ha.variant, ha.want_le, ha.ttl.1, le_max_right _ _, ha.ttl.2, le_refl _⟩

theorem InFlightEntry.Kept.settleEntry {observed : GoMap String Placed} {e' : InFlightEntry}
    (h : e.Kept maxTTL now key)
    (hs : InFlightLedger.settleEntry observed now key e = some e') : e'.Kept maxTTL now key := by
  unfold InFlightLedger.settleEntry at hs
  split_ifs at hs
  cases ho : observed.find? key with
  | none =>
    simp only [ho] at hs
    cases hs
    exact h
  | some p =>
    simp only [ho] at hs
    split_ifs at hs
    cases hs
    exact ⟨h.slash, h.variant, h.want_le, h.whole, h.le_ttl, h.ttl_le, h.expires_le⟩

end Entries

/-- Every entry keeps what entries keep. -/
def InFlightLedger.Kept (maxTTL now : Int) (l : InFlightLedger) : Prop :=
  l.entries.Every fun k e => e.Kept maxTTL now k

section Ledgers

variable {maxTTL now : Int} {l : InFlightLedger}

theorem InFlightLedger.Kept.admitOne (h : l.Kept maxTTL now) {a : InFlightAdmission}
    (ha : a.Regular maxTTL) (sight : Bool) : (l.admitOne a now sight).Kept maxTTL now := by
  change (InFlightLedger.admitEntry (l.sighted.has a.key) a now l.entries).Every _
  unfold InFlightLedger.admitEntry
  by_cases hplaced : a.want ≤ a.placedNow
  · rw [if_pos hplaced]
    exact h.delete a.key
  · rw [if_neg hplaced]
    cases hf : l.entries.find? a.key with
    | none =>
      dsimp only
      split_ifs
      · exact h
      · exact h.set ha.kept_firstAdmitted
    | some e => exact h.set ((h a.key e hf).readmitted ha)

theorem InFlightLedger.Kept.admitList (h : l.Kept maxTTL now) {adms : List InFlightAdmission}
    (hadms : ∀ a ∈ adms, a.Regular maxTTL) (sight : Bool) :
    (l.admitList adms now sight).Kept maxTTL now :=
  foldlRecOn _ _ h fun _ hl a ha => hl.admitOne (hadms a ha) sight

/-- A mark whose entries keep what entries keep. -/
def InFlightLedger.MarkKept (maxTTL now : Int) (mark : InFlightLedger.Mark) : Prop :=
  ∀ k e, (k, some e) ∈ mark → e.Kept maxTTL now k

theorem InFlightLedger.Kept.mark (h : l.Kept maxTTL now) (adms : List InFlightAdmission) :
    InFlightLedger.MarkKept maxTTL now (l.provisional adms now).2 := by
  intro k e hmem
  obtain ⟨k', _, heq⟩ := mem_map.mp hmem
  obtain ⟨rfl, hfind⟩ := Prod.mk.inj heq
  exact h k' e hfind

theorem InFlightLedger.Kept.setBack (h : l.Kept maxTTL now) {mark : InFlightLedger.Mark}
    (hmark : InFlightLedger.MarkKept maxTTL now mark) :
    (InFlightLedger.setBack mark l.entries).Every fun k e => e.Kept maxTTL now k := by
  refine foldlRecOn (motive := fun es : GoMap String InFlightEntry =>
    es.Every fun k e => e.Kept maxTTL now k) _ _ h fun es hes p hp => ?_
  obtain ⟨k, prev⟩ := p
  cases prev with
  | none => exact hes.delete k
  | some e => exact hes.set (hmark k e hp)

theorem InFlightLedger.Kept.commit (h : l.Kept maxTTL now) {mark : InFlightLedger.Mark}
    (hmark : InFlightLedger.MarkKept maxTTL now mark) {adms : List InFlightAdmission}
    (hadms : ∀ a ∈ adms, a.Regular maxTTL) : (l.commit mark adms now).Kept maxTTL now := by
  unfold InFlightLedger.commit
  apply InFlightLedger.Kept.admitList _ hadms true
  exact h.setBack hmark

theorem InFlightLedger.Kept.settle (h : l.Kept maxTTL now) (observed : GoMap String Placed) :
    (l.settle observed now).Kept maxTTL now := by
  refine foldlRecOn (motive := fun es : GoMap String InFlightEntry =>
    es.Every fun k e => e.Kept maxTTL now k) _ _ h fun es hes k _ => ?_
  cases hf : es.find? k with
  | none => exact hes
  | some e =>
    dsimp only
    cases hs : InFlightLedger.settleEntry observed now k e with
    | none => exact hes.delete k
    | some e' => exact hes.set ((hes k e hf).settleEntry hs)

end Ledgers

/-- The entries of the ledger and of the mark keep what entries keep. -/
structure LedgerState.Kept (maxTTL : Int) (s : LedgerState) : Prop where
  entries : s.ledger.Kept maxTTL s.now
  mark : InFlightLedger.MarkKept maxTTL s.now s.mark

theorem LedgerState.Kept.next {maxTTL : Int} {s : LedgerState} (h : s.Kept maxTTL)
    {op : ℕ × LedgerOp} (hop : op.2.Regular maxTTL) : (s.next op).Kept maxTTL := by
  obtain ⟨elapsed, op⟩ := op
  have hle : s.now ≤ s.now + elapsed := by omega
  have hentries : s.ledger.Kept maxTTL (s.now + elapsed) := h.entries.imp fun k e he => he.later hle
  have hmark : InFlightLedger.MarkKept maxTTL (s.now + elapsed) s.mark :=
    fun k e hmem => (h.mark k e hmem).later hle
  have hnone : InFlightLedger.MarkKept maxTTL (s.now + elapsed) [] := by
    intro k e hmem
    cases hmem
  cases op with
  | admitNow key shape want placedNow =>
    exact ⟨hentries.admitOne (hop _ mem_cons_self) true, hmark⟩
  | provisional adms => exact ⟨hentries.admitList hop false, hentries.mark adms⟩
  | commit adms => exact ⟨hentries.commit hmark hop, hnone⟩
  | wake adms => exact ⟨hentries.commit hnone hop, hmark⟩
  | settle observed => exact ⟨hentries.settle observed, hmark⟩
  | forget key => exact ⟨GoMap.Every.delete hentries key, hmark⟩

theorem LedgerState.kept_run {maxTTL : Int} (now : Int) {ops : List (ℕ × LedgerOp)}
    (hops : ∀ op ∈ ops, op.2.Regular maxTTL) :
    (runFrom LedgerState.next (.start now) ops).Kept maxTTL :=
  foldlRecOn _ _ ⟨every_empty, nofun⟩ fun _ hs op hop => hs.next (hops op hop)

namespace InFlightLedger

variable {l l' : InFlightLedger} {k : String}

/-- Two ledgers with the same entries, whatever order a map keeps them in. -/
structure Same (l l' : InFlightLedger) : Prop where
  entries : ∀ k, l.entries.find? k = l'.entries.find? k
  sighted : l.sighted = l'.sighted
  restored : l.restored = l'.restored

theorem find?_admitEntry (sighted : Bool) (a : InFlightAdmission) (now : Int)
    (entries : GoMap String InFlightEntry) (k : String) :
    (admitEntry sighted a now entries).find? k =
      if k = a.key then
        if a.want ≤ a.placedNow then none
        else (entries.find? a.key).elim
          (if a.existingOnly && (a.unplaced || sighted) then none else some (firstAdmitted a now))
          fun e => some (readmitted a e now)
      else entries.find? k := by
  unfold admitEntry
  by_cases hplaced : a.want ≤ a.placedNow
  · rw [if_pos hplaced, if_pos hplaced, find?_delete]
  · rw [if_neg hplaced, if_neg hplaced]
    cases hfind : entries.find? a.key with
    | none =>
      by_cases hold : (a.existingOnly && (a.unplaced || sighted)) = true
      · rw [if_pos hold, Option.elim_none, if_pos hold]
        split_ifs with hk
        · rw [hk, hfind]
        · rfl
      · rw [if_neg hold, Option.elim_none, if_neg hold, find?_set]
    | some e => exact find?_set _ _ _ _

theorem Same.admitOne (h : Same l l') (a : InFlightAdmission) (now : Int) (sight : Bool) :
    Same (l.admitOne a now sight) (l'.admitOne a now sight) where
  entries k := by
    dsimp only [InFlightLedger.admitOne]
    rw [find?_admitEntry, find?_admitEntry, h.entries, h.entries, h.sighted]
  sighted := by
    dsimp only [InFlightLedger.admitOne]
    rw [h.sighted]
  restored := by
    dsimp only [InFlightLedger.admitOne]
    rw [h.restored]

theorem Same.admitList (h : Same l l') (adms : List InFlightAdmission) (now : Int) (sight : Bool) :
    Same (l.admitList adms now sight) (l'.admitList adms now sight) := by
  unfold InFlightLedger.admitList
  induction adms generalizing l l' with
  | nil => exact h
  | cons a adms ih => exact ih (h.admitOne a now sight)

/-- A provisional admission is no sighting and writes the entries of its variants only. -/
theorem admitList_provisional (l : InFlightLedger) (adms : List InFlightAdmission) (now : Int) :
    (∀ k ∉ adms.map InFlightAdmission.key,
        (l.admitList adms now false).entries.find? k = l.entries.find? k) ∧
      (l.admitList adms now false).sighted = l.sighted ∧
      (l.admitList adms now false).restored = l.restored := by
  unfold InFlightLedger.admitList
  induction adms generalizing l with
  | nil => exact ⟨fun _ _ => rfl, rfl, rfl⟩
  | cons a adms ih =>
    obtain ⟨hentries, hsighted, hrestored⟩ := ih (l.admitOne a now false)
    refine ⟨fun k hk => ?_, hsighted, hrestored⟩
    rw [map_cons, mem_cons, not_or] at hk
    refine (hentries k hk.2).trans ?_
    dsimp only [InFlightLedger.admitOne]
    rw [find?_admitEntry, if_neg hk.1]

theorem find?_setBack (before : String → Option InFlightEntry) (keys : List String)
    (entries : GoMap String InFlightEntry) (k : String) :
    (setBack (keys.map fun k => (k, before k)) entries).find? k =
      if k ∈ keys then before k else entries.find? k := by
  unfold setBack
  induction keys using reverseRecOn with
  | nil => rfl
  | append_singleton keys key ih =>
    rw [map_append, map_singleton, foldl_concat]
    simp only [mem_append, mem_singleton]
    by_cases hk : k = key
    · rw [if_pos (.inr hk)]
      cases hbefore : before key with
      | none => rw [find?_delete, if_pos hk, hk, hbefore]
      | some e => rw [find?_set, if_pos hk, hk, hbefore]
    · simp only [hk, or_false]
      rw [← ih]
      cases before key with
      | none => rw [find?_delete, if_neg hk]
      | some e => rw [find?_set, if_neg hk]

/-- A provisional admission, committed with nothing in between, leaves no trace: the ledger is the
one the final admission alone leaves. -/
theorem commit_provisional (l : InFlightLedger) (provisionals adms : List InFlightAdmission)
    (earlier now : Int) :
    Same ((l.provisional provisionals earlier).1.commit (l.provisional provisionals earlier).2 adms now)
      (l.commit [] adms now) := by
  obtain ⟨hentries, hsighted, hrestored⟩ := l.admitList_provisional provisionals earlier
  unfold commit
  refine Same.admitList { entries := fun k => ?_, sighted := ?_, restored := ?_ } adms now true
  · dsimp only [provisional]
    rw [find?_setBack]
    split_ifs with hk
    · rfl
    · exact hentries k fun hmem => hk (mem_dedup.mpr hmem)
  · dsimp only [provisional]
    rw [hsighted]
  · exact hrestored

end InFlightLedger

end LlmScaler.Nodes
