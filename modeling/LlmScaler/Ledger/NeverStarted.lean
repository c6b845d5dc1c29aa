import LlmScaler.Ledger.Undo

/-!
# A transfer undone is a transfer never started

The run with a transfer and the run without it, taken to the end. A redirect tells them apart: the
redirected transfer no longer names the receiver whose move was recorded at its start, so forgetting
it leaves that move.
-/

namespace LlmScaler.Ledger

open LlmScaler.Core GroupLedger ShareLedger

/-- A run in which a transfer is started and is then to be undone. -/
structure Undo (tm : ShareTimings) where
  incarnation : String
  first : Int
  before : List (Int × GroupOp)
  t : ShareTransfer
  salt : String
  held : Held
  now : Int
  between : List (Int × GroupOp)
  last : Int

namespace Undo

variable {tm : ShareTimings} (u : Undo tm)

def ledger : GroupLedger := (newGroupLedger u.incarnation).run tm u.before

def admitted : ShareTransfer := u.ledger.admitted u.t u.salt u.held u.now tm

def id : String := u.admitted.id

def started : GroupLedger := u.ledger.take tm u.now (.start u.t u.salt u.held)

/-- The ledger at the end of the operations between. -/
def withIt : GroupLedger := u.started.run tm u.between

/-- The ledger at the end of the same operations had the transfer never been started. -/
def without : GroupLedger := u.ledger.skipStart.run tm u.between

def forgotten : GroupLedger := u.withIt.take tm u.last (.forget u.id)

def cancelled : GroupLedger := u.withIt.take tm u.last (.cancel u.id)

/-- The ledger that never had the transfer, with the entries its cancel leaves. -/
def withoutNoted : GroupLedger := u.without.lift (cancelEntries u.admitted.terms u.last tm)

/-- The operations leave the transfer alone and it is still releasing at the end. -/
structure Clean : Prop where
  clockBefore : Clocked u.first u.before u.now
  clockBetween : Clocked u.now u.between u.last
  keepsBefore : RunForgetsNone tm (newGroupLedger u.incarnation) u.before
  keepsBetween : RunForgetsNone tm u.started u.between
  keepsWithout : RunForgetsNone tm u.ledger.skipStart u.between
  apart : u.t.setID = ""
  unused : Unused u.ledger.toShareLedger u.id
  alone : RunLeavesAlone tm (others u.id) u.started u.between
  releasing : ∃ x ∈ u.withIt.transfers, x.id = u.id ∧ x.state = .releasing

variable {u}

private theorem tidy_ledger (h : u.Clean) : Tidy tm u.now u.ledger.toShareLedger :=
  tidy_run (tidy_new tm u.first u.incarnation) h.clockBefore h.keepsBefore

theorem Clean.tidy_withIt (h : u.Clean) : Tidy tm u.last u.withIt.toShareLedger :=
  tidy_run (tidy_take (tidy_ledger h) le_rfl (.start u.t u.salt u.held) trivial) h.clockBetween
    h.keepsBetween

theorem Clean.tidy_without (h : u.Clean) : Tidy tm u.last u.without.toShareLedger := by
  have hskip : Tidy tm u.now u.ledger.skipStart.toShareLedger := (tidy_ledger h).of_history rfl
  exact tidy_run hskip h.clockBetween h.keepsWithout

/-- At the end of the operations between, the two ledgers differ by the transfer alone. -/
theorem Clean.beside (h : u.Clean) :
    GroupBeside (others u.id) tm u.last u.withIt u.without ∧
      Bystander (others u.id) [u.admitted.terms] u.withIt.toShareLedger ∧
      Single (others u.id) [u.admitted.terms] ∧
      Present [u.admitted.terms] u.withIt.toShareLedger := by
  have hsingle : Single (others u.id) [u.admitted.terms] := single_start h.apart
  have hpresent : Present [u.admitted.terms] u.withIt.toShareLedger := by
    intro k hk
    rw [List.mem_singleton.mp hk]
    exact h.releasing
  obtain ⟨hbeside, hb⟩ := beside_run (beside_start h.unused) (bystander_start h.apart h.unused)
    hsingle h.clockBetween h.alone h.keepsBetween h.keepsWithout hpresent
  exact ⟨hbeside, hb, hsingle, hpresent⟩

private theorem tidy_cancelEntries {l : ShareLedger} {now : Int} (h : Tidy tm now l) (k : Terms) :
    Tidy tm now (cancelEntries k now tm l) := by
  unfold cancelEntries
  split
  · exact h
  dsimp only
  generalize (if k.receiver = "" then l.setReceiver k.setID else k.receiver) = rc
  split
  · exact tidy_recordCancel h false le_rfl
  · have htwo : Tidy tm now ((l.recordCancel k.donor false now tm).recordCancel rc true now tm) :=
      tidy_recordCancel (tidy_recordCancel h false le_rfl) true le_rfl
    exact htwo.of_history rfl

theorem cancelEntries_held {g : GroupLedger} {now time : Int} (h : Tidy tm now g.toShareLedger)
    (k : Terms) (ht : now ≤ time) (role : String) :
    (g.lift (cancelEntries k now tm)).receivingHeld role time tm = g.receivingHeld role time tm ∧
      (g.lift (cancelEntries k now tm)).givingHeld role time tm = g.givingHeld role time tm := by
  have htidy := tidy_cancelEntries h k role
  have hmoves : (cancelEntries k now tm g.toShareLedger).moves = g.moves := by
    unfold cancelEntries
    split
    · rfl
    dsimp only
    generalize (if k.receiver = "" then _ else k.receiver) = rc
    split
    · rw [recordCancel_moves]
    · dsimp only
      rw [recordCancel_moves, recordCancel_moves]
  have hrest : (cancelEntries k now tm g.toShareLedger).withoutMoves =
      g.toShareLedger.withoutMoves := by
    unfold cancelEntries
    split
    · rfl
    dsimp only
    generalize (if k.receiver = "" then _ else k.receiver) = rc
    split
    · rw [recordCancel_withoutMoves]
    · rw [holdPair_withoutMoves, recordCancel_withoutMoves,
        recordCancel_withoutMoves]
  have hgive := congrArg ShareLedger.giveAfter hrest
  have hbusy := congrArg ShareLedger.busyUntil hrest
  have htransfers := congrArg ShareLedger.transfers hrest
  change (cancelEntries k now tm g.toShareLedger).giveAfter = g.giveAfter at hgive
  change (cancelEntries k now tm g.toShareLedger).busyUntil = g.busyUntil at hbusy
  change (cancelEntries k now tm g.toShareLedger).transfers = g.transfers at htransfers
  constructor
  · change (cancelEntries k now tm g.toShareLedger).receivingHeld role time tm = _
    rw [Bool.eq_iff_iff, htidy.gave time ht, (h role).gave time ht, hmoves]
  · have hgot : (cancelEntries k now tm g.toShareLedger).gotHeld role time tm =
        g.gotHeld role time tm := by
      rw [Bool.eq_iff_iff, htidy.got time ht, (h role).got time ht, hmoves]
    unfold givingHeld givingBlocked givingBusy isChanging ShareLedger.backingOff lift
    dsimp only
    rw [hgot, hgive, hbusy, htransfers]

/-- Forgotten while releasing, a transfer leaves every role's holds and swing, then and after any
further run, as if it had never been started; cancelled instead, it leaves the swing entries of the
cancel and the hold on its pair, and nothing else. -/
theorem undone_as_never_started (h : u.Clean) :
    (∀ after time, Clocked u.last after time → RunForgetsNone tm u.forgotten after →
        RunForgetsNone tm u.without after →
        SameHolds tm time (u.forgotten.run tm after) (u.without.run tm after)) ∧
      (u.last - u.now < tm.window →
        (u.withIt.toShareLedger.cancel u.id u.last tm).2 = true ∧
        (∀ role time, u.last ≤ time →
          u.cancelled.receivingHeld role time tm = u.without.receivingHeld role time tm ∧
            u.cancelled.givingHeld role time tm = u.without.givingHeld role time tm) ∧
        ∀ after time, Clocked u.last after time → RunForgetsNone tm u.cancelled after →
          RunForgetsNone tm u.withoutNoted after →
          SameHolds tm time (u.cancelled.run tm after) (u.withoutNoted.run tm after)) := by
  obtain ⟨hbeside, hb, hs, hpresent⟩ := h.beside
  have htidy := h.tidy_withIt
  have htidy' := h.tidy_without
  constructor
  · intro after time hclock hkeeps hkeeps'
    have halike : Alike tm u.last u.forgotten u.without :=
      ⟨forget_alike hbeside.ledger hb hs hpresent, hbeside.changing, hbeside.stepped⟩
    exact halike.run (tidy_forget htidy u.id) htidy' hclock hkeeps hkeeps'
  · intro hwindow
    obtain ⟨hdone, hcancel⟩ :=
      cancel_alike hbeside.ledger hb hs hpresent le_rfl (show u.last - u.now < tm.window from hwindow)
    have halike : Alike tm u.last u.cancelled u.withoutNoted :=
      ⟨hcancel, hbeside.changing, hbeside.stepped⟩
    have htidyc : Tidy tm u.last u.cancelled.toShareLedger :=
      tidy_cancel htidy u.id le_rfl
    have htidyn : Tidy tm u.last u.withoutNoted.toShareLedger :=
      tidy_cancelEntries htidy' u.admitted.terms
    refine ⟨hdone, ?_, ?_⟩
    · intro role time htime
      have hlater : Alike tm time u.cancelled u.withoutNoted :=
        ⟨halike.ledger.mono htime, halike.changing, halike.stepped⟩
      have hsame := (hlater.sameHolds (htidyc.mono htime) (htidyn.mono htime)).1 role
      have hheld := cancelEntries_held htidy' u.admitted.terms htime role
      exact ⟨hsame.1.trans hheld.1, hsame.2.1.trans hheld.2⟩
    · intro after time hclock hkeeps hkeeps'
      exact halike.run htidyc htidyn hclock hkeeps hkeeps'

/-- Timings with a reversal hold and a swing window. -/
def shortTimings : ShareTimings where
  window := 10
  releaseTimeout := 100
  fillTimeout := 100
  reversalHold := 50
  swingWindow := 100

/-- A transfer from `A` to `B`, and one from `A` to `C` started and observed before it is undone. -/
def besideAnother : Undo shortTimings where
  incarnation := "i"
  first := 0
  before := []
  t := { donor := "A", receiver := "B", gpus := 1, donorGPUs := 1 }
  salt := "x"
  held := GoMap.ofList [("A", 4)]
  now := 0
  between := [
    (1, .start { donor := "A", receiver := "C", gpus := 1, donorGPUs := 1 } "y"
      (GoMap.ofList [("A", 4)])),
    (2, .observe (GoMap.ofList [("A", 4)]))]
  last := 3

private theorem besideAnother_clean : besideAnother.Clean where
  clockBefore := by decide
  clockBetween := by decide
  keepsBefore := by decide
  keepsBetween := by decide
  keepsWithout := by decide
  apart := rfl
  unused := by
    constructor
    · decide
    · intro role m hm
      exact absurd hm List.not_mem_nil
  alone := by decide
  releasing := by decide

theorem undone_beside_another :
    besideAnother.Clean ∧
      SameHolds shortTimings 40 besideAnother.forgotten besideAnother.without ∧
      besideAnother.last - besideAnother.now < shortTimings.window ∧
      SameHolds shortTimings 40 besideAnother.cancelled besideAnother.withoutNoted := by
  have hundone := undone_as_never_started besideAnother_clean
  refine ⟨besideAnother_clean, ?_, by decide, ?_⟩
  · exact hundone.1 [] 40 (by decide) trivial trivial
  · exact (hundone.2 (by decide)).2.2 [] 40 (by decide) trivial trivial

/-- A transfer from `A` to `B` is redirected to a wake and then forgotten: `B` is still held from
giving by the move that the forgotten transfer recorded for it. -/
theorem redirected_then_forgotten_holds_receiver :
    let u : Undo shortTimings := { besideAnother with between := [(1, .redirect besideAnother.id 5)] }
    (∃ x ∈ u.withIt.transfers, x.id = u.id ∧ x.state = .releasing) ∧
      u.forgotten.givingHeld "B" 3 shortTimings = true ∧
      u.without.givingHeld "B" 3 shortTimings = false := by
  decide

/-- After every run in time order that forgets no role, the moves of each role are in order and its
holds and its swing are those its moves say. -/
theorem holds_of_run (tm : ShareTimings) (incarnation : String) {first time : Int}
    {ops : List (Int × GroupOp)} (hclock : Clocked first ops time)
    (hforgets : RunForgetsNone tm (newGroupLedger incarnation) ops) :
    Tidy tm time ((newGroupLedger incarnation).run tm ops).toShareLedger :=
  tidy_run (tidy_new tm first incarnation) hclock hforgets

theorem holds_of_start_observed : Tidy shortTimings 40
    ((newGroupLedger "i").run shortTimings besideAnother.between).toShareLedger :=
  holds_of_run shortTimings "i" (by decide : Clocked 0 besideAnother.between 40) (by decide)

end Undo

end LlmScaler.Ledger
