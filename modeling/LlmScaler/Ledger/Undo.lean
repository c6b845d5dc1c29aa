import LlmScaler.Ledger.Bystander

/-!
# Undoing a transfer that never took effect

A transfer is started, other operations follow, and it is forgotten or cancelled while it is still
releasing. Beside that run stands the one in which it was never started. As long as no operation
redirects it or links it into a donor set, and its presence does not delay another release of its
donor, the two runs leave every role with the same holds and the same swing from then on.
-/

namespace LlmScaler.Ledger

open LlmScaler.Core List ShareLedger

namespace GroupLedger

/-- The operation does not name, link or redirect the transfers that fail the test, and a cycle
reads the other transfers' releases as it would without them. -/
def LeavesAlone (p : String → Bool) (g : GroupLedger) : GroupOp → Prop
  | .start t _ _ => p t.setID = true
  | .restore t _ => p t.id = true ∧ p t.setID = true
  | .linkSet primary contributors => p primary = true ∧ ∀ c ∈ contributors, p c = true
  | .redirect id _ => ∀ t ∈ g.transfers, p t.id = false → t.id = id → t.redirectable = false
  | .observe held => g.toShareLedger.Undisturbed p held
  | _ => True

instance (p : String → Bool) (g : GroupLedger) (op : GroupOp) :
    Decidable (g.LeavesAlone p op) := by
  unfold LeavesAlone
  split <;> infer_instance

/-- The second group ledger is the first without the transfers that fail the test. -/
structure GroupBeside (p : String → Bool) (tm : ShareTimings) (now : Int) (g g' : GroupLedger) :
    Prop where
  ledger : Beside p tm now g.toShareLedger g'.toShareLedger
  changing : g.changing = g'.changing
  stepped : g.stepped = g'.stepped

variable {p : String → Bool} {ks : List Terms} {tm : ShareTimings} {now now' : Int}
  {g g' : GroupLedger}

variable {m : ShareLedger}

theorem carries_of_eq (htransfers : m.transfers = g.transfers) (hnext : m.nextID = g.nextID)
    (hinc : m.incarnation = g.incarnation) (hmoves : m.moves = g.moves) :
    Carries p g.toShareLedger m := by
  refine Carries.of_sublist hnext hinc (htransfers ▸ Sublist.refl _) ?_
  intro role mv hmv
  rwa [hmoves] at hmv

theorem carries_take (hb : Bystander p ks g.toShareLedger) (hs : Single p ks) {op : GroupOp}
    (hop : g.LeavesAlone p op) (hforgets : g.ForgetsNone tm now op) :
    Carries p g.toShareLedger (g.take tm now op).toShareLedger := by
  cases op with
  | start t salt held => exact carries_start hb salt held hop
  | startFill receiver variant gpus urgent salt held =>
    exact carries_startFill hb hs receiver variant gpus urgent salt held
  | restore t heldDonor => exact carries_restore heldDonor hop.1 hop.2
  | linkSet primary contributors => exact carries_linkSet hop.1 hop.2
  | cancel id => exact g.toShareLedger.carries_cancel id now tm
  | forget id => exact g.toShareLedger.carries_forget id tm
  | redirect id hold => exact carries_redirect hold hop
  | plannedRunning running unknown => exact carries_plannedRunning running unknown
  | receiverFilled filled => exact carries_of_eq rfl rfl rfl rfl
  | takeReleased => exact carries_of_eq rfl rfl rfl rfl
  | observe held => exact carries_observe held
  | markFailed donor =>
    change Carries p _ (g.markFailed donor now tm).toShareLedger
    unfold markFailed
    split <;> exact carries_of_eq rfl rfl rfl rfl
  | holdGiving donor =>
    change Carries p _ (g.holdGiving donor now tm).toShareLedger
    unfold holdGiving
    split <;> exact carries_of_eq rfl rfl rfl rfl
  | holdChanging donor variant receiver reason =>
    change Carries p _ (g.holdChanging donor variant receiver reason now tm).toShareLedger
    unfold holdChanging
    split <;> exact carries_of_eq rfl rfl rfl rfl
  | observeChanging donor stable reason confirm =>
    change Carries p _ (g.observeChanging donor stable reason confirm).toShareLedger
    unfold observeChanging
    split
    · exact carries_of_eq rfl rfl rfl rfl
    split
    · exact carries_of_eq rfl rfl rfl rfl
    split <;> exact carries_of_eq rfl rfl rfl rfl
  | recordNeeds verdicts => exact carries_of_eq rfl rfl rfl rfl
  | retain present others =>
    change Carries p _ (g.retain present others now tm).toShareLedger
    rw [retain_of_noneGone hforgets]
    exact carries_of_eq rfl rfl rfl rfl

theorem not_present_of_erased {l : ShareLedger} (hb : Bystander p ks l) (hs : Single p ks)
    {t : ShareTransfer} (ht : l.transfer t.id = some t) (htp : p t.id = false)
    (herased : m.transfers = l.transfers.eraseP (·.id == t.id)) : ¬ Present ks m := by
  intro hpresent
  have hmem : t ∈ l.transfers := mem_of_find?_eq_some ht
  obtain ⟨u, hu, hid, -⟩ := hpresent _ (hb.exists_terms hmem htp)
  change u.id = t.id at hid
  have hlength := hb.few hs
  obtain ⟨a, as, bs, -, ha, hl, herase⟩ :=
    exists_of_eraseP (p := (·.id == t.id)) hmem (beq_self_eq_true _)
  rw [herased, herase] at hu
  have hap : p a.id = false := by
    rw [show a.id = t.id by simpa using ha]
    exact htp
  have hup : p u.id = false := by
    rw [hid]
    exact htp
  have hin : u ∈ (as ++ bs).filter (!p ·.id) := mem_filter.mpr ⟨hu, by simp [hup]⟩
  have hpos := length_pos_of_mem hin
  rw [filter_append, length_append] at hpos
  rw [hl, filter_append, filter_cons_of_pos (by simp [hap]), length_append,
    length_cons] at hlength
  omega

theorem cancel_eq_or_erased (l : ShareLedger) (id : String) (now : Int) (tm : ShareTimings) :
    (l.cancel id now tm).1 = l ∨
      ∃ t, l.transfer id = some t ∧
        (l.cancel id now tm).1.transfers = l.transfers.eraseP (·.id == id) := by
  unfold ShareLedger.cancel
  cases h : l.transfer id with
  | none => exact .inl rfl
  | some t =>
    have htid : t.id = id := by simpa using find?_some h
    have hforget : (l.forget t.id tm).transfers = l.transfers.eraseP (·.id == id) := by
      rw [(eq_of_withoutMoves (l.forget_withoutMoves t.id tm)).1, htid]
    have hrecord (m : ShareLedger) (role : String) (received : Bool) :
        (m.recordCancel role received now tm).transfers = m.transfers :=
      (eq_of_withoutMoves (m.recordCancel_withoutMoves role received now tm)).1
    dsimp only
    generalize (if t.receiver = "" then l.setReceiver t.setID else t.receiver) = rc
    split
    · exact .inl rfl
    refine .inr ⟨t, rfl, ?_⟩
    split
    · exact hforget
    split
    · rw [hrecord, hforget]
    · dsimp only
      rw [hrecord, hrecord, hforget]

variable {id : String}

theorem beside_of_present {l l' : ShareLedger} (h : Beside p tm now l l') (hb : Bystander p ks l)
    (hs : Single p ks) (hid : p id = false)
    (hm : m = l ∨ ∃ t, l.transfer id = some t ∧ m.transfers = l.transfers.eraseP (·.id == id))
    (hpresent : Present ks m) : Beside p tm now m l' := by
  rcases hm with rfl | ⟨t, ht, herased⟩
  · exact h
  · have htid : t.id = id := by simpa using find?_some ht
    subst htid
    exact absurd hpresent (not_present_of_erased hb hs ht hid herased)

theorem beside_take (h : GroupBeside p tm now g g') (hb : Bystander p ks g.toShareLedger)
    (hs : Single p ks) (hnow : now ≤ now') {op : GroupOp} (hop : g.LeavesAlone p op)
    (hforgets : g.ForgetsNone tm now' op) (hforgets' : g'.ForgetsNone tm now' op)
    (hpresent : Present ks (g.take tm now' op).toShareLedger) :
    GroupBeside p tm now' (g.take tm now' op) (g'.take tm now' op) := by
  have hl := h.ledger.mono hnow
  cases op with
  | start t salt held => exact ⟨h.ledger.start hb hnow t salt held, h.changing, h.stepped⟩
  | startFill receiver variant gpus urgent salt held =>
    exact ⟨hl.startFill hb receiver variant gpus urgent salt held now', h.changing, h.stepped⟩
  | restore t heldDonor => exact ⟨hl.restore t heldDonor hop.1, h.changing, h.stepped⟩
  | linkSet primary contributors => exact ⟨hl.linkSet primary contributors, h.changing, h.stepped⟩
  | cancel id =>
    refine ⟨?_, h.changing, h.stepped⟩
    by_cases hid : p id = true
    · exact h.ledger.cancel hb hnow hid
    · rw [Bool.not_eq_true] at hid
      have hnone : (g'.toShareLedger.cancel id now' tm).1 = g'.toShareLedger := by
        rw [ShareLedger.cancel, hl.transfer_none hid]
      change Beside p tm now' _ (g'.toShareLedger.cancel id now' tm).1
      rw [hnone]
      exact beside_of_present hl hb hs hid (cancel_eq_or_erased ..) hpresent
  | forget id =>
    refine ⟨?_, h.changing, h.stepped⟩
    by_cases hid : p id = true
    · exact hl.forget hid
    · rw [Bool.not_eq_true] at hid
      have hnone : g'.toShareLedger.forget id tm = g'.toShareLedger := by
        rw [ShareLedger.forget, hl.transfer_none hid]
      change Beside p tm now' _ (g'.toShareLedger.forget id tm)
      rw [hnone]
      refine beside_of_present hl hb hs hid ?_ hpresent
      cases hfind : g.toShareLedger.transfer id with
      | none =>
        left
        change g.toShareLedger.forget id tm = _
        rw [ShareLedger.forget, hfind]
      | some t =>
        right
        exact ⟨t, rfl, (eq_of_withoutMoves
          (g.toShareLedger.forget_withoutMoves id tm)).1⟩
  | redirect id hold => exact ⟨hl.redirect hold hop, h.changing, h.stepped⟩
  | plannedRunning running unknown => exact ⟨hl.plannedRunning running unknown, h.changing, h.stepped⟩
  | receiverFilled filled => exact ⟨hl.receiverFilled filled, h.changing, h.stepped⟩
  | takeReleased => exact ⟨hl.takeReleased, h.changing, h.stepped⟩
  | observe held =>
    refine ⟨hl.observe hop ?_, h.changing, h.stepped⟩
    intro r hr hp
    exact stays_of_present hb hs hpresent hr hp
  | markFailed donor =>
    change GroupBeside p tm now' (g.markFailed donor now' tm) (g'.markFailed donor now' tm)
    unfold markFailed
    split
    · exact ⟨hl, h.changing, h.stepped⟩
    · exact ⟨Beside.of_rest (fun l => { l with
          aborts := l.aborts.set donor (l.aborts.get donor + 1)
          giveAfter := l.giveAfter.set donor
            (now' + tm.releaseTimeout * 2 ^ min (l.aborts.get donor + 1 - 1) 4)
          unsteerable := l.unsteerable.set donor true }) hl (fun _ => rfl) (fun _ => rfl)
        (fun _ => rfl) rfl, h.changing, h.stepped⟩
  | holdGiving donor =>
    have hbusy : g'.busyUntil = g.busyUntil := (congrArg ShareLedger.busyUntil hl.rest).symm
    change GroupBeside p tm now' (g.holdGiving donor now' tm) (g'.holdGiving donor now' tm)
    unfold holdGiving
    rw [hbusy]
    split
    · have hset := Beside.of_rest (fun l => { l with
          busyUntil := l.busyUntil.set donor (now' + tm.releaseTimeout) }) hl (fun _ => rfl)
        (fun _ => rfl) (fun _ => rfl) rfl
      rw [hbusy] at hset
      exact ⟨hset, h.changing, h.stepped⟩
    · exact ⟨hl, h.changing, h.stepped⟩
  | holdChanging donor variant receiver reason =>
    have hhold : g'.changingHold donor now' tm = g.changingHold donor now' tm := by
      rw [changingHold, ← h.changing]
      rfl
    change GroupBeside p tm now' (g.holdChanging donor variant receiver reason now' tm)
      (g'.holdChanging donor variant receiver reason now' tm)
    unfold holdChanging
    rw [hhold, ← h.changing]
    split
    · exact ⟨hl, h.changing, h.stepped⟩
    · exact ⟨hl, rfl, h.stepped⟩
  | observeChanging donor stable reason confirm =>
    change GroupBeside p tm now' (g.observeChanging donor stable reason confirm)
      (g'.observeChanging donor stable reason confirm)
    unfold observeChanging
    rw [← h.changing]
    split
    · exact ⟨hl, h.changing, h.stepped⟩
    split
    · exact ⟨hl, rfl, h.stepped⟩
    split
    · exact ⟨hl, rfl, h.stepped⟩
    · exact ⟨hl, rfl, h.stepped⟩
  | recordNeeds verdicts =>
    refine ⟨hl, h.changing, ?_⟩
    change verdicts.foldl _ g.stepped = verdicts.foldl _ g'.stepped
    rw [h.stepped]
  | retain present others =>
    change GroupBeside p tm now' (g.retain present others now' tm) (g'.retain present others now' tm)
    rw [retain_of_noneGone hforgets, retain_of_noneGone hforgets']
    refine ⟨⟨?_, hl.rest, ?_⟩, h.changing, h.stepped⟩
    · exact hl.toMovesAgree.of_history rfl rfl
    · exact congrArg (fun m => GoMap.deleteFunc m fun _ u => decide (u ≤ now')) hl.pairs

/-- The times of a run in order, from `now` to `time`. -/
def Clocked (now : Int) (ops : List (Int × GroupOp)) (time : Int) : Prop :=
  (now :: (ops.map Prod.fst ++ [time])).Pairwise (· ≤ ·)

instance (now : Int) (ops : List (Int × GroupOp)) (time : Int) : Decidable (Clocked now ops time) :=
  inferInstanceAs (Decidable (Pairwise _ _))

def RunForgetsNone (tm : ShareTimings) (g : GroupLedger) (ops : List (Int × GroupOp)) : Prop :=
  Keeps (fun g op => g.take tm op.1 op.2) (fun g op => g.ForgetsNone tm op.1 op.2) g ops

instance (tm : ShareTimings) (g : GroupLedger) (ops : List (Int × GroupOp)) :
    Decidable (RunForgetsNone tm g ops) :=
  inferInstanceAs (Decidable (Keeps _ _ _ _))

/-- Every operation of the run leaves the transfers that fail the test alone. -/
def RunLeavesAlone (tm : ShareTimings) (p : String → Bool) (g : GroupLedger)
    (ops : List (Int × GroupOp)) : Prop :=
  Keeps (fun g op => g.take tm op.1 op.2) (fun g op => g.LeavesAlone p op.2) g ops

instance (tm : ShareTimings) (p : String → Bool) (g : GroupLedger) (ops : List (Int × GroupOp)) :
    Decidable (RunLeavesAlone tm p g ops) :=
  inferInstanceAs (Decidable (Keeps _ _ _ _))

variable {time : Int}

theorem Clocked.nil (h : Clocked now [] time) : now ≤ time :=
  (pairwise_cons.mp h).1 time (by simp)

variable {ops : List (Int × GroupOp)}

theorem Clocked.cons {op : Int × GroupOp} (h : Clocked now (op :: ops) time) :
    now ≤ op.1 ∧ Clocked op.1 ops time := by
  obtain ⟨hnow, hrest⟩ := pairwise_cons.mp h
  exact ⟨hnow op.1 (by simp), hrest⟩

theorem tidy_run (h : Tidy tm now g.toShareLedger) (hclock : Clocked now ops time)
    (hforgets : RunForgetsNone tm g ops) : Tidy tm time (g.run tm ops).toShareLedger := by
  induction ops generalizing g now with
  | nil => exact h.mono hclock.nil
  | cons op ops ih =>
    obtain ⟨hnow, hrest⟩ := hclock.cons
    exact ih (tidy_take h hnow op.2 hforgets.1) hrest hforgets.2

theorem present_of_run (hb : Bystander p ks g.toShareLedger) (hs : Single p ks)
    (hforgets : RunForgetsNone tm g ops) (hleaves : RunLeavesAlone tm p g ops)
    (hpresent : Present ks (g.run tm ops).toShareLedger) : Present ks g.toShareLedger := by
  induction ops generalizing g with
  | nil => exact hpresent
  | cons op ops ih =>
    have hcarries := carries_take hb hs hleaves.1 hforgets.1
    have hnext := ih (hb.of_carries hcarries) hforgets.2 hleaves.2 hpresent
    exact hnext.of_carries hs hcarries

theorem beside_run (h : GroupBeside p tm now g g') (hb : Bystander p ks g.toShareLedger)
    (hs : Single p ks) (hclock : Clocked now ops time) (hleaves : RunLeavesAlone tm p g ops)
    (hforgets : RunForgetsNone tm g ops) (hforgets' : RunForgetsNone tm g' ops)
    (hpresent : Present ks (g.run tm ops).toShareLedger) :
    GroupBeside p tm time (g.run tm ops) (g'.run tm ops) ∧
      Bystander p ks (g.run tm ops).toShareLedger := by
  induction ops generalizing g g' now with
  | nil => exact ⟨⟨h.ledger.mono hclock.nil, h.changing, h.stepped⟩, hb⟩
  | cons op ops ih =>
    obtain ⟨hnow, hrest⟩ := hclock.cons
    have hb' := hb.of_carries (carries_take hb hs hleaves.1 hforgets.1)
    have hpresent' := present_of_run hb' hs hforgets.2 hleaves.2 hpresent
    have hstep := beside_take h hb hs hnow hleaves.1 hforgets.1 hforgets'.1 hpresent'
    exact ih hstep hb' hrest hleaves.2 hforgets.2 hforgets'.2 hpresent

/-- Every role is held and swings the same, and every pair is held the same. -/
def SameHolds (tm : ShareTimings) (time : Int) (g g' : GroupLedger) : Prop :=
  (∀ role, g.receivingHeld role time tm = g'.receivingHeld role time tm ∧
      g.givingHeld role time tm = g'.givingHeld role time tm ∧
      g.swinging role time = g'.swinging role time) ∧
    ∀ donor receiver, g.pairHeld donor receiver time = g'.pairHeld donor receiver time

/-- Beside each other with no transfer left out. -/
abbrev Alike (tm : ShareTimings) (now : Int) (g g' : GroupLedger) : Prop :=
  GroupBeside (fun _ => true) tm now g g'

private theorem filter_all {α : Type*} (l : List α) : l.filter (fun _ => true) = l :=
  filter_eq_self.mpr fun _ _ => rfl

theorem Alike.sameHolds (h : Alike tm time g g') (ht : Tidy tm time g.toShareLedger)
    (ht' : Tidy tm time g'.toShareLedger) : SameHolds tm time g g' := by
  have hmoves (role : String) : recent tm.keep time (g.moves.get role) =
      recent tm.keep time (g'.moves.get role) := by
    rw [← h.ledger.moves role, filter_all]
  have hheld (received : Bool) (role : String) : HeldBy tm received time (g.moves.get role) ↔
      HeldBy tm received time (g'.moves.get role) := by
    rw [← heldBy_recent le_rfl, hmoves, heldBy_recent le_rfl]
  have hrest : g.toShareLedger.withoutMoves = g'.toShareLedger.withoutMoves := by
    rw [← h.ledger.rest, ShareLedger.only, filter_all]
  have hgive := congrArg ShareLedger.giveAfter hrest
  have hbusy := congrArg ShareLedger.busyUntil hrest
  have htransfers := congrArg ShareLedger.transfers hrest
  change g.giveAfter = g'.giveAfter at hgive
  change g.busyUntil = g'.busyUntil at hbusy
  change g.transfers = g'.transfers at htransfers
  refine ⟨fun role => ⟨?_, ?_, ?_⟩, ?_⟩
  · rw [Bool.eq_iff_iff, (ht role).gave time le_rfl, (ht' role).gave time le_rfl, hheld]
  · have hgot : g.gotHeld role time tm = g'.gotHeld role time tm := by
      rw [Bool.eq_iff_iff, (ht role).got time le_rfl, (ht' role).got time le_rfl, hheld]
    unfold givingHeld givingBlocked givingBusy isChanging ShareLedger.backingOff
    rw [hgot, hgive, hbusy, htransfers, h.changing]
  · have hcut : 2 * tm.swingWindow ≤ tm.keep := le_max_right ..
    have hswing : g.swingOn role time = g'.swingOn role time := by
      rw [Bool.eq_iff_iff, (ht role).swing time le_rfl, (ht' role).swing time le_rfl]
      refine swings_congr (recent_congr hcut le_rfl (hmoves role)) (h.ledger.cancels role) ?_ ?_
        le_rfl
      · intro m hm
        exact (mem_append.mp hm).elim ((ht role).movesPast m) ((ht role).cancelsPast m)
      · intro m hm
        exact (mem_append.mp hm).elim ((ht' role).movesPast m) ((ht' role).cancelsPast m)
    rw [swinging, hswing, h.stepped, swinging]
  · intro donor receiver
    rw [ShareLedger.pairHeld, h.ledger.pairs, ShareLedger.pairHeld]

private theorem leavesAlone_all (g : GroupLedger) (op : GroupOp) :
    g.LeavesAlone (fun _ => true) op := by
  cases op with
  | observe held =>
    change (g.toShareLedger.rows held).filter (fun _ => true) = _
    rw [filter_all, ShareLedger.only, filter_all]
  | redirect id hold =>
    intro t _ hp
    exact absurd hp (by simp)
  | start => exact rfl
  | restore => exact ⟨rfl, rfl⟩
  | linkSet => exact ⟨rfl, fun _ _ => rfl⟩
  | startFill | cancel | forget | plannedRunning | receiverFilled | takeReleased | markFailed
  | holdGiving | holdChanging | observeChanging | recordNeeds | retain => trivial

private theorem bystander_all (l : ShareLedger) : Bystander (fun _ => true) [] l where
  fresh _ _ _ _ := rfl
  sets _ _ := rfl
  terms := by
    rw [filter_eq_nil_iff.mpr fun _ _ => by simp]
    exact Sublist.refl _
  traced _ _ _ hp := absurd hp (by simp)

private theorem single_all : Single (fun _ => true) [] where
  named := rfl
  few := Nat.zero_le _
  outside := by simp
  apart := by simp

theorem Alike.run (h : Alike tm now g g') (ht : Tidy tm now g.toShareLedger)
    (ht' : Tidy tm now g'.toShareLedger) (hclock : Clocked now ops time)
    (hforgets : RunForgetsNone tm g ops) (hforgets' : RunForgetsNone tm g' ops) :
    SameHolds tm time (g.run tm ops) (g'.run tm ops) := by
  have hleaves (g : GroupLedger) : RunLeavesAlone tm (fun _ => true) g ops := by
    clear hclock hforgets hforgets'
    induction ops generalizing g with
    | nil => trivial
    | cons op ops ih => exact ⟨leavesAlone_all g op.2, ih _⟩
  have hrun := beside_run h (bystander_all _) single_all hclock (hleaves g) hforgets hforgets'
    fun _ hk => absurd hk not_mem_nil
  exact Alike.sameHolds hrun.1 (tidy_run ht hclock hforgets) (tidy_run ht' hclock hforgets')

/-- The ledger had the next transfer not been started: only its identifier is used up, so that
the transfers started later carry the same identifiers in both runs. -/
def skipStart (g : GroupLedger) : GroupLedger := g.lift fun l => { l with nextID := l.nextID + 1 }

/-- Nothing in the ledger carries the identifier. -/
structure Unused (l : ShareLedger) (id : String) : Prop where
  transfers : ∀ t ∈ l.transfers, t.id ≠ id ∧ t.setID ≠ id
  moves : ∀ role, ∀ m ∈ l.moves.get role, m.id ≠ id

/-- The test that every transfer but one passes. -/
def others (id : String) : String → Bool := (· != id)

private theorem others_iff {s : String} : others id s = true ↔ s ≠ id := bne_iff_ne

private theorem others_false {s : String} : others id s = false ↔ s = id := by
  rw [← Bool.not_eq_true, others_iff, not_not]

section Start
variable {t : ShareTransfer} {salt : String} {held : Held}

theorem single_start (hset : t.setID = "") :
    Single (others (g.admitted t salt held now tm).id)
      [(g.admitted t salt held now tm).terms] where
  named := others_iff.mpr (Ne.symm (issuedID_ne_empty _ _ _ _))
  few := le_rfl
  outside := forall_mem_singleton.mpr (others_false.mpr rfl)
  apart := forall_mem_singleton.mpr hset

theorem beside_start (hunused : Unused g.toShareLedger (g.admitted t salt held now tm).id) :
    GroupBeside (others (g.admitted t salt held now tm).id) tm now
      (g.take tm now (.start t salt held)) g.skipStart := by
  have hall (role : String) :
      (g.moves.get role).filter (others (g.admitted t salt held now tm).id ·.id) =
        g.moves.get role :=
    filter_eq_self.mpr fun m hm => others_iff.mpr (hunused.moves role m hm)
  have hself : others (g.admitted t salt held now tm).id (g.admitted t salt held now tm).id =
      false := others_false.mpr rfl
  have hagree : MovesAgree (others (g.admitted t salt held now tm).id) tm now g.toShareLedger
      g.toShareLedger := by
    constructor
    · intro role
      rw [hall role]
    · intro role
      rfl
  refine ⟨⟨?_, ?_, ?_⟩, rfl, rfl⟩
  · change MovesAgree _ tm now (g.toShareLedger.start t salt held now tm) _
    unfold ShareLedger.start
    dsimp only
    generalize g.admitted t salt held now tm = t' at hagree hself
    split
    · exact hagree.of_history rfl rfl
    split
    · refine MovesAgree.recordMove_left (MovesAgree.recordMove_left ?_ _ _ _ hself) _ _ _ hself
      exact hagree.of_history rfl rfl
    · refine MovesAgree.recordMove_left ?_ _ _ _ hself
      exact hagree.of_history rfl rfl
  · have hkeep : (g.transfers ++ [g.admitted t salt held now tm]).filter
        (others (g.admitted t salt held now tm).id ·.id) = g.transfers := by
      rw [filter_append, filter_cons_of_neg (by simp [hself]), filter_nil,
        append_nil]
      exact filter_eq_self.mpr fun u hu => others_iff.mpr (hunused.transfers u hu).1
    change (g.toShareLedger.start t salt held now tm).withoutMoves.only _ = _
    rw [start_withoutMoves]
    change ShareLedger.withoutMoves { g.toShareLedger with
      nextID := g.nextID + 1
      transfers := (g.transfers ++ [g.admitted t salt held now tm]).filter
        (others (g.admitted t salt held now tm).id ·.id) } = _
    rw [hkeep]
    rfl
  · change (g.toShareLedger.start t salt held now tm).noPair = g.noPair
    unfold ShareLedger.start
    dsimp only
    split
    · rfl
    split <;> rfl

theorem bystander_start (hset : t.setID = "")
    (hunused : Unused g.toShareLedger (g.admitted t salt held now tm).id) :
    Bystander (others (g.admitted t salt held now tm).id)
      [(g.admitted t salt held now tm).terms]
      (g.take tm now (.start t salt held)).toShareLedger := by
  obtain ⟨htransfers, hnext, hinc, -⟩ :=
    eq_of_withoutMoves (g.toShareLedger.start_withoutMoves now tm t salt held)
  change (g.take tm now (.start t salt held)).transfers =
    g.transfers ++ [g.admitted t salt held now tm] at htransfers
  have hself : others (g.admitted t salt held now tm).id (g.admitted t salt held now tm).id =
      false := others_false.mpr rfl
  refine ⟨?_, ?_, ?_, ?_⟩
  · intro k n s hn
    change (g.toShareLedger.start t salt held now tm).nextID < n at hn
    change others _ (issuedID (g.toShareLedger.start t salt held now tm).incarnation k n s) = true
    rw [hnext] at hn
    rw [hinc, others_iff]
    intro heq
    exact absurd (issuedID_counter heq) (Nat.ne_of_gt hn)
  · intro u hu
    rw [htransfers, mem_append, mem_singleton] at hu
    rw [others_iff]
    rcases hu with hu | rfl
    · exact (hunused.transfers u hu).2
    · change t.setID ≠ _
      rw [hset]
      exact Ne.symm (issuedID_ne_empty _ _ _ _)
  · have hnone : g.transfers.filter (!others (g.admitted t salt held now tm).id ·.id) = [] := by
      rw [filter_eq_nil_iff]
      intro u hu
      rw [others_iff.mpr (hunused.transfers u hu).1]
      exact Bool.false_ne_true
    rw [htransfers, filter_append, hnone, filter_cons_of_pos (by simp [hself]),
      filter_nil]
    exact Sublist.refl _
  · intro role m hm hid
    refine ⟨_, mem_singleton_self _, (others_false.mp hid).symm, ?_⟩
    have hrec (l : ShareLedger) (r : String) (received : Bool) (i : String)
        (h : m ∈ (l.recordMove r received i now tm).moves.get role) :
        role = r ∨ m ∈ l.moves.get role := by
      rw [recordMove_moves] at h
      split at h
      · next hr => exact .inl hr
      · exact .inr h
    have hold : m ∉ g.moves.get role := fun h => hunused.moves role m h (others_false.mp hid)
    change m ∈ (g.toShareLedger.start t salt held now tm).moves.get role at hm
    unfold ShareLedger.start at hm
    dsimp only at hm
    split at hm
    · exact absurd hm hold
    split at hm
    · next hreceiver =>
      rcases hrec _ _ _ _ hm with hr | hm
      · exact .inr ⟨hr, bne_iff_ne.mp hreceiver⟩
      rcases hrec _ _ _ _ hm with hr | hm
      · exact .inl hr
      · exact absurd hm hold
    · rcases hrec _ _ _ _ hm with hr | hm
      · exact .inl hr
      · exact absurd hm hold

end Start

section End
variable {l l' : ShareLedger} {x : String} {k : Terms}

private theorem eraseP_eq_filter {ts : List ShareTransfer}
    (h : (ts.filter (!others x ·.id)).length ≤ 1) :
    ts.eraseP (·.id == x) = ts.filter (others x ·.id) := by
  induction ts with
  | nil => rfl
  | cons t ts ih =>
    by_cases ht : t.id = x
    · have hfalse : others x t.id = false := others_false.mpr ht
      rw [filter_cons_of_pos (by simp [hfalse]), length_cons] at h
      have hnone : ts.filter (!others x ·.id) = [] := length_eq_zero_iff.mp (by omega)
      rw [filter_eq_nil_iff] at hnone
      rw [eraseP_cons_of_pos (by simp [ht]), filter_cons_of_neg (by simp [hfalse])]
      exact (filter_eq_self.mpr fun u hu => by simpa using hnone u hu).symm
    · have htrue : others x t.id = true := others_iff.mpr ht
      rw [filter_cons_of_neg (by simp [htrue])] at h
      rw [eraseP_cons_of_neg (by simp [ht]), filter_cons_of_pos (by simp [htrue]), ih h]

theorem exists_transfer (hb : Bystander (others x) [k] l) (hs : Single (others x) [k])
    (hpresent : Present [k] l) :
    ∃ t, l.transfer x = some t ∧ t.terms = k ∧ t.id = x ∧ t.state = .releasing := by
  have hkx : k.id = x := others_false.mp (hs.outside k (mem_singleton_self k))
  obtain ⟨u, hu, hid, hstate⟩ := hpresent k (mem_singleton_self k)
  have hsome : (l.transfer x).isSome = true := by
    rw [ShareLedger.transfer, find?_isSome]
    exact ⟨u, hu, by simp [hid, hkx]⟩
  obtain ⟨t, ht⟩ := Option.isSome_iff_exists.mp hsome
  have htx : t.id = x := by simpa using find?_some ht
  have hmem : t ∈ l.transfers := mem_of_find?_eq_some ht
  have hterms := hb.exists_terms hmem (others_false.mpr htx)
  have huq : t = u := hb.unique hs hmem hu (others_false.mpr htx)
    (others_false.mpr (hid.trans hkx))
  exact ⟨t, ht, mem_singleton.mp hterms, htx, huq ▸ hstate⟩

theorem forget_moves_ne (hb : Bystander (others x) [k] l) {t : ShareTransfer}
    (ht : l.transfer x = some t) (hterms : t.terms = k) (role : String) :
    ∀ m ∈ (l.forget x tm).moves.get role, others x m.id = true := by
  intro m hm
  rw [others_iff]
  intro hid
  have hgone (l : ShareLedger) (r : String) (h : m ∈ (l.unrecord r x tm).moves.get r) : False := by
    rw [unrecord_moves, if_pos rfl] at h
    simpa [hid] using (mem_filter.mp h).2
  obtain ⟨k', hk', -, hrole⟩ :=
    hb.traced role m (l.moves_forget x tm hm) (others_false.mpr hid)
  rw [mem_singleton.mp hk', ← hterms] at hrole
  change role = t.donor ∨ role = t.receiver ∧ t.receiver ≠ "" at hrole
  rw [ShareLedger.forget, ht] at hm
  dsimp only at hm
  split at hm
  · rcases hrole with rfl | ⟨rfl, -⟩
    · exact hgone _ _ (moves_unrecord _ hm)
    · exact hgone _ _ hm
  · next hempty =>
    rcases hrole with rfl | ⟨rfl, hreceiver⟩
    · exact hgone _ _ hm
    · simp [hreceiver] at hempty

theorem forget_alike (h : Beside (others x) tm now l l') (hb : Bystander (others x) [k] l)
    (hs : Single (others x) [k]) (hpresent : Present [k] l) :
    Beside (fun _ => true) tm now (l.forget x tm) l' := by
  obtain ⟨t, ht, hterms, -, -⟩ := exists_transfer hb hs hpresent
  have hx : others x x = false := others_false.mpr rfl
  have hagree : MovesAgree (others x) tm now (l.forget x tm) l' := by
    rw [ShareLedger.forget, ht]
    dsimp only
    split
    · refine MovesAgree.unrecord_left (MovesAgree.unrecord_left ?_ _ _ hx) _ _ hx
      exact h.toMovesAgree.of_history rfl rfl
    · refine MovesAgree.unrecord_left ?_ _ _ hx
      exact h.toMovesAgree.of_history rfl rfl
  refine ⟨⟨?_, hagree.cancels⟩, ?_, ?_⟩
  · intro role
    rw [← hagree.moves role, filter_all,
      filter_eq_self.mpr (forget_moves_ne hb ht hterms role)]
  · rw [← h.rest]
    change (l.forget x tm).withoutMoves.only (fun _ => true) = (l.only (others x)).withoutMoves
    rw [forget_withoutMoves]
    change ShareLedger.withoutMoves { l with
      transfers := (l.transfers.eraseP (·.id == x)).filter fun _ => true } = _
    rw [filter_all, eraseP_eq_filter (hb.few hs)]
    rfl
  · rw [← h.pairs, forget_noPair]

/-- What cancelling a transfer adds to the ledger: the swing entries of the cancel, and the hold
on its donor giving to its receiver. -/
def cancelEntries (k : Terms) (now : Int) (tm : ShareTimings) (l : ShareLedger) : ShareLedger :=
  if k.entitled then l
  else
    let rc := if k.receiver = "" then l.setReceiver k.setID else k.receiver
    let l := l.recordCancel k.donor false now tm
    if rc = "" then l
    else
      let l := l.recordCancel rc true now tm
      { l with noPair := l.noPair.set (k.donor, rc) (now + tm.reversalHold) }

theorem cancel_alike (h : Beside (others x) tm now l l') (hb : Bystander (others x) [k] l)
    (hs : Single (others x) [k]) (hpresent : Present [k] l) (hnow : now ≤ now')
    (hwindow : now' - k.started < tm.window) :
    (l.cancel x now' tm).2 = true ∧
      Beside (fun _ => true) tm now' (l.cancel x now' tm).1 (cancelEntries k now' tm l') := by
  obtain ⟨t, ht, rfl, htx, hstate⟩ := exists_transfer hb hs hpresent
  have hforget := (forget_alike h hb hs hpresent).mono hnow
  have hset : t.setID = "" := hs.apart t.terms (mem_singleton_self _)
  have hreceiver : l'.setReceiver t.setID = l.setReceiver t.setID := by
    apply h.setReceiver
    rw [hset]
    exact hs.named
  have hopen : ¬ (t.state ≠ .releasing ∨ tm.window ≤ now' - t.started) := by
    rw [not_or, not_not, not_le]
    exact ⟨hstate, hwindow⟩
  have hrc : (if t.terms.receiver = "" then l'.setReceiver t.terms.setID else t.terms.receiver) =
      if t.receiver = "" then l.setReceiver t.setID else t.receiver := by
    rw [← hreceiver]
    rfl
  unfold ShareLedger.cancel
  rw [ht]
  dsimp only
  rw [if_neg hopen, htx]
  by_cases he : t.entitled = true
  · rw [if_pos he, cancelEntries, if_pos (show t.terms.entitled = true from he)]
    exact ⟨rfl, hforget⟩
  rw [if_neg he, cancelEntries, if_neg (show ¬ t.terms.entitled = true from he)]
  dsimp only
  rw [hrc]
  generalize (if t.receiver = "" then l.setReceiver t.setID else t.receiver) = rc
  by_cases hempty : rc = ""
  · rw [if_pos hempty, if_pos hempty]
    exact ⟨rfl, hforget.recordCancel t.donor false⟩
  · rw [if_neg hempty, if_neg hempty]
    exact ⟨rfl, ((hforget.recordCancel t.donor false).recordCancel rc true).holdPair _ _⟩

end End

end GroupLedger

end LlmScaler.Ledger
