import LlmScaler.Ledger.Group
import LlmScaler.Ledger.Swing

/-!
# The move history a run leaves

Every run keeps each role's moves in time order and its derived state true to them.
-/

namespace LlmScaler.Ledger

open LlmScaler.Core List GoMap

/-- One role's history: its moves in time order, and what is derived from them true to them. -/
structure RoleTidy (tm : ShareTimings) (now : Int) (l : ShareLedger) (role : String) : Prop where
  sorted : (l.moves.get role).Pairwise fun a b => a.time ≤ b.time
  movesPast : ∀ m ∈ l.moves.get role, m.time ≤ now
  cancelsPast : ∀ m ∈ l.cancels.get role, m.time ≤ now
  gave : ∀ time, now ≤ time →
    (l.receivingHeld role time tm = true ↔ HeldBy tm false time (l.moves.get role))
  got : ∀ time, now ≤ time →
    (l.gotHeld role time tm = true ↔ HeldBy tm true time (l.moves.get role))
  swing : ∀ time, now ≤ time →
    (l.swingOn role time = true ↔
      Swings tm time (inOrder (l.moves.get role ++ l.cancels.get role)))

/-- Every role's history is in order. -/
def Tidy (tm : ShareTimings) (now : Int) (l : ShareLedger) : Prop :=
  ∀ role, RoleTidy tm now l role

variable {tm : ShareTimings} {now now' : Int} {l l' : ShareLedger} {role r : String}

theorem RoleTidy.mono (h : RoleTidy tm now l role) (hnow : now ≤ now') :
    RoleTidy tm now' l role where
  sorted := h.sorted
  movesPast m hm := (h.movesPast m hm).trans hnow
  cancelsPast m hm := (h.cancelsPast m hm).trans hnow
  gave time ht := h.gave time (hnow.trans ht)
  got time ht := h.got time (hnow.trans ht)
  swing time ht := h.swing time (hnow.trans ht)

theorem Tidy.mono (h : Tidy tm now l) (hnow : now ≤ now') : Tidy tm now' l :=
  fun role => (h role).mono hnow

theorem RoleTidy.congr (h : RoleTidy tm now l role)
    (hmoves : l'.moves.get role = l.moves.get role)
    (hcancels : l'.cancels.get role = l.cancels.get role)
    (hgave : l'.lastGave.find? role = l.lastGave.find? role)
    (hgot : l'.lastGot.find? role = l.lastGot.find? role)
    (hswing : l'.swingUntil.find? role = l.swingUntil.find? role) : RoleTidy tm now l' role where
  sorted := by
    rw [hmoves]
    exact h.sorted
  movesPast := by
    rw [hmoves]
    exact h.movesPast
  cancelsPast := by
    rw [hcancels]
    exact h.cancelsPast
  gave time ht := by
    rw [ShareLedger.receivingHeld, hgave, hmoves]
    exact h.gave time ht
  got time ht := by
    rw [ShareLedger.gotHeld, hgot, hmoves]
    exact h.got time ht
  swing time ht := by
    rw [ShareLedger.swingOn, hswing, hmoves, hcancels]
    exact h.swing time ht

/-- The part of the ledger a role's history is read from. -/
def ShareLedger.history (l : ShareLedger) :=
  (l.moves, l.cancels, l.lastGave, l.lastGot, l.swingUntil)

theorem Tidy.of_history (h : Tidy tm now l) (heq : l'.history = l.history) : Tidy tm now l' := by
  obtain ⟨hmoves, hcancels, hgave, hgot, hswing⟩ : l'.moves = l.moves ∧ l'.cancels = l.cancels ∧
      l'.lastGave = l.lastGave ∧ l'.lastGot = l.lastGot ∧ l'.swingUntil = l.swingUntil := by
    simpa [ShareLedger.history] using heq
  intro role
  exact (h role).congr (by rw [hmoves]) (by rw [hcancels]) (by rw [hgave]) (by rw [hgot])
    (by rw [hswing])

theorem find?_putOrDelete (m : GoMap String Int) (role r : String) (v : Option Int) :
    (putOrDelete m role v).find? r = if r = role then v else m.find? r := by
  cases v with
  | none => exact m.find?_delete role r
  | some v => exact m.find?_set role r v

namespace ShareLedger

theorem rederive_self (hsorted : (l.moves.get role).Pairwise fun a b => a.time ≤ b.time)
    (hmoves : ∀ m ∈ l.moves.get role, m.time ≤ now)
    (hcancels : ∀ m ∈ l.cancels.get role, m.time ≤ now) :
    RoleTidy tm now (l.rederive role tm) role where
  sorted := hsorted
  movesPast := hmoves
  cancelsPast := hcancels
  gave time _ := by
    have hfilter : ((l.moves.get role).filter (!·.received)) =
        (l.moves.get role).filter fun m => m.received == false := by simp
    rw [receivingHeld, rederive]
    dsimp only
    rw [find?_putOrDelete, if_pos rfl, hfilter, getLast?_held hsorted]
  got time _ := by
    have hfilter : ((l.moves.get role).filter (·.received)) =
        (l.moves.get role).filter fun m => m.received == true := by simp
    rw [gotHeld, rederive]
    dsimp only
    rw [find?_putOrDelete, if_pos rfl, hfilter, getLast?_held hsorted]
  swing time _ := by
    rw [swingOn, rederive]
    dsimp only
    rw [find?_putOrDelete, if_pos rfl, ← swingEnd_any]
    rfl

theorem rederive_other (h : RoleTidy tm now l r) (hne : r ≠ role) :
    RoleTidy tm now (l.rederive role tm) r := by
  apply h.congr
  · rfl
  · rfl
  · exact (find?_putOrDelete ..).trans (if_neg hne)
  · exact (find?_putOrDelete ..).trans (if_neg hne)
  · exact (find?_putOrDelete ..).trans (if_neg hne)

theorem tidy_rederive_moves (h : Tidy tm now l) {ms : List ShareMove}
    (hsorted : ms.Pairwise fun a b => a.time ≤ b.time) (hpast : ∀ m ∈ ms, m.time ≤ now) :
    Tidy tm now ({ l with moves := l.moves.set role ms }.rederive role tm) := by
  intro r
  by_cases hr : r = role
  · subst hr
    apply rederive_self
    · rwa [get_set_self]
    · rwa [get_set_self]
    · exact (h r).cancelsPast
  · refine rederive_other ((h r).congr ?_ rfl rfl rfl rfl) hr
    exact get_set_of_ne _ _ hr

theorem tidy_recordMove (h : Tidy tm now l) (received : Bool) (id : String) (hnow : now ≤ now') :
    Tidy tm now' (l.recordMove role received id now' tm) := by
  have hrole := h.mono hnow role
  refine tidy_rederive_moves (h.mono hnow) ?_ ?_
  · rw [pairwise_append]
    refine ⟨hrole.sorted.filter _, pairwise_singleton .., ?_⟩
    intro a ha b hb
    rw [mem_singleton.mp hb]
    exact hrole.movesPast a (mem_filter.mp ha).1
  · intro m hm
    rcases mem_append.mp hm with hm | hm
    · exact hrole.movesPast m (mem_filter.mp hm).1
    · rw [mem_singleton.mp hm]

theorem tidy_unrecord (h : Tidy tm now l) (id : String) : Tidy tm now (l.unrecord role id tm) := by
  unfold unrecord
  split
  · refine tidy_rederive_moves h ?_ ?_
    · exact (h role).sorted.filter _
    · intro m hm
      exact (h role).movesPast m (mem_filter.mp hm).1
  · exact h

theorem tidy_recordCancel (h : Tidy tm now l) (received : Bool) (hnow : now ≤ now') :
    Tidy tm now' (l.recordCancel role received now' tm) := by
  have hlater := h.mono hnow
  have hrole := hlater role
  unfold recordCancel
  dsimp only
  split
  · -- the entry is there already: only entries too old to matter go
    intro r
    by_cases hr : r = role
    · subst hr
      refine ⟨hrole.sorted, hrole.movesPast, ?_, hrole.gave, hrole.got, ?_⟩
      · rw [get_set_self]
        intro m hm
        exact hrole.cancelsPast m (mem_filter.mp hm).1
      · intro time ht
        rw [get_set_self]
        refine (hrole.swing time ht).trans (swings_congr rfl ?_ ?_ ?_ ht)
        · exact (recent_recent le_rfl le_rfl _).symm
        · intro m hm
          exact (mem_append.mp hm).elim (hrole.movesPast m) (hrole.cancelsPast m)
        · intro m hm
          rcases mem_append.mp hm with hm | hm
          · exact hrole.movesPast m hm
          · exact hrole.cancelsPast m (mem_filter.mp hm).1
    · exact (hlater r).congr rfl (get_set_of_ne _ _ hr) rfl rfl rfl
  · intro r
    by_cases hr : r = role
    · subst hr
      apply rederive_self
      · exact hrole.sorted
      · exact hrole.movesPast
      · rw [get_set_self]
        intro m hm
        rcases mem_append.mp hm with hm | hm
        · exact hrole.cancelsPast m (mem_filter.mp hm).1
        · rw [mem_singleton.mp hm]
    · exact rederive_other ((hlater r).congr rfl (get_set_of_ne _ _ hr) rfl rfl rfl) hr

theorem tidy_start (h : Tidy tm now l) (t : ShareTransfer) (salt : String) (held : Held)
    (hnow : now ≤ now') : Tidy tm now' (l.start t salt held now' tm) := by
  unfold start
  dsimp only
  generalize l.admitted t salt held now' tm = t'
  split
  · exact (h.mono hnow).of_history rfl
  split
  · refine tidy_recordMove (tidy_recordMove ?_ _ _ hnow) _ _ le_rfl
    exact h.of_history rfl
  · refine tidy_recordMove ?_ _ _ hnow
    exact h.of_history rfl

theorem tidy_forget (h : Tidy tm now l) (id : String) : Tidy tm now (l.forget id tm) := by
  unfold forget
  split
  · exact h
  dsimp only
  split
  · refine tidy_unrecord (tidy_unrecord ?_ _) _
    exact h.of_history rfl
  · refine tidy_unrecord ?_ _
    exact h.of_history rfl

theorem tidy_cancel (h : Tidy tm now l) (id : String) (hnow : now ≤ now') :
    Tidy tm now' (l.cancel id now' tm).1 := by
  unfold cancel
  split
  · exact h.mono hnow
  next t ht =>
  dsimp only
  generalize (if t.receiver = "" then l.setReceiver t.setID else t.receiver) = rc
  split
  · exact h.mono hnow
  have hforget := (tidy_forget h t.id).mono hnow
  split
  · exact hforget
  split
  · exact tidy_recordCancel hforget _ le_rfl
  · exact (tidy_recordCancel (tidy_recordCancel hforget _ le_rfl) _ le_rfl).of_history rfl

end ShareLedger

/-- What a timed operation has to promise about the roles it forgets. -/
def GroupLedger.ForgetsNone (tm : ShareTimings) (g : GroupLedger) (now : Int) : GroupOp → Prop
  | .retain present others => g.NoneGone present others now tm
  | _ => True

instance (tm : ShareTimings) (g : GroupLedger) (now : Int) (op : GroupOp) :
    Decidable (g.ForgetsNone tm now op) := by
  unfold GroupLedger.ForgetsNone
  split
  · infer_instance
  · infer_instance

private theorem holdChanging_ledger (g : GroupLedger) (donor variant receiver reason : String)
    (now : Int) (tm : ShareTimings) :
    (g.holdChanging donor variant receiver reason now tm).toShareLedger = g.toShareLedger := by
  unfold GroupLedger.holdChanging
  split <;> rfl

private theorem observeChanging_ledger (g : GroupLedger) (donor : String) (stable : Bool)
    (reason : String) (confirm : Int) :
    (g.observeChanging donor stable reason confirm).toShareLedger = g.toShareLedger := by
  unfold GroupLedger.observeChanging
  split
  · rfl
  split
  · rfl
  split <;> rfl

theorem GroupLedger.tidy_take {g : GroupLedger} (h : Tidy tm now g.toShareLedger)
    (hnow : now ≤ now') (op : GroupOp) (hop : g.ForgetsNone tm now' op) :
    Tidy tm now' (g.take tm now' op).toShareLedger := by
  have hlater := h.mono hnow
  cases op with
  | start t salt held => exact ShareLedger.tidy_start h t salt held hnow
  | cancel id => exact ShareLedger.tidy_cancel h id hnow
  | forget id => exact ShareLedger.tidy_forget hlater id
  | startFill | restore | linkSet | plannedRunning | receiverFilled | takeReleased | observe
  | recordNeeds => exact hlater.of_history rfl
  | redirect id hold =>
    change Tidy tm now' (g.toShareLedger.redirect id hold).1
    unfold ShareLedger.redirect
    split
    · exact hlater
    · exact hlater.of_history rfl
  | markFailed donor =>
    change Tidy tm now' (g.markFailed donor now' tm).toShareLedger
    unfold markFailed
    split
    · exact hlater
    · exact hlater.of_history rfl
  | holdGiving donor =>
    change Tidy tm now' (g.holdGiving donor now' tm).toShareLedger
    unfold holdGiving
    split
    · exact hlater.of_history rfl
    · exact hlater
  | holdChanging donor variant receiver reason =>
    change Tidy tm now' (g.holdChanging donor variant receiver reason now' tm).toShareLedger
    rwa [holdChanging_ledger]
  | observeChanging donor stable reason confirm =>
    change Tidy tm now' (g.observeChanging donor stable reason confirm).toShareLedger
    rwa [observeChanging_ledger]
  | retain present others =>
    change Tidy tm now' (g.retain present others now' tm).toShareLedger
    rw [retain_of_noneGone hop]
    exact hlater.of_history rfl

theorem tidy_new (tm : ShareTimings) (now : Int) (incarnation : String) :
    Tidy tm now (newShareLedger incarnation) := by
  intro role
  have hgone (time : Int) (received : Bool) : ¬ HeldBy tm received time [] := by
    rintro ⟨m, hm, -⟩
    exact not_mem_nil hm
  have hstill (time : Int) : ¬ Swings tm time (inOrder ([] ++ [])) := by
    rintro ⟨m, hm, -⟩
    exact not_mem_nil (mem_inOrder.mp hm)
  refine ⟨Pairwise.nil, fun m hm => absurd hm not_mem_nil,
    fun m hm => absurd hm not_mem_nil, ?_, ?_, ?_⟩
  · intro time _
    exact iff_of_false Bool.false_ne_true (hgone time false)
  · intro time _
    exact iff_of_false Bool.false_ne_true (hgone time true)
  · intro time _
    exact iff_of_false Bool.false_ne_true (hstill time)

end LlmScaler.Ledger
