import LlmScaler.Ledger.Apart
import LlmScaler.Ledger.MoveHistory

/-!
# Two ledgers that differ by one transfer

Two runs take the same operations, one with a transfer in its ledger that the other does not have.
As long as the operations leave that transfer alone, the two ledgers agree on every other transfer,
on every back-off, and on every recorded move that is not the transfer's own and can still matter.
-/

namespace LlmScaler.Ledger

open LlmScaler.Core List GoMap

/-- What a transfer was started with and no operation but a redirect or a link changes. -/
structure Terms where
  id : String
  donor : String
  receiver : String
  setID : String
  entitled : Bool
  started : Int
  deriving DecidableEq

def ShareTransfer.terms (t : ShareTransfer) : Terms :=
  ⟨t.id, t.donor, t.receiver, t.setID, t.entitled, t.started⟩

theorem static_terms : Static ShareTransfer.terms := fun _ => rfl

section
variable (p : String → Bool) (tm : ShareTimings) (now : Int)

/-- The recorded moves that pass the test and can still matter agree, and so do the cancels. -/
structure MovesAgree (l l' : ShareLedger) : Prop where
  moves : ∀ role, recent tm.keep now ((l.moves.get role).filter (p ·.id)) =
    recent tm.keep now (l'.moves.get role)
  cancels : ∀ role, recent (2 * tm.swingWindow) now (l.cancels.get role) =
    recent (2 * tm.swingWindow) now (l'.cancels.get role)

/-- The second ledger is the first without the transfers that fail the test. -/
structure Beside (l l' : ShareLedger) : Prop extends MovesAgree p tm now l l' where
  rest : (l.only p).withoutMoves = l'.withoutMoves
  pairs : l.noPair = l'.noPair

/-- The transfers that fail the test: at most one, in no donor set, its moves under its roles. -/
structure Bystander (ks : List Terms) (l : ShareLedger) : Prop where
  fresh : ∀ k n s, l.nextID < n → p (issuedID l.incarnation k n s) = true
  sets : ∀ t ∈ l.transfers, p t.setID = true
  terms : ((l.transfers.filter (!p ·.id)).map (·.terms)).Sublist ks
  traced : ∀ role, ∀ m ∈ l.moves.get role, p m.id = false →
    ∃ k ∈ ks, k.id = m.id ∧ (role = k.donor ∨ role = k.receiver ∧ k.receiver ≠ "")

end

/-- Every transfer with the given terms is still releasing. -/
def Present (ks : List Terms) (l : ShareLedger) : Prop :=
  ∀ k ∈ ks, ∃ t ∈ l.transfers, t.id = k.id ∧ t.state = .releasing

/-- The terms of at most one transfer, which fails the test and is in no donor set. -/
structure Single (p : String → Bool) (ks : List Terms) : Prop where
  named : p "" = true
  few : ks.length ≤ 1
  outside : ∀ k ∈ ks, p k.id = false
  apart : ∀ k ∈ ks, k.setID = ""

variable {p : String → Bool} {ks : List Terms} {tm : ShareTimings} {now now' : Int}
  {l l' : ShareLedger}

theorem MovesAgree.mono (h : MovesAgree p tm now l l') (hnow : now ≤ now') :
    MovesAgree p tm now' l l' where
  moves role := recent_congr le_rfl hnow (h.moves role)
  cancels role := recent_congr le_rfl hnow (h.cancels role)

theorem MovesAgree.of_history {m m' : ShareLedger} (h : MovesAgree p tm now l l')
    (hl : m.history = l.history) (hl' : m'.history = l'.history) : MovesAgree p tm now m m' := by
  have hmoves : m.moves = l.moves := congrArg Prod.fst hl
  have hcancels : m.cancels = l.cancels := congrArg (·.2.1) hl
  have hmoves' : m'.moves = l'.moves := congrArg Prod.fst hl'
  have hcancels' : m'.cancels = l'.cancels := congrArg (·.2.1) hl'
  constructor
  · intro role
    rw [hmoves, hmoves']
    exact h.moves role
  · intro role
    rw [hcancels, hcancels']
    exact h.cancels role

namespace ShareLedger

theorem recordMove_moves (l : ShareLedger) (role r id : String) (received : Bool) (now : Int)
    (tm : ShareTimings) :
    (l.recordMove role received id now tm).moves.get r =
      if r = role then recent tm.keep now (l.moves.get role) ++ [⟨now, received, id⟩]
      else l.moves.get r :=
  get_set ..

theorem unrecord_moves (l : ShareLedger) (role r id : String) (tm : ShareTimings) :
    (l.unrecord role id tm).moves.get r =
      if r = role then (l.moves.get role).filter (·.id != id) else l.moves.get r := by
  unfold unrecord
  cases h : l.moves.has role with
  | true =>
    rw [if_pos rfl]
    exact get_modify ..
  | false =>
    rw [if_neg Bool.false_ne_true]
    split
    · next hr =>
      rw [hr, get_of_not_has h]
      rfl
    · rfl

theorem unrecord_cancels (l : ShareLedger) (role id : String) (tm : ShareTimings) :
    (l.unrecord role id tm).cancels = l.cancels := by
  unfold unrecord
  split <;> rfl

theorem recordCancel_moves (l : ShareLedger) (role : String) (received : Bool) (now : Int)
    (tm : ShareTimings) : (l.recordCancel role received now tm).moves = l.moves := by
  unfold recordCancel
  dsimp only
  split <;> rfl

/-- A role's cancels once one is recorded, from those still recent. -/
def noteCancel (now : Int) (received : Bool) (cs : List ShareMove) : List ShareMove :=
  if cs.any fun m => m.time == now && m.received == received then cs
  else cs ++ [⟨now, received, ""⟩]

theorem recordCancel_cancels (l : ShareLedger) (role r : String) (received : Bool) (now : Int)
    (tm : ShareTimings) :
    (l.recordCancel role received now tm).cancels.get r =
      if r = role then noteCancel now received (recent (2 * tm.swingWindow) now (l.cancels.get role))
      else l.cancels.get r := by
  unfold recordCancel noteCancel recent
  dsimp only
  by_cases h : (((l.cancels.get role).filter fun m => now - m.time ≤ 2 * tm.swingWindow).any
      fun m => m.time == now && m.received == received) = true
  · rw [if_pos h, if_pos h]
    exact get_set ..
  · rw [if_neg h, if_neg h]
    exact get_set ..

theorem unrecord_noPair (l : ShareLedger) (role id : String) (tm : ShareTimings) :
    (l.unrecord role id tm).noPair = l.noPair := by
  unfold unrecord
  split <;> rfl

theorem forget_noPair (l : ShareLedger) (id : String) (tm : ShareTimings) :
    (l.forget id tm).noPair = l.noPair := by
  unfold forget
  split
  · rfl
  dsimp only
  split
  · rw [unrecord_noPair, unrecord_noPair]
  · rw [unrecord_noPair]

theorem recordCancel_noPair (l : ShareLedger) (role : String) (received : Bool) (now : Int)
    (tm : ShareTimings) : (l.recordCancel role received now tm).noPair = l.noPair := by
  unfold recordCancel
  dsimp only
  split <;> rfl

end ShareLedger

namespace MovesAgree

theorem recordMove (h : MovesAgree p tm now l l') (role id : String) (received : Bool)
    (hid : p id = true) :
    MovesAgree p tm now (l.recordMove role received id now tm)
      (l'.recordMove role received id now tm) where
  moves r := by
    rw [ShareLedger.recordMove_moves, ShareLedger.recordMove_moves]
    split
    · rw [filter_append, recent_append, recent_append, recent_filter,
        recent_recent le_rfl le_rfl, recent_recent le_rfl le_rfl, ← recent_filter, h.moves role]
      simp [hid]
    · exact h.moves r
  cancels r := h.cancels r

theorem recordMove_left (h : MovesAgree p tm now l l') (role id : String) (received : Bool)
    (hid : p id = false) :
    MovesAgree p tm now (l.recordMove role received id now tm) l' where
  moves r := by
    rw [ShareLedger.recordMove_moves]
    split
    · next hr =>
      rw [filter_append, recent_append, recent_filter, recent_recent le_rfl le_rfl,
        ← recent_filter, h.moves role, hr]
      simp [hid, recent]
    · exact h.moves r
  cancels r := h.cancels r

theorem unrecord (h : MovesAgree p tm now l l') (role id : String) :
    MovesAgree p tm now (l.unrecord role id tm) (l'.unrecord role id tm) where
  moves r := by
    rw [ShareLedger.unrecord_moves, ShareLedger.unrecord_moves]
    split
    · rw [filter_comm, recent_filter, h.moves role, ← recent_filter]
    · exact h.moves r
  cancels r := by
    rw [ShareLedger.unrecord_cancels, ShareLedger.unrecord_cancels]
    exact h.cancels r

theorem unrecord_left (h : MovesAgree p tm now l l') (role id : String) (hid : p id = false) :
    MovesAgree p tm now (l.unrecord role id tm) l' where
  moves r := by
    rw [ShareLedger.unrecord_moves]
    split
    · next hr =>
      have hsame : ((l.moves.get role).filter (·.id != id)).filter (p ·.id) =
          (l.moves.get role).filter (p ·.id) := by
        rw [filter_filter]
        refine filter_congr fun m _ => ?_
        by_cases hm : m.id = id
        · simp [hm, hid]
        · simp [hm]
      rw [hsame, hr]
      exact h.moves role
    · exact h.moves r
  cancels r := by
    rw [ShareLedger.unrecord_cancels]
    exact h.cancels r

theorem recordCancel (h : MovesAgree p tm now l l') (role : String) (received : Bool) :
    MovesAgree p tm now (l.recordCancel role received now tm)
      (l'.recordCancel role received now tm) where
  moves r := by
    rw [ShareLedger.recordCancel_moves, ShareLedger.recordCancel_moves]
    exact h.moves r
  cancels r := by
    rw [ShareLedger.recordCancel_cancels, ShareLedger.recordCancel_cancels]
    split
    · rw [h.cancels role]
    · exact h.cancels r

end MovesAgree

namespace Beside

theorem transfers (h : Beside p tm now l l') : l'.transfers = l.transfers.filter (p ·.id) :=
  (congrArg ShareLedger.transfers h.rest).symm

theorem nextID (h : Beside p tm now l l') : l'.nextID = l.nextID :=
  (congrArg ShareLedger.nextID h.rest).symm

theorem incarnation (h : Beside p tm now l l') : l'.incarnation = l.incarnation :=
  (congrArg ShareLedger.incarnation h.rest).symm

variable {id : String}

theorem transfer (h : Beside p tm now l l') (hid : p id = true) :
    l'.transfer id = l.transfer id := by
  rw [ShareLedger.transfer, h.transfers, find?_filter, ShareLedger.transfer]
  congr 1
  funext t
  by_cases ht : t.id = id
  · simp [ht, hid]
  · simp [ht]

theorem transfer_none (h : Beside p tm now l l') (hid : p id = false) : l'.transfer id = none := by
  rw [ShareLedger.transfer, h.transfers, find?_eq_none]
  intro t ht
  have hpass := (mem_filter.mp ht).2
  rw [beq_iff_eq]
  rintro rfl
  rw [hid] at hpass
  exact Bool.false_ne_true hpass

theorem setReceiver (h : Beside p tm now l l') (hid : p id = true) :
    l'.setReceiver id = l.setReceiver id := by
  rw [ShareLedger.setReceiver, h.transfer hid, ShareLedger.setReceiver]

/-- An operation that reads the ledger apart from its moves, and commutes with leaving out. -/
theorem of_core (f core : ShareLedger → ShareLedger) (h : Beside p tm now l l')
    (hagree : MovesAgree p tm now' (f l) (f l')) (hpairs : (f l).noPair = (f l').noPair)
    (hf : ∀ l, (f l).withoutMoves = core l.withoutMoves)
    (hcomm : (core l.withoutMoves).only p = core (l.withoutMoves.only p)) :
    Beside p tm now' (f l) (f l') where
  toMovesAgree := hagree
  pairs := hpairs
  rest := by
    change (f l).withoutMoves.only p = (f l').withoutMoves
    rw [hf, hf, ← h.rest]
    exact hcomm

theorem mono (h : Beside p tm now l l') (hnow : now ≤ now') : Beside p tm now' l l' where
  toMovesAgree := h.toMovesAgree.mono hnow
  rest := h.rest
  pairs := h.pairs

/-- One that leaves the moves alone as well. -/
theorem of_rest (f : ShareLedger → ShareLedger) (h : Beside p tm now l l')
    (hhistory : ∀ l, (f l).history = l.history) (hpairs : ∀ l, (f l).noPair = l.noPair)
    (hf : ∀ l, (f l).withoutMoves = f l.withoutMoves)
    (hcomm : (f l.withoutMoves).only p = f (l.withoutMoves.only p)) :
    Beside p tm now (f l) (f l') := by
  refine of_core f f h (h.toMovesAgree.of_history (hhistory l) (hhistory l')) ?_ hf hcomm
  rw [hpairs, hpairs, h.pairs]

theorem filter_concat {t : ShareTransfer} (hid : p t.id = true) (ts : List ShareTransfer) :
    (ts ++ [t]).filter (p ·.id) = ts.filter (p ·.id) ++ [t] := by
  rw [filter_append, filter_cons_of_pos (by simpa using hid), filter_nil]

theorem of_transfers (f : List ShareTransfer → List ShareTransfer) (h : Beside p tm now l l')
    (hcomm : (f l.transfers).filter (p ·.id) = f (l.transfers.filter (p ·.id))) :
    Beside p tm now { l with transfers := f l.transfers }
      { l' with transfers := f l'.transfers } := by
  refine of_rest (fun l => { l with transfers := f l.transfers }) h (fun _ => rfl) (fun _ => rfl)
    (fun _ => rfl) ?_
  change ShareLedger.withoutMoves { l with transfers := (f l.transfers).filter (p ·.id) } = _
  rw [hcomm]
  rfl

theorem start (h : Beside p tm now l l') (hb : Bystander p ks l) (hnow : now ≤ now')
    (t : ShareTransfer) (salt : String) (held : Held) :
    Beside p tm now' (l.start t salt held now' tm) (l'.start t salt held now' tm) := by
  have hid : p (l.admitted t salt held now' tm).id = true := hb.fresh _ _ _ (Nat.lt_succ_self _)
  have hadmitted : l'.admitted t salt held now' tm = l.admitted t salt held now' tm := by
    rw [ShareLedger.admitted, h.nextID, h.incarnation]
    rfl
  have hagree := h.toMovesAgree.mono hnow
  refine of_core (fun l => l.start t salt held now' tm)
    (fun m => { m with
      nextID := m.nextID + 1
      transfers := m.transfers ++ [m.admitted t salt held now' tm] }) h ?_ ?_ ?_ ?_
  · unfold ShareLedger.start
    dsimp only
    rw [hadmitted]
    generalize l.admitted t salt held now' tm = t' at hid
    split
    · exact hagree.of_history rfl rfl
    split
    · refine MovesAgree.recordMove (MovesAgree.recordMove ?_ _ _ _ hid) _ _ _ hid
      exact hagree.of_history rfl rfl
    · refine MovesAgree.recordMove ?_ _ _ _ hid
      exact hagree.of_history rfl rfl
  · unfold ShareLedger.start
    dsimp only
    rw [hadmitted]
    split
    · exact h.pairs
    split <;> exact h.pairs
  · intro l
    exact l.start_withoutMoves now' tm t salt held
  · change ShareLedger.withoutMoves { l with
      nextID := l.nextID + 1
      transfers := (l.transfers ++ [l.admitted t salt held now' tm]).filter (p ·.id) } = _
    rw [filter_concat hid]
    rfl

private theorem eraseP_filter (ts : List ShareTransfer) (hid : p id = true) :
    (ts.eraseP (·.id == id)).filter (p ·.id) = (ts.filter (p ·.id)).eraseP (·.id == id) := by
  induction ts with
  | nil => rfl
  | cons t ts ih =>
    by_cases ht : t.id = id
    · rw [eraseP_cons_of_pos (by simp [ht]), filter_cons_of_pos (by simp [ht, hid]),
        eraseP_cons_of_pos (by simp [ht])]
    · rw [eraseP_cons_of_neg (by simp [ht])]
      by_cases hp : p t.id = true
      · rw [filter_cons_of_pos (by simp [hp]), filter_cons_of_pos (by simp [hp]),
          eraseP_cons_of_neg (by simp [ht]), ih]
      · rw [filter_cons_of_neg (by simp [hp]), filter_cons_of_neg (by simp [hp]), ih]

theorem forget (h : Beside p tm now l l') (hid : p id = true) :
    Beside p tm now (l.forget id tm) (l'.forget id tm) := by
  refine of_core (fun l => l.forget id tm)
    (fun m => { m with transfers := m.transfers.eraseP (·.id == id) }) h ?_ ?_ ?_ ?_
  · unfold ShareLedger.forget
    rw [h.transfer hid]
    split
    · exact h.toMovesAgree
    dsimp only
    split
    · refine MovesAgree.unrecord (MovesAgree.unrecord ?_ _ _) _ _
      exact h.toMovesAgree.of_history rfl rfl
    · refine MovesAgree.unrecord ?_ _ _
      exact h.toMovesAgree.of_history rfl rfl
  · rw [ShareLedger.forget_noPair, ShareLedger.forget_noPair, h.pairs]
  · intro l
    exact l.forget_withoutMoves id tm
  · change ShareLedger.withoutMoves { l with
      transfers := (l.transfers.eraseP (·.id == id)).filter (p ·.id) } = _
    rw [eraseP_filter l.transfers hid]
    rfl

theorem recordCancel (h : Beside p tm now l l') (role : String) (received : Bool) :
    Beside p tm now (l.recordCancel role received now tm)
      (l'.recordCancel role received now tm) where
  toMovesAgree := h.toMovesAgree.recordCancel role received
  rest := by
    change (l.recordCancel role received now tm).withoutMoves.only p = _
    rw [ShareLedger.recordCancel_withoutMoves, ShareLedger.recordCancel_withoutMoves]
    exact h.rest
  pairs := by
    rw [ShareLedger.recordCancel_noPair, ShareLedger.recordCancel_noPair, h.pairs]

theorem holdPair (h : Beside p tm now l l') (pair : String × String) (time : Int) :
    Beside p tm now { l with noPair := l.noPair.set pair time }
      { l' with noPair := l'.noPair.set pair time } where
  toMovesAgree := h.toMovesAgree.of_history rfl rfl
  rest := h.rest
  pairs := by rw [h.pairs]

theorem cancel (h : Beside p tm now l l') (hb : Bystander p ks l) (hnow : now ≤ now')
    (hid : p id = true) : Beside p tm now' (l.cancel id now' tm).1 (l'.cancel id now' tm).1 := by
  unfold ShareLedger.cancel
  rw [h.transfer hid]
  split
  · exact h.mono hnow
  next t ht =>
  have hmem : t ∈ l.transfers := mem_of_find?_eq_some ht
  have htid : t.id = id := by simpa using find?_some ht
  have hforget := (h.forget (htid ▸ hid)).mono hnow
  dsimp only
  rw [h.setReceiver (hb.sets t hmem)]
  generalize (if t.receiver = "" then l.setReceiver t.setID else t.receiver) = rc
  split
  · exact h.mono hnow
  split
  · exact hforget
  split
  · exact hforget.recordCancel t.donor false
  · exact ((hforget.recordCancel t.donor false).recordCancel rc true).holdPair _ _

theorem startFill (h : Beside p tm now l l') (hb : Bystander p ks l)
    (receiver variant : String) (gpus : Nat) (urgent : Bool) (salt : String) (held : Held)
    (time : Int) :
    Beside p tm now (l.startFill receiver variant gpus urgent salt held time tm)
      (l'.startFill receiver variant gpus urgent salt held time tm) := by
  have hid : p (l.idleFill receiver variant gpus urgent salt held time tm).id = true :=
    hb.fresh _ _ _ (Nat.lt_succ_self _)
  refine of_rest (fun l => l.startFill receiver variant gpus urgent salt held time tm) h
    (fun _ => rfl) (fun _ => rfl) (fun _ => rfl) ?_
  change ShareLedger.withoutMoves { l with
    nextID := l.nextID + 1
    transfers := (l.transfers ++
      [l.idleFill receiver variant gpus urgent salt held time tm]).filter (p ·.id) } = _
  rw [filter_concat hid]
  rfl

theorem restore (h : Beside p tm now l l') (t : ShareTransfer) (heldDonor : Int)
    (hid : p t.id = true) : Beside p tm now (l.restore t heldDonor) (l'.restore t heldDonor) :=
  of_transfers (· ++ [ShareLedger.restored t heldDonor]) h
    (filter_concat (t := ShareLedger.restored t heldDonor) hid l.transfers)

theorem linkSet (h : Beside p tm now l l') (primary : String) (contributors : List String) :
    Beside p tm now (l.linkSet primary contributors) (l'.linkSet primary contributors) := by
  have hmap (m : ShareLedger) : m.linkSet primary contributors =
      { m with transfers := m.transfers.map (ShareLedger.linked primary contributors) } := by
    rw [← m.linkSet_transfers]
    rfl
  rw [hmap, hmap]
  refine of_transfers (List.map (ShareLedger.linked primary contributors)) h ?_
  rw [filter_map]
  congr 1
  refine filter_congr fun t _ => ?_
  rw [Function.comp_apply, ShareLedger.linked_id]

theorem plannedRunning (h : Beside p tm now l l') (running unknown : GoMap String Bool) :
    Beside p tm now (l.plannedRunning running unknown) (l'.plannedRunning running unknown) := by
  refine of_transfers (List.map fun t =>
    { t with plannedRunning := running.get t.id, plannedUnknown := unknown.get t.id }) h ?_
  rw [filter_map]
  rfl

theorem receiverFilled (h : Beside p tm now l l') (filled : Option Held) :
    Beside p tm now (l.receiverFilled filled) (l'.receiverFilled filled) :=
  of_rest (·.receiverFilled filled) h (fun _ => rfl) (fun _ => rfl) (fun _ => rfl) rfl

theorem takeReleased (h : Beside p tm now l l') :
    Beside p tm now l.takeReleased.1 l'.takeReleased.1 :=
  of_rest (·.takeReleased.1) h (fun _ => rfl) (fun _ => rfl) (fun _ => rfl) rfl

private theorem find?_filter_of {q : ShareTransfer → Bool} {ts : List ShareTransfer}
    (hq : ∀ t ∈ ts, p t.id = false → q t = false) : (ts.filter (p ·.id)).find? q = ts.find? q := by
  rw [← head?_filter, ← head?_filter, filter_filter]
  refine congrArg head? (filter_congr fun t ht => ?_)
  cases hp : p t.id with
  | false => rw [hq t ht hp, Bool.false_and]
  | true => rw [Bool.and_true]

private theorem mapFirst_filter_of {q : ShareTransfer → Bool} {f : ShareTransfer → ShareTransfer}
    {ts : List ShareTransfer} (hq : ∀ t ∈ ts, p t.id = false → q t = false)
    (hf : ∀ t, (f t).id = t.id) :
    (ShareLedger.mapFirst q f ts).filter (p ·.id) =
      ShareLedger.mapFirst q f (ts.filter (p ·.id)) := by
  induction ts with
  | nil => rfl
  | cons t ts ih =>
    have hrest := ih fun u hu => hq u (mem_cons_of_mem _ hu)
    cases hp : p t.id with
    | false =>
      rw [filter_cons_of_neg (by simp [hp]), ShareLedger.mapFirst,
        if_neg (by simp [hq t mem_cons_self hp]), filter_cons_of_neg (by simp [hp]), hrest]
    | true =>
      rw [filter_cons_of_pos (by simp [hp]), ShareLedger.mapFirst, ShareLedger.mapFirst]
      split
      · rw [filter_cons_of_pos (by simp [hf, hp])]
      · rw [filter_cons_of_pos (by simp [hp]), hrest]

theorem redirect (h : Beside p tm now l l') (hold : Int)
    (hid : ∀ t ∈ l.transfers, p t.id = false → t.id = id → t.redirectable = false) :
    Beside p tm now (l.redirect id hold).1 (l'.redirect id hold).1 := by
  have hq : ∀ t ∈ l.transfers, p t.id = false → (t.id == id && t.redirectable) = false := by
    intro t ht hp
    by_cases hteq : t.id = id
    · rw [hid t ht hp hteq, Bool.and_false]
    · rw [beq_false_of_ne hteq, Bool.false_and]
  unfold ShareLedger.redirect
  rw [h.transfers, find?_filter_of hq]
  split
  · exact h
  next t ht =>
  have hmoved := of_transfers
    (ShareLedger.mapFirst (fun u => u.id == id && u.redirectable) ShareLedger.redirectedTransfer) h
    (mapFirst_filter_of hq fun _ => rfl)
  rw [h.transfers] at hmoved
  exact of_rest (fun l => { l with
      wakeHolds := l.wakeHolds ++ [ShareWakeHold.mk t.donorGPUs t.id hold none] }) hmoved
    (fun _ => rfl) (fun _ => rfl) (fun _ => rfl) rfl

theorem observe (h : Beside p tm now l l') {held : Held} {time : Int}
    (hrows : l.Undisturbed p held)
    (hstays : ∀ r ∈ l.rows held, p r.t.id = false → r.Stays (l.cycle held time tm)) :
    Beside p tm now (l.observe held time tm).ledger (l'.observe held time tm).ledger where
  toMovesAgree := h.toMovesAgree.of_history rfl rfl
  rest := by
    have hmoves (m : ShareLedger) : (m.observe held time tm).ledger.withoutMoves =
        (m.withoutMoves.observe held time tm).ledger.withoutMoves := rfl
    rw [← ShareLedger.observe_only hrows hstays, hmoves, h.rest, ← hmoves]
  pairs := h.pairs

end Beside

end LlmScaler.Ledger
