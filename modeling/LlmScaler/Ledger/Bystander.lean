import LlmScaler.Core.Lists
import LlmScaler.Ledger.Beside

/-!
# A transfer the operations leave alone

Every operation that does not name a transfer carries it: its terms stay, its recorded moves stay
under the roles it started with, and once it is no longer releasing it never is again.
-/

namespace LlmScaler.Ledger

open LlmScaler.Core List

/-- What a step keeps of the transfers that fail the test. -/
structure Carries (p : String → Bool) (l m : ShareLedger) : Prop where
  nextID : l.nextID ≤ m.nextID
  incarnation : m.incarnation = l.incarnation
  terms : ((m.transfers.filter (!p ·.id)).map (·.terms)).Sublist
    ((l.transfers.filter (!p ·.id)).map (·.terms))
  releasing : ∀ t ∈ m.transfers, p t.id = false → t.state = .releasing →
    ∃ t₀ ∈ l.transfers, t₀.id = t.id ∧ t₀.state = .releasing
  sets : (∀ t ∈ l.transfers, p t.setID = true) → ∀ t ∈ m.transfers, p t.setID = true
  moves : ∀ role, ∀ mv ∈ m.moves.get role, p mv.id = false → mv ∈ l.moves.get role

variable {p : String → Bool} {ks : List Terms} {tm : ShareTimings} {now now' : Int}
  {l l' m : ShareLedger}

theorem Bystander.of_carries (h : Bystander p ks l) (hc : Carries p l m) : Bystander p ks m where
  fresh k n s hn := by
    rw [hc.incarnation]
    exact h.fresh k n s (hc.nextID.trans_lt hn)
  sets := hc.sets h.sets
  terms := hc.terms.trans h.terms
  traced role mv hmv hid := h.traced role mv (hc.moves role mv hmv hid) hid

theorem Present.of_carries (hs : Single p ks) (h : Present ks m) (hc : Carries p l m) :
    Present ks l := by
  intro k hk
  obtain ⟨t, ht, hid, hstate⟩ := h k hk
  obtain ⟨t₀, ht₀, hid₀, hstate₀⟩ :=
    hc.releasing t ht (by rw [hid]; exact hs.outside k hk) hstate
  exact ⟨t₀, ht₀, hid₀.trans hid, hstate₀⟩

theorem Bystander.few (h : Bystander p ks l) (hs : Single p ks) :
    (l.transfers.filter (!p ·.id)).length ≤ 1 := by
  have := h.terms.length_le.trans hs.few
  rwa [length_map] at this

theorem Bystander.unique (h : Bystander p ks l) (hs : Single p ks) {t u : ShareTransfer}
    (ht : t ∈ l.transfers) (hu : u ∈ l.transfers) (htp : p t.id = false) (hup : p u.id = false) :
    t = u :=
  eq_of_length_le_one (h.few hs) (mem_filter.mpr ⟨ht, by simp [htp]⟩)
    (mem_filter.mpr ⟨hu, by simp [hup]⟩)

theorem Bystander.exists_terms (h : Bystander p ks l) {t : ShareTransfer} (ht : t ∈ l.transfers)
    (htp : p t.id = false) : t.terms ∈ ks :=
  h.terms.subset (mem_map_of_mem (mem_filter.mpr ⟨ht, by simp [htp]⟩))

namespace Carries

theorem of_sublist (hnext : m.nextID = l.nextID) (hinc : m.incarnation = l.incarnation)
    (hsub : m.transfers.Sublist l.transfers)
    (hmoves : ∀ role, ∀ mv ∈ m.moves.get role, mv ∈ l.moves.get role) : Carries p l m where
  nextID := hnext.ge
  incarnation := hinc
  terms := (hsub.filter _).map _
  releasing t ht _ hstate := ⟨t, hsub.subset ht, rfl, hstate⟩
  sets h t ht := h t (hsub.subset ht)
  moves role mv hmv _ := hmoves role mv hmv

theorem of_append {t : ShareTransfer} (hnext : l.nextID ≤ m.nextID)
    (hinc : m.incarnation = l.incarnation) (htransfers : m.transfers = l.transfers ++ [t])
    (hid : p t.id = true) (hset : p t.setID = true)
    (hmoves : ∀ role, ∀ mv ∈ m.moves.get role, p mv.id = false → mv ∈ l.moves.get role) :
    Carries p l m where
  nextID := hnext
  incarnation := hinc
  terms := by
    rw [htransfers, filter_append, filter_cons_of_neg (by simp [hid]), filter_nil,
      append_nil]
  releasing u hu hup hstate := by
    rw [htransfers, mem_append, mem_singleton] at hu
    rcases hu with hu | rfl
    · exact ⟨u, hu, rfl, hstate⟩
    · rw [hid] at hup
      exact absurd hup (by simp)
  sets h u hu := by
    rw [htransfers, mem_append, mem_singleton] at hu
    rcases hu with hu | rfl
    · exact h u hu
    · exact hset
  moves := hmoves

/-- What a step may do to a transfer it keeps. -/
structure Change (p : String → Bool) (t u : ShareTransfer) : Prop where
  id : u.id = t.id
  state : u.state = t.state
  terms : p t.id = false → u.terms = t.terms
  set : p t.setID = true → p u.setID = true

theorem Change.refl (t : ShareTransfer) : Change p t t := ⟨rfl, rfl, fun _ => rfl, fun h => h⟩

private theorem terms_of_forall₂ {ts us : List ShareTransfer} (h : Forall₂ (Change p) ts us) :
    (us.filter (!p ·.id)).map (·.terms) = (ts.filter (!p ·.id)).map (·.terms) := by
  induction h with
  | nil => rfl
  | @cons t u ts us hchange _ ih =>
    cases hp : p t.id with
    | false =>
      rw [filter_cons_of_pos (by simp [hchange.id, hp]),
        filter_cons_of_pos (by simp [hp]), map_cons, map_cons, ih,
        hchange.terms hp]
    | true =>
      rw [filter_cons_of_neg (by simp [hchange.id, hp]),
        filter_cons_of_neg (by simp [hp]), ih]

theorem of_forall₂ (hnext : m.nextID = l.nextID) (hinc : m.incarnation = l.incarnation)
    (hall : Forall₂ (Change p) l.transfers m.transfers) (hmoves : m.moves = l.moves) :
    Carries p l m where
  nextID := hnext.ge
  incarnation := hinc
  terms := (terms_of_forall₂ hall).symm ▸ Sublist.refl _
  releasing u hu _ hstate := by
    obtain ⟨t, ht, hchange⟩ := exists_of_forall₂ hall hu
    exact ⟨t, ht, hchange.id.symm, hchange.state.symm.trans hstate⟩
  sets h u hu := by
    obtain ⟨t, ht, hchange⟩ := exists_of_forall₂ hall hu
    exact hchange.set (h t ht)
  moves role mv hmv _ := by rwa [hmoves] at hmv

end Carries

namespace ShareLedger

theorem moves_unrecord (l : ShareLedger) {r id role : String} {tm : ShareTimings} {mv : ShareMove}
    (h : mv ∈ (l.unrecord r id tm).moves.get role) : mv ∈ l.moves.get role := by
  rw [unrecord_moves] at h
  split at h
  · next hr =>
    rw [hr]
    exact (mem_filter.mp h).1
  · exact h

theorem moves_forget (l : ShareLedger) (id : String) (tm : ShareTimings) {role : String}
    {mv : ShareMove} (h : mv ∈ (l.forget id tm).moves.get role) : mv ∈ l.moves.get role := by
  unfold forget at h
  split at h
  · exact h
  dsimp only at h
  split at h
  · have hdonor := moves_unrecord _ h
    exact moves_unrecord { l with transfers := l.transfers.eraseP (·.id == id) } hdonor
  · exact moves_unrecord { l with transfers := l.transfers.eraseP (·.id == id) } h

theorem carries_forget (l : ShareLedger) (id : String) (tm : ShareTimings) :
    Carries p l (l.forget id tm) := by
  obtain ⟨htransfers, hnext, hinc, -⟩ := eq_of_withoutMoves (l.forget_withoutMoves id tm)
  refine Carries.of_sublist hnext hinc ?_ fun role mv hmv => l.moves_forget id tm hmv
  rw [htransfers]
  exact eraseP_sublist

theorem carries_cancel (l : ShareLedger) (id : String) (now : Int) (tm : ShareTimings) :
    Carries p l (l.cancel id now tm).1 := by
  have hmoves : ∀ role, ∀ mv ∈ (l.cancel id now tm).1.moves.get role, mv ∈ l.moves.get role := by
    intro role mv hmv
    unfold cancel at hmv
    split at hmv
    · exact hmv
    next t ht =>
    dsimp only at hmv
    generalize (if t.receiver = "" then l.setReceiver t.setID else t.receiver) = rc at hmv
    split at hmv
    · exact hmv
    split at hmv
    · exact l.moves_forget _ _ hmv
    split at hmv
    · rw [recordCancel_moves] at hmv
      exact l.moves_forget _ _ hmv
    · dsimp only at hmv
      rw [recordCancel_moves, recordCancel_moves] at hmv
      exact l.moves_forget _ _ hmv
  rcases l.cancel_withoutMoves id now tm with heq | ⟨-, heq⟩
  · obtain ⟨htransfers, hnext, hinc, -⟩ := eq_of_withoutMoves heq
    exact Carries.of_sublist hnext hinc (htransfers ▸ Sublist.refl _) hmoves
  · obtain ⟨htransfers, hnext, hinc, -⟩ := eq_of_withoutMoves heq
    refine Carries.of_sublist hnext hinc ?_ hmoves
    rw [htransfers]
    exact eraseP_sublist

theorem carries_start (hb : Bystander p ks l) {t : ShareTransfer} (salt : String) (held : Held)
    (hset : p t.setID = true) : Carries p l (l.start t salt held now tm) := by
  have hid : p (l.admitted t salt held now tm).id = true := hb.fresh _ _ _ (Nat.lt_succ_self _)
  obtain ⟨htransfers, hnext, hinc, -⟩ :=
    eq_of_withoutMoves (l.start_withoutMoves now tm t salt held)
  refine Carries.of_append (Nat.le_of_succ_le hnext.ge) hinc htransfers hid hset ?_
  intro role mv hmv hp
  have hrec (l : ShareLedger) (r : String) (received : Bool) (id : String)
      (h : mv ∈ (l.recordMove r received id now tm).moves.get role) (hid : p id = true) :
      mv ∈ l.moves.get role := by
    rw [recordMove_moves] at h
    split at h
    · next hr =>
      rcases mem_append.mp h with h | h
      · rw [hr]
        exact (mem_recent.mp h).1
      · rw [mem_singleton.mp h, hid] at hp
        exact absurd hp (by simp)
    · exact h
  unfold start at hmv
  dsimp only at hmv
  split at hmv
  · exact hmv
  split at hmv
  · exact hrec _ _ _ _ (hrec _ _ _ _ hmv hid) hid
  · exact hrec _ _ _ _ hmv hid

theorem carries_startFill (hb : Bystander p ks l) (hs : Single p ks)
    (receiver variant : String) (gpus : Nat) (urgent : Bool) (salt : String) (held : Held) :
    Carries p l (l.startFill receiver variant gpus urgent salt held now tm) :=
  Carries.of_append (Nat.le_succ _) rfl rfl (hb.fresh _ _ _ (Nat.lt_succ_self _)) hs.named
    fun _ _ hmv _ => hmv

theorem carries_restore {t : ShareTransfer} (heldDonor : Int) (hid : p t.id = true)
    (hset : p t.setID = true) : Carries p l (l.restore t heldDonor) :=
  Carries.of_append le_rfl rfl rfl hid hset fun _ _ hmv _ => hmv

theorem carries_linkSet {primary : String} {contributors : List String}
    (hprimary : p primary = true) (hcontributors : ∀ c ∈ contributors, p c = true) :
    Carries p l (l.linkSet primary contributors) := by
  refine Carries.of_forall₂ rfl rfl ?_ rfl
  rw [linkSet_transfers, forall₂_map_right_iff, forall₂_same]
  intro t _
  refine ⟨linked_id .., linked_state .., ?_, ?_⟩
  · intro hp
    have hne : t.id ≠ primary := by
      rintro heq
      rw [heq, hprimary] at hp
      exact absurd hp (by simp)
    have hnot : t.id ∉ contributors := by
      intro hmem
      rw [hcontributors t.id hmem] at hp
      exact absurd hp (by simp)
    rw [linked, if_neg hne, if_neg hnot]
  · intro hset
    unfold linked
    split
    · exact hprimary
    split
    · exact hprimary
    · exact hset

theorem carries_plannedRunning (running unknown : GoMap String Bool) :
    Carries p l (l.plannedRunning running unknown) := by
  refine Carries.of_forall₂ rfl rfl ?_ rfl
  rw [plannedRunning, forall₂_map_right_iff, forall₂_same]
  intro t _
  exact ⟨rfl, rfl, fun _ => rfl, fun h => h⟩

private theorem forall₂_redirected {id : String} {ts : List ShareTransfer}
    (h : ∀ t ∈ ts, p t.id = false → t.id = id → t.redirectable = false) :
    Forall₂ (Carries.Change p) ts
      (mapFirst (fun u => u.id == id && u.redirectable) redirectedTransfer ts) := by
  induction ts with
  | nil => exact .nil
  | cons t ts ih =>
    rw [mapFirst]
    split
    · next hq =>
      simp only [Bool.and_eq_true, beq_iff_eq] at hq
      refine .cons ⟨rfl, rfl, ?_, fun hset => hset⟩ (forall₂_same.mpr fun u _ => .refl u)
      intro hp
      rw [h t mem_cons_self hp hq.1] at hq
      exact absurd hq.2 (by simp)
    · exact .cons (.refl t) (ih fun u hu => h u (mem_cons_of_mem _ hu))

theorem carries_redirect {id : String} (hold : Int)
    (h : ∀ t ∈ l.transfers, p t.id = false → t.id = id → t.redirectable = false) :
    Carries p l (l.redirect id hold).1 := by
  unfold redirect
  split
  · exact Carries.of_sublist rfl rfl (Sublist.refl _) fun _ _ hmv => hmv
  · exact Carries.of_forall₂ rfl rfl (forall₂_redirected h) rfl

theorem carries_observe (held : Held) :
    Carries p l (l.observe held now tm).ledger where
  nextID := le_rfl
  incarnation := rfl
  terms := by
    have hsub := static_terms.map_sublist (l.observe_fixed_sublist held now tm)
    have hfilter (ts : List ShareTransfer) : (ts.filter (!p ·.id)).map (·.terms) =
        (ts.map (·.terms)).filter (!p ·.id) := by
      rw [filter_map]
      rfl
    rw [hfilter, hfilter]
    exact hsub.filter _
  releasing t ht _ hstate := by
    have hsub := (l.observe_releasing_sublist held now tm (k := (·.id)) fun _ => rfl).subset
    have hmem := hsub (mem_map_of_mem (mem_filter.mpr ⟨ht, by simpa using hstate⟩))
    obtain ⟨t₀, ht₀, hid⟩ := mem_map.mp hmem
    obtain ⟨ht₀, hstate₀⟩ := mem_filter.mp ht₀
    exact ⟨t₀, ht₀, hid, by simpa using hstate₀⟩
  sets h t ht := by
    have hsub := (show Static (·.setID) from fun _ => rfl).map_sublist
      (l.observe_fixed_sublist held now tm)
    obtain ⟨t₀, ht₀, hid⟩ := mem_map.mp (hsub.subset (mem_map_of_mem ht))
    rw [← hid]
    exact h t₀ ht₀
  moves _ _ hmv _ := hmv

theorem stays_of_present (hb : Bystander p ks l) (hs : Single p ks) {held : Held}
    (hpresent : Present ks (l.observe held now tm).ledger) {r : Row} (hr : r ∈ l.rows held)
    (hp : p r.t.id = false) : r.Stays (l.cycle held now tm) := by
  have hk := hb.exists_terms (l.row_mem hr) hp
  have hapart : r.t.setID = "" := hs.apart _ hk
  obtain ⟨u, hu, hid, hstate⟩ := hpresent _ hk
  obtain ⟨r₀, hr₀, hreleasing, -, hend, ⟨ts, hskip⟩, rfl⟩ :=
    l.exists_row_of_releasing held now tm hu hstate
  -- the row the kept transfer comes from is this one: no other fails the test
  have hlength : ((l.rows held).filter (!p ·.t.id)).length ≤ 1 := by
    have := hb.few hs
    rw [← rows_map_t l held, filter_map, length_map] at this
    exact this
  have hid₀ : r₀.t.id = r.t.id := hid
  obtain rfl : r₀ = r := eq_of_length_le_one hlength (mem_filter.mpr ⟨hr₀, by simp [hid₀, hp]⟩)
    (mem_filter.mpr ⟨hr, by simp [hp]⟩)
  exact ⟨hapart, hreleasing, (skips_after_of_apart hapart ts).symm.trans hskip,
    (releasingEnd_after_of_apart hapart _).mp hend⟩

end ShareLedger

end LlmScaler.Ledger
