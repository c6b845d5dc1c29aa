import LlmScaler.Core.Sums
import LlmScaler.Ledger.FilterPass

/-!
# Observe in closed form

The scan keeps the transfers and gives an entry to exactly those whose donor the
reading shows. The passes after it are put together here: which transfers are
released, which still release afterwards and with which bases, and which ends count
a donor as having released.
-/

namespace LlmScaler.Ledger

open LlmScaler.Core List ShareTransfer

/-- The donor's count is read for this transfer: it is releasing and the reading shows it. -/
def shownReleasing (held : Held) (t : ShareTransfer) : Prop :=
  t.state = .releasing ∧ t.donor ≠ "" ∧ held.has t.donor = true

instance (held : Held) (t : ShareTransfer) : Decidable (shownReleasing held t) :=
  inferInstanceAs (Decidable (_ ∧ _))

private theorem not_shownReleasing_iff {held : Held} {t : ShareTransfer} :
    ¬ shownReleasing held t ↔
      t.state ≠ .releasing ∨ t.donor = "" ∨ held.has t.donor = false := by
  rw [shownReleasing]
  cases held.has t.donor <;> simp [imp_iff_not_or]

@[simp] theorem scan_map_t (held base given : Held) (ts : List ShareTransfer) :
    (scan held base given ts).map (·.t) = ts := by
  induction ts generalizing base given with
  | nil => rfl
  | cons t ts ih =>
    rw [scan]
    split <;> simp [ih]

theorem isSome_releasable_of_mem_scan {held base given : Held} {ts : List ShareTransfer} {r : Row}
    (h : r ∈ scan held base given ts) : r.releasable.isSome = true ↔ shownReleasing held r.t := by
  induction ts generalizing base given with
  | nil => simp [scan] at h
  | cons t ts ih =>
    rw [scan] at h
    split at h
    · next hnot =>
      rcases mem_cons.mp h with rfl | h
      · simpa using not_shownReleasing_iff.mpr hnot
      · exact ih h
    · next hnot =>
      rcases mem_cons.mp h with rfl | h
      · simpa using not_not.mp (mt not_shownReleasing_iff.mp hnot)
      · exact ih h

theorem shownReleasing_of_ok {held base given : Held} {ts : List ShareTransfer} {r : Row}
    (h : r ∈ scan held base given ts) (hok : r.ok = true) : shownReleasing held r.t := by
  rw [← isSome_releasable_of_mem_scan h]
  cases he : r.releasable with
  | none => simp [Row.ok, he] at hok
  | some b => rfl

/-- The GPUs of landed fills that count into the base of `u`. -/
def landedFor (u : ShareTransfer) (fs : List ShareTransfer) (now : Int) : Nat :=
  ((fs.filter fun f => u.state = .filling ∧ u.receiver = f.receiver ∧ u.receiver ≠ "" ∧
    u.fillingSince < now).map (·.gpus)).sum

theorem landedFor_cons (u f : ShareTransfer) (fs : List ShareTransfer) (now : Int) :
    landedFor u (f :: fs) now = landedFor u [f] now + landedFor u fs now := by
  simp only [landedFor, filter_cons, filter_nil]
  split <;> simp

theorem rebaseReceiver_eq (f : ShareTransfer) (now : Int) (u : ShareTransfer) :
    rebaseReceiver f now u = { u with receiverBase := u.receiverBase + landedFor u [f] now } := by
  unfold rebaseReceiver landedFor
  by_cases h : u.state = .filling ∧ u.receiver = f.receiver ∧ u.receiver ≠ "" ∧
      u.fillingSince < now
  · simp only [filter_cons, filter_nil, decide_eq_true_eq, if_pos h]
    simp
  · simp only [filter_cons, filter_nil, decide_eq_true_eq, if_neg h]
    simp

/-- A kept transfer with the cycle's wrong-pod ends and landed fills counted in. -/
def ShareTransfer.settle (u : ShareTransfer) (wrong filled : List ShareTransfer) (now : Int) :
    ShareTransfer :=
  { u with
    donorBase := u.donorBase - takenOff u wrong now
    receiverBase := u.receiverBase + landedFor u filled now }

@[simp] theorem ShareTransfer.fixed_settle (u : ShareTransfer) (ws fs : List ShareTransfer)
    (now : Int) : (u.settle ws fs now).fixed = u.fixed := rfl

@[simp] theorem ShareTransfer.state_settle (u : ShareTransfer) (ws fs : List ShareTransfer)
    (now : Int) : (u.settle ws fs now).state = u.state := rfl

private theorem foldl_rebaseDonor (ws : List ShareTransfer) (now : Int) (us : List ShareTransfer) :
    ws.foldl (fun us t => us.map (rebaseDonor t now)) us =
      us.map fun u => { u with donorBase := u.donorBase - takenOff u ws now } := by
  induction ws generalizing us with
  | nil => simp [takenOff]
  | cons w ws ih =>
    rw [foldl_cons, ih, map_map]
    refine map_congr_left fun u _ => ?_
    rw [Function.comp_apply, rebaseDonor_eq, takenOff_cons u w ws]
    change { u with donorBase := u.donorBase - takenOff u [w] now - takenOff u ws now } = _
    congr 1
    push_cast
    omega

private theorem foldl_rebaseReceiver (fs : List ShareTransfer) (now : Int)
    (us : List ShareTransfer) :
    fs.foldl (fun us t => us.map (rebaseReceiver t now)) us =
      us.map fun u => { u with receiverBase := u.receiverBase + landedFor u fs now } := by
  induction fs generalizing us with
  | nil => simp [landedFor]
  | cons f fs ih =>
    rw [foldl_cons, ih, map_map]
    refine map_congr_left fun u _ => ?_
    rw [Function.comp_apply, rebaseReceiver_eq, landedFor_cons u f fs]
    change { u with receiverBase := u.receiverBase + landedFor u [f] now + landedFor u fs now } = _
    congr 1
    push_cast
    omega

theorem settled_eq (f : Filter) (now : Int) :
    ShareLedger.settled f now = f.keep.map (·.settle f.wrong f.filled now) := by
  rw [ShareLedger.settled, foldl_rebaseDonor, foldl_rebaseReceiver, map_map]
  rfl

namespace ShareLedger

variable (l : ShareLedger) (held : Held) (now : Int) (tm : ShareTimings)

/-- The rows the release loop leaves. -/
def passed : List Row := rowsAfter (l.cycle held now tm) [] (l.rows held)

/-- The ends of transfers still releasing that the filter decides. -/
def releasingEnds : List ShareTransferEnd :=
  ((l.passed held now tm).filter (·.t.state = .releasing)).filterMap
    (l.cycle held now tm).releasingEnd

@[simp] theorem rows_map_t : (l.rows held).map (·.t) = l.transfers := scan_map_t ..

theorem row_mem {held : Held} {r : Row} (hr : r ∈ l.rows held) : r.t ∈ l.transfers := by
  rw [← l.rows_map_t held]
  exact mem_map_of_mem hr

theorem observe_released :
    (l.observe held now tm).released = releasedFrom (l.cycle held now tm) [] (l.rows held) :=
  (releaseLoop_eq ..).1

/-- The filter before its first row. -/
abbrev filterStart : Filter where
  aborts := (l.releasePass held now tm).aborts
  giveAfter := (l.releasePass held now tm).giveAfter
  unsteerable := l.unsteerable

theorem filterPass_eq : l.filterPass held now tm =
    (l.passed held now tm).foldl (filterStep (l.cycle held now tm)) (l.filterStart held now tm) := by
  rw [passed, ← (releaseLoop_eq ..).2]
  rfl

theorem filterPass_wrong :
    (l.filterPass held now tm).wrong = wrongPods (l.releasingEnds held now tm) := by
  rw [filterPass_eq, filter_wrong]
  rfl

theorem filterPass_ended_releasing :
    (l.filterPass held now tm).ended.filter (·.transfer.state = .releasing) =
      l.releasingEnds held now tm := by
  rw [filterPass_eq, filter_ended_releasing]
  rfl

theorem observe_releasing :
    (l.observe held now tm).ledger.transfers.filter (·.state = .releasing) =
      ((l.passed held now tm).filter fun r =>
        r.t.state = .releasing ∧ (l.cycle held now tm).releasingEnd r = none ∧
          orphaned (l.filterPass held now tm).ended r.t = false).map fun r =>
        r.t.settle (wrongPods (l.releasingEnds held now tm)) [] now := by
  have hkeep := filter_keep_releasing (l.cycle held now tm) (l.passed held now tm)
    (l.filterStart held now tm)
  rw [← filterPass_eq] at hkeep
  have hsettle : ∀ u ∈ (l.filterPass held now tm).keep.filter (·.state = .releasing),
      u.settle (l.filterPass held now tm).wrong (l.filterPass held now tm).filled now =
        u.settle (wrongPods (l.releasingEnds held now tm)) [] now := by
    intro u hu
    have hstate : u.state = .releasing := by simpa using (mem_filter.mp hu).2
    simp [ShareTransfer.settle, filterPass_wrong, landedFor, hstate]
  -- the state, the set and the identifier are untouched by `settle`, so the tests commute with it
  calc (l.observe held now tm).ledger.transfers.filter (·.state = .releasing)
      = (((l.filterPass held now tm).keep.filter (·.state = .releasing)).filter
          (!orphaned (l.filterPass held now tm).ended ·)).map
          (·.settle (l.filterPass held now tm).wrong (l.filterPass held now tm).filled now) := by
        simp only [observe, settled_eq, filter_map, filter_filter]
        congr 2
        funext u
        exact Bool.and_comm ..
    _ = (((l.filterPass held now tm).keep.filter (·.state = .releasing)).filter
          (!orphaned (l.filterPass held now tm).ended ·)).map
          (·.settle (wrongPods (l.releasingEnds held now tm)) [] now) :=
        map_congr_left fun u hu => hsettle u (mem_filter.mp hu).1
    _ = _ := by
        rw [hkeep, filter_nil, nil_append, filter_map, filter_filter,
          map_map]
        congr 2
        funext r
        simp [Bool.and_comm, Bool.and_assoc]

theorem observe_released_fixed_sublist :
    ((l.observe held now tm).released.map (·.fixed)).Sublist (l.transfers.map (·.fixed)) := by
  have h := releasedFrom_fixed_sublist (l.cycle held now tm) [] (l.rows held)
  rw [← observe_released] at h
  rwa [← rows_map_t l held, map_map]

theorem observe_fixed_sublist :
    ((l.observe held now tm).ledger.transfers.map (·.fixed)).Sublist
      (l.transfers.map (·.fixed)) := by
  have hkeep := filter_keep_fixed (l.cycle held now tm) (l.passed held now tm)
    (l.filterStart held now tm)
  have hrows : (l.passed held now tm).map (·.t.fixed) = l.transfers.map (·.fixed) := by
    have := congrArg (List.map Prod.fst) (rowsAfter_fixed (l.cycle held now tm) [] (l.rows held))
    rw [map_map, map_map] at this
    rw [passed, ← rows_map_t l held, map_map]
    exact this
  rw [map_nil, nil_append, hrows, ← filterPass_eq] at hkeep
  refine Sublist.trans ?_ hkeep
  simp only [observe, settled_eq]
  refine (filter_sublist.map _).trans ?_
  rw [map_map]
  exact Sublist.refl _

theorem observe_releasing_sublist {α : Type*} {k : ShareTransfer → α} (hk : Static k) :
    (((l.observe held now tm).ledger.transfers.filter (·.state = .releasing)).map k).Sublist
      ((l.transfers.filter (·.state = .releasing)).map k) := by
  have hrows : ((l.rows held).filter (·.t.state = .releasing)).map (fun r => k r.t) =
      (l.transfers.filter (·.state = .releasing)).map k := by
    rw [← rows_map_t l held, filter_map, map_map]
    rfl
  rw [← hrows, observe_releasing, map_map]
  refine Sublist.trans ?_
    (rowsAfter_releasing_sublist (l.cycle held now tm) hk [] (l.rows held))
  have hsettle : (k ∘ fun r : Row =>
      r.t.settle (wrongPods (l.releasingEnds held now tm)) [] now) = fun r => k r.t := by
    funext r
    rw [Function.comp_apply, hk, fixed_settle, ← hk]
  rw [hsettle]
  refine Sublist.map _ (monotone_filter_right _ ?_)
  intro r hr
  simp only [decide_eq_true_eq] at hr ⊢
  exact hr.1

theorem exists_row_of_releasing {u : ShareTransfer}
    (hu : u ∈ (l.observe held now tm).ledger.transfers) (hstate : u.state = .releasing) :
    ∃ r ∈ l.rows held, r.t.state = .releasing ∧
      r.after (l.observe held now tm).released now ∈ l.passed held now tm ∧
      (l.cycle held now tm).releasingEnd (r.after (l.observe held now tm).released now) = none ∧
      (∃ ts, (l.cycle held now tm).skips (r.after ts now) = true) ∧
      u = (r.t.after (l.observe held now tm).released now).settle
        (wrongPods (l.releasingEnds held now tm)) [] now := by
  have hmem : u ∈ (l.observe held now tm).ledger.transfers.filter (·.state = .releasing) :=
    mem_filter.mpr ⟨hu, by simpa using hstate⟩
  rw [observe_releasing, mem_map] at hmem
  obtain ⟨r, hr, rfl⟩ := hmem
  obtain ⟨hr, hcond⟩ := mem_filter.mp hr
  simp only [decide_eq_true_eq] at hcond
  obtain ⟨as, r₀, bs, hrows, ⟨hskip, rfl⟩ | ⟨-, rfl⟩⟩ := exists_of_mem_rowsAfter hr
  · rw [nil_append, ← observe_released] at hr hcond ⊢
    refine ⟨r₀, by simp [hrows], ?_, hr, hcond.2.1, ⟨_, hskip⟩, by rw [Row.after_t]; rfl⟩
    rw [Row.after_t] at hcond
    exact hcond.1
  · exact absurd hcond.1 (by simp [enterFilling])

theorem ok_releasing {r : Row} (hr : r ∈ l.rows held) (hok : r.ok = true) :
    r.t.state = .releasing :=
  (shownReleasing_of_ok hr hok).1

theorem id_not_mem_released (hnodup : (l.transfers.map (·.id)).Nodup) {u : ShareTransfer}
    (hu : u ∈ (l.observe held now tm).ledger.transfers) (hstate : u.state = .releasing) :
    u.id ∉ (l.observe held now tm).released.map (·.id) := by
  intro hmem
  obtain ⟨r, hr, hrs, hpassed, -, -, rfl⟩ := l.exists_row_of_releasing held now tm hu hstate
  -- one transfer of this identifier is counted once, either as released or as still releasing
  set f : ShareTransfer → Nat := fun t => if t.id = r.t.id then 1 else 0 with hf
  have hstatic : Static f := fun _ => rfl
  have hsum := sum_releasedFrom_add (l.cycle held now tm) (fun _ => true) hstatic rfl []
    (fun r hr => l.ok_releasing held hr)
  rw [← observe_released] at hsum
  have hrel : 1 ≤ ((l.observe held now tm).released.map f).sum := by
    obtain ⟨t, ht, hid⟩ := mem_map.mp hmem
    refine single_le_sum (by simp) _ (mem_map.mpr ⟨t, ht, ?_⟩)
    exact if_pos hid
  have hpass : 1 ≤ sumReleasing (fun _ => true) f (l.passed held now tm) := by
    refine single_le_sum (by simp) _ (mem_map.mpr ⟨_, mem_filter.mpr
      ⟨hpassed, ?_⟩, ?_⟩)
    · simpa using hrs
    · simp [f]
  have hle : sumReleasing (fun _ => true) f (l.rows held) ≤ 1 := by
    have hsub : sumReleasing (fun _ => true) f (l.rows held) ≤ ((l.rows held).map fun r => f r.t).sum :=
      (filter_sublist.map _).sum_le_sum (by simp)
    have hmap : ((l.rows held).map fun r => f r.t) =
        (l.transfers.map (·.id)).map fun y => if y = r.t.id then 1 else 0 := by
      rw [map_map, ← rows_map_t l held, map_map]
      rfl
    rw [hmap] at hsub
    exact hsub.trans (sum_indicator_le hnodup r.t.id 1)
  change _ + sumReleasing (fun _ => true) f (l.passed held now tm) = _ at hsum
  omega

end ShareLedger

end LlmScaler.Ledger
