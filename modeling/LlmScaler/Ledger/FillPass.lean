import LlmScaler.Ledger.ObserveSpec

/-!
# What an Observe does with the fills of one receiver

The filter judges the fills of a receiver in list order, against the base of the first and the GPUs
of all up to the one judged. None is lost: the GPUs of the fills before the cycle and of those that
entered Filling in it are those of the fills kept and of the fills ended.
-/

namespace LlmScaler.Ledger

open LlmScaler.Core List GoMap

/-- The receiver's transfers that are filling, in order. -/
def fillsTo (r : String) (ts : List ShareTransfer) : List ShareTransfer :=
  ts.filter fun t => t.state = .filling ∧ t.receiver = r

/-- The GPUs the transfers' receivers take together. -/
def takes (ts : List ShareTransfer) : Nat := (ts.map (·.gpus)).sum

theorem mem_fillsTo {r : String} {ts : List ShareTransfer} {t : ShareTransfer} :
    t ∈ fillsTo r ts ↔ t ∈ ts ∧ t.state = .filling ∧ t.receiver = r := by
  simp [fillsTo]

@[simp] theorem fillsTo_append (r : String) (ts us : List ShareTransfer) :
    fillsTo r (ts ++ us) = fillsTo r ts ++ fillsTo r us :=
  filter_append ..

@[simp] theorem fillsTo_nil (r : String) : fillsTo r [] = [] := rfl

@[simp] theorem takes_append (ts us : List ShareTransfer) :
    takes (ts ++ us) = takes ts + takes us := by
  simp [takes]

@[simp] theorem takes_nil : takes [] = 0 := rfl

theorem takes_cons (t : ShareTransfer) (ts : List ShareTransfer) :
    takes (t :: ts) = t.gpus + takes ts := rfl

theorem takes_sublist {ts us : List ShareTransfer} (h : ts.Sublist us) : takes ts ≤ takes us :=
  (h.map _).sum_le_sum (by simp)

section Fills
variable {r : String}

theorem fillsTo_cons_releasing {t : ShareTransfer} (ts : List ShareTransfer)
    (h : t.state = .releasing) : fillsTo r (t :: ts) = fillsTo r ts :=
  filter_cons_of_neg (by simp [h])

theorem fillsTo_cons_filling {t : ShareTransfer} (ts : List ShareTransfer)
    (h : t.state = .filling) :
    fillsTo r (t :: ts) = if t.receiver = r then t :: fillsTo r ts else fillsTo r ts := by
  simp [fillsTo, filter_cons, h]

theorem takes_rowsAfter (c : Cycle) (r : String) (rel : List ShareTransfer) {rs : List Row}
    (hok : ∀ row ∈ rs, row.ok = true → row.t.state = .releasing) :
    takes (fillsTo r ((rowsAfter c rel rs).map (·.t))) =
      takes (fillsTo r (rs.map (·.t))) +
        takes ((releasedFrom c rel rs).filter (·.receiver = r)) := by
  induction rs generalizing rel with
  | nil => simp [rowsAfter, releasedFrom]
  | cons row rs ih =>
    have hrs : ∀ row ∈ rs, row.ok = true → row.t.state = .releasing :=
      fun row' hrow' => hok row' (mem_cons_of_mem _ hrow')
    cases hskip : c.skips (row.after rel c.now) with
    | true =>
      have hih := ih rel hrs
      simp only [rowsAfter, hskip, if_true, map_cons, releasedFrom_skip hskip]
      cases hstate : row.t.state with
      | releasing =>
        rw [fillsTo_cons_releasing _ (by simpa using hstate), fillsTo_cons_releasing _ hstate]
        exact hih
      | filling =>
        rw [Row.after_of_filling hstate, fillsTo_cons_filling _ hstate,
          fillsTo_cons_filling _ hstate]
        split
        · rw [takes_cons, takes_cons, hih]
          omega
        · exact hih
    | false =>
      have hih := ih (rel ++ [enterFilling c (row.t.after rel c.now)]) hrs
      have hentry : row.releasable = some true := by
        simpa using Cycle.releasable_of_skips_eq_false hskip
      have hstate : row.t.state = .releasing :=
        hok row mem_cons_self (by simp [Row.ok, hentry])
      simp only [rowsAfter, hskip, Bool.false_eq_true, if_false, map_cons, Row.after_t]
      rw [releasedFrom_release hskip, fillsTo_cons_releasing _ hstate,
        fillsTo_cons_filling _ rfl, filter_cons]
      simp only [decide_eq_true_eq]
      split
      · rw [takes_cons, takes_cons, hih]
        omega
      · exact hih

theorem takes_filter (c : Cycle) (r : String) (rows : List Row) (s : Filter) :
    takes (fillsTo r (rows.foldl (filterStep c) s).keep) +
        takes (fillsTo r ((rows.foldl (filterStep c) s).ended.map (·.transfer))) =
      takes (fillsTo r s.keep) + takes (fillsTo r (s.ended.map (·.transfer))) +
        takes (fillsTo r (rows.map (·.t))) := by
  induction rows generalizing s with
  | nil => simp
  | cons row rows ih =>
    rw [foldl_cons, ih]
    cases hstate : row.t.state with
    | releasing =>
      have hspec := filterReleasing_spec c s row
      rw [filterStep_releasing s hstate, hspec.1, hspec.2.1, map_cons,
        fillsTo_cons_releasing _ hstate]
      have hkeep : takes (fillsTo r (if c.releasingEnd row = none then [row.t] else [])) = 0 := by
        split <;> simp [fillsTo, hstate]
      have hend : takes (fillsTo r ((c.releasingEnd row).toList.map (·.transfer))) = 0 := by
        cases he : c.releasingEnd row with
        | none => rfl
        | some e => simp [fillsTo, Cycle.releasingEnd_transfer he, hstate]
      simp only [fillsTo_append, takes_append, map_append, hkeep, hend]
      omega
    | filling =>
      rw [filterStep_filling s hstate, map_cons, ← singleton_append, fillsTo_append,
        takes_append]
      obtain ⟨-, ⟨u, hu, hk, he, -⟩ | ⟨hk, he, -⟩ | ⟨hk, he, -⟩⟩ := filterFilling_spec c s row.t
      · have hsame : takes (fillsTo r [u]) = takes (fillsTo r [row.t]) := by
          rcases hu with rfl | ⟨-, rfl⟩
          · rfl
          · rw [fillsTo_cons_filling (t := c.reseen row.t) _ hstate,
              fillsTo_cons_filling _ hstate]
            by_cases hr : row.t.receiver = r <;> simp [Cycle.reseen, hr, takes]
        rw [hk, he, fillsTo_append, takes_append, hsame]
        omega
      · simp only [hk, he, map_append, map_cons, map_nil, fillsTo_append,
          takes_append]
        omega
      · simp only [hk, he, map_append, map_cons, map_nil, fillsTo_append,
          takes_append]
        omega

theorem exists_row_of_kept_filling {c : Cycle} {rows : List Row} {s : Filter} {u : ShareTransfer}
    (hu : u ∈ (rows.foldl (filterStep c) s).keep) (hstate : u.state = .filling) :
    u ∈ s.keep ∨ ∃ row ∈ rows, row.t.state = .filling ∧
      (u = row.t ∨ row.t.receiverBaseUnset = true ∧ u = c.reseen row.t) := by
  revert hu
  refine foldlRecOn (motive := fun s' : Filter => u ∈ s'.keep → u ∈ s.keep ∨ ∃ row ∈ rows,
    row.t.state = .filling ∧ (u = row.t ∨ row.t.receiverBaseUnset = true ∧ u = c.reseen row.t))
    _ _ .inl fun s' hs' row hmem hu => ?_
  cases hrow : row.t.state with
  | releasing =>
    rw [filterStep_releasing s' hrow, (filterReleasing_spec c s' row).1, mem_append] at hu
    rcases hu with hu | hu
    · exact hs' hu
    · split at hu
      · obtain rfl := mem_singleton.mp hu
        rw [hrow] at hstate
        cases hstate
      · cases hu
  | filling =>
    rw [filterStep_filling s' hrow] at hu
    obtain ⟨-, ⟨w, hw, hk, -, -⟩ | ⟨hk, -, -⟩ | ⟨hk, -, -⟩⟩ := filterFilling_spec c s' row.t
    · rw [hk, mem_append, mem_singleton] at hu
      rcases hu with hu | rfl
      · exact hs' hu
      · exact .inr ⟨row, hmem, hrow, hw⟩
    · exact hs' (hk ▸ hu)
    · exact hs' (hk ▸ hu)

theorem filled_sublist (c : Cycle) (rows : List Row) (s : Filter)
    (hs : s.filled.Sublist (s.ended.map (·.transfer)) ∧ ∀ t ∈ s.filled, t.state = .filling) :
    (rows.foldl (filterStep c) s).filled.Sublist
        ((rows.foldl (filterStep c) s).ended.map (·.transfer)) ∧
      ∀ t ∈ (rows.foldl (filterStep c) s).filled, t.state = .filling := by
  induction rows generalizing s with
  | nil => exact hs
  | cons row rows ih =>
    refine ih _ ?_
    cases hrow : row.t.state with
    | releasing =>
      have hspec := filterReleasing_spec c s row
      rw [filterStep_releasing s hrow, hspec.2.1, hspec.2.2.2.1, map_append]
      exact ⟨hs.1.trans (sublist_append_left ..), hs.2⟩
    | filling =>
      rw [filterStep_filling s hrow]
      obtain ⟨-, ⟨u, -, -, he, hf⟩ | ⟨-, he, hf⟩ | ⟨-, he, hf⟩⟩ := filterFilling_spec c s row.t
      · rw [he, hf]
        exact hs
      · rw [he, hf, map_append]
        refine ⟨hs.1.append (Sublist.refl _), ?_⟩
        intro t ht
        rcases mem_append.mp ht with ht | ht
        · exact hs.2 t ht
        · obtain rfl := mem_singleton.mp ht
          exact hrow
      · rw [he, hf, map_append]
        exact ⟨hs.1.trans (sublist_append_left ..), hs.2⟩

end Fills

section Timeout
variable {c : Cycle} {s : Filter} {t : ShareTransfer} {r : String}

/-- The running sums after a filling transfer: as before, or with the transfer counted. -/
private theorem filterFilling_sums (c : Cycle) (s : Filter) (t : ShareTransfer) :
    ((filterFilling c s t).rbase = s.rbase ∧ (filterFilling c s t).got = s.got) ∨
      ((filterFilling c s t).rbase = (s.tally t).rbase ∧
        (filterFilling c s t).got = (s.tally t).got) := by
  unfold filterFilling
  split
  · split
    · exact .inl ⟨rfl, rfl⟩
    · refine .inr ?_
      dsimp only
      split
      · exact ⟨rfl, rfl⟩
      split <;> exact ⟨rfl, rfl⟩
  · split <;> exact .inl ⟨rfl, rfl⟩

private theorem filterFilling_landed (hseen : c.rheld.has t.receiver = true)
    (hset : t.receiverBaseUnset = false) (hland : (s.tally t).landed c.rheld t.receiver = true) :
    filterFilling c s t = { (s.tally t).ends t .done false with filled := s.filled ++ [t] } := by
  rw [filterFilling, if_pos (.inl hseen), if_neg (by simp [hset])]
  dsimp only
  rw [if_pos hland]
  rfl

private theorem tally_other (h : t.receiver ≠ r) :
    (s.tally t).rbase.has r = s.rbase.has r ∧ (s.tally t).rbase.get r = s.rbase.get r ∧
      (s.tally t).got.get r = s.got.get r := by
  simp only [Filter.tally, get_modify, if_neg (Ne.symm h), and_true]
  split
  · exact ⟨rfl, rfl⟩
  · simp [has_set, get_set_of_ne _ _ (Ne.symm h), Ne.symm h]

private theorem tally_own (h : t.receiver = r) {b : Int}
    (hbase : s.rbase.has r = true → s.rbase.get r ≤ b) (ht : t.receiverBase ≤ b) :
    (s.tally t).rbase.get r ≤ b ∧ (s.tally t).got.get r = s.got.get r + t.gpus := by
  subst h
  refine ⟨?_, by simp [Filter.tally, get_modify]⟩
  simp only [Filter.tally]
  split
  · next hb => exact hbase hb
  · simpa using ht

private theorem releasingEnd_outcome {row : Row} {e : ShareTransferEnd}
    (h : c.releasingEnd row = some e) : e.outcome ≠ .fillTimeout := by
  unfold Cycle.releasingEnd at h
  split at h
  · cases h; simp
  split at h
  · cases h; simp
  split at h
  · cases h; simp
  split at h
  · cases h; simp
  · cases h

/-- While the receiver's count covers every base by the GPUs of all its fills, no fill of
the receiver is timed out. -/
theorem no_fillTimeout (hseen : c.rheld.has r = true) {b : Int} (rows : List Row) (s : Filter)
    (hbase : s.rbase.has r = true → s.rbase.get r ≤ b)
    (hrows : ∀ t ∈ fillsTo r (rows.map (·.t)), t.receiverBaseUnset = false ∧ t.receiverBase ≤ b)
    (hcover : b + (s.got.get r + takes (fillsTo r (rows.map (·.t)))) ≤ c.rheld.get r)
    (hs : ∀ e ∈ s.ended, e.outcome = .fillTimeout → e.transfer.receiver ≠ r) :
    ∀ e ∈ (rows.foldl (filterStep c) s).ended, e.outcome = .fillTimeout →
      e.transfer.receiver ≠ r := by
  induction rows generalizing s with
  | nil => exact hs
  | cons row rows ih =>
    rw [foldl_cons]
    cases hstate : row.t.state with
    | releasing =>
      rw [map_cons, fillsTo_cons_releasing _ hstate] at hrows hcover
      obtain ⟨-, hended, -, -, hgot, hrbase⟩ := filterReleasing_spec c s row
      rw [filterStep_releasing s hstate]
      refine ih _ (hrbase ▸ hbase) hrows (hgot ▸ hcover) ?_
      rw [hended]
      intro e he hout
      rcases mem_append.mp he with he | he
      · exact hs e he hout
      · exact absurd hout (releasingEnd_outcome (Option.mem_toList.mp he))
    | filling =>
      rw [filterStep_filling s hstate]
      rw [map_cons, fillsTo_cons_filling _ hstate] at hrows hcover
      by_cases hr : row.t.receiver = r
      · -- one of the receiver's fills: the sums up to it are within those of all fills
        rw [if_pos hr] at hrows hcover
        rw [takes_cons] at hcover
        obtain ⟨hset, hle⟩ := hrows row.t mem_cons_self
        obtain ⟨hrbase, hgot⟩ := tally_own hr hbase hle
        have hland : (s.tally row.t).landed c.rheld row.t.receiver = true := by
          rw [Filter.landed, hr, decide_eq_true_eq]
          omega
        rw [filterFilling_landed (hr ▸ hseen) hset hland]
        refine ih _ (fun _ => hrbase) (fun t ht => hrows t (mem_cons_of_mem _ ht)) ?_ ?_
        · change b + ((s.tally row.t).got.get r + _) ≤ _
          rw [hgot]
          push_cast at hcover
          omega
        · intro e he hout
          rcases mem_append.mp he with he | he
          · exact hs e he hout
          · obtain rfl := mem_singleton.mp he
            cases hout
      · rw [if_neg hr] at hrows hcover
        obtain ⟨hhas, hget, hgot⟩ := tally_other (s := s) hr
        have hkept : ∀ e ∈ (filterFilling c s row.t).ended, e.outcome = .fillTimeout →
            e.transfer.receiver ≠ r := by
          intro e he hout
          obtain ⟨-, ⟨u, -, -, hend, -⟩ | ⟨-, hend, -⟩ | ⟨-, hend, -⟩⟩ :=
            filterFilling_spec c s row.t
          · exact hs e (hend ▸ he) hout
          · rw [hend, mem_append, mem_singleton] at he
            rcases he with he | rfl
            · exact hs e he hout
            · exact hr
          · rw [hend, mem_append, mem_singleton] at he
            rcases he with he | rfl
            · exact hs e he hout
            · exact hr
        rcases filterFilling_sums c s row.t with ⟨h1, h2⟩ | ⟨h1, h2⟩
        · exact ih _ (h1 ▸ hbase) hrows (h2 ▸ hcover) hkept
        · refine ih _ ?_ hrows ?_ hkept
          · rw [h1, hhas, hget]
            exact hbase
          · rw [h2, hgot]
            exact hcover

end Timeout

end LlmScaler.Ledger
