import LlmScaler.Ledger.Observe

/-!
# What the release loop computes

The loop rewrites the whole list each time a transfer is released. Its effect has a
closed form: a row that is still releasing has seen every release so far
(`Row.after`), so the transfers released (`releasedFrom`) and the rows left
(`rowsAfter`) are structural recursions over the scanned rows. `releaseLoop_eq` is
the bridge; later proofs never unfold the loop.
-/

namespace LlmScaler.Ledger

open List Row ShareTransfer

/-- The row once the transfers of `ts` have been released, in order. -/
def Row.after (r : Row) (ts : List ShareTransfer) (now : Int) : Row :=
  ts.foldl (fun r t => r.onRelease t now) r

/-- The GPUs that releases of its donor took off the base of `u`. -/
def takenOff (u : ShareTransfer) (ts : List ShareTransfer) (now : Int) : Nat :=
  ((ts.filter fun t => u.state = .releasing ∧ u.donor = t.donor ∧ u.started < now).map
    (·.donorGPUs)).sum

/-- The releases of contributors of the set whose primary is `u`. -/
def contributionsTo (u : ShareTransfer) (ts : List ShareTransfer) : List ShareTransfer :=
  ts.filter fun t => t.isContributor && u.id == t.setID && u.state == .releasing

/-- A transfer once the transfers of `ts` have been released. -/
def ShareTransfer.after (u : ShareTransfer) (ts : List ShareTransfer) (now : Int) :
    ShareTransfer :=
  { u with
    donorBase := u.donorBase - takenOff u ts now
    setReleased := u.setReleased + ((contributionsTo u ts).map (·.donorGPUs)).sum
    setPending := u.setPending - (contributionsTo u ts).length }

@[simp] theorem Row.after_nil (r : Row) (now : Int) : r.after [] now = r := rfl

theorem Row.after_append (r : Row) (ts us : List ShareTransfer) (now : Int) :
    r.after (ts ++ us) now = (r.after ts now).after us now :=
  foldl_append ..

private theorem credit_eq (t u : ShareTransfer) :
    credit t u = { u with
      setReleased := u.setReleased + ((contributionsTo u [t]).map (·.donorGPUs)).sum
      setPending := u.setPending - (contributionsTo u [t]).length } := by
  unfold credit contributionsTo
  by_cases h : (t.isContributor && u.id == t.setID && u.state == .releasing) = true
  · simp only [filter_cons, filter_nil, if_pos h]
    simp
  · simp only [filter_cons, filter_nil, if_neg h]
    simp

theorem takenOff_cons (u t : ShareTransfer) (ts : List ShareTransfer) (now : Int) :
    takenOff u (t :: ts) now = takenOff u [t] now + takenOff u ts now := by
  simp only [takenOff, filter_cons, filter_nil]
  split <;> simp

theorem rebaseDonor_eq (t : ShareTransfer) (now : Int) (u : ShareTransfer) :
    rebaseDonor t now u = { u with donorBase := u.donorBase - takenOff u [t] now } := by
  unfold rebaseDonor takenOff
  by_cases h : u.state = .releasing ∧ u.donor = t.donor ∧ u.started < now
  · simp only [filter_cons, filter_nil, decide_eq_true_eq, if_pos h]
    simp
  · simp only [filter_cons, filter_nil, decide_eq_true_eq, if_neg h]
    simp

private theorem onRelease_t (r : Row) (t : ShareTransfer) (now : Int) :
    (r.onRelease t now).t = r.t.after [t] now := by
  rw [Row.onRelease, rebaseDonor_eq, credit_eq]
  rfl

theorem ShareTransfer.after_cons (u : ShareTransfer) (t : ShareTransfer)
    (ts : List ShareTransfer) (now : Int) :
    (u.after [t] now).after ts now = u.after (t :: ts) now := by
  have htaken : takenOff (u.after [t] now) ts now = takenOff u ts now := rfl
  have hcontrib : contributionsTo (u.after [t] now) ts = contributionsTo u ts := rfl
  have hcontrib' : contributionsTo u (t :: ts) = contributionsTo u [t] ++ contributionsTo u ts := by
    simp only [contributionsTo, filter_cons, filter_nil]
    split <;> simp
  simp only [ShareTransfer.after] at htaken hcontrib ⊢
  rw [htaken, hcontrib, takenOff_cons u t ts, hcontrib']
  simp only [map_append, sum_append, length_append, ShareTransfer.mk.injEq, true_and,
    and_true]
  refine ⟨?_, ?_, ?_⟩ <;> omega

@[simp] theorem Row.after_t (r : Row) (ts : List ShareTransfer) (now : Int) :
    (r.after ts now).t = r.t.after ts now := by
  induction ts generalizing r with
  | nil => simp [ShareTransfer.after, takenOff, contributionsTo]
  | cons t ts ih =>
    change ((r.onRelease t now).after ts now).t = _
    rw [ih, onRelease_t, after_cons]

@[simp] theorem Row.after_releasable (r : Row) (ts : List ShareTransfer) (now : Int) :
    (r.after ts now).releasable = r.releasable := by
  induction ts generalizing r with
  | nil => rfl
  | cons t ts ih => exact ih (r.onRelease t now)

theorem Row.after_ok (r : Row) (ts : List ShareTransfer) (now : Int) :
    (r.after ts now).ok = r.ok := by
  rw [Row.ok, after_releasable, Row.ok]

theorem Row.after_wrongPod (r : Row) (ts : List ShareTransfer) (now : Int) :
    (r.after ts now).wrongPod = r.wrongPod := by
  rw [Row.wrongPod, after_ok, after_t]
  rfl

theorem Row.after_eq (r : Row) (ts : List ShareTransfer) (now : Int) :
    r.after ts now = ⟨r.t.after ts now, r.releasable⟩ := by
  rw [← after_t, ← after_releasable r ts now]

theorem ShareTransfer.after_of_filling {u : ShareTransfer} (h : u.state = .filling)
    (ts : List ShareTransfer) (now : Int) : u.after ts now = u := by
  have htaken : takenOff u ts now = 0 := by simp [takenOff, h]
  have hcontrib : contributionsTo u ts = [] := by
    simp [contributionsTo, filter_eq_nil_iff, h]
  simp [ShareTransfer.after, htaken, hcontrib]

variable {r : Row}

theorem Row.after_of_filling (h : r.t.state = .filling) (ts : List ShareTransfer) (now : Int) :
    r.after ts now = r := by
  rw [Row.after_eq, ShareTransfer.after_of_filling h]

/-- The transfers the loop releases over `rows`, when `rel` were released before them. -/
def releasedFrom (c : Cycle) : (rel : List ShareTransfer) → List Row → List ShareTransfer
  | _, [] => []
  | rel, r :: rs =>
    if c.skips (r.after rel c.now) then releasedFrom c rel rs
    else
      let t := enterFilling c (r.after rel c.now).t
      t :: releasedFrom c (rel ++ [t]) rs

/-- The rows the loop leaves, when `rel` were released before them. -/
def rowsAfter (c : Cycle) : (rel : List ShareTransfer) → List Row → List Row
  | _, [] => []
  | rel, r :: rs =>
    if c.skips (r.after rel c.now) then
      r.after (rel ++ releasedFrom c rel rs) c.now :: rowsAfter c rel rs
    else
      let t := enterFilling c (r.after rel c.now).t
      ⟨t, r.releasable⟩ :: rowsAfter c (rel ++ [t]) rs

private theorem releaseStep_iterate (c : Cycle) (rs : List Row) (s : ReleaseLoop)
    (hrest : s.rest = rs.map (·.after s.released c.now)) :
    let s' := (releaseStep c)^[rs.length] s
    s'.rest = [] ∧ s'.released = s.released ++ releasedFrom c s.released rs ∧
      s'.visited = s.visited.map (·.after (releasedFrom c s.released rs) c.now) ++
        rowsAfter c s.released rs := by
  induction rs generalizing s with
  | nil => simp [hrest, releasedFrom, rowsAfter]
  | cons r rs ih =>
    simp only [length_cons, Function.iterate_succ, Function.comp_apply]
    rw [map_cons] at hrest
    by_cases hskip : c.skips (r.after s.released c.now) = true
    · have hstep : releaseStep c s = { s with
          visited := s.visited ++ [r.after s.released c.now]
          rest := rs.map (·.after s.released c.now) } := by
        simp [releaseStep, hrest, hskip]
      obtain ⟨h1, h2, h3⟩ := ih (releaseStep c s) (by rw [hstep])
      rw [hstep] at h1 h2 h3 ⊢
      refine ⟨h1, by simpa [releasedFrom, hskip] using h2, ?_⟩
      rw [h3]
      simp [releasedFrom, rowsAfter, hskip, after_append]
    · simp only [Bool.not_eq_true] at hskip
      have hrel : (releaseStep c s).released =
          s.released ++ [enterFilling c (r.after s.released c.now).t] := by
        simp only [releaseStep, hrest, hskip]
        rfl
      have hrest' : (releaseStep c s).rest =
          rs.map (·.after (releaseStep c s).released c.now) := by
        rw [hrel]
        simp only [releaseStep, hrest, hskip, after_append, map_map]
        rfl
      obtain ⟨h1, h2, h3⟩ := ih (releaseStep c s) hrest'
      have hvis : (releaseStep c s).visited =
          s.visited.map (·.after [enterFilling c (r.after s.released c.now).t] c.now) ++
            [⟨enterFilling c (r.after s.released c.now).t, r.releasable⟩] := by
        simp only [releaseStep, hrest, hskip, ← after_releasable r s.released c.now]
        rfl
      rw [hrel] at h2 h3
      rw [hvis] at h3
      refine ⟨h1, by simpa [releasedFrom, hskip] using h2, ?_⟩
      -- the released row is filling, so later releases leave it alone
      have hfilling (ts : List ShareTransfer) :
          (Row.mk (enterFilling c (r.after s.released c.now).t) r.releasable).after ts c.now =
            ⟨enterFilling c (r.after s.released c.now).t, r.releasable⟩ :=
        after_of_filling rfl ts c.now
      rw [h3]
      simp only [map_append, map_map, Function.comp_def, ← after_append, hfilling,
        map_cons, map_nil, releasedFrom, rowsAfter, hskip]
      simp

theorem releaseLoop_eq (c : Cycle) (l : ShareLedger) (rows : List Row) :
    (releaseLoop c l rows).released = releasedFrom c [] rows ∧
      (releaseLoop c l rows).rows = rowsAfter c [] rows := by
  obtain ⟨h1, h2, h3⟩ := releaseStep_iterate c rows
    { rest := rows, releases := l.releases, wakeHolds := l.wakeHolds, aborts := l.aborts
      giveAfter := l.giveAfter, busyUntil := l.busyUntil } (by simp)
  refine ⟨by simpa [releaseLoop] using h2, ?_⟩
  rw [ReleaseLoop.rows, releaseLoop, h1, h3]
  simp

section
variable {c : Cycle} {rel : List ShareTransfer} {rs : List Row}

theorem releasedFrom_skip (h : c.skips (r.after rel c.now) = true) :
    releasedFrom c rel (r :: rs) = releasedFrom c rel rs := by
  simp [releasedFrom, h]

theorem releasedFrom_release (h : c.skips (r.after rel c.now) = false) :
    releasedFrom c rel (r :: rs) = enterFilling c (r.t.after rel c.now) ::
      releasedFrom c (rel ++ [enterFilling c (r.t.after rel c.now)]) rs := by
  simp [releasedFrom, h]

theorem releasedFrom_append (c : Cycle) (rel : List ShareTransfer) (as bs : List Row) :
    releasedFrom c rel (as ++ bs) =
      releasedFrom c rel as ++ releasedFrom c (rel ++ releasedFrom c rel as) bs := by
  induction as generalizing rel with
  | nil => simp [releasedFrom]
  | cons r as ih =>
    cases hskip : c.skips (r.after rel c.now) with
    | true => rw [cons_append, releasedFrom_skip hskip, releasedFrom_skip hskip, ih]
    | false =>
      rw [cons_append, releasedFrom_release hskip, releasedFrom_release hskip, ih]
      simp [append_assoc]

theorem exists_of_mem_releasedFrom {t : ShareTransfer} (h : t ∈ releasedFrom c rel rs) :
    ∃ as r bs, rs = as ++ r :: bs ∧
      c.skips (r.after (rel ++ releasedFrom c rel as) c.now) = false ∧
      t = enterFilling c (r.t.after (rel ++ releasedFrom c rel as) c.now) := by
  induction rs generalizing rel with
  | nil => simp [releasedFrom] at h
  | cons r rs ih =>
    cases hskip : c.skips (r.after rel c.now) with
    | true =>
      rw [releasedFrom_skip hskip] at h
      obtain ⟨as, r', bs, rfl, hs, ht⟩ := ih h
      exact ⟨r :: as, r', bs, rfl, by rwa [releasedFrom_skip hskip],
        by rwa [releasedFrom_skip hskip]⟩
    | false =>
      rw [releasedFrom_release hskip, mem_cons] at h
      rcases h with rfl | h
      · exact ⟨[], r, rs, rfl, by simpa [releasedFrom] using hskip, by simp [releasedFrom]⟩
      · obtain ⟨as, r', bs, rfl, hs, ht⟩ := ih h
        rw [append_assoc, singleton_append] at hs ht
        exact ⟨r :: as, r', bs, rfl, by rwa [releasedFrom_release hskip],
          by rwa [releasedFrom_release hskip]⟩

/-- A row the loop leaves was either passed over, and has seen every release, or released. -/
theorem exists_of_mem_rowsAfter (h : r ∈ rowsAfter c rel rs) :
    ∃ as r₀ bs, rs = as ++ r₀ :: bs ∧
      ((c.skips (r₀.after (rel ++ releasedFrom c rel as) c.now) = true ∧
          r = r₀.after (rel ++ releasedFrom c rel rs) c.now) ∨
        (c.skips (r₀.after (rel ++ releasedFrom c rel as) c.now) = false ∧
          r = ⟨enterFilling c (r₀.t.after (rel ++ releasedFrom c rel as) c.now),
            r₀.releasable⟩)) := by
  induction rs generalizing rel with
  | nil => simp [rowsAfter] at h
  | cons r₁ rs ih =>
    cases hskip : c.skips (r₁.after rel c.now) with
    | true =>
      simp only [rowsAfter, hskip, if_true, mem_cons] at h
      rcases h with rfl | h
      · exact ⟨[], r₁, rs, rfl, .inl ⟨by simpa [releasedFrom] using hskip,
          by rw [releasedFrom_skip hskip]⟩⟩
      · obtain ⟨as, r₀, bs, rfl, hr⟩ := ih h
        refine ⟨r₁ :: as, r₀, bs, rfl, ?_⟩
        rwa [releasedFrom_skip hskip, releasedFrom_skip hskip]
    | false =>
      simp only [rowsAfter, hskip, Bool.false_eq_true, if_false, mem_cons] at h
      rcases h with rfl | h
      · exact ⟨[], r₁, rs, rfl, .inr ⟨by simpa [releasedFrom] using hskip,
          by simp [releasedFrom]⟩⟩
      · obtain ⟨as, r₀, bs, rfl, hr⟩ := ih (by simpa using h)
        refine ⟨r₁ :: as, r₀, bs, rfl, ?_⟩
        rw [append_assoc, singleton_append, ← releasedFrom_release hskip] at hr
        rwa [append_assoc, singleton_append, ← releasedFrom_release hskip] at hr

theorem mem_rowsAfter_of_skip (rel : List ShareTransfer) (as bs : List Row)
    (h : c.skips (r.after (rel ++ releasedFrom c rel as) c.now) = true) :
    r.after (rel ++ releasedFrom c rel (as ++ r :: bs)) c.now ∈
      rowsAfter c rel (as ++ r :: bs) := by
  induction as generalizing rel with
  | nil =>
    simp only [releasedFrom, append_nil] at h
    rw [nil_append, releasedFrom_skip h]
    simp [rowsAfter, h]
  | cons a as ih =>
    cases hskip : c.skips (a.after rel c.now) with
    | true =>
      rw [releasedFrom_skip hskip] at h
      simp only [cons_append, releasedFrom_skip hskip, rowsAfter, hskip, if_true]
      exact mem_cons_of_mem _ (ih rel h)
    | false =>
      rw [releasedFrom_release hskip, append_cons] at h
      have hmem := ih _ h
      rw [← append_cons] at hmem
      simp only [cons_append, releasedFrom_release hskip, rowsAfter, hskip,
        Bool.false_eq_true, if_false, after_t]
      exact mem_cons_of_mem _ hmem

theorem mem_releasedFrom (rel : List ShareTransfer) (as bs : List Row)
    (h : c.skips (r.after (rel ++ releasedFrom c rel as) c.now) = false) :
    enterFilling c (r.t.after (rel ++ releasedFrom c rel as) c.now) ∈
      releasedFrom c rel (as ++ r :: bs) := by
  rw [releasedFrom_append]
  simp [releasedFrom, h]

end

/-- The part of a transfer that no Observe changes. -/
def ShareTransfer.fixed (t : ShareTransfer) : ShareTransfer :=
  { t with
    state := .releasing, deadline := 0, donorBase := 0, receiverBase := 0, fillingSince := 0
    receiverBaseUnset := false, setReleased := 0, setPending := 0 }

@[simp] theorem ShareTransfer.fixed_after (t : ShareTransfer) (ts : List ShareTransfer)
    (now : Int) : (t.after ts now).fixed = t.fixed := rfl

@[simp] theorem ShareTransfer.state_after (t : ShareTransfer) (ts : List ShareTransfer)
    (now : Int) : (t.after ts now).state = t.state := rfl

@[simp] theorem ShareTransfer.id_after (t : ShareTransfer) (ts : List ShareTransfer)
    (now : Int) : (t.after ts now).id = t.id := rfl

@[simp] theorem fixed_enterFilling (c : Cycle) (t : ShareTransfer) :
    (enterFilling c t).fixed = t.fixed := rfl

theorem rowsAfter_fixed (c : Cycle) (rel : List ShareTransfer) (rs : List Row) :
    (rowsAfter c rel rs).map (fun r => (r.t.fixed, r.releasable)) =
      rs.map (fun r => (r.t.fixed, r.releasable)) := by
  induction rs generalizing rel with
  | nil => rfl
  | cons r rs ih =>
    cases hskip : c.skips (r.after rel c.now) with
    | true => simp [rowsAfter, hskip, ih]
    | false => simp [rowsAfter, hskip, ih]

theorem releasedFrom_fixed_sublist (c : Cycle) (rel : List ShareTransfer) (rs : List Row) :
    ((releasedFrom c rel rs).map (·.fixed)).Sublist (rs.map (·.t.fixed)) := by
  induction rs generalizing rel with
  | nil => simp [releasedFrom]
  | cons r rs ih =>
    cases hskip : c.skips (r.after rel c.now) with
    | true =>
      rw [releasedFrom_skip hskip, map_cons]
      exact (ih rel).cons _
    | false =>
      rw [releasedFrom_release hskip, map_cons, map_cons]
      exact (ih _).cons_cons _

/-- A figure read off the fixed part of a transfer. -/
def Static {α : Type*} (f : ShareTransfer → α) : Prop := ∀ u, f u = f u.fixed

variable {f : ShareTransfer → α} {α : Type*}

theorem Static.map_sublist (hf : Static f) {ts us : List ShareTransfer}
    (h : (ts.map (·.fixed)).Sublist (us.map (·.fixed))) : (ts.map f).Sublist (us.map f) := by
  have := h.map f
  simpa only [map_map, Function.comp_def, ← hf _] using this

theorem Static.after (hf : Static f) (u : ShareTransfer) (ts : List ShareTransfer) (now : Int) :
    f (u.after ts now) = f u := by
  rw [hf, fixed_after, ← hf]

theorem Static.enterFilling (hf : Static f) (c : Cycle) (u : ShareTransfer) :
    f (enterFilling c u) = f u := by
  rw [hf, fixed_enterFilling, ← hf]

theorem rowsAfter_releasing_sublist (c : Cycle) {k : ShareTransfer → α} (hk : Static k)
    (rel : List ShareTransfer) (rs : List Row) :
    (((rowsAfter c rel rs).filter (·.t.state = .releasing)).map fun r => k r.t).Sublist
      ((rs.filter (·.t.state = .releasing)).map fun r => k r.t) := by
  induction rs generalizing rel with
  | nil => simp [rowsAfter]
  | cons r rs ih =>
    cases hskip : c.skips (r.after rel c.now) with
    | true =>
      simp only [rowsAfter, hskip, if_true, filter_cons, after_t,
        state_after]
      split
      · rw [map_cons, map_cons, after_t, hk.after]
        exact (ih rel).cons_cons _
      · exact ih rel
    | false =>
      simp only [rowsAfter, hskip, Bool.false_eq_true, if_false, filter_cons]
      split
      · next hfilling => simp [Ledger.enterFilling] at hfilling
      · split
        · exact (ih _).cons _
        · exact ih _

/-- The sum of a figure over the rows still releasing whose entry is selected. -/
def sumReleasing (sel : Option Bool → Bool) (f : ShareTransfer → Nat) (rows : List Row) : Nat :=
  ((rows.filter fun r => r.t.state = .releasing ∧ sel r.releasable).map fun r => f r.t).sum

theorem sumReleasing_cons (sel : Option Bool → Bool) (f : ShareTransfer → Nat) (r : Row)
    (rs : List Row) :
    sumReleasing sel f (r :: rs) =
      (if r.t.state = .releasing ∧ sel r.releasable then f r.t else 0) + sumReleasing sel f rs := by
  by_cases h : r.t.state = .releasing ∧ sel r.releasable = true
  · rw [sumReleasing, filter_cons_of_pos (by simpa using h), if_pos h]
    rfl
  · rw [sumReleasing, filter_cons_of_neg (by simpa using h), if_neg h, Nat.zero_add]
    rfl

theorem Cycle.releasable_of_skips_eq_false {c : Cycle} (h : c.skips r = false) :
    r.releasable = some true := by
  simp only [Cycle.skips, Bool.or_eq_false_iff, Bool.not_eq_false', Row.ok] at h
  have hok := h.1.1.1.1
  cases he : r.releasable with
  | none => simp [he] at hok
  | some b => simpa [he] using hok

theorem sum_releasedFrom_add (c : Cycle) (sel : Option Bool → Bool) {f : ShareTransfer → Nat}
    (hf : Static f) (hsel : sel (some true) = true) (rel : List ShareTransfer) {rs : List Row}
    (hok : ∀ r ∈ rs, r.ok = true → r.t.state = .releasing) :
    ((releasedFrom c rel rs).map f).sum + sumReleasing sel f (rowsAfter c rel rs) =
      sumReleasing sel f rs := by
  induction rs generalizing rel with
  | nil => rfl
  | cons r rs ih =>
    have hrs : ∀ r ∈ rs, r.ok = true → r.t.state = .releasing :=
      fun r' hr' => hok r' (mem_cons_of_mem _ hr')
    cases hskip : c.skips (r.after rel c.now) with
    | true =>
      have := ih rel hrs
      have hrows : rowsAfter c rel (r :: rs) =
          r.after (rel ++ releasedFrom c rel rs) c.now :: rowsAfter c rel rs := by
        simp [rowsAfter, hskip]
      have hstate : (r.t.after (rel ++ releasedFrom c rel rs) c.now).state = r.t.state := rfl
      rw [releasedFrom_skip hskip, hrows, sumReleasing_cons, sumReleasing_cons, after_t,
        after_releasable, hf.after, hstate]
      omega
    | false =>
      have := ih (rel ++ [enterFilling c (r.t.after rel c.now)]) hrs
      have hentry : r.releasable = some true := by
        simpa using Cycle.releasable_of_skips_eq_false hskip
      have hstate : r.t.state = .releasing := hok r mem_cons_self (by simp [Row.ok, hentry])
      have hrows : rowsAfter c rel (r :: rs) =
          ⟨enterFilling c (r.t.after rel c.now), r.releasable⟩ ::
            rowsAfter c (rel ++ [enterFilling c (r.t.after rel c.now)]) rs := by
        simp [rowsAfter, hskip]
      rw [releasedFrom_release hskip, hrows, sumReleasing_cons, sumReleasing_cons, map_cons,
        sum_cons, hf.enterFilling, hf.after, if_neg (by rintro ⟨h, -⟩; cases h),
        if_pos ⟨hstate, by rw [hentry, hsel]⟩]
      omega

end LlmScaler.Ledger
