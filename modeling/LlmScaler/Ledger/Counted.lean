import LlmScaler.Ledger.DonorScan

/-!
# The releases an Observe counts

A transfer is counted as released when it enters Filling, when it ends because the
wrong pod left, and when it is aborted after its donor released. All three rest on the
donor's count showing the release, so together they give at most what that count has
fallen. A row shown released that nothing holds back is always counted.
-/

namespace LlmScaler.Ledger

open List Row Cycle

/-- The end counts the transfer's donor as having released. -/
def ShareTransferEnd.counts (e : ShareTransferEnd) : Bool :=
  e.outcome == .wrongPod || (e.outcome == .aborted && e.donorReleased)

/-- The transfers whose end counts their donor as having released. -/
def countedEnds (es : List ShareTransferEnd) : List ShareTransfer :=
  (es.filter (·.counts)).map (·.transfer)

@[simp] theorem countedEnds_append (es es' : List ShareTransferEnd) :
    countedEnds (es ++ es') = countedEnds es ++ countedEnds es' := by
  simp [countedEnds]

variable {t : ShareTransfer}

theorem mem_countedEnds {es : List ShareTransferEnd} :
    t ∈ countedEnds es ↔ ∃ e ∈ es, e.counts = true ∧ e.transfer = t := by
  simp [countedEnds, and_assoc]

/-- Held back although its donor has released: the set waits or is broken, or a planned
pod cannot be read. -/
def Cycle.heldBack (c : Cycle) (r : Row) : Bool :=
  (r.t.isSetPrimary && c.waiting r.t.id) || c.broken r.t || r.t.plannedUnknown

variable {e : ShareTransferEnd}

section Row
variable {c : Cycle} {r : Row} {ts : List ShareTransfer} {now : Int}

theorem Cycle.broken_of_after (h : c.broken (r.t.after ts now) = true) : c.broken r.t = true := by
  have hle : (r.t.after ts now).setPending ≤ r.t.setPending := by
    simp only [ShareTransfer.after]
    omega
  have hprimary : (r.t.after ts now).isSetPrimary = r.t.isSetPrimary := rfl
  simp only [Cycle.broken, hprimary, ShareTransfer.id_after, Bool.and_eq_true,
    decide_eq_true_eq] at h ⊢
  exact ⟨h.1, (of_decide_eq_true h.2).trans_le hle⟩

theorem Cycle.heldBack_or_wrongPod (h : c.skips (r.after ts now) = true) (hok : r.ok = true) :
    c.heldBack r = true ∨ r.wrongPod = true := by
  have hprimary : (r.t.after ts now).isSetPrimary = r.t.isSetPrimary := rfl
  have hunknown : (r.t.after ts now).plannedUnknown = r.t.plannedUnknown := rfl
  simp only [Cycle.skips, after_ok, hok, after_wrongPod, after_t, hprimary, hunknown, ShareTransfer.id_after,
    Bool.not_true, Bool.false_or, Bool.or_eq_true] at h
  simp only [Cycle.heldBack, Bool.or_eq_true]
  rcases h with ((h | h) | h) | h
  · exact .inl (.inl (.inl h))
  · exact .inl (.inl (.inr (broken_of_after h)))
  · exact .inr h
  · exact .inl (.inr h)

theorem Cycle.ok_of_counts (h : c.releasingEnd r = some e) (he : e.counts = true) :
    r.ok = true := by
  unfold Cycle.releasingEnd at h
  split at h
  · cases h
    simp only [ShareTransferEnd.counts] at he
    simp at he
    exact he.1
  split at h
  · next hw =>
    simp only [Row.wrongPod, Bool.and_eq_true] at hw
    exact hw.1.1
  split at h
  · next hp => exact hp.2.2
  split at h
  · cases h
    simp [ShareTransferEnd.counts] at he
  · cases h

theorem Cycle.aborted_counts (h : c.releasingEnd r = some e) (he : e.counts = true)
    (hout : e.outcome ≠ .wrongPod) :
    r.t.isSetPrimary = true ∧ (c.broken r.t = true ∨
      r.t.deadline ≤ c.now ∧ (r.wrongPod = true → r.t.plannedUnknown = true)) := by
  unfold Cycle.releasingEnd at h
  split at h
  · next hb =>
    have hp : r.t.isSetPrimary = true := by
      simp only [Cycle.broken, Bool.and_eq_true] at hb
      exact hb.1
    exact ⟨hp, .inl hb⟩
  split at h
  · cases h
    exact absurd rfl hout
  next hw =>
  split at h
  · next hp =>
    refine ⟨hp.2.1, .inr ⟨hp.1, fun hwrong => ?_⟩⟩
    simpa [hwrong] using hw
  split at h
  · cases h
    simp [ShareTransferEnd.counts] at he
  · cases h

theorem Cycle.releasingEnd_wrongPod (hw : r.wrongPod = true) (hb : c.broken r.t = false)
    (hu : r.t.plannedUnknown = false) : c.releasingEnd r = some ⟨r.t, .wrongPod, false⟩ := by
  simp [Cycle.releasingEnd, hw, hb, hu]

end Row

variable {r : Row}

namespace ShareLedger

variable (l : ShareLedger) (held : Held) (now : Int) (tm : ShareTimings)

theorem observe_countedEnds :
    countedEnds (l.observe held now tm).ended = countedEnds (l.releasingEnds held now tm) := by
  have hgone : countedEnds (((settled (l.filterPass held now tm) now).filter
      (orphaned (l.filterPass held now tm).ended)).map fun t =>
        ({ transfer := t, outcome := .aborted } : ShareTransferEnd)) = [] := by
    rw [countedEnds, map_eq_nil_iff, filter_eq_nil_iff, forall_mem_map]
    simp [ShareTransferEnd.counts]
  have hfill := filter_ended_filling (l.cycle held now tm) (l.passed held now tm)
    (l.filterStart held now tm) (by simp)
  rw [← filterPass_eq] at hfill
  change countedEnds ((l.filterPass held now tm).ended ++ _) = _
  rw [countedEnds_append, hgone, append_nil, ← filterPass_ended_releasing, countedEnds,
    countedEnds, filter_filter]
  congr 1
  refine filter_congr fun e he => ?_
  cases hstate : e.transfer.state with
  | releasing => simp
  | filling =>
    rcases hfill e he hstate with hout | hout <;> simp [ShareTransferEnd.counts, hout]

/-- The releases one Observe counts. -/
def counted : List ShareTransfer :=
  (l.observe held now tm).released ++ countedEnds (l.observe held now tm).ended

theorem exists_row_of_releasingEnd (he : e ∈ l.releasingEnds held now tm) :
    ∃ r ∈ l.rows held, ∃ ts, (l.cycle held now tm).skips (r.after ts now) = true ∧
      (l.cycle held now tm).releasingEnd (r.after (l.observe held now tm).released now) =
        some e := by
  obtain ⟨r, hr, hend⟩ := mem_filterMap.mp he
  obtain ⟨hr, hstate⟩ := mem_filter.mp hr
  obtain ⟨as, r₀, bs, hrows, ⟨hskip, rfl⟩ | ⟨-, rfl⟩⟩ := exists_of_mem_rowsAfter hr
  · rw [nil_append, ← observe_released] at hend
    exact ⟨r₀, by simp [hrows], _, hskip, hend⟩
  · simp [enterFilling] at hstate

theorem exists_row_of_counted (ht : t ∈ l.counted held now tm) :
    ∃ r ∈ l.rows held, r.ok = true ∧ r.t.fixed = t.fixed := by
  rw [counted, observe_countedEnds, observe_released, mem_append] at ht
  rcases ht with ht | ht
  · obtain ⟨as, r, bs, hrows, hskip, rfl⟩ := exists_of_mem_releasedFrom ht
    have hentry := releasable_of_skips_eq_false hskip
    rw [after_releasable] at hentry
    exact ⟨r, by simp [hrows], by simp [Row.ok, hentry], by simp⟩
  · obtain ⟨e, he, hcounts, rfl⟩ := mem_countedEnds.mp ht
    obtain ⟨r, hr, -, -, hend⟩ := l.exists_row_of_releasingEnd held now tm he
    have hok := ok_of_counts hend hcounts
    rw [after_ok] at hok
    rw [releasingEnd_transfer hend]
    exact ⟨r, hr, hok, by simp⟩

theorem counted_of_not_heldBack (hr : r ∈ l.rows held) (hok : r.ok = true)
    (hback : (l.cycle held now tm).heldBack r = false) :
    ∃ t ∈ l.counted held now tm, t.id = r.t.id ∧ t.donor = r.t.donor := by
  obtain ⟨as, bs, hrows⟩ := append_of_mem hr
  rw [counted, observe_countedEnds]
  cases hskip : (l.cycle held now tm).skips
      (r.after ([] ++ releasedFrom (l.cycle held now tm) [] as) (l.cycle held now tm).now) with
  | false =>
    have := mem_releasedFrom [] as bs hskip
    rw [← hrows, ← observe_released] at this
    exact ⟨_, mem_append_left _ this, rfl, rfl⟩
  | true =>
    have hwrong : r.wrongPod = true := by
      rcases heldBack_or_wrongPod hskip hok with h | h
      · rw [hback] at h
        cases h
      · exact h
    have hpassed := mem_rowsAfter_of_skip [] as bs hskip
    rw [← hrows, nil_append, ← observe_released] at hpassed
    simp only [Cycle.heldBack, Bool.or_eq_false_iff] at hback
    have hend : (l.cycle held now tm).releasingEnd
        (r.after (l.observe held now tm).released now) =
          some ⟨r.t.after (l.observe held now tm).released now, .wrongPod, false⟩ := by
      rw [← after_t]
      refine releasingEnd_wrongPod ?_ ?_ ?_
      · rwa [after_wrongPod]
      · rw [after_t, ← Bool.not_eq_true]
        intro hb
        rw [broken_of_after hb] at hback
        exact absurd hback.1.2 (by simp)
      · rw [after_t]
        exact hback.2
    refine ⟨_, mem_append_right _ (mem_countedEnds.mpr ⟨_, mem_filterMap.mpr
      ⟨_, mem_filter.mpr ⟨hpassed, ?_⟩, hend⟩, rfl, rfl⟩), rfl, rfl⟩
    simpa using l.ok_releasing held hr hok

/-- The row of an abort that counts its donor's release: a primary held back until its
deadline or until its set broke. -/
theorem exists_row_of_aborted (he : e ∈ l.releasingEnds held now tm) (hcounts : e.counts = true)
    (hout : e.outcome ≠ .wrongPod) :
    ∃ r ∈ l.rows held, r.ok = true ∧ r.t.isSetPrimary = true ∧
      (l.cycle held now tm).heldBack r = true ∧
      (r.t.deadline ≤ now ∨ (l.cycle held now tm).broken r.t = true) ∧
      (l.cycle held now tm).releasingEnd (r.after (l.observe held now tm).released now) =
        some e := by
  obtain ⟨r, hr, ts, hskip, hend⟩ := l.exists_row_of_releasingEnd held now tm he
  have hok : r.ok = true := after_ok r _ _ ▸ ok_of_counts hend hcounts
  obtain ⟨hprimary, hwhy⟩ := aborted_counts hend hcounts hout
  rw [after_t] at hprimary hwhy
  rcases hwhy with hbroken | ⟨hlate, hunknown⟩
  · have hb := broken_of_after hbroken
    exact ⟨r, hr, hok, hprimary, by simp [Cycle.heldBack, hb], .inr hb, hend⟩
  · refine ⟨r, hr, hok, hprimary, ?_, .inl hlate, hend⟩
    rcases heldBack_or_wrongPod hskip hok with h | h
    · exact h
    · have hu : r.t.plannedUnknown = true := by
        refine hunknown ?_
        rwa [after_wrongPod]
      simp [Cycle.heldBack, hu]

theorem sum_countedEnds_le (f : ShareTransfer → Nat) :
    ((countedEnds (l.releasingEnds held now tm)).map f).sum ≤
      sumReleasing shown f (l.passed held now tm) := by
  rw [releasingEnds]
  induction l.passed held now tm with
  | nil => simp [countedEnds]
  | cons r rows ih =>
    rw [sumReleasing_cons]
    by_cases hr : r.t.state = .releasing
    · rw [filter_cons_of_pos (by simpa using hr)]
      cases hend : (l.cycle held now tm).releasingEnd r with
      | none =>
        rw [filterMap_cons_none hend]
        omega
      | some e =>
        rw [filterMap_cons_some hend, ← singleton_append, countedEnds_append,
          map_append, sum_append]
        cases he : e.counts with
        | true =>
          have hok : shown r.releasable = true := ok_of_counts hend he
          rw [if_pos ⟨hr, hok⟩]
          simp only [countedEnds, filter_cons, he, if_true, filter_nil, map_cons,
            map_nil, sum_singleton, releasingEnd_transfer hend] at ih ⊢
          omega
        | false =>
          simp only [countedEnds, filter_cons, he, Bool.false_eq_true, if_false,
            filter_nil, map_nil, sum_nil] at ih ⊢
          omega
    · rw [filter_cons_of_neg (by simpa using hr)]
      omega

theorem sum_counted_le {f : ShareTransfer → Nat} (hf : Static f) :
    ((l.counted held now tm).map f).sum ≤ sumReleasing shown f (l.rows held) := by
  have hsum := sum_releasedFrom_add (l.cycle held now tm) shown hf rfl []
    (fun r hr => l.ok_releasing held hr)
  have hends := l.sum_countedEnds_le held now tm f
  rw [counted, observe_countedEnds, observe_released, map_append, sum_append]
  change _ + sumReleasing shown f (l.passed held now tm) = _ at hsum
  omega

end ShareLedger

/-- Each base is at least `b`, less what the transfers before it give. -/
def coveredFrom : Int → List ShareTransfer → Prop
  | _, [] => True
  | b, u :: us => b ≤ u.donorBase ∧ coveredFrom (b - u.donorGPUs) us

instance decidableCoveredFrom : (b : Int) → (us : List ShareTransfer) →
    Decidable (coveredFrom b us)
  | _, [] => isTrue trivial
  | b, u :: us =>
    have := decidableCoveredFrom (b - u.donorGPUs) us
    inferInstanceAs (Decidable (_ ∧ _))

theorem coveredFrom_append {b : Int} {us ws : List ShareTransfer} {u : ShareTransfer}
    (h : coveredFrom b (us ++ u :: ws)) : b - gives us ≤ u.donorBase := by
  induction us generalizing b with
  | nil => simpa using h.1
  | cons v us ih =>
    have := ih h.2
    rw [gives_cons]
    omega

namespace ShareLedger

variable (l : ShareLedger) (held : Held) (now : Int) (tm : ShareTimings) (d : String)

/-- The donor's releases that one Observe counts. -/
def countedOf : List ShareTransfer := (l.counted held now tm).filter (·.donor = d)

/-- A primary about to be aborted although its donor released is the donor's only release. -/
def AbortsAlone : Prop :=
  ∀ r ∈ l.rows held, r.t.donor = d → r.ok = true → r.t.isSetPrimary = true →
    (l.cycle held now tm).heldBack r = true →
    (r.t.deadline ≤ now ∨ (l.cycle held now tm).broken r.t = true) →
    ∀ u ∈ givers d l.transfers, u.id = r.t.id

instance : Decidable (l.AbortsAlone held now tm d) :=
  inferInstanceAs (Decidable (∀ _ ∈ _, _))

/-- The row of the donor's first release. -/
def firstRow : Option Row :=
  (l.rows held).find? fun r => r.t.state = .releasing ∧ r.t.donor = d

/-- If the donor's first release is shown but held back, the bases of the later ones do
not already count it. -/
def FirstCovers : Prop :=
  (l.firstRow held d).any (fun r => r.ok && (l.cycle held now tm).heldBack r) = true →
    coveredFrom (l.firstBase d) (givers d l.transfers)

instance : Decidable (l.FirstCovers held now tm d) := inferInstanceAs (Decidable (_ → _))

theorem exists_row_of_countedOf (ht : t ∈ l.countedOf held now tm d) :
    ∃ r ∈ l.rows held, r.ok = true ∧ r.t.id = t.id ∧ r.t ∈ givers d l.transfers ∧
      held.has d = true := by
  obtain ⟨ht, hdonor⟩ := mem_filter.mp ht
  obtain ⟨r, hr, hok, hfixed⟩ := l.exists_row_of_counted held now tm ht
  rw [decide_eq_true_eq] at hdonor
  have hid : r.t.fixed.id = t.fixed.id := congrArg ShareTransfer.id hfixed
  have hd : r.t.donor = d := (congrArg ShareTransfer.donor hfixed).trans hdonor
  obtain ⟨hstate, -, hhas⟩ := shownReleasing_of_ok hr hok
  exact ⟨r, hr, hok, hid, mem_givers.mpr ⟨l.row_mem hr, hstate, hd⟩, hd ▸ hhas⟩

variable {held now tm d}

theorem firstRow_ok (hd : d ≠ "") (hheld : held.has d = true) {g : ShareTransfer}
    {gs : List ShareTransfer} (hgivers : givers d l.transfers = g :: gs) (hr : r ∈ l.rows held)
    (hstate : r.t.state = .releasing) (hdonor : r.t.donor = d) (hok : r.ok = true) :
    ∃ r₁ ∈ l.rows held, l.firstRow held d = some r₁ ∧ r₁.t = g ∧ r₁.ok = true := by
  obtain ⟨r₁, hr₁⟩ : ∃ r₁, l.firstRow held d = some r₁ := by
    rw [← Option.isSome_iff_exists, firstRow, find?_isSome]
    exact ⟨r, hr, by simp [hstate, hdonor]⟩
  obtain ⟨hprop, as₁, bs₁, hrows₁, hbefore⟩ := find?_eq_some_iff_append.mp hr₁
  simp only [decide_eq_true_eq] at hprop
  have hnone : givers d (as₁.map (·.t)) = [] := by
    rw [givers, filter_eq_nil_iff, forall_mem_map]
    intro a ha
    simpa [imp_iff_not_or] using hbefore a ha
  have hg : r₁.t = g := by
    have hsplit : givers d l.transfers = r₁.t :: givers d (bs₁.map (·.t)) := by
      rw [← l.rows_map_t held, hrows₁, map_append, map_cons, givers_append, hnone,
        givers_cons_of_pos _ hprop.1 hprop.2, nil_append]
    rw [hgivers] at hsplit
    exact (List.cons.inj hsplit).1.symm
  refine ⟨r₁, by simp [hrows₁], hr₁, hg, ?_⟩
  obtain ⟨as, bs, hrows⟩ := append_of_mem hr
  rw [l.ok_iff_of_split hd hheld hrows hstate hdonor] at hok
  rw [l.ok_iff_of_split hd hheld hrows₁ hprop.1 hprop.2, givers_append, hnone, nil_append,
    givers_cons_of_pos _ hprop.1 hprop.2]
  -- the first release is among those the other row's threshold counts
  have hle : r₁.t.donorGPUs ≤ gives (givers d (as.map (·.t) ++ [r.t])) := by
    have hsplit := l.givers_split (d := d) hrows
    cases hhead : givers d (as.map (·.t) ++ [r.t]) with
    | nil =>
      rw [givers_append, givers_cons_of_pos _ hstate hdonor] at hhead
      simp at hhead
    | cons g' gs' =>
      rw [hgivers, hhead, cons_append] at hsplit
      obtain rfl := (List.cons.inj hsplit).1
      rw [gives_cons, hg]
      omega
  simp only [givers, filter_nil, gives_cons, gives_nil]
  omega

/-- A release left after the Observe is one from before: its base only fell, and by all
that was counted when it started earlier. -/
theorem base_of_releasing (hnodup : (l.transfers.map (·.id)).Nodup)
    (halone : held.has d = true → l.AbortsAlone held now tm d) {u : ShareTransfer}
    (hu : u ∈ givers d (l.observe held now tm).ledger.transfers) :
    ∃ w ∈ givers d l.transfers, w.id = u.id ∧ u.donorBase ≤ w.donorBase ∧
      (w.started < now → u.donorBase + gives (l.countedOf held now tm d) ≤ w.donorBase) := by
  obtain ⟨hmem, hstate, hdonor⟩ := mem_givers.mp hu
  obtain ⟨r, hr, hrstate, -, hend, -, rfl⟩ := l.exists_row_of_releasing held now tm hmem hstate
  have hrd : r.t.donor = d := hdonor
  have hgiver : r.t ∈ givers d l.transfers := mem_givers.mpr ⟨l.row_mem hr, hrstate, hrd⟩
  refine ⟨r.t, hgiver, rfl, ?_, fun hbefore => ?_⟩
  · simp only [ShareTransfer.settle, ShareTransfer.after]
    omega
  -- an abort that counts the donor's release would have to be of this very transfer
  have hcounts : ∀ e ∈ l.releasingEnds held now tm, e.transfer.donor = d →
      (e.counts = true ↔ e.outcome = .wrongPod) := by
    intro e he hed
    refine ⟨fun hc => ?_, fun hout => by simp [ShareTransferEnd.counts, hout]⟩
    by_contra hout
    obtain ⟨r', hr', hok', hprimary, hback, hwhy, hend'⟩ :=
      l.exists_row_of_aborted held now tm he hc hout
    have hrd' : r'.t.donor = d := by
      have := releasingEnd_transfer hend'
      rw [after_t] at this
      rw [this] at hed
      exact hed
    have hhas : held.has d = true := hrd' ▸ (shownReleasing_of_ok hr' hok').2.2
    have hid := halone hhas r' hr' hrd' hok' hprimary hback hwhy r.t hgiver
    have hrows : ((l.rows held).map fun r => r.t.id).Nodup := by
      rw [← l.rows_map_t held, map_map] at hnodup
      exact hnodup
    rw [inj_on_of_nodup_map hrows hr hr' hid, hend'] at hend
    cases hend
  have htaken (ts : List ShareTransfer) :
      takenOff r.t ts now = gives (ts.filter (·.donor = d)) := by
    simp only [takenOff, hrstate, hbefore, hrd, gives, true_and, and_true, eq_comm]
  have hwrong : takenOff (r.t.after (l.observe held now tm).released now)
      (wrongPods (l.releasingEnds held now tm)) now =
        gives ((countedEnds (l.releasingEnds held now tm)).filter (·.donor = d)) := by
    change takenOff r.t _ now = _
    rw [htaken, wrongPods, countedEnds, filter_map, filter_map, filter_filter,
      filter_filter]
    congr 2
    refine filter_congr fun e he => ?_
    by_cases hed : e.transfer.donor = d
    · simp [hed, ← hcounts e he hed]
    · simp [hed]
  have hgives : gives (l.countedOf held now tm d) =
      gives ((l.observe held now tm).released.filter (·.donor = d)) +
        gives ((countedEnds (l.releasingEnds held now tm)).filter (·.donor = d)) := by
    rw [countedOf, counted, observe_countedEnds, filter_append, gives_append]
  simp only [ShareTransfer.settle]
  rw [hwrong, hgives]
  simp only [ShareTransfer.after, htaken]
  omega

/-- From any point of the donor's releases on before which nothing is counted, what is
counted fits between the bases and the donor's count. -/
theorem gives_countedOf_le (hd : d ≠ "") {p : String → Bool}
    (hup : (givers d l.transfers).Pairwise fun a b => p a.id = true → p b.id = true)
    (hbefore : ∀ g ∈ givers d l.transfers, p g.id = false →
      g.id ∉ (l.countedOf held now tm d).map (·.id))
    (hcovers : l.FirstCovers held now tm d) {b : Int}
    (hb : ∀ u ∈ givers d l.transfers, p u.id = true → u.donorBase ≤ b)
    (hsome : l.countedOf held now tm d ≠ []) :
    (gives (l.countedOf held now tm d) : Int) + held.get d ≤ b := by
  -- every counted release lies at or past the point
  have hpast : ∀ t ∈ l.countedOf held now tm d, p t.id = true := by
    intro t ht
    obtain ⟨r, -, -, hid, hgiver, -⟩ := l.exists_row_of_countedOf held now tm d ht
    cases hp : p t.id with
    | true => rfl
    | false => exact absurd (hid ▸ mem_map_of_mem ht) (hbefore r.t hgiver (hid ▸ hp))
  obtain ⟨t, ht⟩ := exists_mem_of_ne_nil _ hsome
  obtain ⟨r, hr, hok, hid, hgiver, hheld⟩ := l.exists_row_of_countedOf held now tm d ht
  have hpr : p r.t.id = true := hid ▸ hpast t ht
  obtain ⟨-, hstate, hdonor⟩ := mem_givers.mp hgiver
  have hshown := l.sum_shown_le hd hheld hup ⟨r, hr, hstate, hdonor, hpr, hok⟩
  have hstatic : Static (weight d fun t => p t.id) := fun _ => rfl
  have hsum := l.sum_counted_le held now tm hstatic
  have hgives : gives (l.countedOf held now tm d) ≤
      ((l.counted held now tm).map (weight d fun t => p t.id)).sum := by
    rw [gives, map_congr_left (g := weight d fun t => p t.id)]
    · exact (filter_sublist.map _).sum_le_sum (by simp)
    · intro u hu
      have hdonor : u.donor = d := by simpa using (mem_filter.mp hu).2
      rw [weight, if_pos ⟨hdonor, hpast u hu⟩]
  -- the first release past the point, and those before it
  obtain ⟨u, us, ws, hsplit, hpu, hus⟩ : ∃ u us ws, givers d l.transfers = us ++ u :: ws ∧
      p u.id = true ∧ ∀ w ∈ us, p w.id = false := by
    obtain ⟨u, hu⟩ : ∃ u, (givers d l.transfers).find? (fun u => p u.id) = some u := by
      rw [← Option.isSome_iff_exists, find?_isSome]
      exact ⟨r.t, hgiver, hpr⟩
    obtain ⟨hpu, us, ws, hsplit, hus⟩ := find?_eq_some_iff_append.mp hu
    exact ⟨u, us, ws, hsplit, hpu, fun w hw => by simpa using hus w hw⟩
  have hbase : l.firstBase d - gives us ≤ u.donorBase := by
    cases us with
    | nil => simp [firstBase, hsplit]
    | cons g us =>
      obtain ⟨r₁, hr₁, hfirst, hg, hok₁⟩ :=
        l.firstRow_ok hd hheld (by rw [hsplit, cons_append]) hr hstate hdonor hok
      rw [FirstCovers, hsplit] at hcovers
      refine coveredFrom_append (hcovers ?_)
      rw [hfirst, Option.any_some, hok₁, Bool.true_and]
      cases hback : (l.cycle held now tm).heldBack r₁ with
      | true => rfl
      | false =>
        have hgmem : g ∈ givers d l.transfers := by simp [hsplit]
        obtain ⟨w, hw, hwid, hwd⟩ := l.counted_of_not_heldBack held now tm hr₁ hok₁ hback
        have hwmem : w ∈ l.countedOf held now tm d := by
          refine mem_filter.mpr ⟨hw, ?_⟩
          rw [hwd, hg, (mem_givers.mp hgmem).2.2]
          exact decide_eq_true rfl
        exact absurd (mem_map.mpr ⟨w, hwmem, hg ▸ hwid⟩)
          (hbefore g hgmem (hus g mem_cons_self))
  have hfilter : gives us ≤ gives ((givers d l.transfers).filter fun t => !p t.id) := by
    rw [hsplit, filter_append, gives_append,
      filter_eq_self.mpr fun w hw => by simp [hus w hw]]
    omega
  have := hb u (by simp [hsplit]) hpu
  omega

end ShareLedger

end LlmScaler.Ledger
