import LlmScaler.Ledger.ObserveSpec

/-!
# The releases a donor's count shows

The scan reads all releases of one donor against the base of the first one: a transfer is shown
released when the donor's count has fallen by its GPUs and those of every transfer of the donor
before it.
-/

namespace LlmScaler.Ledger

open LlmScaler.Core List GoMap

/-- The donor's transfers still releasing, in order. -/
def givers (d : String) (ts : List ShareTransfer) : List ShareTransfer :=
  ts.filter fun t => t.state = .releasing ∧ t.donor = d

/-- The GPUs the transfers' donors give together. -/
def gives (ts : List ShareTransfer) : Nat := (ts.map (·.donorGPUs)).sum

@[simp] theorem givers_append (d : String) (ts us : List ShareTransfer) :
    givers d (ts ++ us) = givers d ts ++ givers d us :=
  filter_append ..

variable {d : String} {t : ShareTransfer}

theorem mem_givers {ts : List ShareTransfer} :
    t ∈ givers d ts ↔ t ∈ ts ∧ t.state = .releasing ∧ t.donor = d := by
  simp [givers]

@[simp] theorem gives_append (ts us : List ShareTransfer) :
    gives (ts ++ us) = gives ts + gives us := by
  simp [gives]

@[simp] theorem gives_cons (t : ShareTransfer) (ts : List ShareTransfer) :
    gives (t :: ts) = t.donorGPUs + gives ts := rfl

@[simp] theorem gives_nil : gives [] = 0 := rfl

/-- The base the scan reads a donor against: the one recorded, or its first transfer's. -/
def baseFor (base : Held) (d : String) (ts : List ShareTransfer) : Int :=
  if base.has d then base.get d else (ts.head?.map (·.donorBase)).getD 0

/-- The count the donor must have fallen to for all of `ts` to be shown released. -/
def threshold (base given : Held) (d : String) (ts : List ShareTransfer) : Int :=
  baseFor base d ts - (given.get d + gives ts)

section Threshold
variable (base given : Held) (t : ShareTransfer) (ts : List ShareTransfer)

private theorem has_tallied :
    (if base.has t.donor then base else base.set t.donor t.donorBase).has t.donor = true := by
  split
  · next hb => exact hb
  · simp [has_set]

private theorem threshold_own :
    threshold (if base.has t.donor then base else base.set t.donor t.donorBase)
      (given.modify t.donor (· + (t.donorGPUs : Int))) t.donor ts =
    threshold base given t.donor (t :: ts) := by
  have hgiven : (given.modify t.donor (· + (t.donorGPUs : Int))).get t.donor =
      given.get t.donor + t.donorGPUs := by
    rw [get_modify, if_pos rfl]
  rw [threshold, threshold, hgiven, gives_cons]
  by_cases hb : base.has t.donor = true
  · simp only [hb, if_true, baseFor]
    omega
  · simp only [hb, if_false, baseFor, has_set, get_set_self, decide_true, Bool.true_or,
      if_true, head?_cons, Option.map_some, Option.getD_some, Bool.false_eq_true]
    omega

private theorem threshold_other (h : t.donor ≠ d) :
    threshold (if base.has t.donor then base else base.set t.donor t.donorBase)
      (given.modify t.donor (· + (t.donorGPUs : Int))) d ts = threshold base given d ts := by
  have hgiven : (given.modify t.donor (· + (t.donorGPUs : Int))).get d = given.get d := by
    rw [get_modify, if_neg (Ne.symm h)]
  have hbase : baseFor (if base.has t.donor then base else base.set t.donor t.donorBase) d ts =
      baseFor base d ts := by
    split
    · rfl
    · simp [baseFor, has_set, get_set_of_ne _ _ (Ne.symm h), Ne.symm h]
  rw [threshold, threshold, hgiven, hbase]

end Threshold

theorem givers_cons_of_pos (ts : List ShareTransfer) (hstate : t.state = .releasing)
    (hdonor : t.donor = d) : givers d (t :: ts) = t :: givers d ts :=
  filter_cons_of_pos (by simp [hstate, hdonor])

theorem givers_cons_of_neg (ts : List ShareTransfer) (h : ¬ (t.state = .releasing ∧ t.donor = d)) :
    givers d (t :: ts) = givers d ts :=
  filter_cons_of_neg (by simpa using h)

/-- The entry of a row: the donor's count against the threshold of all transfers up to it. -/
theorem scan_entry {held : Held} (hd : d ≠ "") (hheld : held.has d = true) {ts : List ShareTransfer}
    {base given : Held} {as bs : List Row} {r : Row} (h : scan held base given ts = as ++ r :: bs)
    (hstate : r.t.state = .releasing) (hdonor : r.t.donor = d) :
    r.releasable = some (decide (held.get d ≤
      threshold base given d (givers d (as.map (·.t) ++ [r.t])))) := by
  induction ts generalizing base given as with
  | nil => simp [scan] at h
  | cons t ts ih =>
    rw [scan] at h
    split at h
    · next hnot =>
      -- the head has no entry, so it is not one of the donor's transfers
      have hother : ¬ (t.state = .releasing ∧ t.donor = d) := by
        rintro ⟨hs, rfl⟩
        rcases hnot with hn | hn | hn
        · exact hn hs
        · exact hd hn
        · rw [hheld] at hn
          cases hn
      cases as with
      | nil =>
        obtain ⟨rfl, -⟩ := List.cons.inj h
        exact absurd ⟨hstate, hdonor⟩ hother
      | cons a as =>
        obtain ⟨rfl, htail⟩ := List.cons.inj h
        rw [map_cons, cons_append, givers_cons_of_neg _ hother]
        exact ih htail
    · next hnot =>
      simp only [not_or, not_not] at hnot
      cases as with
      | nil =>
        obtain ⟨hr, -⟩ := List.cons.inj h
        subst hr
        subst hdonor
        rw [map_nil, nil_append, givers_cons_of_pos _ hstate rfl, givers, filter_nil,
          ← threshold_own]
        rw [threshold, baseFor, if_pos (has_tallied base t), gives_nil, Nat.cast_zero, add_zero]
      | cons a as =>
        obtain ⟨ha, htail⟩ := List.cons.inj h
        rw [ih htail, ← ha, map_cons, cons_append]
        by_cases htd : t.donor = d
        · subst htd
          rw [givers_cons_of_pos _ hnot.1 rfl, ← threshold_own]
        · rw [givers_cons_of_neg _ (fun h => htd h.2), threshold_other _ _ _ _ htd]

theorem exists_last_split {α : Type*} {P : α → Prop} {l : List α} (h : ∃ a ∈ l, P a) :
    ∃ as a bs, l = as ++ a :: bs ∧ P a ∧ ∀ b ∈ bs, ¬ P b := by
  induction l with
  | nil => simp at h
  | cons x xs ih =>
    by_cases hxs : ∃ a ∈ xs, P a
    · obtain ⟨as, a, bs, rfl, ha, hbs⟩ := ih hxs
      exact ⟨x :: as, a, bs, rfl, ha, hbs⟩
    · obtain ⟨a, ha, hP⟩ := h
      rcases mem_cons.mp ha with rfl | ha
      · exact ⟨[], a, xs, rfl, hP, fun b hb hPb => hxs ⟨b, hb, hPb⟩⟩
      · exact absurd ⟨a, ha, hP⟩ hxs

/-- The GPUs of a donor's transfer that meets `q`; nothing for any other transfer. -/
def weight (d : String) (q : ShareTransfer → Bool) (t : ShareTransfer) : Nat :=
  if t.donor = d ∧ q t = true then t.donorGPUs else 0

def shown (entry : Option Bool) : Bool := entry.getD false

theorem sumReleasing_append (sel : Option Bool → Bool) (f : ShareTransfer → Nat)
    (rs us : List Row) :
    sumReleasing sel f (rs ++ us) = sumReleasing sel f rs + sumReleasing sel f us := by
  simp [sumReleasing]

private theorem sum_weight_le (sel : Option Bool → Bool) (d : String) (q : ShareTransfer → Bool)
    (rows : List Row) :
    sumReleasing sel (weight d q) rows ≤ gives ((givers d (rows.map (·.t))).filter q) := by
  induction rows with
  | nil => simp [sumReleasing]
  | cons r rows ih =>
    rw [sumReleasing_cons, map_cons]
    by_cases hg : r.t.state = .releasing ∧ r.t.donor = d
    · rw [givers_cons_of_pos _ hg.1 hg.2]
      have hle : (if r.t.state = .releasing ∧ sel r.releasable = true then weight d q r.t else 0) ≤
          if q r.t = true then r.t.donorGPUs else 0 := by
        simp only [weight, hg.1, hg.2, true_and]
        split <;> simp
      cases hq : q r.t with
      | true =>
        simp only [hq, if_true] at hle
        rw [filter_cons_of_pos hq, gives_cons]
        omega
      | false =>
        simp only [hq, Bool.false_eq_true, if_false] at hle
        rw [filter_cons_of_neg (by simp [hq])]
        omega
    · rw [givers_cons_of_neg _ hg]
      have hzero : (if r.t.state = .releasing ∧ sel r.releasable = true then weight d q r.t
          else 0) = 0 := by
        split
        · next h => exact if_neg fun hw => hg ⟨h.1, hw.1⟩
        · rfl
      omega

theorem gives_filter_add (q : ShareTransfer → Bool) (ts : List ShareTransfer) :
    gives (ts.filter q) + gives (ts.filter (!q ·)) = gives ts := by
  rw [← gives_append]
  exact ((filter_append_perm q ts).map _).sum_eq

namespace ShareLedger

variable (l : ShareLedger) {held : Held} {d : String}

/-- The base the donor's releases are read against: that of its first transfer. -/
def firstBase (d : String) : Int := ((givers d l.transfers).head?.map (·.donorBase)).getD 0

theorem givers_split {as bs : List Row} {r : Row} (h : l.rows held = as ++ r :: bs) :
    givers d l.transfers = givers d (as.map (·.t) ++ [r.t]) ++ givers d (bs.map (·.t)) := by
  rw [← l.rows_map_t held, h, ← givers_append]
  simp

theorem ok_iff_of_split (hd : d ≠ "") (hheld : held.has d = true) {as bs : List Row} {r : Row}
    (h : l.rows held = as ++ r :: bs) (hstate : r.t.state = .releasing) (hdonor : r.t.donor = d) :
    r.ok = true ↔
      held.get d ≤ l.firstBase d - gives (givers d (as.map (·.t) ++ [r.t])) := by
  have hentry := scan_entry hd hheld h hstate hdonor
  have hne : givers d (as.map (·.t) ++ [r.t]) ≠ [] := by
    rw [givers_append, givers_cons_of_pos _ hstate hdonor]
    simp
  have hbase : l.firstBase d = baseFor ∅ d (givers d (as.map (·.t) ++ [r.t])) := by
    rw [firstBase, l.givers_split h, baseFor, has_empty]
    cases hg : givers d (as.map (·.t) ++ [r.t]) with
    | nil => exact absurd hg hne
    | cons g gs => rfl
  rw [Row.ok, hentry, hbase, threshold, get_empty]
  simp

/-- From any point of the list on, the transfers shown released give at most what the
donor's count has fallen below that point. -/
theorem sum_shown_le (hd : d ≠ "") (hheld : held.has d = true) {q : ShareTransfer → Bool}
    (hup : (givers d l.transfers).Pairwise fun a b => q a = true → q b = true)
    (hsome : ∃ r ∈ l.rows held, r.t.state = .releasing ∧ r.t.donor = d ∧ q r.t = true ∧
      r.ok = true) :
    (sumReleasing shown (weight d q) (l.rows held) : Int) ≤
      l.firstBase d - gives ((givers d l.transfers).filter (!q ·)) - held.get d := by
  obtain ⟨as, r, bs, hrows, ⟨hstate, hdonor, hq, hok⟩, hlast⟩ := exists_last_split hsome
  rw [l.ok_iff_of_split hd hheld hrows hstate hdonor] at hok
  have hsplit := l.givers_split (d := d) hrows
  -- nothing after the last shown row counts, and everything after it meets `q`
  have hafter : sumReleasing shown (weight d q) bs = 0 := by
    refine sum_eq_zero (forall_mem_map.mpr fun r' hr' => ?_)
    obtain ⟨hr', hcond⟩ := mem_filter.mp hr'
    simp only [decide_eq_true_eq] at hcond
    exact if_neg fun hw => hlast r' hr' ⟨hcond.1, hw.1, hw.2, hcond.2⟩
  have hrest : (givers d (bs.map (·.t))).filter (!q ·) = [] := by
    rw [hsplit, pairwise_append] at hup
    rw [filter_eq_nil_iff]
    intro b hb
    have hmem : r.t ∈ givers d (as.map (·.t) ++ [r.t]) := mem_givers.mpr ⟨by simp, hstate, hdonor⟩
    simpa using hup.2.2 r.t hmem b hb hq
  have hsum : sumReleasing shown (weight d q) (l.rows held) =
      sumReleasing shown (weight d q) (as ++ [r]) := by
    rw [hrows, ← singleton_append, ← append_assoc, sumReleasing_append, hafter,
      Nat.add_zero]
  have hle := sum_weight_le shown d q (as ++ [r])
  rw [map_append, map_cons, map_nil] at hle
  have hadd := gives_filter_add q (givers d (as.map (·.t) ++ [r.t]))
  rw [hsum, hsplit, filter_append, hrest, append_nil]
  omega

end ShareLedger

end LlmScaler.Ledger
