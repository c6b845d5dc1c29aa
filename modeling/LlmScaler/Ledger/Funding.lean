import LlmScaler.Ledger.Figures
import LlmScaler.Ledger.Identifiers

/-!
# Funding is kept

How each way the list of transfers changes keeps it funded: transfers are dropped,
changed by a minor operation, appended as whole sets, and moved on by an Observe. A
contributor that leaves without releasing leaves its set's counter above the
contributors in the list, so nothing is claimed of that set any more.
-/

namespace LlmScaler.Ledger

open LlmScaler.Core List

namespace Funded

variable {ts us : List ShareTransfer}

theorem nil : Funded [] where
  nodup := by simp
  receiver := by simp
  single := by simp
  contributor := by simp
  pending := by simp
  covered := by simp

theorem sublist (hf : Funded ts) (h : us.Sublist ts) : Funded us := by
  have hsub (p : String) : (contributorsOf p us).Sublist (contributorsOf p ts) := h.filter _
  refine { nodup := hf.nodup.sublist (h.map _), receiver := fun t ht => hf.receiver t (h.subset ht)
           single := fun t ht => hf.single t (h.subset ht)
           contributor := fun t ht => hf.contributor t (h.subset ht), pending := ?_, covered := ?_ }
  · intro p hp hstate hprimary
    have hle := (hsub p.id).length_le
    have := hf.pending p (h.subset hp) hstate hprimary
    omega
  · intro p hp hstate hprimary hwhole
    -- a contributor dropped would leave the counter above those left
    have hpend := hf.pending p (h.subset hp) hstate hprimary
    have hsame : contributorsOf p.id us = contributorsOf p.id ts := by
      refine (hsub p.id).eq_of_length ?_
      have := (hsub p.id).length_le
      omega
    rw [hsame] at hwhole ⊢
    exact hf.covered p (h.subset hp) hstate hprimary hwhole

/-- What a set's counter and its members are read from. -/
private def membership (t : ShareTransfer) : String × String × ShareTransferState × Nat :=
  (t.id, t.setID, t.state, t.donorGPUs)

private theorem contributorsOf_gives (p : String) (ts : List ShareTransfer) :
    (contributorsOf p ts).map (·.donorGPUs) =
      ((ts.map membership).filter fun m =>
        m.2.2.1 = .releasing ∧ (m.2.1 ≠ "" ∧ m.2.1 ≠ m.1) ∧ m.2.1 = p).map (·.2.2.2) := by
  rw [filter_map, map_map, contributorsOf]
  congr 1
  refine filter_congr fun t _ => decide_eq_decide.mpr ?_
  rw [ShareTransfer.isContributor_iff]
  rfl

/-- A change that keeps each transfer's membership and its counters, and redirects only
transfers outside any set. -/
theorem minorChange (hf : Funded ts) (h : Forall₂ MinorChange ts us) : Funded us := by
  have hkeep {t u : ShareTransfer} (hc : MinorChange t u) : membership u = membership t := by
    cases hc <;> rfl
  have hmap : us.map membership = ts.map membership := by
    induction h with
    | nil => rfl
    | cons hc _ ih => rw [map_cons, map_cons, hkeep hc, ih (hf.sublist (by simp))]
  have hcontrib (p : String) : gives (contributorsOf p us) = gives (contributorsOf p ts) ∧
      (contributorsOf p us).length = (contributorsOf p ts).length := by
    have heq : (contributorsOf p us).map (·.donorGPUs) = (contributorsOf p ts).map (·.donorGPUs) := by
      rw [contributorsOf_gives, contributorsOf_gives, hmap]
    exact ⟨congrArg List.sum heq, by simpa using congrArg List.length heq⟩
  have hback : ∀ u ∈ us, ∃ t ∈ ts, MinorChange t u := fun u hu => exists_of_forall₂ h hu
  -- a redirected transfer is in no set and names no receiver any more
  have hprimary {t u : ShareTransfer} (hc : MinorChange t u) (hp : u.isSetPrimary = true) :
      t.isSetPrimary = true ∧ t.id = u.id ∧ t.state = u.state ∧ t.gpus = u.gpus ∧
        t.donorGPUs = u.donorGPUs ∧ t.setPending = u.setPending ∧ t.setReleased = u.setReleased := by
    cases hc with
    | same => exact ⟨hp, rfl, rfl, rfl, rfl, rfl, rfl⟩
    | planned => exact ⟨hp, rfl, rfl, rfl, rfl, rfl, rfl⟩
    | redirected hred =>
      simp only [ShareTransfer.redirectable, Bool.and_eq_true, beq_iff_eq] at hred
      exact absurd hred.1.2 (ShareTransfer.isSetPrimary_iff.mp hp).1
  refine { nodup := ?_, receiver := ?_, single := ?_, contributor := ?_, pending := ?_
           covered := ?_ }
  · have := congrArg (List.map Prod.fst) hmap
    rw [map_map, map_map] at this
    change us.map (·.id) = ts.map (·.id) at this
    rw [this]
    exact hf.nodup
  · intro u hu hr
    obtain ⟨t, ht, hc⟩ := hback u hu
    cases hc with
    | same => exact hf.receiver u ht hr
    | planned => exact hf.receiver t ht hr
    | redirected => rfl
  · intro u hu hstate hset
    obtain ⟨t, ht, hc⟩ := hback u hu
    cases hc with
    | same => exact hf.single u ht hstate hset
    | planned => exact hf.single t ht hstate hset
    | redirected => exact Nat.zero_le _
  · intro u hu hstate hcon
    obtain ⟨t, ht, hc⟩ := hback u hu
    cases hc with
    | same => exact hf.contributor u ht hstate hcon
    | planned => exact hf.contributor t ht hstate hcon
    | redirected => rfl
  · intro u hu hstate hp
    obtain ⟨t, ht, hc⟩ := hback u hu
    obtain ⟨htp, hid, hst, -, -, hpend, -⟩ := hprimary hc hp
    rw [(hcontrib u.id).2, ← hid, ← hpend]
    exact hf.pending t ht (hst.trans hstate) htp
  · intro u hu hstate hp hwhole
    obtain ⟨t, ht, hc⟩ := hback u hu
    obtain ⟨htp, hid, hst, hgpus, hdonor, hpend, hrel⟩ := hprimary hc hp
    rw [(hcontrib u.id).2, ← hid, ← hpend] at hwhole
    rw [(hcontrib u.id).1, ← hid, ← hgpus, ← hdonor, ← hrel]
    exact hf.covered t ht (hst.trans hstate) htp hwhole

theorem append (hts : Funded ts) (hus : Funded us) (hnodup : ((ts ++ us).map (·.id)).Nodup)
    (hold : ∀ p ∈ ts, p.isSetPrimary = true → contributorsOf p.id us = [])
    (hnew : ∀ p ∈ us, p.isSetPrimary = true → contributorsOf p.id ts = []) : Funded (ts ++ us) := by
  refine { nodup := hnodup, receiver := forall_mem_append.mpr ⟨hts.receiver, hus.receiver⟩
           single := forall_mem_append.mpr ⟨hts.single, hus.single⟩
           contributor := forall_mem_append.mpr ⟨hts.contributor, hus.contributor⟩
           pending := ?_, covered := ?_ }
  · intro p hp hstate hprimary
    rw [contributorsOf_append]
    rcases mem_append.mp hp with hp | hp
    · rw [hold p hp hprimary, append_nil]
      exact hts.pending p hp hstate hprimary
    · rw [hnew p hp hprimary, nil_append]
      exact hus.pending p hp hstate hprimary
  · intro p hp hstate hprimary
    rw [contributorsOf_append]
    rcases mem_append.mp hp with hp | hp
    · rw [hold p hp hprimary, append_nil]
      exact hts.covered p hp hstate hprimary
    · rw [hnew p hp hprimary, nil_append]
      exact hus.covered p hp hstate hprimary

end Funded

section Observe
variable (l : ShareLedger) (held : Held) (now : Int) (tm : ShareTimings) (p : String)

/-- The released contributors of a set. -/
private def gave : List ShareTransfer :=
  (l.observe held now tm).released.filter fun t => t.isContributor = true ∧ t.setID = p

private theorem contributionsTo_eq {u : ShareTransfer} (hu : u.state = .releasing)
    (hp : u.id = p) :
    contributionsTo u (l.observe held now tm).released = gave l held now tm p := by
  refine filter_congr fun t _ => ?_
  rw [Bool.eq_iff_iff]
  simp only [Bool.and_eq_true, beq_iff_eq, hu, hp, and_true, decide_eq_true_eq]
  rw [eq_comm (a := p)]

private theorem sum_ite_filter {α : Type*} (q : α → Prop) [DecidablePred q] (g : α → Nat)
    (as : List α) :
    (as.map fun a => if q a then g a else 0).sum = ((as.filter (q ·)).map g).sum := by
  rw [sum_map_ite]
  simp

private theorem sumReleasing_contributors (g : ShareTransfer → Nat) (rows : List Row) :
    sumReleasing (fun _ => true)
        (fun t => if t.isContributor = true ∧ t.setID = p then g t else 0) rows =
      ((contributorsOf p (rows.map (·.t))).map g).sum := by
  rw [sumReleasing, sum_ite_filter (fun r : Row => r.t.isContributor = true ∧ r.t.setID = p)
    (fun r => g r.t), filter_filter, contributorsOf, filter_map, map_map]
  congr 2
  refine filter_congr fun r _ => ?_
  rw [Bool.eq_iff_iff]
  simp only [Bool.and_eq_true, decide_eq_true_eq, and_true, Function.comp_apply]
  tauto

private theorem contributors_split {g : ShareTransfer → Nat} (hg : Static g) :
    ((contributorsOf p l.transfers).map g).sum = ((gave l held now tm p).map g).sum +
      ((contributorsOf p ((l.passed held now tm).map (·.t))).map g).sum := by
  have hstatic : Static fun t => if t.isContributor = true ∧ t.setID = p then g t else 0 := by
    intro t
    have hset : t.fixed.isContributor = t.isContributor ∧ t.fixed.setID = t.setID := ⟨rfl, rfl⟩
    simp only [hset.1, hset.2, ← hg t]
  have hsum := sum_releasedFrom_add (l.cycle held now tm) (fun _ => true) hstatic rfl []
    (fun r hr => l.ok_releasing held hr)
  rw [← ShareLedger.observe_released, sum_ite_filter, sumReleasing_contributors,
    sumReleasing_contributors, l.rows_map_t] at hsum
  exact hsum.symm

private theorem contributors_left :
    ((contributorsOf p (l.observe held now tm).ledger.transfers).map (·.donorGPUs)).Sublist
      ((contributorsOf p ((l.passed held now tm).map (·.t))).map (·.donorGPUs)) := by
  have hsplit (ts : List ShareTransfer) : contributorsOf p ts =
      (ts.filter (·.state = .releasing)).filter fun t => t.isContributor = true ∧ t.setID = p := by
    rw [filter_filter, contributorsOf]
    refine filter_congr fun t _ => ?_
    rw [Bool.eq_iff_iff]
    simp only [Bool.and_eq_true, decide_eq_true_eq]
    tauto
  rw [hsplit, l.observe_releasing, contributorsOf, filter_map, filter_map, map_map,
    map_map, filter_filter]
  refine Sublist.map _ (monotone_filter_right _ fun r hr => ?_)
  simp only [Function.comp_apply, Bool.and_eq_true, decide_eq_true_eq] at hr ⊢
  exact ⟨hr.2.1, hr.1⟩

private theorem fields_of_fixed {t u : ShareTransfer} (h : t.fixed = u.fixed) :
    t.id = u.id ∧ t.setID = u.setID ∧ t.receiver = u.receiver ∧ t.gpus = u.gpus ∧
      t.donorGPUs = u.donorGPUs := by
  have hfields := congrArg (fun t => (t.id, t.setID, t.receiver, t.gpus, t.donorGPUs)) h
  simp only [Prod.mk.injEq] at hfields
  exact hfields

theorem Funded.observe {l : ShareLedger} (hf : Funded l.transfers) (held : Held) (now : Int)
    (tm : ShareTimings) : Funded (l.observe held now tm).ledger.transfers := by
  have hids : Static fun t : ShareTransfer => t.id := fun _ => rfl
  have hfixed := l.observe_fixed_sublist held now tm
  -- a transfer still releasing is one from before with the released contributors credited
  have hback : ∀ u ∈ (l.observe held now tm).ledger.transfers, u.state = .releasing →
      ∃ t ∈ l.transfers, t.state = .releasing ∧ t.fixed = u.fixed ∧
        u.setPending = t.setPending - (gave l held now tm t.id).length ∧
        u.setReleased = t.setReleased + gives (gave l held now tm t.id) := by
    intro u hu hstate
    obtain ⟨r, hr, hrs, -, -, -, rfl⟩ := l.exists_row_of_releasing held now tm hu hstate
    have hgave := contributionsTo_eq l held now tm r.t.id hrs rfl
    refine ⟨r.t, ?_, hrs, rfl, ?_, ?_⟩
    · exact l.row_mem hr
    · rw [← hgave]
      rfl
    · rw [← hgave]
      rfl
  have hcount (p : String) : (contributorsOf p l.transfers).length =
      (gave l held now tm p).length +
        (contributorsOf p ((l.passed held now tm).map (·.t))).length := by
    have := contributors_split l held now tm p (g := fun _ => 1) fun _ => rfl
    simpa using this
  refine { nodup := hf.nodup.sublist (hids.map_sublist hfixed), receiver := ?_, single := ?_
           contributor := ?_, pending := ?_, covered := ?_ }
  · intro u hu hr
    obtain ⟨t, ht, heq⟩ := mem_map.mp (hfixed.subset (mem_map_of_mem hu))
    obtain ⟨-, -, hreceiver, hgpus, -⟩ := fields_of_fixed heq
    rw [← hgpus]
    exact hf.receiver t ht (hreceiver.trans hr)
  · intro u hu hstate hset
    obtain ⟨t, ht, hts, heq, -, -⟩ := hback u hu hstate
    obtain ⟨-, hset', -, hgpus, hdonor⟩ := fields_of_fixed heq
    rw [← hgpus, ← hdonor]
    exact hf.single t ht hts (hset'.trans hset)
  · intro u hu hstate hcon
    obtain ⟨t, ht, hts, heq, -, -⟩ := hback u hu hstate
    have hcon' : t.fixed.isContributor = true := by rw [heq]; exact hcon
    exact (fields_of_fixed heq).2.2.1.symm.trans (hf.contributor t ht hts hcon')
  · intro u hu hstate hprimary
    obtain ⟨t, ht, hts, heq, hpend, -⟩ := hback u hu hstate
    have hid := (fields_of_fixed heq).1
    have hp' : t.fixed.isSetPrimary = true := by rw [heq]; exact hprimary
    have hle := (contributors_left l held now tm u.id).length_le
    have hold := hf.pending t ht hts hp'
    rw [length_map, length_map] at hle
    rw [hid] at hpend hold
    have := hcount u.id
    omega
  · intro u hu hstate hprimary hwhole
    obtain ⟨t, ht, hts, heq, hpend, hrel⟩ := hback u hu hstate
    obtain ⟨hid, -, -, hgpus, hdonor⟩ := fields_of_fixed heq
    have hp' : t.fixed.isSetPrimary = true := by rw [heq]; exact hprimary
    have hleft := contributors_left l held now tm u.id
    have hle := hleft.length_le
    have hold := hf.pending t ht hts hp'
    have hcovered := hf.covered t ht hts hp'
    rw [length_map, length_map] at hle
    rw [hid] at hpend hold hcovered hrel
    have hlen := hcount u.id
    -- no contributor was lost in this Observe or before it
    have hsame := hleft.eq_of_length (by rw [length_map, length_map]; omega)
    have hgives : gives (contributorsOf u.id (l.observe held now tm).ledger.transfers) =
        gives (contributorsOf u.id ((l.passed held now tm).map (·.t))) := congrArg List.sum hsame
    have hsplit : gives (contributorsOf u.id l.transfers) = gives (gave l held now tm u.id) +
        gives (contributorsOf u.id ((l.passed held now tm).map (·.t))) :=
      contributors_split l held now tm u.id (g := (·.donorGPUs)) fun _ => rfl
    have := hcovered (by omega)
    omega

end Observe

end LlmScaler.Ledger
