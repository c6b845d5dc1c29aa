import LlmScaler.Core.Lists
import LlmScaler.Ledger.DonorScan
import LlmScaler.Ledger.FillPass

/-!
# The planner's three figures

`committed`, `unreleased` and `promised` are computed by separate scans. Together the
first two differ from what the roles hold by the receivers' GPUs in Filling and by what
the sets are short of, set by set. A set is short only by what its released
contributors gave, unless a contributor left without giving.
-/

namespace LlmScaler.Ledger

open LlmScaler.Core List GoMap ShareTransfer

/-- The GPUs a transfer's receiver is promised; none without a receiver. -/
def ShareTransfer.taken (t : ShareTransfer) : Nat := if t.receiver = "" then 0 else t.gpus

def releasings (ts : List ShareTransfer) : List ShareTransfer := ts.filter (·.state = .releasing)

/-- The contributors of a set that are still releasing, in order. -/
def contributorsOf (p : String) (ts : List ShareTransfer) : List ShareTransfer :=
  ts.filter fun t => t.state = .releasing ∧ t.isContributor = true ∧ t.setID = p

@[simp] theorem contributorsOf_append (p : String) (ts us : List ShareTransfer) :
    contributorsOf p (ts ++ us) = contributorsOf p ts ++ contributorsOf p us :=
  filter_append ..

/-- No set still releasing has lost a contributor that did not release. -/
def Whole (ts : List ShareTransfer) : Prop :=
  ∀ p ∈ ts, p.state = .releasing → p.isSetPrimary = true →
    p.setPending ≤ (contributorsOf p.id ts).length

instance (ts : List ShareTransfer) : Decidable (Whole ts) :=
  inferInstanceAs (Decidable (∀ _ ∈ _, _))

/-- What transfers and sets give covers what their receivers take. -/
structure Funded (ts : List ShareTransfer) : Prop where
  nodup : (ts.map (·.id)).Nodup
  receiver : ∀ t ∈ ts, t.receiver = "" → t.gpus = 0
  single : ∀ t ∈ ts, t.state = .releasing → t.setID = "" → t.gpus ≤ t.donorGPUs
  contributor : ∀ t ∈ ts, t.state = .releasing → t.isContributor = true → t.receiver = ""
  pending : ∀ p ∈ ts, p.state = .releasing → p.isSetPrimary = true →
    ((contributorsOf p.id ts).length : Int) ≤ p.setPending
  covered : ∀ p ∈ ts, p.state = .releasing → p.isSetPrimary = true →
    p.setPending ≤ (contributorsOf p.id ts).length →
    p.gpus ≤ p.donorGPUs + gives (contributorsOf p.id ts) + p.setReleased

namespace Funded

variable {ts : List ShareTransfer}

private theorem id_of_receiver (hf : Funded ts) {t : ShareTransfer}
    (ht : t ∈ releasings ts) (hr : t.receiver ≠ "") : t.setKey = t.id := by
  obtain ⟨ht, hstate⟩ := mem_filter.mp ht
  rw [setKey_eq_id_iff, ← Bool.not_eq_true]
  exact fun hcon => hr (hf.contributor t ht (of_decide_eq_true hstate) hcon)

private theorem taken_le (hf : Funded ts) (hw : Whole ts) {t : ShareTransfer}
    (ht : t ∈ releasings ts) (hr : t.receiver ≠ "") :
    t.taken ≤ gives ((releasings ts).filter (·.setKey = t.id)) + t.setReleased := by
  have hkey := hf.id_of_receiver ht hr
  have hmem := (mem_filter.mp ht).1
  have hstate : t.state = .releasing := of_decide_eq_true (mem_filter.mp ht).2
  have htake : t.taken = t.gpus := if_neg hr
  have hown : t ∈ (releasings ts).filter (·.setKey = t.id) :=
    mem_filter.mpr ⟨ht, by simpa using hkey⟩
  by_cases hset : t.setID = ""
  · have hle : t.donorGPUs ≤ gives ((releasings ts).filter (·.setKey = t.id)) :=
      single_le_sum (by simp) _ (mem_map_of_mem hown)
    have := hf.single t hmem hstate hset
    omega
  · have hnot := setKey_eq_id_iff.mp hkey
    have hprimary : t.isSetPrimary = true := by
      rw [← Bool.not_eq_true, isContributor_iff] at hnot
      exact isSetPrimary_iff.mpr ⟨hset, by tauto⟩
    have hcover := hf.covered t hmem hstate hprimary (hw t hmem hstate hprimary)
    -- the set's members are its contributors and, among the others, the primary
    have hsplit := gives_filter_add (·.isContributor)
      ((releasings ts).filter (·.setKey = t.id))
    have hcontrib : ((releasings ts).filter (·.setKey = t.id)).filter (·.isContributor) =
        contributorsOf t.id ts := by
      rw [releasings, filter_filter, filter_filter, contributorsOf]
      refine filter_congr fun u _ => ?_
      by_cases hu : u.isContributor = true
      · have hukey : u.setKey = u.setID := by
          rw [ShareTransfer.setKey, if_pos]
          simpa using (isContributor_iff.mp hu).1
        simp [hu, hukey, and_comm]
      · simp [hu]
    have hle : t.donorGPUs ≤ gives (((releasings ts).filter
        (·.setKey = t.id)).filter (!·.isContributor)) :=
      single_le_sum (by simp) _
        (mem_map_of_mem (mem_filter.mpr ⟨hown, by simp [hnot]⟩))
    rw [hcontrib] at hsplit
    omega

private theorem taken_group_le (hf : Funded ts) (hw : Whole ts) (k : String) :
    (((releasings ts).filter (·.setKey = k)).map (·.taken)).sum ≤
      gives ((releasings ts).filter (·.setKey = k)) +
        (((releasings ts).filter (·.setKey = k)).map (·.setReleased)).sum := by
  set group := (releasings ts).filter (·.setKey = k) with hgroup
  have hmem {u : ShareTransfer} (hu : u ∈ group) : u ∈ releasings ts ∧ u.setKey = k := by
    rw [hgroup, mem_filter, decide_eq_true_eq] at hu
    exact hu
  by_cases hsome : ∃ t ∈ group, t.receiver ≠ ""
  · obtain ⟨t, ht, hr⟩ := hsome
    have hid : t.id = k := (hf.id_of_receiver (hmem ht).1 hr).symm.trans (hmem ht).2
    have hsub : (group.map (·.id)).Sublist (ts.map (·.id)) :=
      (filter_sublist.trans filter_sublist).map _
    -- any other member with a receiver would have the same identifier
    have htaken : (group.map (·.taken)).sum ≤
        ((group.map (·.id)).map fun id => if id = k then t.taken else 0).sum := by
      rw [map_map]
      refine sum_le_sum fun u hu => ?_
      rw [Function.comp_apply]
      by_cases hur : u.receiver = ""
      · simp [ShareTransfer.taken, hur]
      · have huid : u.id = k := (hf.id_of_receiver (hmem hu).1 hur).symm.trans (hmem hu).2
        have heq : u = t := inj_on_of_nodup_map hf.nodup (mem_filter.mp (hmem hu).1).1
          (mem_filter.mp (hmem ht).1).1 (huid.trans hid.symm)
        rw [if_pos huid, heq]
    have hone := sum_indicator_le (hf.nodup.sublist hsub) k t.taken
    have hcover := hf.taken_le hw (hmem ht).1 hr
    have hreleased : t.setReleased ≤ (group.map (·.setReleased)).sum :=
      single_le_sum (by simp) _ (mem_map_of_mem ht)
    rw [hid, ← hgroup] at hcover
    omega
  · have hzero : (group.map (·.taken)).sum = 0 := by
      rw [sum_eq_zero_iff, forall_mem_map]
      intro u hu
      have hur : u.receiver = "" := by
        by_contra hur
        exact hsome ⟨u, hu, hur⟩
      simp [ShareTransfer.taken, hur]
    omega

end Funded

namespace ShareLedger

variable (l : ShareLedger)

def filling : Nat := takes (l.transfers.filter (·.state = .filling))

/-- What a transfer adds to the commitment of all roles together. -/
private def committedBy (t : ShareTransfer) : Int :=
  match t.state with
  | .releasing => t.taken - t.donorGPUs
  | .filling => t.taken

private theorem total_committed (held : Held) :
    (l.committed held).total = held.total + (l.transfers.map committedBy).sum := by
  refine foldl_raises (fun held t => ?_) l.transfers held
  cases hstate : t.state with
  | releasing =>
    by_cases hr : t.receiver = ""
    · simp only [hr, ne_eq, not_true_eq_false, if_false, total_modify, committedBy, hstate,
        ShareTransfer.taken, if_true]
      omega
    · simp only [hr, ne_eq, not_false_eq_true, if_true, total_modify, committedBy, hstate,
        ShareTransfer.taken, if_false]
      omega
  | filling =>
    by_cases hr : t.receiver = ""
    · simp only [hr, ne_eq, not_true_eq_false, if_false, committedBy, hstate,
        ShareTransfer.taken, if_true]
      omega
    · simp only [hr, ne_eq, not_false_eq_true, if_true, total_modify, committedBy, hstate,
        ShareTransfer.taken, if_false]
      omega

/-- What a transfer still releasing takes off its donor beyond its receiver's promise. -/
private def surplus (t : ShareTransfer) : Int := t.donorGPUs - t.taken

private theorem excess_turn (m : GoMap String Int) (t : ShareTransfer) (k : String) :
    let m' := if t.state = .releasing then
        let m := m.modify t.setKey (· + (t.donorGPUs : Int))
        if t.receiver ≠ "" then m.modify t.setKey (· - (t.gpus : Int)) else m
      else m
    m'.get k = m.get k + (if t.state = .releasing ∧ t.setKey = k then surplus t else 0) ∧
      m'.total = m.total + (if t.state = .releasing then surplus t else 0) := by
  by_cases hstate : t.state = .releasing
  · by_cases hr : t.receiver = ""
    · simp only [hstate, hr, if_true, ne_eq, not_true_eq_false, if_false, get_modify_add,
        total_modify, surplus, ShareTransfer.taken, true_and, eq_comm (a := k)]
      refine ⟨?_, by omega⟩
      split_ifs <;> omega
    · simp only [hstate, hr, if_true, ne_eq, not_false_eq_true, if_false, get_modify_add,
        sub_eq_add_neg, total_modify, surplus, ShareTransfer.taken, true_and, eq_comm (a := k)]
      refine ⟨?_, by omega⟩
      split_ifs <;> omega
  · simp [hstate]

private theorem excess_spec (k : String) :
    l.excess.get k = (((releasings l.transfers).filter (·.setKey = k)).map surplus).sum ∧
      l.excess.total = ((releasings l.transfers).map surplus).sum := by
  constructor
  · refine (foldl_raises (v := fun m => m.get k) (fun m t => (excess_turn m t k).1) _ ∅).trans ?_
    rw [sum_map_ite, releasings, filter_filter]
    simp [Bool.and_comm]
  · refine (foldl_raises (fun m t => (excess_turn m t k).2) _ ∅).trans ?_
    rw [sum_map_ite, releasings]
    simp

/-- What the sets still releasing are short of, each by itself. -/
def short : Int := (l.excess.entries.map fun e => max (-e.2) 0).sum

theorem short_nonneg : 0 ≤ l.short :=
  sum_nonneg (forall_mem_map.mpr fun _ _ => le_max_right _ _)

/-- The three scans balance: what is committed and unreleased is what is held, the promises
in Filling, and what the sets are short of. -/
theorem committed_add_unreleased (held : Held) :
    (l.committed held).total + l.unreleased =
      held.total + ((l.transfers.filter (·.state = .filling)).map (·.taken)).sum + l.short := by
  have hsplit : (l.transfers.map committedBy).sum =
      (((l.transfers.filter (·.state = .filling)).map (·.taken)).sum : Nat) -
        ((releasings l.transfers).map surplus).sum := by
    induction l.transfers with
    | nil => rfl
    | cons t ts ih =>
      rw [map_cons, sum_cons, ih]
      cases hstate : t.state with
      | releasing =>
        simp only [releasings, filter_cons, hstate, committedBy, surplus, decide_true, if_true,
          reduceCtorEq, decide_false, Bool.false_eq_true, if_false, map_cons, sum_cons]
        omega
      | filling =>
        simp only [releasings, filter_cons, hstate, committedBy, decide_true, if_true,
          reduceCtorEq, decide_false, Bool.false_eq_true, if_false, map_cons, sum_cons]
        push_cast
        omega
  have hunreleased : l.unreleased = l.excess.total + l.short := by
    rw [unreleased, short, GoMap.total, ← sum_map_add]
    congr 1
    refine map_congr_left fun e _ => ?_
    omega
  rw [total_committed, hsplit, hunreleased, (l.excess_spec "").2]
  omega

theorem short_le (hf : Funded l.transfers) (hw : Whole l.transfers) :
    l.short ≤ ((releasings l.transfers).map (·.setReleased)).sum := by
  have hentry : ∀ e ∈ l.excess.entries, max (-e.2) 0 ≤ (((((releasings l.transfers).filter
      (·.setKey = e.1)).map (·.setReleased)).sum : Nat) : Int) := by
    intro e he
    have hv := (l.excess_spec e.1).1
    have hsurplus (ts : List ShareTransfer) :
        (ts.map surplus).sum = gives ts - ((ts.map (·.taken)).sum : Nat) := by
      induction ts with
      | nil => rfl
      | cons t ts ih =>
        simp only [map_cons, sum_cons, ih, surplus, gives_cons]
        push_cast
        omega
    have hgroup := hf.taken_group_le hw e.1
    rw [get_of_mem_entries he, hsurplus] at hv
    omega
  have hkeys : (l.excess.entries.map Sigma.fst).Nodup := l.excess.nodupKeys
  have hgroups := sum_groups_le hkeys (fun t : ShareTransfer => t.setKey) (·.setReleased)
    (releasings l.transfers)
  calc l.short
      ≤ (l.excess.entries.map fun e => (((((releasings l.transfers).filter
          (·.setKey = e.1)).map (·.setReleased)).sum : Nat) : Int)).sum := sum_le_sum hentry
    _ = (((l.excess.entries.map Sigma.fst).map fun k => (((releasings l.transfers).filter
          (·.setKey = k)).map (·.setReleased)).sum).sum : Nat) := by
        rw [Nat.cast_list_sum, map_map, map_map]
        rfl
    _ ≤ _ := by exact_mod_cast hgroups

theorem held_le_committed (hf : Funded l.transfers) (held : Held) :
    held.total + l.filling ≤ (l.committed held).total + l.unreleased := by
  have hbalance := l.committed_add_unreleased held
  have hshort := l.short_nonneg
  have hfilling : l.filling = ((l.transfers.filter (·.state = .filling)).map (·.taken)).sum := by
    rw [filling, takes]
    congr 1
    refine map_congr_left fun t ht => ?_
    rw [ShareTransfer.taken]
    split
    · next hr => exact hf.receiver t (mem_filter.mp ht).1 hr
    · rfl
  rw [hfilling]
  omega

theorem committed_le_promised (hf : Funded l.transfers) (hw : Whole l.transfers)
    (held : Held) :
    (l.committed held).total + l.unreleased ≤ held.total + l.promised := by
  have hbalance := l.committed_add_unreleased held
  have hshort := l.short_le hf hw
  have hpromised : ((l.transfers.filter (·.state = .filling)).map (·.taken)).sum +
      ((releasings l.transfers).map (·.setReleased)).sum ≤ l.promised := by
    rw [promised]
    induction l.transfers with
    | nil => simp [releasings]
    | cons t ts ih =>
      have htaken : t.taken ≤ t.gpus := by
        rw [ShareTransfer.taken]
        split <;> omega
      cases hstate : t.state with
      | releasing =>
        simp only [releasings, filter_cons, hstate, decide_true, if_true, reduceCtorEq,
          decide_false, Bool.false_eq_true, if_false, map_cons, sum_cons] at ih ⊢
        omega
      | filling =>
        simp only [releasings, filter_cons, hstate, decide_true, if_true, reduceCtorEq,
          decide_false, Bool.false_eq_true, if_false, map_cons, sum_cons] at ih ⊢
        omega
  omega

end ShareLedger

end LlmScaler.Ledger
