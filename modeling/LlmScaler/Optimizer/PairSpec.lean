import LlmScaler.Budget.Debits
import LlmScaler.Optimizer.Pair

/-!
# What one pass commits

Fitting the commits of several roles to pools and nodes keeps their picks and only lowers them, so
they draw no more on any key. One log of the commits accounts for all that the scale-up loop of a
model adds, takes from the budget and records as spent.
-/

namespace LlmScaler.Optimizer

open Core Budget Accelerator

variable {ν : Type*}

theorem Model.gpus_pos (m : Model) (v : String) : 0 < m.gpus v := by
  unfold Model.gpus gpusPerReplicaFromState
  split
  · split_ifs with h
    · exact h
    · exact Nat.one_pos
  · exact Nat.one_pos

variable {ops : NodeOps ν} {m : Model} {a b commits : List Commit}

/-- Commits that keep their picks and lose replicas at most. -/
def Lowered : List Commit → List Commit → Prop :=
  List.Forall₂ fun c c' => c'.toRolePick = c.toRolePick ∧ c'.k ≤ c.k

theorem lowered_map {f : Commit → Commit}
    (h : ∀ c ∈ commits, (f c).toRolePick = c.toRolePick ∧ (f c).k ≤ c.k) :
    Lowered commits (commits.map f) :=
  List.forall₂_map_right_iff.mpr (List.forall₂_same.mpr h)

def commitSpends (m : Model) (b : Figures) (commits : List Commit) : List (String × ℕ) :=
  commits.map fun c => (budgetKey b (m.acc c.variant), commitGPUs m c)

theorem drawnFrom_eq (m : Model) (b : Figures) (key : String) (commits : List Commit) :
    drawnFrom m b key commits = spentWhere (covers key ·) (commitSpends m b commits) := by
  induction commits with
  | nil => rfl
  | cons c commits ih =>
    have hcons : drawnFrom m b key (c :: commits) =
        (if covers key (budgetKey b (m.acc c.variant)) then commitGPUs m c else 0) +
          drawnFrom m b key commits := by
      unfold drawnFrom
      rw [List.filter_cons]
      by_cases hk : 0 < c.k
      · simp only [drawsOn, hk, decide_true, Bool.true_and]
        split_ifs <;> simp
      · have hzero : commitGPUs m c = 0 := by rw [commitGPUs, Nat.eq_zero_of_not_pos hk, zero_mul]
        simp [drawsOn, hk, hzero]
    rw [hcons, ih, commitSpends, commitSpends, List.map_cons, spentWhere_cons]

theorem Lowered.spentWhere_le (h : Lowered a b) (m : Model) (f : Figures) (test : String → Bool) :
    spentWhere test (commitSpends m f b) ≤ spentWhere test (commitSpends m f a) := by
  induction h with
  | nil => exact Nat.le_refl _
  | @cons c c' l l' hcc _ ih =>
    obtain ⟨hpick, hk⟩ := hcc
    have hvariant : c'.variant = c.variant := by rw [hpick]
    rw [commitSpends, commitSpends, List.map_cons, List.map_cons, spentWhere_cons,
      spentWhere_cons, hvariant]
    apply Nat.add_le_add _ ih
    split_ifs
    · rw [commitGPUs, commitGPUs, hvariant]
      exact Nat.mul_le_mul_right _ hk
    · exact Nat.le_refl _

theorem foldl_select {α : Type*} {P : α → Prop} {step : Option α → α → Option α}
    (hstep : ∀ best a, step best a = best ∨ step best a = some a ∧ P a) {l : List α}
    {best : Option α} {r : α} (h : l.foldl step best = some r) : best = some r ∨ r ∈ l ∧ P r := by
  revert h
  refine List.foldlRecOn (motive := fun b => b = some r → best = some r ∨ r ∈ l ∧ P r) _ _ .inl
    fun b hb a ha h => ?_
  rcases hstep b a with hkeep | ⟨htake, hP⟩
  · exact hb (hkeep ▸ h)
  · rw [htake] at h
    cases h
    exact .inr ⟨ha, hP⟩

theorem nextToPlace_spec {placing : List (Commit × ℕ)} {c : Commit}
    (h : nextToPlace placing = some c) : ∃ n, (c, n) ∈ placing ∧ n < c.k := by
  obtain ⟨⟨c', n⟩, hfold, rfl⟩ := Option.map_eq_some_iff.mp h
  have hselect := foldl_select (P := fun p : Commit × ℕ => p.2 < p.1.k) (fun best p => by
    by_cases hdone : p.1.k ≤ p.2
    · exact .inl (if_pos hdone)
    · rw [if_neg hdone]
      cases best with
      | none => exact .inr ⟨rfl, not_le.mp hdone⟩
      | some l =>
        by_cases hbehind : p.2 * l.1.k < l.2 * p.1.k
        · exact .inr ⟨if_pos hbehind, not_le.mp hdone⟩
        · exact .inl (if_neg hbehind)) hfold
  rcases hselect with hnone | ⟨hmem, hlt⟩
  · cases hnone
  · exact ⟨n, hmem, hlt⟩

theorem placeCommits_spec {fuel : ℕ} {trial : ν} {placing : List (Commit × ℕ)}
    (hnodup : (placing.map fun p => p.1.role).Nodup) (h : ∀ p ∈ placing, p.2 ≤ p.1.k) :
    (placeCommits ops m fuel trial placing).2.map Prod.fst = placing.map Prod.fst ∧
      ∀ p ∈ (placeCommits ops m fuel trial placing).2, p.2 ≤ p.1.k := by
  induction fuel generalizing trial placing with
  | zero => exact ⟨rfl, h⟩
  | succ fuel ih =>
    rw [placeCommits]
    cases hnext : nextToPlace placing with
    | none => exact ⟨rfl, h⟩
    | some c =>
      simp only
      cases hplace : ops.place trial (m.shape c.variant) with
      | none => exact ⟨rfl, h⟩
      | some trial' =>
        simp only
        have hfst : (placing.map fun p => if p.1.role = c.role then (p.1, p.2 + 1) else p).map
            Prod.fst = placing.map Prod.fst := by
          rw [List.map_map]
          refine List.map_congr_left fun p _ => ?_
          rw [Function.comp]
          split_ifs <;> rfl
        have hrole : ∀ l : List (Commit × ℕ), (l.map fun p => p.1.role) =
            (l.map Prod.fst).map (·.role) := fun l => by rw [List.map_map]; rfl
        rw [← hfst]
        apply ih
        · rw [hrole, hfst, ← hrole]
          exact hnodup
        · intro p' hp'
          obtain ⟨p, hp, rfl⟩ := List.mem_map.mp hp'
          split_ifs with hsame
          · -- the only commit of that role is the one still to be placed
            obtain ⟨n, hmem, hlt⟩ := nextToPlace_spec hnext
            have heq : p = (c, n) := List.inj_on_of_nodup_map hnodup hp hmem hsame
            rw [heq]
            exact hlt
          · exact h p hp

theorem lowered_placed {placed : List (Commit × ℕ)} (hfst : placed.map Prod.fst = commits)
    (hle : ∀ p ∈ placed, p.2 ≤ p.1.k) :
    Lowered commits (placed.map fun p => { p.1 with k := p.2 }) := by
  subst hfst
  rw [Lowered, List.forall₂_map_left_iff, List.forall₂_map_right_iff, List.forall₂_same]
  exact fun p hp => ⟨rfl, hle p hp⟩

/-- A state reached by a log of commits: the log gives the growth of the targets, what is left of
the budget and what is recorded as spent. -/
structure LoggedBy (m : Model) (b : Figures) (start : PairState ν) (log : List Commit)
    (st : PairState ν) : Prop where
  targets : st.targets = log.foldl (fun t c => t.modify c.variant (· + c.k)) start.targets
  available : st.available = some (debitAll b (commitSpends m b log))
  spent : ∀ test, st.spent.sumWhere test =
    start.spent.sumWhere test + spentWhere test (commitSpends m b log)

section Log

variable {b : Figures} {start st : PairState ν} {log : List Commit}

theorem LoggedBy.commitRole (h : LoggedBy m b start log st) (c : Commit) :
    LoggedBy m b start (log ++ [c]) (commitRole m st c) := by
  have hkey : budgetKey (debitAll b (commitSpends m b log)) (m.acc c.variant) =
      budgetKey b (m.acc c.variant) := budgetKey_of_keys (keys_debitAll _ _) _
  have hspends : commitSpends m b (log ++ [c]) =
      commitSpends m b log ++ [(budgetKey b (m.acc c.variant), commitGPUs m c)] := List.map_append
  simp only [Optimizer.commitRole, h.available, hkey]
  refine ⟨?_, ?_, fun test => ?_⟩
  · rw [List.foldl_append, ← h.targets]
    rfl
  · rw [hspends, debitAll_append]
    rfl
  · rw [hspends, GoMap.sumWhere_modify_add, h.spent, Nat.add_assoc]
    by_cases htest : test (budgetKey b (m.acc c.variant)) = true <;> simp [spentWhere, htest]

theorem LoggedBy.foldl (h : LoggedBy m b start log st) (commits : List Commit) :
    LoggedBy m b start (log ++ commits) (commits.foldl (Optimizer.commitRole m) st) := by
  induction commits generalizing log st with
  | nil => rwa [List.append_nil]
  | cons c commits ih => exact List.append_cons log c commits ▸ ih (h.commitRole c)

end Log

/-- Whatever the picks and the nodes, what the scale-up loop of a model takes from the budget and
records as spent are the GPUs of the replicas it adds. -/
theorem allocateForModelPairedOn_logged (ops : NodeOps ν) (m : Model) (pick : RolePickFn ν)
    (fuel : ℕ) (start : PairState ν) (b : Figures) :
    ∃ log, LoggedBy m b start log
      (allocateForModelPairedOn ops m pick fuel { start with available := some b }) := by
  have hstart : ∃ log, LoggedBy m b start log { start with available := some b } :=
    ⟨[], rfl, rfl, fun _ => rfl⟩
  refine @loop_invariant _ _ (fun st => ∃ log, LoggedBy m b start log st) ?_ _ hstart fuel
  rintro st ⟨log, h⟩
  rw [pairBody]
  split_ifs
  · dsimp only
    split
    · exact ⟨log, h.targets, h.available, h.spent⟩
    · next commits nodes _ =>
      have hall (ps : RolePairedState) := LoggedBy.foldl
        (⟨h.targets, h.available, h.spent⟩ : LoggedBy m b start log { st with ps, nodes }) commits
      exact ⟨_, (hall _).targets, (hall _).available, (hall _).spent⟩
  · exact ⟨log, h⟩

end LlmScaler.Optimizer
