import LlmScaler.Optimizer.PairSpec

/-!
# Fitting roles to pools, with the counts it leaves

`fitPairToPools` lowers the caller's counts in place, also where it then reports that the roles do
not fit. Its outcome here keeps them: `ok` with the counts that fit, `error` with those reached when
one replica of each role did not. Trimming for a key only lowers counts and never takes the last
replica, so what was fitted for an earlier key stays fitted.
-/

namespace LlmScaler.Optimizer

open Core Budget Accelerator List

/-- Counts that fit, or counts that were reached without fitting. -/
abbrev PoolOutcome := Except (List Commit) (List Commit)

def PoolOutcome.counts : PoolOutcome → List Commit
  | .ok commits => commits
  | .error commits => commits

section Counts

variable (m : Model)

/-- `shrinkToFit` with the counts it leaves. -/
def shrinkCounts (b : Figures) (key : String) (budget : ℕ) : ℕ → List Commit → PoolOutcome
  | 0, commits => .error commits
  | fuel + 1, commits =>
    if drawnFrom m b key commits ≤ budget then .ok commits
    else
      match largestDraw m b key commits with
      | none => .error commits
      | some l => shrinkCounts b key budget fuel
          (commits.map fun c => if c.role = l.role then { c with k := c.k - 1 } else c)

/-- `fitKey` with the counts it leaves. -/
def fitKeyCounts (b : Figures) (commits : List Commit) (key : String) : PoolOutcome :=
  let budget := (figureAt b key).toNat
  let sum := drawnFrom m b key commits
  if figureAt b key = ⊤ ∨ sum ≤ budget then .ok commits
  else
    let scaled := commits.map fun c =>
      if drawsOn m b key c then { c with k := max 1 (c.k * budget / sum) } else c
    shrinkCounts m b key budget ((scaled.map (·.k)).sum + 1) scaled

/-- `fitPairToPools` with the counts it leaves. -/
def fitPairToPoolsCounts (available : Option Figures) (commits : List Commit) : PoolOutcome :=
  match available with
  | none => .ok commits
  | some b =>
    if commits.length < 2 then .ok commits
    else (fitKeys m b commits).foldlM (fitKeyCounts m b) commits

theorem toOption_shrinkCounts (b : Figures) (key : String) (budget fuel : ℕ)
    (commits : List Commit) :
    (shrinkCounts m b key budget fuel commits).toOption =
      shrinkToFit m b key budget fuel commits := by
  induction fuel generalizing commits with
  | zero => rfl
  | succ fuel ih =>
    rw [shrinkCounts, shrinkToFit]
    split_ifs
    · rfl
    · cases largestDraw m b key commits with
      | none => rfl
      | some l => exact ih _

theorem toOption_fitKeyCounts (b : Figures) (commits : List Commit) (key : String) :
    (fitKeyCounts m b commits key).toOption = fitKey m b commits key := by
  unfold fitKeyCounts fitKey
  dsimp only
  split_ifs
  · rfl
  · exact toOption_shrinkCounts m b key _ _ _

theorem toOption_fitPairToPoolsCounts (available : Option Figures) (commits : List Commit) :
    (fitPairToPoolsCounts m available commits).toOption = fitPairToPools m available commits := by
  cases available with
  | none => rfl
  | some b =>
    have hfold : ∀ (keys : List String) (commits : List Commit),
        (keys.foldlM (fitKeyCounts m b) commits).toOption = keys.foldlM (fitKey m b) commits := by
      intro keys
      induction keys with
      | nil => exact fun _ => rfl
      | cons key keys ih =>
        intro commits
        rw [foldlM_cons, foldlM_cons, ← toOption_fitKeyCounts]
        cases fitKeyCounts m b commits key with
        | error left => rfl
        | ok fitted => exact ih fitted
    rw [fitPairToPoolsCounts, fitPairToPools]
    split_ifs
    · rfl
    · exact hfold _ commits

end Counts

/-- A commit with no more replicas, and one at least where it had one. -/
def Trimmed (c c' : Commit) : Prop :=
  c'.toRolePick = c.toRolePick ∧ c'.k ≤ c.k ∧ min 1 c.k ≤ c'.k

def oneEach (commits : List Commit) : List Commit := commits.map fun c => { c with k := min 1 c.k }

theorem Trimmed.refl (c : Commit) : Trimmed c c := ⟨rfl, le_rfl, Nat.min_le_right _ _⟩

theorem Trimmed.trans {a b c : Commit} (h : Trimmed a b) (h' : Trimmed b c) : Trimmed a c := by
  obtain ⟨hpick, hle, hone⟩ := h
  obtain ⟨hpick', hle', hone'⟩ := h'
  exact ⟨hpick'.trans hpick, hle'.trans hle, by omega⟩

theorem trimmed_refl (commits : List Commit) : Forall₂ Trimmed commits commits :=
  forall₂_same.mpr fun c _ => Trimmed.refl c

variable {a b : List Commit}

theorem trimmed_trans {c : List Commit} (h : Forall₂ Trimmed a b)
    (h' : Forall₂ Trimmed b c) : Forall₂ Trimmed a c :=
  forall₂_comp (T := Trimmed) (fun _ _ _ h h' => h.trans h') h h'

variable {commits : List Commit}

theorem trimmed_map {f : Commit → Commit} (h : ∀ c ∈ commits, Trimmed c (f c)) :
    Forall₂ Trimmed commits (commits.map f) := by
  rw [forall₂_map_right_iff, forall₂_same]
  exact h

theorem oneEach_of_trimmed (h : Forall₂ Trimmed a b) : oneEach b = oneEach a := by
  induction h with
  | nil => rfl
  | @cons c c' l l' hcc _ ih =>
    obtain ⟨hpick, hle, hone⟩ := hcc
    have hk : min 1 c'.k = min 1 c.k := by omega
    unfold oneEach at *
    rw [map_cons, map_cons, ih, hk, hpick]

theorem roles_of_trimmed (h : Forall₂ Trimmed a b) : b.map (·.role) = a.map (·.role) := by
  induction h with
  | nil => rfl
  | @cons c c' l l' hcc _ ih => rw [map_cons, map_cons, ih, hcc.1]

section Fits

variable {m : Model} {b : Figures} {key : String}

theorem drawsOn_one (c : Commit) :
    drawsOn m b key { c with k := min 1 c.k } = drawsOn m b key c := by
  have hpos : 0 < min 1 c.k ↔ 0 < c.k := by omega
  simp only [drawsOn, hpos]

theorem drawnFrom_oneEach_le (commits : List Commit) :
    drawnFrom m b key (oneEach commits) ≤ drawnFrom m b key commits := by
  have hlow : Lowered commits (oneEach commits) :=
    lowered_map fun c _ => ⟨rfl, Nat.min_le_right _ _⟩
  rw [drawnFrom_eq, drawnFrom_eq]
  exact hlow.spentWhere_le m b _

theorem drawnFrom_of_single (h : ∀ c ∈ commits, drawsOn m b key c = true → c.k ≤ 1) :
    drawnFrom m b key commits = drawnFrom m b key (oneEach commits) := by
  unfold drawnFrom oneEach
  rw [filter_map, map_map]
  have hfilter : (drawsOn m b key ∘ fun c : Commit => { c with k := min 1 c.k }) =
      drawsOn m b key := funext fun c => drawsOn_one c
  rw [hfilter]
  refine congrArg List.sum (map_congr_left fun c hc => ?_)
  obtain ⟨hmem, hdraws⟩ := mem_filter.mp hc
  rw [Function.comp_apply, commitGPUs, commitGPUs, min_eq_right (h c hmem hdraws)]

theorem largestDraw_some {l : Commit} (h : largestDraw m b key commits = some l) :
    l ∈ commits ∧ 1 < l.k := by
  have hselect := foldl_select (P := fun c : Commit => 1 < c.k) (fun best c => by
    by_cases hdraws : (drawsOn m b key c && decide (1 < c.k)) = true
    · rw [if_pos hdraws]
      rw [Bool.and_eq_true, decide_eq_true_eq] at hdraws
      cases best with
      | none => exact .inr ⟨rfl, hdraws.2⟩
      | some l =>
        by_cases hlt : commitGPUs m l < commitGPUs m c
        · exact .inr ⟨if_pos hlt, hdraws.2⟩
        · exact .inl (if_neg hlt)
    · exact .inl (if_neg hdraws)) h
  rcases hselect with hnone | hsome
  · cases hnone
  · exact hsome

theorem largestDraw_none (h : largestDraw m b key commits = none) :
    ∀ c ∈ commits, drawsOn m b key c = true → c.k ≤ 1 := by
  unfold largestDraw at h
  -- a candidate found is never dropped for none
  have hfold : ∀ (l : List Commit) (best : Option Commit), l.foldl (fun best c =>
      if drawsOn m b key c && decide (1 < c.k) then
        match best with
        | none => some c
        | some l => if commitGPUs m l < commitGPUs m c then some c else best
      else best) best = none →
      best = none ∧ ∀ c ∈ l, drawsOn m b key c = true → c.k ≤ 1 := by
    intro l
    induction l with
    | nil => exact fun best hbest => ⟨hbest, fun c hc => absurd hc not_mem_nil⟩
    | cons a l ih =>
      intro best hbest
      obtain ⟨hstep, hrest⟩ := ih _ hbest
      dsimp only at hstep
      by_cases hdraws : (drawsOn m b key a && decide (1 < a.k)) = true
      · rw [if_pos hdraws] at hstep
        cases best with
        | none => cases hstep
        | some c =>
          simp only at hstep
          split_ifs at hstep
      · rw [if_neg hdraws] at hstep
        refine ⟨hstep, forall_mem_cons.mpr ⟨fun hon => ?_, hrest⟩⟩
        rw [hon, Bool.true_and, decide_eq_true_eq] at hdraws
        exact not_lt.mp hdraws
  exact (hfold commits none h).2

structure KeyFit (m : Model) (b : Figures) (key : String) (budget : ℕ) (commits : List Commit)
    (out : PoolOutcome) : Prop where
  trimmed : Forall₂ Trimmed commits out.counts
  fits : ∀ commits', out = .ok commits' → drawnFrom m b key commits' ≤ budget
  tooMany : ∀ commits', out = .error commits' → budget < drawnFrom m b key (oneEach commits)

theorem KeyFit.of_trimmed {budget : ℕ} {commits' : List Commit} {out : PoolOutcome}
    (h : KeyFit m b key budget commits' out) (htrim : Forall₂ Trimmed commits commits') :
    KeyFit m b key budget commits out where
  trimmed := trimmed_trans htrim h.trimmed
  fits := h.fits
  tooMany := by
    intro left hleft
    rw [← oneEach_of_trimmed htrim]
    exact h.tooMany left hleft

theorem keyFit_shrinkCounts {budget fuel : ℕ} (hroles : (commits.map (·.role)).Nodup)
    (hfuel : (commits.map (·.k)).sum < fuel) :
    KeyFit m b key budget commits (shrinkCounts m b key budget fuel commits) := by
  induction fuel generalizing commits with
  | zero => omega
  | succ fuel ih =>
    rw [shrinkCounts]
    by_cases hfits : drawnFrom m b key commits ≤ budget
    · rw [if_pos hfits]
      refine ⟨trimmed_refl _, ?_, ?_⟩
      · intro commits' heq
        cases heq
        exact hfits
      · intro commits' heq
        cases heq
    · rw [if_neg hfits]
      cases hlargest : largestDraw m b key commits with
      | none =>
        refine ⟨trimmed_refl _, ?_, ?_⟩
        · intro commits' heq
          cases heq
        · intro commits' _
          rw [← drawnFrom_of_single (largestDraw_none hlargest)]
          exact not_le.mp hfits
      | some l =>
        obtain ⟨hmem, hmore⟩ := largestDraw_some hlargest
        have htrim : Forall₂ Trimmed commits
            (commits.map fun c => if c.role = l.role then { c with k := c.k - 1 } else c) := by
          apply trimmed_map
          intro c hc
          split_ifs with hrole
          · obtain rfl : c = l := inj_on_of_nodup_map hroles hc hmem hrole
            exact ⟨rfl, Nat.sub_le _ _, by simp only; omega⟩
          · exact Trimmed.refl c
        refine KeyFit.of_trimmed (ih ?_ ?_) htrim
        · rw [roles_of_trimmed htrim]
          exact hroles
        · refine lt_of_lt_of_le ?_ (Nat.le_of_lt_succ hfuel)
          rw [map_map]
          refine sum_lt_sum _ _ (fun c _ => ?_) ⟨l, hmem, ?_⟩
          · rw [Function.comp_apply]
            split_ifs
            · exact Nat.sub_le _ _
            · exact le_rfl
          · rw [Function.comp_apply, if_pos rfl]
            simp only
            omega

theorem keyFit_fitKeyCounts (hroles : (commits.map (·.role)).Nodup) (hfinite : figureAt b key ≠ ⊤) :
    KeyFit m b key (figureAt b key).toNat commits (fitKeyCounts m b commits key) := by
  unfold fitKeyCounts
  dsimp only
  by_cases hfits : drawnFrom m b key commits ≤ (figureAt b key).toNat
  · rw [if_pos (.inr hfits)]
    refine ⟨trimmed_refl _, ?_, ?_⟩
    · intro commits' heq
      cases heq
      exact hfits
    · intro commits' heq
      cases heq
  · rw [if_neg (not_or.mpr ⟨hfinite, hfits⟩)]
    have htrim : Forall₂ Trimmed commits (commits.map fun c =>
        if drawsOn m b key c then
          { c with k := max 1 (c.k * (figureAt b key).toNat / drawnFrom m b key commits) }
        else c) := by
      apply trimmed_map
      intro c _
      split_ifs with hdraws
      · have hpos : 0 < c.k := by
          simp only [drawsOn, Bool.and_eq_true, decide_eq_true_eq] at hdraws
          exact hdraws.1
        have hdiv : c.k * (figureAt b key).toNat / drawnFrom m b key commits ≤ c.k := by
          apply Nat.div_le_of_le_mul
          rw [Nat.mul_comm]
          exact Nat.mul_le_mul_right _ (not_le.mp hfits).le
        exact ⟨rfl, max_le hpos hdiv, (Nat.min_le_left _ _).trans (le_max_left _ _)⟩
      · exact Trimmed.refl c
    refine KeyFit.of_trimmed (keyFit_shrinkCounts ?_ (Nat.lt_succ_self _)) htrim
    rw [roles_of_trimmed htrim]
    exact hroles

structure PoolFit (m : Model) (b : Figures) (keys : List String) (commits : List Commit)
    (out : PoolOutcome) : Prop where
  trimmed : Forall₂ Trimmed commits out.counts
  /-- Counts that fit draw no more than the figure of every key. -/
  fits : ∀ commits', out = .ok commits' →
    ∀ key ∈ keys, (drawnFrom m b key commits' : ℕ∞) ≤ figureAt b key
  /-- Otherwise one replica of each draws more than one of them. -/
  tooMany : ∀ commits', out = .error commits' →
    ∃ key ∈ keys, figureAt b key < drawnFrom m b key (oneEach commits)

theorem poolFit_foldlM {keys : List String} (hroles : (commits.map (·.role)).Nodup) :
    PoolFit m b keys commits (keys.foldlM (fitKeyCounts m b) commits) := by
  induction keys generalizing commits with
  | nil =>
    refine ⟨trimmed_refl _, ?_, ?_⟩
    · exact fun _ _ key hkey => absurd hkey not_mem_nil
    · intro commits' heq
      cases heq
  | cons key keys ih =>
    rw [foldlM_cons]
    -- what the key itself says, an unbounded one being passed over
    have hkey : Forall₂ Trimmed commits (fitKeyCounts m b commits key).counts ∧
        (∀ commits', fitKeyCounts m b commits key = .ok commits' →
          (drawnFrom m b key commits' : ℕ∞) ≤ figureAt b key) ∧
        ∀ commits', fitKeyCounts m b commits key = .error commits' →
          figureAt b key < drawnFrom m b key (oneEach commits) := by
      by_cases htop : figureAt b key = ⊤
      · have hout : fitKeyCounts m b commits key = .ok commits := if_pos (.inl htop)
        rw [hout, htop]
        refine ⟨trimmed_refl _, fun _ _ => le_top, ?_⟩
        intro commits' heq
        cases heq
      · have hfit := keyFit_fitKeyCounts (m := m) hroles htop
        have hcast := ENat.natCast_toNat htop
        refine ⟨hfit.trimmed, fun commits' heq => ?_, fun commits' heq => ?_⟩
        · rw [← hcast]
          exact_mod_cast hfit.fits commits' heq
        · rw [← hcast]
          exact_mod_cast hfit.tooMany commits' heq
    obtain ⟨htrim, hfits, hover⟩ := hkey
    cases hout : fitKeyCounts m b commits key with
    | error left =>
      rw [hout] at htrim
      refine ⟨htrim, ?_, ?_⟩
      · intro commits' heq
        cases heq
      · exact fun _ _ => ⟨key, mem_cons_self, hover left hout⟩
    | ok fitted =>
      rw [hout] at htrim
      change Forall₂ Trimmed commits fitted at htrim
      have hrest : PoolFit m b keys fitted (keys.foldlM (fitKeyCounts m b) fitted) := by
        apply ih
        rw [roles_of_trimmed htrim]
        exact hroles
      refine ⟨trimmed_trans htrim hrest.trimmed, ?_, ?_⟩
      · intro commits' heq
        refine forall_mem_cons.mpr ⟨le_trans ?_ (hfits fitted hout), hrest.fits commits' heq⟩
        -- what later keys take leaves this one fitted
        have hlater := hrest.trimmed
        rw [show keys.foldlM (fitKeyCounts m b) fitted = .ok commits' from heq] at hlater
        have hlow : Lowered fitted commits' := hlater.imp fun _ _ h => ⟨h.1, h.2.1⟩
        rw [drawnFrom_eq, drawnFrom_eq]
        exact_mod_cast hlow.spentWhere_le m b _
      · intro commits' heq
        obtain ⟨k, hk, hlt⟩ := hrest.tooMany commits' heq
        rw [oneEach_of_trimmed htrim] at hlt
        exact ⟨k, mem_cons_of_mem key hk, hlt⟩

end Fits

variable {key : String}

theorem covers_budgetKey {b : Figures} {name : String} (hkey : key ∈ b.keys)
    (h : covers key name = true) : covers key (budgetKey b name) = true := by
  unfold budgetKey
  cases hfind : findBudgetKey b name with
  | none => exact h
  | some k =>
    rw [Option.getD_some]
    rcases covers_iff.mp h with hsame | hfamily
    · obtain ⟨k', hk', hfold⟩ := findBudgetKey_of_fold hkey hsame
      rw [hfind] at hk'
      cases hk'
      exact covers_of_fold_eq (hsame.trans hfold.symm)
    · rcases findBudgetKey_cases hfind with hfold | ⟨hproduct, -⟩ | ⟨hfamily', -⟩
      · rw [covers_congr rfl hfold]
        exact h
      · exact absurd hfamily fun hfamily => not_isProductOf_isProductOf hproduct hfamily
      · exact covers_of_fold_eq (fold_eq_of_isProductOf hfamily hfamily')

section Roles

variable {m : Model} {b : Figures} {commits : List Commit}

theorem mem_fitKeys :
    key ∈ fitKeys m b commits ↔
      key ∈ b.keys ∨ ∃ c ∈ commits, 0 < c.k ∧ budgetKey b (m.acc c.variant) = key := by
  rw [fitKeys, mem_insertionSort, mem_dedup, mem_append, mem_map]
  simp only [mem_filter, decide_eq_true_eq, and_assoc]

theorem exists_over_of_no_key {c : Commit} (hc : c ∈ commits) (hpos : 0 < c.k)
    (hnone : findBudgetKey b (m.acc c.variant) = none) :
    ∃ key ∈ fitKeys m b commits, figureAt b key < drawnFrom m b key (oneEach commits) := by
  have hkey : budgetKey b (m.acc c.variant) = m.acc c.variant := by rw [budgetKey, hnone]; rfl
  have hfigure : figureAt b (m.acc c.variant) = 0 := by
    unfold figureAt
    cases hfound : b.find? (m.acc c.variant) with
    | none => rfl
    | some v =>
      have hmem : m.acc c.variant ∈ b.keys := GoMap.mem_keys.mpr ⟨v, hfound⟩
      obtain ⟨k, hk, -⟩ := findBudgetKey_of_fold hmem rfl
      rw [hnone] at hk
      cases hk
  refine ⟨m.acc c.variant, mem_fitKeys.mpr (.inr ⟨c, hc, hpos, hkey⟩), ?_⟩
  have hdraws : drawsOn m b (m.acc c.variant) { c with k := min 1 c.k } = true := by
    rw [drawsOn_one, drawsOn, hkey, covers_self, Bool.and_true, decide_eq_true hpos]
  have hone : 0 < commitGPUs m { c with k := min 1 c.k } :=
    Nat.mul_pos (lt_min Nat.one_pos hpos) (m.gpus_pos c.variant)
  have hle : commitGPUs m { c with k := min 1 c.k } ≤
      drawnFrom m b (m.acc c.variant) (oneEach commits) :=
    single_le_sum (fun _ _ => Nat.zero_le _) _
      (mem_map_of_mem (mem_filter.mpr ⟨mem_map_of_mem hc, hdraws⟩))
  rw [hfigure]
  exact_mod_cast lt_of_lt_of_le hone hle

theorem sum_covered (hkey : key ∈ b.keys) (commits : List Commit) :
    ((commits.filter fun c => covers key (m.acc c.variant) ||
      covers key (budgetKey b (m.acc c.variant))).map (commitGPUs m)).sum =
        drawnFrom m b key commits := by
  have hcovers : ∀ c : Commit, (covers key (m.acc c.variant) ||
      covers key (budgetKey b (m.acc c.variant))) = covers key (budgetKey b (m.acc c.variant)) := by
    intro c
    rw [Bool.or_eq_right_iff_imp]
    exact fun h => covers_budgetKey hkey h
  rw [drawnFrom_eq, spentWhere, commitSpends, filter_map, map_map]
  simp only [hcovers]
  rfl

theorem poolFit_fitPairToPoolsCounts (hroles : (commits.map (·.role)).Nodup)
    (hpair : 2 ≤ commits.length) :
    PoolFit m b (fitKeys m b commits) commits (fitPairToPoolsCounts m (some b) commits) := by
  rw [fitPairToPoolsCounts, if_neg (not_lt.mpr hpair)]
  exact poolFit_foldlM hroles

theorem trimmed_fitPairToPoolsCounts (hroles : (commits.map (·.role)).Nodup)
    (available : Option Figures) :
    Forall₂ Trimmed commits (fitPairToPoolsCounts m available commits).counts := by
  cases available with
  | none => exact trimmed_refl _
  | some b =>
    by_cases hpair : commits.length < 2
    · rw [fitPairToPoolsCounts, if_pos hpair]
      exact trimmed_refl _
    · exact (poolFit_fitPairToPoolsCounts hroles (not_lt.mp hpair)).trimmed

theorem error_iff_oneEach_over (hroles : (commits.map (·.role)).Nodup)
    (hpair : 2 ≤ commits.length) :
    (∃ commits', fitPairToPoolsCounts m (some b) commits = .error commits') ↔
      ∃ key ∈ fitKeys m b commits, figureAt b key < drawnFrom m b key (oneEach commits) := by
  have hfit := poolFit_fitPairToPoolsCounts (m := m) (b := b) hroles hpair
  constructor
  · rintro ⟨commits', hout⟩
    exact hfit.tooMany commits' hout
  · rintro ⟨key, hkey, hover⟩
    cases hout : fitPairToPoolsCounts m (some b) commits with
    | error commits' => exact ⟨commits', rfl⟩
    | ok commits' =>
      have htrim := hfit.trimmed
      rw [hout] at htrim
      -- counts that fit hold one replica of each
      have hle : (drawnFrom m b key (oneEach commits) : ℕ∞) ≤ drawnFrom m b key commits' := by
        rw [← oneEach_of_trimmed htrim]
        exact_mod_cast drawnFrom_oneEach_le commits'
      exact absurd (hle.trans (hfit.fits commits' hout key hkey)) (not_le.mpr hover)

theorem oneEach_over_iff :
    (∃ key ∈ fitKeys m b commits, figureAt b key < drawnFrom m b key (oneEach commits)) ↔
      (∃ key ∈ b.keys, figureAt b key < drawnFrom m b key (oneEach commits)) ∨
        ∃ c ∈ commits, 0 < c.k ∧ findBudgetKey b (m.acc c.variant) = none := by
  constructor
  · rintro ⟨key, hkey, hover⟩
    rcases mem_fitKeys.mp hkey with hmem | ⟨c, hc, hpos, rfl⟩
    · exact .inl ⟨key, hmem, hover⟩
    · cases hfind : findBudgetKey b (m.acc c.variant) with
      | none => exact .inr ⟨c, hc, hpos, hfind⟩
      | some k =>
        have hk : budgetKey b (m.acc c.variant) = k := by rw [budgetKey, hfind]; rfl
        rw [hk] at hover
        exact .inl ⟨k, findBudgetKey_mem hfind, hover⟩
  · rintro (⟨key, hmem, hover⟩ | ⟨c, hc, hpos, hnone⟩)
    · exact ⟨key, mem_fitKeys.mpr (.inl hmem), hover⟩
    · exact exists_over_of_no_key hc hpos hnone

/-- A model with a prefill variant and a decode variant of two GPUs each. -/
def pairModel : Model where
  ns := "ns"
  records := [⟨⟨"p", "prefill", 1, "H100"⟩, 1⟩, ⟨⟨"d", "decode", 1, "A100"⟩, 1⟩]
  stateMap := GoMap.ofList [("p", ⟨"p", 0, 2, none, none⟩), ("d", ⟨"d", 0, 2, none, none⟩)]
  roles := ["decode", "prefill"]

/-- Replicas of the two roles. -/
def pairOf (prefill decode : ℕ) : List Commit :=
  [⟨⟨"prefill", "p", ⊤, 1⟩, prefill⟩, ⟨⟨"decode", "d", ⊤, 1⟩, decode⟩]

end Roles

end LlmScaler.Optimizer
