import LlmScaler.Budget.Fits
import LlmScaler.Budget.MergeSpec

/-!
# What the placement check accepts

A demand of named accelerators is accepted exactly when every allowlist the check reads admits
its names and every key, of an allowlist or of the demand, holds what is demanded under it. The
figures are those of the allowlists alone: the clamps of a merge refuse nothing more.
-/

namespace LlmScaler.Budget

open Core Accelerator List GoMap

def drawnUnder (budgets : Figures) (entries : List (Sigma fun _ : String => ℕ)) (key : String) :
    ℕ :=
  ((entries.filter fun e => covers key (budgetKey budgets e.1)).map Sigma.snd).sum

private theorem drawnUnder_cons (budgets : Figures) (e : Sigma fun _ : String => ℕ)
    (entries : List (Sigma fun _ : String => ℕ)) (key : String) :
    drawnUnder budgets (e :: entries) key =
      (if covers key (budgetKey budgets e.1) then e.2 else 0) + drawnUnder budgets entries key := by
  unfold drawnUnder
  rw [filter_cons]
  split_ifs <;> simp

variable {budgets : Figures} {entries : List (Sigma fun _ : String => ℕ)} {nsScoped : Bool}

/-- Drawing a demand succeeds where every name has a key, and draws each name on its key. -/
theorem drawDemand_eq_some {spent spent' : Demand}
    (hnamed : ∀ e ∈ entries, e.1 ≠ defaultAcceleratorName)
    (h : drawDemand budgets nsScoped entries spent = some spent') :
    (∀ e ∈ entries, e.2 ≠ 0 → ∃ key, findBudgetKey budgets e.1 = some key) ∧
      ∀ key, demandUnder spent' key = demandUnder spent key + drawnUnder budgets entries key := by
  induction entries generalizing spent with
  | nil =>
    cases h
    exact ⟨fun e he => absurd he not_mem_nil, fun key => rfl⟩
  | cons e entries ih =>
    obtain ⟨name, need⟩ := e
    have htail := fun e he => hnamed e (mem_cons_of_mem _ he)
    rw [drawDemand] at h
    by_cases hneed : need = 0
    · rw [if_pos hneed] at h
      obtain ⟨hkeys, hdrawn⟩ := ih htail h
      refine ⟨?_, fun key => ?_⟩
      · rw [forall_mem_cons]
        exact ⟨fun hne => absurd hneed hne, hkeys⟩
      · rw [hdrawn, drawnUnder_cons, hneed]
        simp
    · have hname : name ≠ defaultAcceleratorName := hnamed _ mem_cons_self
      rw [if_neg hneed, drawKey] at h
      cases hkey : findBudgetKey budgets name with
      | none => simp [hkey, hname] at h
      | some key =>
        simp only [hkey] at h
        obtain ⟨hkeys, hdrawn⟩ := ih htail h
        refine ⟨?_, fun k => ?_⟩
        · rw [forall_mem_cons]
          exact ⟨fun _ => ⟨key, hkey⟩, hkeys⟩
        · have hbudget : budgetKey budgets name = key := by rw [budgetKey, hkey, Option.getD_some]
          rw [hdrawn, drawnUnder_cons, hbudget, demandUnder, sumWhere_modify_add,
            Nat.add_assoc]
          rfl

theorem exists_drawDemand (nsScoped : Bool) (spent : Demand)
    (h : ∀ e ∈ entries, e.2 ≠ 0 → ∃ key, findBudgetKey budgets e.1 = some key) :
    ∃ spent', drawDemand budgets nsScoped entries spent = some spent' := by
  induction entries generalizing spent with
  | nil => exact ⟨spent, rfl⟩
  | cons e entries ih =>
    obtain ⟨name, need⟩ := e
    rw [forall_mem_cons] at h
    rw [drawDemand]
    by_cases hneed : need = 0
    · rw [if_pos hneed]
      exact ih spent h.2
    · obtain ⟨key, hkey⟩ := h.1 hneed
      rw [if_neg hneed, drawKey, hkey]
      exact ih _ h.2

private theorem all_figures {spent : Demand} :
    (budgets.entries.all fun e => decide ((demandUnder spent e.1 : ℕ∞) ≤ e.2)) = true ↔
      ∀ k ∈ budgets.keys, (demandUnder spent k : ℕ∞) ≤ figureAt budgets k := by
  simp only [all_eq_true, decide_eq_true_eq]
  constructor
  · intro h k hk
    exact h ⟨k, figureAt budgets k⟩ (mem_entries.mpr (find_of_mem hk))
  · rintro h ⟨k, v⟩ he
    have hfind := mem_entries.mp he
    have hk := h k (mem_keys.mpr ⟨v, hfind⟩)
    rwa [figureAt_of_find hfind] at hk

private theorem eq_zero_of_drawnUnder {key : String} (h : drawnUnder budgets entries key = 0)
    {e : Sigma fun _ : String => ℕ} (he : e ∈ entries)
    (hcover : covers key (budgetKey budgets e.1) = true) : e.2 = 0 :=
  sum_eq_zero_iff.mp h e.2
    (mem_map_of_mem (mem_filter.mpr ⟨he, hcover⟩))

variable {demand : Demand}

private theorem drawnUnder_of_own
    (hown : ∀ e ∈ demand.entries, e.2 ≠ 0 → ∃ k ∈ budgets.keys, fold k = fold e.1) (key : String) :
    drawnUnder budgets demand.entries key = demandUnder demand key := by
  have hsplit : ∀ entries : List (Sigma fun _ : String => ℕ),
      (∀ e ∈ entries, e.2 ≠ 0 → ∃ k ∈ budgets.keys, fold k = fold e.1) →
      drawnUnder budgets entries key =
        ((entries.filter fun e => covers key e.1).map Sigma.snd).sum := by
    intro entries
    induction entries with
    | nil => exact fun _ => rfl
    | cons e entries ih =>
      intro h
      rw [forall_mem_cons] at h
      rw [drawnUnder_cons, ih h.2, filter_cons]
      by_cases hneed : e.2 = 0
      · split_ifs <;> simp [hneed]
      · obtain ⟨k, hk, hfold⟩ := h.1 hneed
        obtain ⟨key', hkey', hfold'⟩ := findBudgetKey_of_fold hk hfold
        have hsame : covers key (budgetKey budgets e.1) = covers key e.1 := by
          rw [budgetKey, hkey', Option.getD_some]
          exact covers_congr rfl hfold'
        rw [hsame]
        split_ifs <;> simp
  exact hsplit demand.entries hown

/-- A demand of named accelerators is drawable when every name has a key and every key holds what
is drawn on the keys it covers. -/
theorem drawable_iff_drawn (hnamed : ∀ n ∈ demand.keys, n ≠ defaultAcceleratorName) :
    drawable budgets nsScoped demand = true ↔
      (∀ e ∈ demand.entries, e.2 ≠ 0 → ∃ key, findBudgetKey budgets e.1 = some key) ∧
        ∀ k ∈ budgets.keys, (drawnUnder budgets demand.entries k : ℕ∞) ≤ figureAt budgets k := by
  have hnamed' : ∀ e ∈ demand.entries, e.1 ≠ defaultAcceleratorName := fun e he =>
    hnamed e.1 (mem_keys.mpr ⟨e.2, mem_entries.mp he⟩)
  have hspent : ∀ {spent : Demand}, drawDemand budgets nsScoped demand.entries ∅ = some spent →
      ∀ k, demandUnder spent k = drawnUnder budgets demand.entries k := by
    intro spent hdraw k
    rw [(drawDemand_eq_some hnamed' hdraw).2, demandUnder, sumWhere_empty, Nat.zero_add]
  unfold drawable
  constructor
  · intro h
    cases hdraw : drawDemand budgets nsScoped demand.entries ∅ with
    | none => simp [hdraw] at h
    | some spent =>
      simp only [hdraw, all_figures] at h
      refine ⟨(drawDemand_eq_some hnamed' hdraw).1, fun k hk => ?_⟩
      rw [← hspent hdraw]
      exact h k hk
  · rintro ⟨hfound, hfigures⟩
    obtain ⟨spent, hdraw⟩ := exists_drawDemand nsScoped ∅ hfound
    simp only [hdraw, all_figures]
    intro k hk
    rw [hspent hdraw]
    exact hfigures k hk

/-- A demand of named accelerators is drawable when every name has a key of its own and every key
holds what is demanded under it, provided any other key a name may find is empty. -/
theorem drawable_iff (hnamed : ∀ n ∈ demand.keys, n ≠ defaultAcceleratorName)
    (hempty : ∀ n ∈ demand.keys, ∀ key, findBudgetKey budgets n = some key → fold key = fold n ∨
      figureAt budgets key = 0) :
    drawable budgets nsScoped demand = true ↔
      (∀ n need, demand.find? n = some need → need ≠ 0 → ∃ k ∈ budgets.keys, fold k = fold n) ∧
        ∀ k ∈ budgets.keys, (demandUnder demand k : ℕ∞) ≤ figureAt budgets k := by
  have hkeyed : (∀ e ∈ demand.entries, e.2 ≠ 0 → ∃ k ∈ budgets.keys, fold k = fold e.1) ↔
      ∀ n need, demand.find? n = some need → need ≠ 0 → ∃ k ∈ budgets.keys, fold k = fold n :=
    ⟨fun h n need hn => h ⟨n, need⟩ (mem_entries.mpr hn),
      fun h e he => h e.1 e.2 (mem_entries.mp he)⟩
  rw [← hkeyed, drawable_iff_drawn hnamed]
  constructor
  · rintro ⟨hfound, hfigures⟩
    have hown : ∀ e ∈ demand.entries, e.2 ≠ 0 → ∃ k ∈ budgets.keys, fold k = fold e.1 := by
      intro e he hneed
      obtain ⟨key, hkey⟩ := hfound e he hneed
      have hmem : e.1 ∈ demand.keys := mem_keys.mpr ⟨e.2, mem_entries.mp he⟩
      refine ⟨key, findBudgetKey_mem hkey, ?_⟩
      refine (hempty e.1 hmem key hkey).resolve_right fun hzero => hneed ?_
      have hle := hfigures key (findBudgetKey_mem hkey)
      rw [hzero, nonpos_iff_eq_zero, Nat.cast_eq_zero] at hle
      exact eq_zero_of_drawnUnder hle he (by rw [budgetKey, hkey, Option.getD_some, covers_self])
    refine ⟨hown, fun k hk => ?_⟩
    rw [← drawnUnder_of_own hown]
    exact hfigures k hk
  · rintro ⟨hown, hfigures⟩
    refine ⟨fun e he hneed => ?_, fun k hk => ?_⟩
    · obtain ⟨k, hk, hfold⟩ := hown e he hneed
      obtain ⟨key, hkey, _⟩ := findBudgetKey_of_fold hk hfold
      exact ⟨key, hkey⟩
    · rw [drawnUnder_of_own hown]
      exact hfigures k hk

variable {own : List Pools} {figure : String → Option ℕ∞}

/-- The names a merge over `own` for this demand has a key for, up to case. -/
def Keyed (own : List Pools) (demand : Demand) (k : String) : Prop :=
  (∃ n ∈ demand.keys, fold n = fold k) ∨ ∃ a ∈ own, OwnLists a k

/-- A demand that fits the allowlists `own`, with `raw` the figure of each name. -/
structure Accepts (own : List Pools) (raw : String → ℕ∞) (demand : Demand) : Prop where
  admitted : ∀ n need, demand.find? n = some need → need ≠ 0 → Budget.materialized own n = true
  within : ∀ k, isNamed k = true → Keyed own demand k → Budget.materialized own k = true →
    (demandUnder demand k : ℕ∞) ≤ raw k

variable {k : String}

theorem demandUnder_congr (demand : Demand) {k' : String} (h : fold k = fold k') :
    demandUnder demand k = demandUnder demand k' := by
  have hcovers : (covers k ·) = (covers k' ·) := funext fun n => covers_congr h rfl
  rw [demandUnder, demandUnder, hcovers]

theorem demandUnder_mono (demand : Demand) {n : String} (h : covers k n = true) :
    demandUnder demand n ≤ demandUnder demand k := by
  unfold demandUnder GoMap.sumWhere
  apply Sublist.sum_le_sum
  · exact (monotone_filter_right _ fun e he => covers_trans h he).map _
  · exact fun _ _ => Nat.zero_le _

theorem exists_of_demandUnder_ne_zero (h : demandUnder demand k ≠ 0) :
    ∃ n need, demand.find? n = some need ∧ need ≠ 0 ∧ covers k n = true := by
  by_contra hnone
  push Not at hnone
  apply h
  rw [demandUnder, GoMap.sumWhere, sum_eq_zero_iff, forall_mem_map]
  rintro ⟨n, m⟩ he
  obtain ⟨hmem, hcover⟩ := mem_filter.mp he
  by_contra hne
  exact absurd hcover (hnone n m (mem_entries.mp hmem) hne)

/-- A named demand is drawable on a merged budget, each figure of it further bounded by `extra`,
exactly when it is accepted. -/
theorem MergeFigure.drawable_iff (h : MergeFigure own figure) (extra : String → ℕ∞)
    {raw : String → ℕ∞} (hnamed : ∀ n ∈ demand.keys, isNamed n = true)
    (hkeys : budgets.keys = (mergeNames (mergedNames own demand.keys) figure).keys)
    (hfigure : ∀ k ∈ budgets.keys, isNamed k = true →
      figureAt budgets k = figureAt (mergeNames (mergedNames own demand.keys) figure) k ⊓ extra k)
    (hraw : ∀ k ∈ budgets.keys, isNamed k = true → raw k = (figure k).getD 0 ⊓ extra k)
    (hcongr : ∀ k k', isNamed k = true → fold k = fold k' → raw k = raw k') :
    drawable budgets nsScoped demand = true ↔ Accepts own raw demand := by
  have hempty : ∀ n ∈ demand.keys, ∀ key, findBudgetKey budgets n = some key →
      fold key = fold n ∨ figureAt budgets key = 0 := by
    intro n hn key hkey
    have hmem := findBudgetKey_mem hkey
    rw [findBudgetKey_of_keys hkeys] at hkey
    refine (h.found (hnamed n hn) hn hkey).imp_right fun hzero => ?_
    rw [hfigure key hmem (isNamed_of_findBudgetKey (hnamed n hn) hkey), hzero]
    exact inf_eq_left.mpr zero_le
  rw [Budget.drawable_iff (fun n hn => ne_default_of_isNamed (hnamed n hn)) hempty]
  constructor
  · rintro ⟨hown, hfigures⟩
    constructor
    · intro n need hn hneed
      obtain ⟨k, hk, hfold⟩ := hown n need hn hneed
      rw [hkeys] at hk
      rw [← materialized_congr own hfold]
      exact h.materialized k (mem_keys_mergeNames.mp hk).2
    · intro k hk hkeyed hm
      obtain ⟨k', hk', hfold⟩ := h.exists_key demand.keys hk hm hkeyed
      rw [← hkeys] at hk'
      have hnamed' : isNamed k' = true := by rwa [isNamed_congr hfold]
      rw [← demandUnder_congr demand hfold, ← hcongr k' k hnamed' hfold, hraw k' hk' hnamed']
      refine (hfigures k' hk').trans ?_
      rw [hfigure k' hk' hnamed']
      exact inf_le_inf_right _ ((le_figureAt_mergeNames (hkeys ▸ hk')).mp le_rfl).1
  · rintro ⟨hadmitted, hwithin⟩
    constructor
    · intro n need hn hneed
      have hmem : n ∈ demand.keys := mem_keys.mpr ⟨need, hn⟩
      rw [hkeys]
      exact h.exists_key demand.keys (hnamed n hmem) (hadmitted n need hn hneed)
        (.inl ⟨n, hmem, rfl⟩)
    · intro k hk
      by_cases hzero : demandUnder demand k = 0
      · rw [hzero]
        exact zero_le
      · obtain ⟨n, need, hn, hneed, hcover⟩ := exists_of_demandUnder_ne_zero hzero
        have hk' := hk
        rw [hkeys] at hk'
        have hbelow : ∀ f ∈ (mergeNames (mergedNames own demand.keys) figure).keys,
            covers f k = true → (demandUnder demand k : ℕ∞) ≤ raw f := by
          intro f hf hfk
          obtain ⟨hspelled, hsome⟩ := mem_keys_mergeNames.mp hf
          have hfnamed : isNamed f = true := isNamed_of_covers
            (hnamed n (mem_keys.mpr ⟨need, hn⟩)) (covers_trans hfk hcover)
          have hkeyed : Keyed own demand f := by
            rcases mem_append.mp (mem_of_mem_distinctSpellings hspelled) with hd | hq
            · exact .inl ⟨f, (mem_filter.mp hd).1, rfl⟩
            · obtain ⟨a, ha, hfa⟩ := mem_flatMap.mp hq
              exact .inr ⟨a, ha, f, hfa, rfl⟩
          refine le_trans ?_ (hwithin f hfnamed hkeyed (h.materialized f hsome))
          exact_mod_cast demandUnder_mono demand hfk
        have hfigured : ∀ f ∈ (mergeNames (mergedNames own demand.keys) figure).keys,
            covers f k = true → (demandUnder demand k : ℕ∞) ≤ (figure f).getD 0 ⊓ extra f := by
          intro f hf hfk
          rw [← hraw f (hkeys ▸ hf) (isNamed_of_covers
            (hnamed n (mem_keys.mpr ⟨need, hn⟩)) (covers_trans hfk hcover))]
          exact hbelow f hf hfk
        have hknamed : isNamed k = true :=
          isNamed_of_covers (hnamed n (mem_keys.mpr ⟨need, hn⟩)) hcover
        rw [hfigure k hk hknamed, le_inf_iff, le_figureAt_mergeNames hk']
        have hself := le_inf_iff.mp (hfigured k hk' (covers_self k))
        refine ⟨⟨hself.1, fun f hf hproduct => ?_⟩, hself.2⟩
        exact (le_inf_iff.mp (hfigured f hf (covers_iff.mpr (.inr hproduct)))).1

end LlmScaler.Budget
