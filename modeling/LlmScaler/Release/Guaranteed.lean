import LlmScaler.Release.Lender

/-!
# What a release may take

What a namespace holds of a type past its guaranteed figure is counted from a provider's pool, less
the gated GPUs of the type and what the cycle's decisions already lower the namespace by. Where
anything is left, guaranteed, gated, lowered and left are within what the namespace uses.
-/

namespace LlmScaler.Release

open Core Accelerator Borrow GoMap

/-- The gated GPUs that name a type of the figures. -/
def gatedOn (past : GoMap String Int) (gated : GoMap String ℕ) (t : String) : Int :=
  sumIf (fun e : (_ : String) × ℕ => decide (e.1 ≠ "" ∧ findBudgetKey past e.1 = some t))
    (fun e => (e.2 : Int)) gated.entries

theorem gateOne_spec (past : GoMap String Int) (acc : String) (n : ℕ) :
    (gateOne past acc n).keys = past.keys ∧ ∀ t, (gateOne past acc n).get t =
      past.get t - if acc ≠ "" ∧ findBudgetKey past acc = some t then (n : Int) else 0 := by
  unfold gateOne
  by_cases hname : acc = ""
  · simp [hname]
  · rw [if_neg hname]
    cases hfind : findBudgetKey past acc with
    | none => simp
    | some k =>
      refine ⟨keys_rewrite _ _ _, fun t => ?_⟩
      have hhas := has_iff_mem_keys.mpr (findBudgetKey_mem hfind)
      simp only
      rw [get_rewrite]
      by_cases ht : t = k
      · subst ht
        rw [if_pos ⟨rfl, hhas⟩, if_pos ⟨hname, rfl⟩]
      · rw [if_neg fun h => ht h.1, if_neg fun h => ht (Option.some.inj h.2).symm, sub_zero]

theorem lessGated_spec (gated : GoMap String ℕ) (past : GoMap String Int) :
    (lessGated gated past).keys = past.keys ∧
      ∀ t, (lessGated gated past).get t = past.get t - gatedOn past gated t := by
  suffices h : ∀ (es : List ((_ : String) × ℕ)) (past' : GoMap String Int),
      past'.keys = past.keys →
      (es.foldl (fun past e => gateOne past e.1 e.2) past').keys = past.keys ∧
      ∀ t, (es.foldl (fun past e => gateOne past e.1 e.2) past').get t = past'.get t -
        sumIf (fun e : (_ : String) × ℕ => decide (e.1 ≠ "" ∧ findBudgetKey past e.1 = some t))
          (fun e => (e.2 : Int)) es from h gated.entries past rfl
  intro es
  induction es with
  | nil => simp
  | cons e es ih =>
    intro past' hkeys
    rw [List.foldl_cons]
    obtain ⟨hkeys', hgate⟩ := gateOne_spec past' e.1 e.2
    obtain ⟨hkeys'', hget⟩ := ih _ (hkeys'.trans hkeys)
    refine ⟨hkeys'', fun t => ?_⟩
    rw [hget, hgate, sumIf_cons, findBudgetKey_of_keys hkeys]
    simp only [decide_eq_true_eq]
    omega

theorem find?_pastOf {pools : Budget.Pools} {t : String} {n : Int}
    (h : (pastOf pools).find? t = some n) : ∃ p limit, pools.find? t = some p ∧
      p.limit = ((limit : ℕ) : ℕ∞) ∧ n = (p.used : Int) - limit := by
  refine (?_ : GoMap.Every (pastOf pools) fun t n => ∃ p limit, pools.find? t = some p ∧
      p.limit = ((limit : ℕ) : ℕ∞) ∧ n = (p.used : Int) - limit) t n h
  unfold pastOf
  refine List.foldlRecOn (motive := fun m : GoMap String Int => GoMap.Every m fun t n =>
    ∃ p limit, pools.find? t = some p ∧ p.limit = ((limit : ℕ) : ℕ∞) ∧ n = (p.used : Int) - limit)
    _ _ every_empty fun m hm e he => ?_
  obtain ⟨t, p⟩ := e
  have hpool := mem_entries.mp he
  obtain ⟨plimit, used⟩ := p
  cases plimit with
  | top => exact hm
  | coe limit => exact hm.set ⟨_, limit, hpool, rfl, rfl⟩

/-- A figure counted for a namespace: nothing, or what one entry's pool leaves past its guaranteed
figure and the gated GPUs. -/
def CountedFrom (constraints : List BorrowConstraints) (gated : GoMap String (GoMap String ℕ))
    (ns t : String) (n : Int) : Prop :=
  0 ≤ n ∧ (0 < n → ∃ con ∈ counting constraints, ns ∈ (con.namespaceBorrow.getD ∅).keys ∧
    ∃ p limit, (con.namespacePools.get ns).find? t = some p ∧ p.limit = ((limit : ℕ) : ℕ∞) ∧
      n + limit + gatedOn (pastOf (con.namespacePools.get ns)) (gated.get ns) t ≤ p.used)

section

variable {constraints : List BorrowConstraints} {gated : GoMap String (GoMap String ℕ)}

theorem settleTypes_every {con : BorrowConstraints} {ns : String} (hcon : con ∈ counting constraints)
    (hns : ns ∈ (con.namespaceBorrow.getD ∅).keys) {figures : GoMap String Int}
    (hfigures : GoMap.Every figures (CountedFrom constraints gated ns)) {untyped : Int}
    (huntyped : 0 ≤ untyped) :
    GoMap.Every (((Sorting.byKey id).sort
      (lessGated (gated.get ns) (pastOf (con.namespacePools.get ns))).keys).foldl
        (settleType (lessGated (gated.get ns) (pastOf (con.namespacePools.get ns))))
        (figures, untyped)).1 (CountedFrom constraints gated ns) := by
  obtain ⟨hkeys, hpast⟩ := lessGated_spec (gated.get ns) (pastOf (con.namespacePools.get ns))
  refine (List.foldlRecOn (motive := fun st : GoMap String Int × Int =>
    GoMap.Every st.1 (CountedFrom constraints gated ns) ∧ 0 ≤ st.2) _ _
    ⟨hfigures, huntyped⟩ fun st hst t ht => ?_).1
  obtain ⟨hevery, hrest⟩ := hst
  rw [Sorting.mem_sort, hkeys] at ht
  obtain ⟨n, hn⟩ := mem_keys.mp ht
  obtain ⟨p, limit, hpool, hlimit, rfl⟩ := find?_pastOf hn
  have hget := hpast t
  rw [get_of_find? hn] at hget
  simp only [settleType]
  refine ⟨hevery.set ⟨le_max_left _ _, fun hpos => ?_⟩, by omega⟩
  exact ⟨con, hcon, hns, p, limit, hpool, hlimit, by omega⟩

theorem namespaceBorrowed_counted (ns : String) :
    GoMap.Every ((namespaceBorrowed constraints gated).get ns)
      (CountedFrom constraints gated ns) := by
  have hempty : ∀ ns, GoMap.Every ((∅ : Left).get ns) (CountedFrom constraints gated ns) :=
    fun _ => every_empty
  revert ns
  unfold namespaceBorrowed
  refine List.foldlRecOn (motive := fun out : Left => ∀ ns, GoMap.Every (out.get ns)
    (CountedFrom constraints gated ns)) _ _ hempty fun out hout con hcon => ?_
  refine List.foldlRecOn (motive := fun out : Left => ∀ ns, GoMap.Every (out.get ns)
    (CountedFrom constraints gated ns)) _ _ hout fun out hout ns hns => ?_
  intro ns'
  unfold addBorrowed
  simp only
  split_ifs
  · exact hout ns'
  · rw [get_set]
    split_ifs with heq
    · subst heq
      exact settleTypes_every hcon hns (hout ns') (Int.natCast_nonneg _)
    · exact hout ns'

end

namespace BorrowCycle

variable (c : BorrowCycle)

/-- A decision of a namespace that lowers what it holds of a type. -/
def lowersType (ns t : String) (d : VariantDecision) : Bool :=
  decide (d.ns = ns) && decide (findKey ((namespaceBorrowed c.borrowConstraints c.gated).get ns)
    ((variantAccs c.requests).get (variantKey d.ns d.variantName)) = some t)

/-- The GPUs of a type the decisions already lower a namespace by. -/
def loweredOn (ns t : String) (decisions : List VariantDecision) : Int :=
  sumIf (c.lowersType ns t)
    (fun d => max 0 ((d.currentReplicas : Int) - d.targetReplicas) * d.gpr) decisions

end BorrowCycle

theorem lessLowered_spec (accs : GoMap String String) (left : Left) (d : VariantDecision)
    (ns : String) : ((lessLowered accs left d).get ns).keys = (left.get ns).keys ∧
      ∀ t, ((lessLowered accs left d).get ns).get t =
        if 0 < (d.currentReplicas : Int) - d.targetReplicas ∧ d.ns = ns ∧
            findKey (left.get ns) (accs.get (variantKey d.ns d.variantName)) = some t then
          max 0 ((left.get ns).get t - max 0 ((d.currentReplicas : Int) - d.targetReplicas) * d.gpr)
        else (left.get ns).get t := by
  unfold lessLowered
  simp only
  by_cases hle : (d.currentReplicas : Int) - d.targetReplicas ≤ 0
  · rw [if_pos hle]
    exact ⟨rfl, fun t => by rw [if_neg fun h => absurd h.1 (by omega)]⟩
  · rw [if_neg hle]
    have hmax : max 0 ((d.currentReplicas : Int) - d.targetReplicas) =
        (d.currentReplicas : Int) - d.targetReplicas := by omega
    rw [hmax]
    by_cases hns : d.ns = ns
    · subst hns
      cases hkey : findKey (left.get d.ns) (accs.get (variantKey d.ns d.variantName)) with
      | none => simp
      | some k =>
        have hmem := findKey_mem hkey
        have hhas : left.has d.ns = true := by
          refine has_of_get_ne fun hdefault => ?_
          rw [hdefault] at hmem
          cases hmem
        simp only
        rw [get_rewrite, if_pos ⟨rfl, hhas⟩]
        refine ⟨keys_rewrite _ _ _, fun t => ?_⟩
        rw [get_rewrite]
        by_cases ht : t = k
        · subst ht
          rw [if_pos ⟨rfl, has_iff_mem_keys.mpr hmem⟩, if_pos ⟨by omega, by trivial, rfl⟩]
        · rw [if_neg fun h => ht h.1, if_neg fun h => ht (Option.some.inj h.2.2).symm]
    · cases hkey : findKey (left.get d.ns) (accs.get (variantKey d.ns d.variantName)) with
      | none => simp [hns]
      | some k =>
        simp only
        rw [get_rewrite, if_neg fun h => hns h.1.symm]
        exact ⟨rfl, fun t => by rw [if_neg fun h => hns h.2.1]⟩

/-- What is left of a type, and what the decisions lower it by, is within what is counted. -/
theorem BorrowCycle.borrowedLeft_spec (c : BorrowCycle) (ns t : String)
    (decisions : List VariantDecision) :
    0 ≤ ((c.borrowedLeft decisions).get ns).get t ∧
      (0 < ((c.borrowedLeft decisions).get ns).get t →
        ((c.borrowedLeft decisions).get ns).get t + c.loweredOn ns t decisions ≤
          ((namespaceBorrowed c.borrowConstraints c.gated).get ns).get t) := by
  suffices h : ∀ (ds : List VariantDecision) (left : Left),
      (left.get ns).keys = ((namespaceBorrowed c.borrowConstraints c.gated).get ns).keys →
      0 ≤ (left.get ns).get t →
      0 ≤ ((ds.foldl (lessLowered (variantAccs c.requests)) left).get ns).get t ∧
        (0 < ((ds.foldl (lessLowered (variantAccs c.requests)) left).get ns).get t →
          ((ds.foldl (lessLowered (variantAccs c.requests)) left).get ns).get t +
            c.loweredOn ns t ds ≤ (left.get ns).get t) by
    refine h decisions _ rfl ?_
    cases hfind : ((namespaceBorrowed c.borrowConstraints c.gated).get ns).find? t with
    | none => exact (get_of_find?_none hfind).ge
    | some n =>
      rw [get_of_find? hfind]
      exact (namespaceBorrowed_counted ns t n hfind).1
  intro ds
  induction ds with
  | nil =>
    intro left _ hpos
    exact ⟨hpos, fun _ => by simp [BorrowCycle.loweredOn]⟩
  | cons d ds ih =>
    intro left hkeys hpos
    obtain ⟨hkeys', hget⟩ := lessLowered_spec (variantAccs c.requests) left d ns
    rw [List.foldl_cons]
    have hnext : 0 ≤ ((lessLowered (variantAccs c.requests) left d).get ns).get t := by
      rw [hget]
      split_ifs
      · exact le_max_left _ _
      · exact hpos
    obtain ⟨hnonneg, hbound⟩ := ih _ (hkeys'.trans hkeys) hnext
    refine ⟨hnonneg, fun hleft => ?_⟩
    have hrest := hbound hleft
    have hmul : 0 ≤ max 0 ((d.currentReplicas : Int) - d.targetReplicas) * (d.gpr : Int) :=
      mul_nonneg (le_max_left _ _) (Int.natCast_nonneg _)
    have hlowered : c.loweredOn ns t (d :: ds) = (if c.lowersType ns t d then
        max 0 ((d.currentReplicas : Int) - d.targetReplicas) * (d.gpr : Int) else 0) +
          c.loweredOn ns t ds := sumIf_cons d ds
    have htest : c.lowersType ns t d = decide (d.ns = ns ∧ findKey (left.get ns)
        ((variantAccs c.requests).get (variantKey d.ns d.variantName)) = some t) := by
      rw [BorrowCycle.lowersType, ← findKey_of_keys hkeys, Bool.decide_and]
    have hloweredOn : 0 ≤ c.loweredOn ns t ds :=
      sumIf_nonneg fun _ _ _ => mul_nonneg (le_max_left _ _) (Int.natCast_nonneg _)
    rw [hlowered, htest]
    rw [hget] at hrest
    by_cases hcharged : d.ns = ns ∧ findKey (left.get ns)
        ((variantAccs c.requests).get (variantKey d.ns d.variantName)) = some t
    · rw [if_pos (decide_eq_true hcharged)]
      by_cases hlow : 0 < (d.currentReplicas : Int) - d.targetReplicas
      · rw [if_pos ⟨hlow, hcharged⟩] at hrest
        omega
      · have hzero : max 0 ((d.currentReplicas : Int) - d.targetReplicas) = 0 := by omega
        rw [if_neg fun h => hlow h.1] at hrest
        rw [hzero, zero_mul]
        omega
    · rw [if_neg fun h => hcharged h.2] at hrest
      rw [if_neg (by simpa using hcharged)]
      omega

/-- Where a release may take anything of a type, what it may take, what the cycle already lowers and
what is gated is past the guaranteed figure of a pool that counts the namespace. -/
theorem BorrowCycle.borrowedLeft_past (c : BorrowCycle) {ns t : String}
    {decisions : List VariantDecision} (h : 0 < ((c.borrowedLeft decisions).get ns).get t) :
    ∃ con ∈ counting c.borrowConstraints, ns ∈ (con.namespaceBorrow.getD ∅).keys ∧
      ∃ p limit, (con.namespacePools.get ns).find? t = some p ∧ p.limit = ((limit : ℕ) : ℕ∞) ∧
        (limit : Int) + ((c.borrowedLeft decisions).get ns).get t + c.loweredOn ns t decisions +
          gatedOn (pastOf (con.namespacePools.get ns)) (c.gated.get ns) t ≤ p.used := by
  have hle := (c.borrowedLeft_spec ns t decisions).2 h
  have hlowered : 0 ≤ c.loweredOn ns t decisions :=
    sumIf_nonneg fun _ _ _ => mul_nonneg (le_max_left _ _) (Int.natCast_nonneg _)
  cases hfind : ((namespaceBorrowed c.borrowConstraints c.gated).get ns).find? t with
  | none =>
    have hzero := get_of_find?_none hfind
    have hdefault : (default : Int) = 0 := rfl
    omega
  | some n =>
    rw [get_of_find? hfind] at hle
    obtain ⟨con, hcon, hns, p, limit, hpool, hlimit, hused⟩ :=
      (namespaceBorrowed_counted ns t n hfind).2 (by omega)
    exact ⟨con, hcon, hns, p, limit, hpool, hlimit, by omega⟩

end LlmScaler.Release
