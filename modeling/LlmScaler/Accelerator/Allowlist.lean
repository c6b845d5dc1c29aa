import LlmScaler.Core.Limits
import LlmScaler.Accelerator.Keys

/-!
# Allowlists

An allowlist is a set of GPU bounds keyed by accelerator name; it is closed, so a name it does
not list gets nothing under it. A bound is the GPUs it leaves free, `⊤` when it is unlimited. A
key bounds its own name and, as a family, the sum of its products; a family listed only through
products is bounded by their sum.
-/

namespace LlmScaler.Accelerator

open Core List

variable {ν : Type*} (bound : ν → ℕ∞)

def boundsWhere (allowlist : GoMap String ν) (test : String → Bool) : List ℕ∞ :=
  (allowlist.entries.filter fun e => test e.1).map fun e => bound e.2

/-- What one allowlist allows on the accelerator called `name`, `none` when it does not list it.
Several case spellings of one key take the tightest. -/
def allowlistBound (allowlist : GoMap String ν) (name : String) : Option ℕ∞ :=
  let own := boundsWhere bound allowlist (equalFold · name)
  let products := boundsWhere bound allowlist (isProductOf · name)
  let families := boundsWhere bound allowlist (isProductOf name ·)
  if own ≠ [] then some (tightest own ⊓ tightest families)
  else if products ≠ [] then some products.sum
  else if families ≠ [] then some (tightest families)
  else none

/-- The bound one cluster-wide allowlist puts on `name`, `none` when it does not bound it: a name
it does not list is bounded at 0, except the catch-all placeholder. -/
def clusterAllowlistBound (allowlist : GoMap String ν) (name : String) : Option ℕ∞ :=
  match allowlistBound bound allowlist name with
  | some free => some free
  | none => if name = defaultAcceleratorName then none else some 0

/-- Whether `name` is a family that one of the allowlists does not list itself. -/
def closesFamily (allowlists : List (GoMap String ν)) (name : String) : Bool :=
  isFamily name && isAcceleratorResolved name &&
    allowlists.any fun a => !a.keys.any (equalFold · name)

/-- Whether one of the allowlists lists a product of the family called `name`. -/
def listsProduct (allowlists : List (GoMap String ν)) (name : String) : Bool :=
  allowlists.any fun a => a.keys.any (isProductOf · name)

/-- The names of a list with later spellings of an earlier one dropped. -/
def dropSpellings (names : List String) : List String :=
  names.foldl (fun out n => if out.any (equalFold · n) then out else out ++ [n]) []

/-- The tightest bound several cluster-wide allowlists put on `name`. -/
def tightestOf (allowlists : List (GoMap String ν)) (name : String) : Option ℕ∞ :=
  match allowlists.filterMap (clusterAllowlistBound bound · name) with
  | [] => none
  | free :: rest => some (tightest (free :: rest))

/-- The products of the family called `name` that some allowlist lists, one spelling each. -/
def productsOf (allowlists : List (GoMap String ν)) (name : String) : List String :=
  dropSpellings (allowlists.flatMap fun a => a.keys.filter (isProductOf · name))

/-- The bound several cluster-wide allowlists put together on `name`. A family that one of them
lists only through products is also bounded by the sum, over every product any of them lists, of
the tightest bound on that product. -/
def clusterAllowlistsBound (allowlists : List (GoMap String ν)) (name : String) : Option ℕ∞ :=
  match tightestOf bound allowlists name with
  | none => none
  | some free =>
    if closesFamily allowlists name then
      some (free ⊓ ((productsOf allowlists name).map fun p =>
        (tightestOf bound allowlists p).getD 0).sum)
    else some free

def boundAt (allowlist : GoMap String ν) (key : String) : ℕ∞ :=
  ((allowlist.find? key).map bound).getD 0

theorem boundsWhere_eq (allowlist : GoMap String ν) (test : String → Bool) :
    boundsWhere bound allowlist test = (allowlist.keys.filter test).map (boundAt bound allowlist) := by
  unfold boundsWhere AList.keys List.keys
  rw [filter_map, map_map]
  refine map_congr_left fun e he => ?_
  have hfind : allowlist.find? e.1 = some e.2 := GoMap.mem_entries.mp (mem_of_mem_filter he)
  simp [boundAt, hfind]

/-- Whether the allowlist has a key that is `name` up to case. -/
def OwnLists (allowlist : GoMap String ν) (name : String) : Prop :=
  ∃ q ∈ allowlist.keys, fold q = fold name

/-- Whether the allowlist lists `name`: by a key that covers it or one it covers. -/
def Lists (allowlist : GoMap String ν) (name : String) : Prop :=
  ∃ q ∈ allowlist.keys, covers q name = true ∨ covers name q = true

variable {allowlist : GoMap String ν} {name : String}

theorem OwnLists.lists (h : OwnLists allowlist name) : Lists allowlist name := by
  obtain ⟨q, hq, hfold⟩ := h
  exact ⟨q, hq, .inl (covers_of_fold_eq hfold)⟩

theorem Lists.of_covers {k : String} (h : Lists allowlist name) (hk : covers k name = true) :
    Lists allowlist k := by
  obtain ⟨q, hq, hcover | hcover⟩ := h
  · rcases covers_iff.mp hk with hfold | hproduct
    · exact ⟨q, hq, .inl (by rwa [covers_congr rfl hfold])⟩
    · rcases covers_iff.mp hcover with hfold | hproduct'
      · exact ⟨q, hq, .inr (by rwa [covers_congr rfl hfold])⟩
      · exact ⟨q, hq, .inl (covers_of_fold_eq (fold_eq_of_isProductOf hproduct' hproduct))⟩
  · exact ⟨q, hq, .inr (covers_trans hk hcover)⟩

theorem Lists.own_of_not_own {p f : String} (h : Lists allowlist p)
    (hproduct : isProductOf p f = true) (hown : ¬ OwnLists allowlist f) : OwnLists allowlist p := by
  obtain ⟨q, hq, hkin⟩ := h
  refine ⟨q, hq, ?_⟩
  rcases hkin with hkin | hkin
  · refine (covers_iff.mp hkin).resolve_right fun hpq => ?_
    exact hown ⟨q, hq, fold_eq_of_isProductOf hpq hproduct⟩
  · refine ((covers_iff.mp hkin).resolve_right fun hqp => ?_).symm
    exact not_isProductOf_isProductOf hqp hproduct

def coverKeys (allowlist : GoMap String ν) (name : String) : List String :=
  allowlist.keys.filter (covers · name)

def productKeys (allowlist : GoMap String ν) (name : String) : List String :=
  allowlist.keys.filter (isProductOf · name)

variable {q : String}

theorem mem_coverKeys :
    q ∈ coverKeys allowlist name ↔ q ∈ allowlist.keys ∧ covers q name = true := by
  simp [coverKeys]

theorem mem_productKeys :
    q ∈ productKeys allowlist name ↔ q ∈ allowlist.keys ∧ isProductOf q name = true := by
  simp [productKeys]

variable {test : String → Bool}

theorem boundsWhere_ne_nil :
    boundsWhere bound allowlist test ≠ [] ↔ ∃ q ∈ allowlist.keys, test q = true := by
  rw [boundsWhere_eq, ne_eq, map_eq_nil_iff, filter_eq_nil_iff]
  simp

theorem coverKeys_eq_nil (hown : ¬ OwnLists allowlist name) (hfamily : isFamily name = true) :
    coverKeys allowlist name = [] := by
  rw [eq_nil_iff_forall_not_mem]
  intro q hq
  obtain ⟨hmem, hcover⟩ := mem_coverKeys.mp hq
  rcases covers_iff.mp hcover with hfold | hproduct
  · exact hown ⟨q, hmem, hfold⟩
  · rw [(isProductOf_iff.mp hproduct).2.1] at hfamily
    cases hfamily

theorem le_tightest_boundsWhere {x : ℕ∞} :
    x ≤ tightest (boundsWhere bound allowlist test) ↔
      ∀ q ∈ allowlist.keys, test q = true → x ≤ boundAt bound allowlist q := by
  rw [boundsWhere_eq, le_tightest, forall_mem_map]
  simp [mem_filter]

theorem le_tightest_coverKeys {x : ℕ∞} :
    x ≤ tightest ((coverKeys allowlist name).map (boundAt bound allowlist)) ↔
      ∀ q ∈ allowlist.keys, covers q name = true → x ≤ boundAt bound allowlist q := by
  rw [le_tightest, forall_mem_map]
  simp [mem_coverKeys]

private theorem own_ne_nil :
    boundsWhere bound allowlist (equalFold · name) ≠ [] ↔ OwnLists allowlist name := by
  simp only [boundsWhere_ne_nil, OwnLists, equalFold_iff]

/-- A name listed itself, or a product listed by its family, is bounded by the keys that cover
it. -/
theorem allowlistBound_of_own
    (h : OwnLists allowlist name ∨ Lists allowlist name ∧ isFamily name = false) :
    allowlistBound bound allowlist name =
      some (tightest ((coverKeys allowlist name).map (boundAt bound allowlist))) := by
  unfold allowlistBound
  by_cases hown : OwnLists allowlist name
  · rw [if_pos ((own_ne_nil bound).mpr hown), Option.some_inj]
    refine eq_of_forall_le_iff fun x => ?_
    rw [le_inf_iff, le_tightest_boundsWhere, le_tightest_boundsWhere, le_tightest_coverKeys]
    simp only [equalFold_iff, covers_iff]
    exact ⟨fun ⟨hcase, hfamily⟩ q hq hcover => hcover.elim (hcase q hq) (hfamily q hq),
      fun hcover => ⟨fun q hq hfold => hcover q hq (.inl hfold),
        fun q hq hproduct => hcover q hq (.inr hproduct)⟩⟩
  · obtain ⟨⟨q, hq, hkin⟩, hproduct⟩ := h.resolve_left hown
    have hfold : ∀ q ∈ allowlist.keys, fold q ≠ fold name := fun q hq he => hown ⟨q, hq, he⟩
    have hnotFamily : ∀ p, isProductOf p name = false := by
      intro p
      rw [isProductOf, hproduct]
      rfl
    have hfamilyKey : isProductOf name q = true := by
      rcases hkin with hcover | hcover
      · exact (covers_iff.mp hcover).resolve_left (hfold q hq)
      · exact absurd ((covers_iff.mp hcover).resolve_left (Ne.symm (hfold q hq)))
          (by rw [hnotFamily q]; exact Bool.false_ne_true)
    have hproducts : boundsWhere bound allowlist (isProductOf · name) = [] := by
      by_contra hne
      obtain ⟨p, _, hp⟩ := (boundsWhere_ne_nil bound).mp hne
      rw [hnotFamily p] at hp
      cases hp
    rw [if_neg (fun hne => hown ((own_ne_nil bound).mp hne)), if_neg (not_not.mpr hproducts),
      if_pos ((boundsWhere_ne_nil bound).mpr ⟨q, hq, hfamilyKey⟩), Option.some_inj]
    refine eq_of_forall_le_iff fun x => ?_
    rw [le_tightest_boundsWhere, le_tightest_coverKeys]
    refine forall₂_congr fun q hq => ?_
    rw [covers_iff, or_iff_right (hfold q hq)]

theorem allowlistBound_of_products (hown : ¬ OwnLists allowlist name)
    (hlists : Lists allowlist name) (hfamily : isFamily name = true) :
    allowlistBound bound allowlist name =
      some ((productKeys allowlist name).map (boundAt bound allowlist)).sum := by
  obtain ⟨q, hq, hkin⟩ := hlists
  have hproduct : isProductOf q name = true := by
    rcases hkin with hcover | hcover
    · have hmem : q ∈ coverKeys allowlist name := mem_coverKeys.mpr ⟨hq, hcover⟩
      rw [coverKeys_eq_nil hown hfamily] at hmem
      cases hmem
    · exact (covers_iff.mp hcover).resolve_left fun he => hown ⟨q, hq, he.symm⟩
  unfold allowlistBound
  rw [if_neg (fun hne => hown ((own_ne_nil bound).mp hne)),
    if_pos ((boundsWhere_ne_nil bound).mpr ⟨q, hq, hproduct⟩), boundsWhere_eq]
  rfl

theorem allowlistBound_of_not_lists (h : ¬ Lists allowlist name) :
    allowlistBound bound allowlist name = none := by
  have hcover : ∀ q ∈ allowlist.keys, ¬ (covers q name = true ∨ covers name q = true) :=
    fun q hq hkin => h ⟨q, hq, hkin⟩
  unfold allowlistBound
  rw [if_neg, if_neg, if_neg]
  · intro hne
    obtain ⟨q, hq, hproduct⟩ := (boundsWhere_ne_nil bound).mp hne
    exact hcover q hq (.inl (covers_iff.mpr (.inr hproduct)))
  · intro hne
    obtain ⟨q, hq, hproduct⟩ := (boundsWhere_ne_nil bound).mp hne
    exact hcover q hq (.inr (covers_iff.mpr (.inr hproduct)))
  · intro hne
    exact h ((own_ne_nil bound).mp hne).lists

/-- The GPUs an allowlist leaves to `name`, none when it does not list it. -/
def freeOf (allowlist : GoMap String ν) (name : String) : ℕ∞ :=
  (allowlistBound bound allowlist name).getD 0

theorem freeOf_of_own (h : OwnLists allowlist name ∨ Lists allowlist name ∧ isFamily name = false) :
    freeOf bound allowlist name =
      tightest ((coverKeys allowlist name).map (boundAt bound allowlist)) := by
  rw [freeOf, allowlistBound_of_own bound h, Option.getD_some]

theorem freeOf_of_products (hown : ¬ OwnLists allowlist name) (hlists : Lists allowlist name)
    (hfamily : isFamily name = true) : freeOf bound allowlist name =
      ((productKeys allowlist name).map (boundAt bound allowlist)).sum := by
  rw [freeOf, allowlistBound_of_products bound hown hlists hfamily, Option.getD_some]

theorem freeOf_of_not_lists (h : ¬ Lists allowlist name) : freeOf bound allowlist name = 0 := by
  rw [freeOf, allowlistBound_of_not_lists bound h, Option.getD_none]

theorem freeOf_le (hq : q ∈ allowlist.keys) (hcover : covers q name = true) :
    freeOf bound allowlist name ≤ boundAt bound allowlist q := by
  have hlists : Lists allowlist name := ⟨q, hq, .inl hcover⟩
  have hown : OwnLists allowlist name ∨ Lists allowlist name ∧ isFamily name = false := by
    rcases covers_iff.mp hcover with hfold | hproduct
    · exact .inl ⟨q, hq, hfold⟩
    · exact .inr ⟨hlists, (isProductOf_iff.mp hproduct).2.1⟩
  rw [freeOf_of_own bound hown]
  exact tightest_le (mem_map_of_mem (mem_coverKeys.mpr ⟨hq, hcover⟩))

theorem freeOf_mono {f p : String} (h : isProductOf p f = true) :
    freeOf bound allowlist p ≤ freeOf bound allowlist f := by
  have hcover : covers f p = true := covers_iff.mpr (.inr h)
  by_cases hlists : Lists allowlist p
  · by_cases hown : OwnLists allowlist f
    · rw [freeOf_of_own bound (.inl hown), le_tightest_coverKeys]
      intro q hq hqf
      exact freeOf_le bound hq (covers_trans hqf hcover)
    · have hfamily := (isProductOf_iff.mp h).1
      rw [freeOf_of_products bound hown (hlists.of_covers hcover) hfamily]
      obtain ⟨q, hq, hfold⟩ := hlists.own_of_not_own h hown
      have hmem : q ∈ productKeys allowlist f :=
        mem_productKeys.mpr ⟨hq, by rwa [isProductOf_congr hfold rfl]⟩
      exact (freeOf_le bound hq (covers_of_fold_eq hfold)).trans
        (single_le_sum (fun _ _ => zero_le) _ (mem_map_of_mem hmem))
  · rw [freeOf_of_not_lists bound hlists]
    exact zero_le

/-- The GPUs a cluster-wide allowlist leaves to `name`, unbounded when it does not bound it. -/
def clusterFreeOf (allowlist : GoMap String ν) (name : String) : ℕ∞ :=
  (clusterAllowlistBound bound allowlist name).getD ⊤

theorem clusterFreeOf_eq (h : Lists allowlist name ∨ name ≠ defaultAcceleratorName) :
    clusterFreeOf bound allowlist name = freeOf bound allowlist name := by
  unfold clusterFreeOf clusterAllowlistBound freeOf
  cases hbound : allowlistBound bound allowlist name with
  | some free => rfl
  | none =>
    have hname : name ≠ defaultAcceleratorName := by
      refine h.resolve_left fun hlists => ?_
      by_cases hown : OwnLists allowlist name ∨ Lists allowlist name ∧ isFamily name = false
      · rw [allowlistBound_of_own bound hown] at hbound
        cases hbound
      · push Not at hown
        rw [allowlistBound_of_products bound hown.1 hlists
          ((Bool.not_eq_false _).mp (hown.2 hlists))] at hbound
        cases hbound
    rw [if_neg hname]
    rfl

theorem freeOf_le_clusterFreeOf (allowlist : GoMap String ν) (name : String) :
    freeOf bound allowlist name ≤ clusterFreeOf bound allowlist name := by
  unfold clusterFreeOf clusterAllowlistBound freeOf
  cases allowlistBound bound allowlist name with
  | some free => exact le_rfl
  | none => exact zero_le

private theorem boundsWhere_congr (allowlist : GoMap String ν) {test' : String → Bool}
    (h : ∀ q, test q = test' q) :
    boundsWhere bound allowlist test = boundsWhere bound allowlist test' := by
  rw [funext h]

theorem allowlistBound_congr (allowlist : GoMap String ν) {a b : String} (h : fold a = fold b) :
    allowlistBound bound allowlist a = allowlistBound bound allowlist b := by
  have hcase : ∀ q, equalFold q a = equalFold q b := by
    intro q
    rw [Bool.eq_iff_iff, equalFold_iff, equalFold_iff, h]
  have hproduct : ∀ q, isProductOf q a = isProductOf q b := fun q => isProductOf_congr rfl h
  have hfamily : ∀ q, isProductOf a q = isProductOf b q := fun q => isProductOf_congr h rfl
  unfold allowlistBound
  rw [boundsWhere_congr bound allowlist hcase, boundsWhere_congr bound allowlist hproduct,
    boundsWhere_congr bound allowlist hfamily]

theorem dropSpellings_append_singleton (names : List String) (n : String) :
    dropSpellings (names ++ [n]) =
      if (dropSpellings names).any (equalFold · n) then dropSpellings names
      else dropSpellings names ++ [n] := by
  simp [dropSpellings, foldl_append]

theorem mem_of_mem_dropSpellings {names : List String} {n : String}
    (h : n ∈ dropSpellings names) : n ∈ names := by
  induction names using reverseRecOn with
  | nil => cases h
  | append_singleton names m ih =>
    rw [dropSpellings_append_singleton] at h
    split_ifs at h
    · exact mem_append_left _ (ih h)
    · rcases mem_append.mp h with h | h
      · exact mem_append_left _ (ih h)
      · exact mem_append_right _ h

theorem exists_mem_dropSpellings {names : List String} {n : String} (h : n ∈ names) :
    ∃ m ∈ dropSpellings names, fold m = fold n := by
  induction names using reverseRecOn with
  | nil => cases h
  | append_singleton names m ih =>
    rw [dropSpellings_append_singleton]
    rcases mem_append.mp h with h | h
    · obtain ⟨k, hk, hfold⟩ := ih h
      refine ⟨k, ?_, hfold⟩
      split_ifs
      · exact hk
      · exact mem_append_left _ hk
    · rw [mem_singleton.mp h]
      split_ifs with hany
      · simpa [equalFold_iff] using hany
      · exact ⟨m, mem_append_right _ mem_cons_self, rfl⟩

theorem dropSpellings_nodup (names : List String) : ((dropSpellings names).map fold).Nodup := by
  induction names using reverseRecOn with
  | nil => exact nodup_nil
  | append_singleton names m ih =>
    rw [dropSpellings_append_singleton]
    split_ifs with hany
    · exact ih
    · rw [map_append, nodup_append]
      refine ⟨ih, nodup_singleton _, ?_⟩
      intro a ha b hb hab
      obtain ⟨k, hk, rfl⟩ := mem_map.mp ha
      rw [map_singleton, mem_singleton] at hb
      apply hany
      rw [any_eq_true]
      exact ⟨k, hk, equalFold_iff.mpr (hab.trans hb)⟩

end LlmScaler.Accelerator
