import Mathlib

/-!
# Accelerator names

Names form a two-level tree: a family such as `H100` and the products under it, such as
`NVIDIA-H100-80GB-HBM3`. Spellings that differ only in case are one node. The tree is read off
the short name of a name, and every relation between names depends on their folded spellings
alone. Case is folded as in ASCII, which is what node labels and quota keys are written in.
-/

namespace LlmScaler.Accelerator

open List

def foldCase (text : List Char) : List Char := text.map Char.toLower

/-- `strings.EqualFold` on the characters of two texts. -/
def equalFoldChars (a b : List Char) : Bool := foldCase a == foldCase b

/-- The short name in a name split at its hyphens, by vendor. -/
def modelSegment (vendor model : List Char) (rest : List (List Char)) : List Char :=
  if vendor.map Char.toUpper = "NVIDIA".toList then
    match rest with
    -- GKE spells the Tesla family with the brand in the middle
    | variant :: _ => if equalFoldChars model "tesla".toList then variant else model
    | [] => model
  else if vendor.map Char.toUpper = "AMD".toList then model
  else if vendor.map Char.toUpper = "INTEL".toList then
    match rest with
    | variant :: _ => model ++ '-' :: variant
    | [] => model
  else model

def normalizeAcceleratorName (fullName : String) : String :=
  if fullName.toList.contains '-' then
    match fullName.toList.splitOn '-' with
    | vendor :: model :: rest => String.ofList (modelSegment vendor model rest)
    | _ => fullName
  else fullName

/-- `strings.EqualFold`. -/
def equalFold (a b : String) : Bool := equalFoldChars a.toList b.toList

/-- Whether two names denote one accelerator: equal up to case, or one the short name of the
other up to case. -/
def sameName (a b : String) : Bool :=
  equalFold a b ||
  (normalizeAcceleratorName a != a && equalFold (normalizeAcceleratorName a) b) ||
  (normalizeAcceleratorName b != b && equalFold (normalizeAcceleratorName b) a)

def isFamily (name : String) : Bool := normalizeAcceleratorName name == name

def family (name : String) : String := normalizeAcceleratorName name

/-- Whether `product` is a product name under the family name `family'`. -/
def isProductOf (product family' : String) : Bool :=
  isFamily family' && !isFamily product && equalFold (family product) family'

/-- Whether a budget keyed `key` bounds what is spent under `name`. -/
def covers (key name : String) : Bool := equalFold key name || isProductOf name key

/-- The placeholder for a workload that names no accelerator. -/
def defaultAcceleratorName : String := "unknown"

/-- The label value of an accelerator that was not resolved. -/
def unresolvedAcceleratorType : String := "unresolved"

/-- Whether a name is that of a real GPU type. -/
def isAcceleratorResolved (name : String) : Bool :=
  name != "" && name != defaultAcceleratorName && name != unresolvedAcceleratorType

/-- Whether a name is not a spelling or a product of a placeholder. -/
def isNamed (name : String) : Bool :=
  ["", defaultAcceleratorName, unresolvedAcceleratorType].all fun u => !covers u name

example : normalizeAcceleratorName "NVIDIA-H100-80GB-HBM3" = "H100" := by decide
example : normalizeAcceleratorName "nvidia-tesla-t4" = "t4" := by decide
example : normalizeAcceleratorName "Intel-Gaudi-2-96GB" = "Gaudi-2" := by decide

/-- The folded spelling of a name: what the family tree is read off. -/
def fold (name : String) : List Char := foldCase name.toList

variable {a b : String}

theorem equalFold_iff : equalFold a b = true ↔ fold a = fold b :=
  beq_iff_eq

private theorem toLower_val (c : Char) : c.toLower.val.toNat =
    if 65 ≤ c.val.toNat ∧ c.val.toNat ≤ 90 then c.val.toNat + 32 else c.val.toNat := by
  unfold Char.toLower
  have h65 : 'A'.val.toNat = 65 := rfl
  have h90 : 'Z'.val.toNat = 90 := rfl
  have h32 : ('a'.val - 'A'.val).toNat = 32 := rfl
  simp only [ge_iff_le, UInt32.le_iff_toNat_le, h65, h90]
  split
  · rw [UInt32.toNat_add, h32]
    omega
  · rfl

private theorem toUpper_val (c : Char) : c.toUpper.val.toNat =
    if 97 ≤ c.val.toNat ∧ c.val.toNat ≤ 122 then c.val.toNat - 32 else c.val.toNat := by
  unfold Char.toUpper
  have h97 : 'a'.val.toNat = 97 := rfl
  have h122 : 'z'.val.toNat = 122 := rfl
  have h32 : ('A'.val - 'a'.val).toNat = 2 ^ 32 - 32 := rfl
  simp only [UInt32.le_iff_toNat_le, h97, h122]
  split
  · rw [UInt32.toNat_add, h32]
    omega
  · rfl

private theorem char_ext {c d : Char} (h : c.val.toNat = d.val.toNat) : c = d :=
  Char.ext (UInt32.toNat_inj.mp h)

theorem toUpper_toLower (c : Char) : c.toLower.toUpper = c.toUpper := by
  apply char_ext
  simp only [toLower_val, toUpper_val]
  split_ifs <;> omega

theorem toLower_toLower (c : Char) : c.toLower.toLower = c.toLower := by
  apply char_ext
  simp only [toLower_val]
  split_ifs <;> omega

theorem toLower_eq_hyphen {c : Char} : c.toLower = '-' ↔ c = '-' := by
  constructor
  · intro h
    have hv := congrArg (fun d : Char => d.val.toNat) h
    have hy : '-'.val.toNat = 45 := rfl
    simp only [toLower_val, hy] at hv
    apply char_ext
    rw [hy]
    split at hv <;> omega
  · rintro rfl
    rfl

@[simp] theorem foldCase_foldCase (text : List Char) :
    foldCase (foldCase text) = foldCase text := by
  simp only [foldCase, map_map]
  exact map_congr_left fun c _ => toLower_toLower c

theorem hyphen_mem_foldCase (text : List Char) : '-' ∈ foldCase text ↔ '-' ∈ text := by
  simp [foldCase, toLower_eq_hyphen]

theorem map_toUpper_foldCase (text : List Char) :
    (foldCase text).map Char.toUpper = text.map Char.toUpper := by
  simp only [foldCase, map_map]
  exact map_congr_left fun c _ => toUpper_toLower c

private theorem equalFoldChars_foldCase (a b : List Char) :
    equalFoldChars (foldCase a) b = equalFoldChars a b := by
  simp [equalFoldChars]

private theorem foldCase_modelSegment (vendor model : List Char) (rest : List (List Char)) :
    foldCase (modelSegment vendor model rest) =
      foldCase (modelSegment (foldCase vendor) (foldCase model) (rest.map foldCase)) := by
  have happend : ∀ a b : List Char,
      foldCase (a ++ '-' :: b) = foldCase a ++ '-' :: foldCase b := by
    intro a b
    rw [foldCase, map_append]
    rfl
  unfold modelSegment
  rw [map_toUpper_foldCase]
  cases rest with
  | nil => split_ifs <;> simp
  | cons variant rest =>
    simp only [map_cons, equalFoldChars_foldCase]
    split_ifs <;> simp [happend]

private theorem splitOn_foldCase (text : List Char) :
    (foldCase text).splitOn '-' = (text.splitOn '-').map foldCase := by
  induction text with
  | nil => rfl
  | cons c text ih =>
    simp only [foldCase, List.splitOn, map_cons, splitOnP_cons_eq_if_modifyHead]
      at ih ⊢
    by_cases hc : c = '-'
    · simp [hc, ih]
      rfl
    · have hc' : c.toLower ≠ '-' := fun h => hc (toLower_eq_hyphen.mp h)
      simp only [beq_iff_eq, hc, hc', if_false, ih]
      cases text.splitOnP (· == '-') <;> rfl

private theorem splitOn_of_mem {text : List Char} (h : '-' ∈ text) :
    ∃ vendor model rest, text.splitOn '-' = vendor :: model :: rest := by
  induction text with
  | nil => simp at h
  | cons c text ih =>
    simp only [List.splitOn, splitOnP_cons_eq_if_modifyHead] at ih ⊢
    by_cases hc : c = '-'
    · obtain ⟨model, rest, hsplit⟩ := exists_cons_of_ne_nil
        (splitOnP_ne_nil (· == '-') text)
      exact ⟨[], model, rest, by simp [hc, hsplit]⟩
    · obtain ⟨vendor, model, rest, hsplit⟩ := ih ((mem_cons.mp h).resolve_left (Ne.symm hc))
      exact ⟨c :: vendor, model, rest, by simp [hc, hsplit]⟩

variable {name : String}

private theorem normalize_of_mem {vendor model : List Char} {rest : List (List Char)}
    (h : '-' ∈ name.toList) (hsplit : name.toList.splitOn '-' = vendor :: model :: rest) :
    normalizeAcceleratorName name = String.ofList (modelSegment vendor model rest) := by
  simp [normalizeAcceleratorName, h, hsplit]

private theorem normalize_of_notMem (h : '-' ∉ name.toList) :
    normalizeAcceleratorName name = name := by
  simp [normalizeAcceleratorName, h]

theorem fold_family_congr (h : fold a = fold b) : fold (family a) = fold (family b) := by
  have hmem : '-' ∈ a.toList ↔ '-' ∈ b.toList := by
    rw [← hyphen_mem_foldCase a.toList, ← hyphen_mem_foldCase b.toList]
    exact iff_of_eq (congrArg ('-' ∈ ·) h)
  unfold family
  by_cases ha : '-' ∈ a.toList
  · obtain ⟨v, m, r, hsa⟩ := splitOn_of_mem ha
    obtain ⟨v', m', r', hsb⟩ := splitOn_of_mem (hmem.mp ha)
    have hsplit : (v :: m :: r).map foldCase = (v' :: m' :: r').map foldCase := by
      rw [← hsa, ← hsb, ← splitOn_foldCase, ← splitOn_foldCase]
      exact congrArg (List.splitOn '-') h
    simp only [map_cons, List.cons.injEq] at hsplit
    obtain ⟨hv, hm, hr⟩ := hsplit
    rw [normalize_of_mem ha hsa, normalize_of_mem (hmem.mp ha) hsb, fold, fold,
      String.toList_ofList, String.toList_ofList, foldCase_modelSegment, hv, hm, hr,
      ← foldCase_modelSegment]
  · rw [normalize_of_notMem ha, normalize_of_notMem (fun hb => ha (hmem.mpr hb)), h]

private theorem length_modelSegment_lt {text vendor model : List Char} {rest : List (List Char)}
    (hsplit : text.splitOn '-' = vendor :: model :: rest) :
    (modelSegment vendor model rest).length < text.length := by
  have htext : text = vendor ++ '-' :: ['-'].intercalate (model :: rest) := by
    have hjoin : ['-'].intercalate (text.splitOn '-') = text := intercalate_splitOn '-'
    rw [← hjoin, hsplit]
    simp [List.intercalate]
  have hsegment : (modelSegment vendor model rest).length ≤
      (['-'].intercalate (model :: rest)).length := by
    unfold modelSegment
    cases rest with
    | nil => split_ifs <;> simp [List.intercalate]
    | cons variant rest =>
      cases rest <;> split_ifs <;> simp [List.intercalate] <;> omega
  rw [htext, length_append, length_cons]
  omega

theorem isFamily_iff : isFamily name = true ↔ '-' ∉ name.toList := by
  rw [isFamily, beq_iff_eq]
  constructor
  · intro hname hmem
    obtain ⟨v, m, r, hsplit⟩ := splitOn_of_mem hmem
    have hlength := length_modelSegment_lt hsplit
    rw [normalize_of_mem hmem hsplit] at hname
    rw [← hname, String.toList_ofList] at hlength
    exact Nat.lt_irrefl _ hlength
  · exact normalize_of_notMem

theorem isFamily_congr (h : fold a = fold b) : isFamily a = isFamily b := by
  rw [Bool.eq_iff_iff, isFamily_iff, isFamily_iff, ← hyphen_mem_foldCase a.toList,
    ← hyphen_mem_foldCase b.toList]
  exact not_congr (iff_of_eq (congrArg ('-' ∈ ·) h))

variable {f p : String}

theorem isProductOf_iff : isProductOf p f = true ↔
    isFamily f = true ∧ isFamily p = false ∧ fold (family p) = fold f := by
  simp only [isProductOf, Bool.and_eq_true, Bool.not_eq_true', equalFold_iff, and_assoc]

theorem isProductOf_congr {p' f' : String} (hp : fold p = fold p') (hf : fold f = fold f') :
    isProductOf p f = isProductOf p' f' := by
  rw [Bool.eq_iff_iff, isProductOf_iff, isProductOf_iff, isFamily_congr hp, isFamily_congr hf,
    fold_family_congr hp, hf]

variable {k n : String}

theorem covers_iff : covers k n = true ↔ fold k = fold n ∨ isProductOf n k = true := by
  rw [covers, Bool.or_eq_true, equalFold_iff]

@[simp] theorem covers_self (k : String) : covers k k = true := covers_iff.mpr (.inl rfl)

theorem covers_of_fold_eq (h : fold k = fold n) : covers k n = true :=
  covers_iff.mpr (.inl h)

theorem covers_congr {k' n' : String} (hk : fold k = fold k') (hn : fold n = fold n') :
    covers k n = covers k' n' := by
  rw [Bool.eq_iff_iff, covers_iff, covers_iff, isProductOf_congr hn hk, hk, hn]

theorem not_isProductOf_isProductOf {q : String} (h : isProductOf p q = true)
    (h' : isProductOf q f = true) : False := by
  have hq := (isProductOf_iff.mp h).1
  rw [(isProductOf_iff.mp h').2.1] at hq
  cases hq

theorem fold_ne_of_isProductOf (h : isProductOf p f = true) : fold p ≠ fold f := by
  intro he
  have hp := (isProductOf_iff.mp h).2.1
  rw [isFamily_congr he, (isProductOf_iff.mp h).1] at hp
  cases hp

theorem covers_trans {m : String} (h : covers k m = true) (h' : covers m n = true) :
    covers k n = true := by
  rcases covers_iff.mp h with hkm | hmk
  · rw [covers_congr hkm rfl]
    exact h'
  · rcases covers_iff.mp h' with hmn | hnm
    · rw [← covers_congr rfl hmn]
      exact h
    · exact absurd hmk fun hmk => not_isProductOf_isProductOf hnm hmk

theorem fold_eq_of_isProductOf {f' : String} (h : isProductOf p f = true)
    (h' : isProductOf p f' = true) : fold f = fold f' :=
  (isProductOf_iff.mp h).2.2.symm.trans (isProductOf_iff.mp h').2.2

theorem exists_isProductOf_length (h : isFamily f = true) (n : ℕ) :
    ∃ p, isProductOf p f = true ∧ n < (fold p).length := by
  have hf : '-' ∉ f.toList := isFamily_iff.mp h
  let segments : List (List Char) := ["AMD".toList, f.toList, List.replicate n 'x']
  let text : List Char := ['-'].intercalate segments
  have hsplit : text.splitOn '-' = segments := by
    apply splitOn_intercalate
    · intro segment hsegment
      simp only [segments, mem_cons, not_mem_nil, or_false] at hsegment
      rcases hsegment with rfl | rfl | rfl
      · decide
      · exact hf
      · exact fun hmem => absurd (eq_of_mem_replicate hmem) (by decide)
    · exact cons_ne_nil _ _
  have hmem : '-' ∈ text := by simp [text, segments, List.intercalate]
  have hfamily : family (String.ofList text) = f := by
    have hname : normalizeAcceleratorName (String.ofList text) =
        String.ofList (modelSegment "AMD".toList f.toList [List.replicate n 'x']) :=
      normalize_of_mem (by rwa [String.toList_ofList]) (by rw [String.toList_ofList, hsplit])
    rw [family, hname]
    simp [modelSegment]
  refine ⟨String.ofList text, isProductOf_iff.mpr ⟨h, ?_, by rw [hfamily]⟩, ?_⟩
  · rw [← Bool.not_eq_true, isFamily_iff, String.toList_ofList]
    exact not_not.mpr hmem
  · simp [fold, foldCase, text, segments, List.intercalate]
    omega

theorem isNamed_iff : isNamed name = true ↔
    ∀ u ∈ ["", defaultAcceleratorName, unresolvedAcceleratorType], covers u name = false := by
  simp only [isNamed, all_eq_true, Bool.not_eq_true']

theorem isNamed_of_covers (h : isNamed name = true) (hcover : covers k name = true) :
    isNamed k = true := by
  rw [isNamed_iff] at h ⊢
  intro u hu
  rw [← Bool.not_eq_true]
  intro huk
  have hname := h u hu
  rw [covers_trans huk hcover] at hname
  cases hname

theorem isNamed_congr (h : fold a = fold b) : isNamed a = isNamed b := by
  rw [Bool.eq_iff_iff]
  exact ⟨fun ha => isNamed_of_covers ha (covers_of_fold_eq h.symm),
    fun hb => isNamed_of_covers hb (covers_of_fold_eq h)⟩

theorem isNamed_of_isProductOf (h : isNamed f = true) (hp : isProductOf p f = true) :
    isNamed p = true := by
  rw [isNamed_iff] at h ⊢
  intro u hu
  rw [← Bool.not_eq_true, covers_iff]
  have hfamily : ∀ v ∈ ["", defaultAcceleratorName, unresolvedAcceleratorType],
      isFamily v = true := by decide
  rintro (hfold | hproduct)
  · have hpfamily := (isProductOf_iff.mp hp).2.1
    rw [← isFamily_congr hfold, hfamily u hu] at hpfamily
    cases hpfamily
  · have hcover := h u hu
    rw [covers_of_fold_eq (fold_eq_of_isProductOf hproduct hp)] at hcover
    cases hcover

theorem isAcceleratorResolved_of_isNamed (h : isNamed name = true) :
    isAcceleratorResolved name = true := by
  simp only [isAcceleratorResolved, Bool.and_eq_true, bne_iff_ne, ne_eq]
  refine ⟨⟨?_, ?_⟩, ?_⟩
  all_goals
    rintro rfl
    revert h
    decide

theorem ne_default_of_isAcceleratorResolved (h : isAcceleratorResolved name = true) :
    name ≠ defaultAcceleratorName := by
  rintro rfl
  revert h
  decide

theorem ne_default_of_isNamed (h : isNamed name = true) : name ≠ defaultAcceleratorName :=
  ne_default_of_isAcceleratorResolved (isAcceleratorResolved_of_isNamed h)

end LlmScaler.Accelerator
