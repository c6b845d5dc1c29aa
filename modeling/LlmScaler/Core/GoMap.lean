import Mathlib

/-!
# Go maps

A Go map is an association list with distinct keys. Reading a missing key gives the
zero value of the element type, as in Go; the order of the entries is never read.
-/

namespace LlmScaler.Core

open List

/-- A Go map from `κ` to `ν`. -/
abbrev GoMap (κ ν : Type*) := AList fun _ : κ => ν

namespace GoMap

variable {κ ν : Type*} [DecidableEq κ]

/-- The map with the given bindings; of two bindings of one key the first counts. -/
def ofList (l : List (κ × ν)) : GoMap κ ν :=
  (l.map fun p => (⟨p.1, p.2⟩ : Sigma fun _ : κ => ν)).toAList

/-- The value bound to the key, if there is one. -/
def find? (m : GoMap κ ν) (k : κ) : Option ν := m.lookup k

/-- The index expression `m[k]`: the zero value when the key is missing. -/
def get [Inhabited ν] (m : GoMap κ ν) (k : κ) : ν :=
  (m.lookup k).getD default

/-- The second value of `v, ok := m[k]`. -/
def has (m : GoMap κ ν) (k : κ) : Bool :=
  (m.lookup k).isSome

/-- The assignment `m[k] = v`. -/
def set (m : GoMap κ ν) (k : κ) (v : ν) : GoMap κ ν :=
  AList.insert k v m

/-- An assignment such as `m[k] += d`, with `f` applied to the old value. -/
def modify [Inhabited ν] (m : GoMap κ ν) (k : κ) (f : ν → ν) : GoMap κ ν :=
  m.set k (f (get m k))

/-- The statement `delete(m, k)`. -/
def delete (m : GoMap κ ν) (k : κ) : GoMap κ ν :=
  AList.erase k m

/-- The sum of the values of a map of integers. -/
def total (m : GoMap κ Int) : Int :=
  (m.entries.map Sigma.snd).sum

variable (m : GoMap κ ν) (k k' : κ) (v : ν)

@[simp] theorem has_empty : has (∅ : GoMap κ ν) k = false := rfl

theorem has_set : has (set m k v) k' = (decide (k' = k) || has m k') := by
  by_cases h : k' = k
  · subst h
    simp [has, set]
  · simp [has, set, AList.lookup_insert_ne h, h]

variable [Inhabited ν]

@[simp] theorem get_empty : get (∅ : GoMap κ ν) k = default := rfl

@[simp] theorem get_set_self : get (set m k v) k = v := by
  simp [get, set]

theorem get_set_of_ne {k k' : κ} (h : k' ≠ k) : get (set m k v) k' = get m k' := by
  simp [get, set, AList.lookup_insert_ne h]

theorem get_set : get (set m k v) k' = if k' = k then v else get m k' := by
  split
  · next h => rw [h, get_set_self]
  · next h => exact get_set_of_ne m v h

theorem get_modify (f : ν → ν) :
    get (modify m k f) k' = if k' = k then f (get m k) else get m k' :=
  get_set m k k' _

theorem get_modify_add [AddZeroClass ν] (n : ν) :
    get (modify m k (· + n)) k' = get m k' + if k' = k then n else 0 := by
  rw [get_modify]
  split_ifs with h
  · rw [h]
  · rw [add_zero]

theorem find?_of_has {m : GoMap κ ν} {k : κ} (h : has m k = true) : find? m k = some (get m k) := by
  rw [has, Option.isSome_iff_exists] at h
  obtain ⟨v, hv⟩ := h
  simp [find?, get, hv]

omit [Inhabited ν] in
@[simp] theorem has_singleton (k : κ) (v : ν) : has (ofList [(k, v)]) k = true := by
  simp [has, ofList]

@[simp] theorem get_singleton (k : κ) (v : ν) : get (ofList [(k, v)]) k = v := by
  simp [get, ofList]

omit [Inhabited ν] in
theorem find?_of_not_has {m : GoMap κ ν} {k : κ} (h : has m k = false) : find? m k = none := by
  simpa [has, find?] using h

theorem get_of_not_has {m : GoMap κ ν} {k : κ} (h : has m k = false) : get m k = default := by
  simp only [has, Option.isSome_eq_false_iff, Option.isNone_iff_eq_none] at h
  simp [get, h]

omit [Inhabited ν] in
theorem perm_kerase (k : κ) (l : List (Sigma fun _ : κ => ν)) :
    l.Perm ((l.dlookup k).toList.map (Sigma.mk k) ++ l.kerase k) := by
  induction l with
  | nil => exact .refl _
  | cons e l ih =>
    by_cases h : k = e.1
    · subst h
      rw [kerase_cons_eq rfl, dlookup_cons_eq]
      exact .refl _
    · rw [kerase_cons_ne h, dlookup_cons_ne _ _ h]
      exact (ih.cons e).trans perm_middle.symm

theorem total_set (m : GoMap κ Int) (k : κ) (v : Int) :
    total (set m k v) = total m - get m k + v := by
  have hsum := ((perm_kerase k m.entries).map Sigma.snd).sum_eq
  have hget : get m k = (m.entries.dlookup k).getD 0 := rfl
  rw [total, total, set, AList.entries_insert, map_cons, sum_cons, hsum, hget]
  cases m.entries.dlookup k <;> simp <;> omega

theorem total_modify (m : GoMap κ Int) (k : κ) (f : Int → Int) :
    total (modify m k f) = total m + (f (get m k) - get m k) := by
  rw [modify, total_set]
  omega

omit [DecidableEq κ] in
@[simp] theorem total_empty : total (∅ : GoMap κ Int) = 0 := rfl

theorem get_of_mem_entries {m : GoMap κ Int} {e : Sigma fun _ : κ => Int} (h : e ∈ m.entries) :
    get m e.1 = e.2 := by
  have : m.lookup e.1 = some e.2 := AList.mem_lookup_iff.mpr h
  rw [get, this]
  rfl

section Iteration

variable {κ ν μ : Type*} [DecidableEq κ]

theorem mem_entries {m : GoMap κ ν} {k : κ} {v : ν} :
    (⟨k, v⟩ : Sigma fun _ : κ => ν) ∈ m.entries ↔ find? m k = some v :=
  AList.mem_lookup_iff.symm

theorem mem_keys {m : GoMap κ ν} {k : κ} : k ∈ m.keys ↔ ∃ v, find? m k = some v := by
  rw [← AList.mem_keys, ← AList.lookup_isSome, Option.isSome_iff_exists]
  rfl

theorem has_iff_mem_keys {m : GoMap κ ν} {k : κ} : has m k = true ↔ k ∈ m.keys := by
  rw [has, AList.lookup_isSome]
  rfl

/-- A loop that gives every key of a map a new value. -/
def mapValues (m : GoMap κ ν) (f : κ → ν → μ) : GoMap κ μ where
  entries := m.entries.map fun e => ⟨e.1, f e.1 e.2⟩
  nodupKeys := by
    have h := m.nodupKeys
    rw [NodupKeys, List.keys] at h ⊢
    rwa [map_map]

omit [DecidableEq κ] in
@[simp] theorem keys_mapValues (m : GoMap κ ν) (f : κ → ν → μ) : (mapValues m f).keys = m.keys := by
  simp [mapValues, AList.keys, List.keys]

@[simp] theorem find?_mapValues (m : GoMap κ ν) (f : κ → ν → μ) (k : κ) :
    find? (mapValues m f) k = (find? m k).map (f k) := by
  ext v
  rw [← mem_entries, Option.map_eq_some_iff]
  constructor
  · intro h
    obtain ⟨⟨k', v'⟩, hmem, heq⟩ := mem_map.mp h
    cases heq
    exact ⟨v', mem_entries.mp hmem, rfl⟩
  · rintro ⟨v', hv', rfl⟩
    exact mem_map.mpr ⟨⟨k, v'⟩, mem_entries.mpr hv', rfl⟩

theorem get_mapValues [Inhabited μ] (m : GoMap κ ν) (f : κ → ν → μ) (k : κ) :
    get (mapValues m f) k = ((find? m k).map (f k)).getD default := by
  rw [← find?_mapValues]
  rfl

omit [DecidableEq κ] in
private theorem nodupKeys_pairs {l : List (κ × ν)} (h : (l.map Prod.fst).Nodup) :
    (l.map fun p => (⟨p.1, p.2⟩ : Sigma fun _ : κ => ν)).NodupKeys := by
  rw [NodupKeys, List.keys, map_map]
  exact h

theorem find?_ofList {l : List (κ × ν)} (h : (l.map Prod.fst).Nodup) {k : κ} {v : ν} :
    find? (ofList l) k = some v ↔ (k, v) ∈ l := by
  unfold find? ofList AList.lookup List.toAList
  rw [dlookup_dedupKeys]
  refine Iff.trans (mem_dlookup_iff (nodupKeys_pairs h)) ?_
  constructor
  · intro hmem
    obtain ⟨⟨k', v'⟩, hp, heq⟩ := mem_map.mp hmem
    cases heq
    exact hp
  · intro hp
    exact mem_map.mpr ⟨(k, v), hp, rfl⟩

theorem find?_set (m : GoMap κ ν) (k k' : κ) (v : ν) :
    find? (set m k v) k' = if k' = k then some v else find? m k' := by
  split_ifs with h
  · rw [h, find?, set, AList.lookup_insert]
  · rw [find?, set, AList.lookup_insert_ne h]
    rfl

theorem set_set (m : GoMap κ ν) (k : κ) (v v' : ν) : set (set m k v) k v' = set m k v' :=
  AList.insert_insert ..

theorem mem_keys_set {m : GoMap κ ν} {k k' : κ} {v : ν} :
    k' ∈ (set m k v).keys ↔ k' = k ∨ k' ∈ m.keys := by
  rw [mem_keys, mem_keys, find?_set]
  split_ifs with h
  · exact iff_of_true ⟨v, rfl⟩ (.inl h)
  · rw [or_iff_right h]

theorem find?_delete (m : GoMap κ ν) (k k' : κ) :
    find? (delete m k) k' = if k' = k then none else find? m k' := by
  split_ifs with h
  · rw [h, find?, delete, AList.lookup_erase]
  · rw [find?, delete, AList.lookup_erase_ne h]
    rfl

/-- The call `maps.DeleteFunc(m, del)`. -/
def deleteFunc (m : GoMap κ ν) (del : κ → ν → Bool) : GoMap κ ν where
  entries := m.entries.filter fun e => !del e.1 e.2
  nodupKeys := by
    have h := m.nodupKeys
    rw [NodupKeys, List.keys] at h ⊢
    exact h.sublist (filter_sublist.map _)

omit [DecidableEq κ] in
theorem deleteFunc_of_forall {m : GoMap κ ν} {del : κ → ν → Bool}
    (h : ∀ e ∈ m.entries, del e.1 e.2 = false) : deleteFunc m del = m := by
  apply AList.ext
  rw [deleteFunc, filter_eq_self]
  intro e he
  rw [h e he, Bool.not_false]

/-- The sum of the values under the keys that pass a test. -/
def sumWhere (m : GoMap κ ℕ) (test : κ → Bool) : ℕ :=
  ((m.entries.filter fun e => test e.1).map Sigma.snd).sum

theorem sumWhere_modify_add (m : GoMap κ ℕ) (k : κ) (n : ℕ) (test : κ → Bool) :
    sumWhere (modify m k (· + n)) test = sumWhere m test + if test k then n else 0 := by
  have hsum := (((perm_kerase k m.entries).filter fun e => test e.1).map Sigma.snd).sum_eq
  have hget : get m k = (m.entries.dlookup k).getD 0 := rfl
  rw [modify, set, sumWhere, sumWhere, AList.entries_insert, hsum, hget]
  cases m.entries.dlookup k <;> by_cases h : test k = true <;> simp [h] <;> omega

theorem sumWhere_foldl_add {α : Type*} (key : α → κ) (f : α → ℕ) (l : List α) (m : GoMap κ ℕ)
    (test : κ → Bool) :
    sumWhere (l.foldl (fun m a => modify m (key a) (· + f a)) m) test =
      sumWhere m test + ((l.filter fun a => test (key a)).map f).sum := by
  induction l generalizing m with
  | nil => simp
  | cons a l ih =>
    rw [foldl_cons, ih, sumWhere_modify_add, filter_cons, Nat.add_assoc]
    split_ifs <;> simp

omit [DecidableEq κ] in
@[simp] theorem sumWhere_empty (test : κ → Bool) : sumWhere (∅ : GoMap κ ℕ) test = 0 := rfl

end Iteration

end GoMap

end LlmScaler.Core
