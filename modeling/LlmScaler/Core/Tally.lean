import LlmScaler.Core.GoMap
import LlmScaler.Core.Lists

/-!
# Tallies

Integer figures kept per key: loops that add to them or take them back, and the sum over a map's
entries of a figure that each of its values gives. Also what holds of every entry of a map, and a
map's bindings as a list.
-/

namespace LlmScaler.Core.GoMap

open List

variable {κ ν : Type*} [DecidableEq κ]

theorem get_eq_getD [Inhabited ν] (m : GoMap κ ν) (k : κ) : get m k = (find? m k).getD default :=
  rfl

theorem get_delete [Inhabited ν] (m : GoMap κ ν) (k k' : κ) :
    get (delete m k) k' = if k' = k then default else get m k' := by
  rw [get_eq_getD, find?_delete, get_eq_getD]
  split_ifs
  · rfl
  · rfl

variable {k : κ} {m : GoMap κ ν} {v : ν}

theorem get_of_find? [Inhabited ν] (h : find? m k = some v) : get m k = v := by
  rw [get_eq_getD, h, Option.getD_some]

theorem get_of_find?_none [Inhabited ν] (h : find? m k = none) : get m k = default := by
  rw [get_eq_getD, h, Option.getD_none]

theorem get_of_not_mem_keys [Inhabited ν] (h : k ∉ m.keys) : get m k = default := by
  apply get_of_find?_none
  cases hf : find? m k with
  | none => rfl
  | some v => exact absurd (mem_keys.mpr ⟨v, hf⟩) h

theorem find?_deleteFunc (m : GoMap κ ν) (del : κ → ν → Bool) (k : κ) :
    find? (deleteFunc m del) k = (find? m k).filter fun v => !del k v := by
  ext v
  rw [← mem_entries, Option.filter_eq_some_iff, ← mem_entries]
  exact mem_filter

def Every (m : GoMap κ ν) (P : κ → ν → Prop) : Prop := ∀ k v, find? m k = some v → P k v

section Every

variable {m : GoMap κ ν} {P Q : κ → ν → Prop}

theorem every_empty : Every (∅ : GoMap κ ν) P := by
  intro k v h
  cases h

theorem Every.imp (h : Every m P) (hPQ : ∀ k v, P k v → Q k v) : Every m Q :=
  fun k v hf => hPQ k v (h k v hf)

theorem Every.set (h : Every m P) (hv : P k v) : Every (m.set k v) P := by
  intro k' v' hf
  rw [find?_set] at hf
  split_ifs at hf with hk
  · cases hf
    rw [hk]
    exact hv
  · exact h k' v' hf

theorem Every.delete (h : Every m P) (k : κ) : Every (m.delete k) P := by
  intro k' v' hf
  rw [find?_delete] at hf
  split_ifs at hf
  exact h k' v' hf

end Every

/-- The value a map points to under a key, rewritten. -/
def rewrite (m : GoMap κ ν) (k : κ) (f : ν → ν) : GoMap κ ν :=
  mapValues m fun k' v => if k' = k then f v else v

@[simp] theorem keys_rewrite (m : GoMap κ ν) (k : κ) (f : ν → ν) : (rewrite m k f).keys = m.keys :=
  keys_mapValues m _

theorem find?_rewrite (m : GoMap κ ν) (k k' : κ) (f : ν → ν) :
    find? (rewrite m k f) k' = (find? m k').map fun v => if k' = k then f v else v :=
  find?_mapValues m _ k'

theorem get_rewrite [Inhabited ν] (m : GoMap κ ν) (k k' : κ) (f : ν → ν) :
    get (rewrite m k f) k' = if k' = k ∧ has m k then f (get m k') else get m k' := by
  unfold get has
  have h := find?_rewrite m k k' f
  unfold find? at h
  rw [h]
  by_cases hk : k' = k
  · subst hk
    cases m.lookup k' with
    | none => simp
    | some v => simp
  · cases m.lookup k' with
    | none => simp [hk]
    | some v => simp [hk]

theorem get_rewrite_rewrite {μ : Type*} [DecidableEq μ] [Inhabited ν] (m : GoMap κ (GoMap μ ν))
    (k : κ) (j : μ) (f : ν → ν) (k' : κ) (j' : μ) :
    get (get (rewrite m k fun inner => rewrite inner j f) k') j' =
      if (k' = k ∧ has m k) ∧ j' = j ∧ has (get m k) j then f (get (get m k') j')
      else get (get m k') j' := by
  rw [get_rewrite]
  by_cases hk : k' = k ∧ has m k
  · rw [if_pos hk, get_rewrite, hk.1]
    simp [hk]
  · rw [if_neg hk, if_neg (fun h => hk h.1)]

theorem has_of_get_ne [Inhabited ν] (h : get m k ≠ default) : has m k = true := by
  by_contra hnot
  exact h (get_of_not_has (Bool.eq_false_iff.mpr hnot))

section Entries

section View

variable {α σ μ : Type*} (key : α → κ) {m : σ → κ → μ} {g : σ → α → σ} {f : α → μ → μ}
  (hstep : ∀ s a k, m (g s a) k = if k = key a then f a (m s k) else m s k)

include hstep

theorem view_foldl_of_not_mem {l : List α} {k : κ} (hk : k ∉ l.map key) (s : σ) :
    m (l.foldl g s) k = m s k := by
  induction l generalizing s with
  | nil => rfl
  | cons a l ih =>
    obtain ⟨hne, hk⟩ := not_or.mp (mem_cons.not.mp hk)
    rw [foldl_cons, ih hk, hstep, if_neg hne]

theorem view_foldl {l : List α} (hnodup : (l.map key).Nodup) {a : α} (ha : a ∈ l) (s : σ) :
    m (l.foldl g s) (key a) = f a (m s (key a)) := by
  induction l generalizing s with
  | nil => cases ha
  | cons b l ih =>
    obtain ⟨hb, hnodup⟩ := nodup_cons.mp hnodup
    rw [foldl_cons]
    rcases mem_cons.mp ha with rfl | ha
    · rw [view_foldl_of_not_mem key hstep hb, hstep, if_pos rfl]
    · have hne : key a ≠ key b := fun heq => hb (heq ▸ mem_map_of_mem ha)
      rw [ih hnodup ha, hstep, if_neg hne]

end View

theorem view_foldl_entries {σ μ : Type*} {m : σ → κ → μ}
    {g : σ → (Sigma fun _ : κ => ν) → σ} {f : κ → ν → μ → μ}
    (hstep : ∀ s e k, m (g s e) k = if k = e.1 then f e.1 e.2 (m s k) else m s k)
    (more : GoMap κ ν) (s : σ) (k : κ) :
    m (more.entries.foldl g s) k = (find? more k).elim (m s k) fun v => f k v (m s k) := by
  cases hfind : find? more k with
  | none =>
    have hk : k ∉ more.keys := fun hmem => by simp_all [mem_keys]
    exact view_foldl_of_not_mem Sigma.fst (f := fun e => f e.1 e.2) hstep hk s
  | some v =>
    exact view_foldl Sigma.fst (f := fun e => f e.1 e.2) hstep more.nodupKeys (mem_entries.mpr hfind) s

variable {step : GoMap κ ν → (Sigma fun _ : κ => ν) → GoMap κ ν} {f : κ → ν → Option ν → Option ν}

theorem find?_foldl_entries_of
    (hstep : ∀ m e k, find? (step m e) k = if k = e.1 then f e.1 e.2 (find? m k) else find? m k)
    (more m : GoMap κ ν) (k : κ) :
    find? (more.entries.foldl step m) k =
      match find? more k with
      | some v => f k v (find? m k)
      | none => find? m k := by
  rw [view_foldl_entries (m := fun s => find? s) hstep more m k]
  cases find? more k <;> rfl

theorem find?_foldl_entries
    (hstep : ∀ m e k, find? (step m e) k = if k = e.1 then f e.1 e.2 (find? m k) else find? m k)
    (m : GoMap κ ν) (k : κ) :
    find? (m.entries.foldl step m) k = (find? m k).bind fun v => f k v (some v) := by
  rw [find?_foldl_entries_of hstep]
  cases find? m k with
  | none => rfl
  | some v => rfl

end Entries

/-- The values of the saved map written back through the pointers of a map. -/
def writeBack (m saved : GoMap κ ν) : GoMap κ ν :=
  mapValues m fun k v => (find? saved k).getD v

theorem entries_eq_map_keys [Inhabited ν] (m : GoMap κ ν) :
    m.entries = m.keys.map fun k => ⟨k, get m k⟩ := by
  rw [AList.keys, List.keys, map_map]
  conv_lhs => rw [← map_id m.entries]
  apply map_congr_left
  rintro ⟨k, v⟩ he
  have hget : get m k = v := get_of_find? (mem_entries.mp he)
  simp [hget]

theorem ext_keys [Inhabited ν] {m' : GoMap κ ν} (hkeys : m.keys = m'.keys)
    (hget : ∀ k ∈ m.keys, get m k = get m' k) : m = m' := by
  apply AList.ext
  rw [entries_eq_map_keys m, entries_eq_map_keys m', ← hkeys]
  apply map_congr_left
  intro k hk
  rw [hget k hk]

theorem writeBack_eq [Inhabited ν] {saved : GoMap κ ν} (hkeys : m.keys = saved.keys) :
    writeBack m saved = saved := by
  have hkeys' : (writeBack m saved).keys = saved.keys := (keys_mapValues m _).trans hkeys
  apply ext_keys hkeys'
  intro k hk
  rw [hkeys'] at hk
  obtain ⟨v, hv⟩ := mem_keys.mp hk
  obtain ⟨w, hw⟩ := mem_keys.mp (hkeys ▸ hk)
  have hfound : find? (writeBack m saved) k = some v := by
    rw [writeBack, find?_mapValues, hw, hv]
    rfl
  rw [get_of_find? hfound, get_of_find? hv]

def bindings (m : GoMap κ ν) : List (κ × ν) := m.entries.map fun e => (e.1, e.2)

theorem mem_bindings : (k, v) ∈ bindings m ↔ find? m k = some v := by
  rw [← mem_entries]
  constructor
  · intro h
    obtain ⟨⟨k', v'⟩, he, heq⟩ := mem_map.mp h
    cases heq
    exact he
  · intro h
    exact mem_map.mpr ⟨⟨k, v⟩, h, rfl⟩

omit [DecidableEq κ] in
theorem nodup_bindings (m : GoMap κ ν) : ((bindings m).map Prod.fst).Nodup := by
  rw [bindings, map_map]
  exact m.nodupKeys

theorem find?_foldl_set {α : Type*} (key : α → κ) (f : α → ν) {l : List α}
    (h : (l.map key).Nodup) (m : GoMap κ ν) :
    (∀ a ∈ l, find? (l.foldl (fun m a => m.set (key a) (f a)) m) (key a) = some (f a)) ∧
      ∀ k ∉ l.map key, find? (l.foldl (fun m a => m.set (key a) (f a)) m) k = find? m k := by
  have hstep (m : GoMap κ ν) (a : α) (k : κ) :
      find? (m.set (key a) (f a)) k = if k = key a then some (f a) else find? m k := find?_set ..
  exact ⟨fun a ha => view_foldl key (f := fun a _ => some (f a)) hstep h ha m,
    fun k hk => view_foldl_of_not_mem key (f := fun a _ => some (f a)) hstep hk m⟩

theorem get_foldl_add (m : GoMap κ Int) (f : κ → Int) {ks : List κ} (hks : ks.Nodup) (j : κ) :
    get (ks.foldl (fun m k => modify m k fun n => n + f k) m) j =
      get m j + if j ∈ ks then f j else 0 := by
  induction ks generalizing m with
  | nil => simp
  | cons k ks ih =>
    obtain ⟨hk, hks⟩ := nodup_cons.mp hks
    rw [foldl_cons, ih _ hks, get_modify_add]
    by_cases hj : j = k
    · subst hj
      simp [hk]
    · simp [hj]

def sumBy (m : GoMap κ ν) (f : ν → Int) : Int := (m.entries.map fun e => f e.2).sum

omit [DecidableEq κ] in
@[simp] theorem sumBy_empty (f : ν → Int) : sumBy (∅ : GoMap κ ν) f = 0 := rfl

theorem sumBy_modify [Inhabited ν] (m : GoMap κ ν) (f : ν → Int) (h0 : f default = 0) (k : κ)
    (g : ν → ν) : sumBy (modify m k g) f = sumBy m f - f (get m k) + f (g (get m k)) := by
  have hsum := ((perm_kerase k m.entries).map fun e => f e.2).sum_eq
  have hget : get m k = (m.entries.dlookup k).getD default := rfl
  rw [sumBy, sumBy, modify, set, AList.entries_insert, map_cons, sum_cons, hsum, hget]
  cases m.entries.dlookup k <;> simp [h0] <;> omega

theorem sum_map_get [AddCommMonoid ν] [Inhabited ν] (h0 : (default : ν) = 0) {ks : List κ}
    (hks : ks.Nodup) (hsub : ∀ k ∈ m.keys, k ∈ ks) :
    (ks.map (get m)).sum = (m.entries.map Sigma.snd).sum := by
  have hentries : m.entries.map Sigma.snd = m.keys.map (get m) := by
    rw [entries_eq_map_keys, map_map]
    rfl
  rw [hentries]
  refine (sum_map_of_subset hks m.keys_nodup hsub fun k _ hk => ?_).symm
  rw [get_of_not_mem_keys hk, h0]

omit [DecidableEq κ] in
theorem sumBy_deleteFunc (m : GoMap κ ν) (f : ν → Int) (del : κ → Bool) :
    sumBy (deleteFunc m fun k _ => del k) f +
      ((m.entries.filter fun e => del e.1).map fun e => f e.2).sum = sumBy m f := by
  have hsum := ((filter_append_perm (fun e => del e.1) m.entries).map fun e => f e.2).sum_eq
  rw [map_append, sum_append, add_comm] at hsum
  exact hsum

end LlmScaler.Core.GoMap
