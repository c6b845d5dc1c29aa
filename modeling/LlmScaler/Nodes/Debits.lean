import LlmScaler.Core.Run
import LlmScaler.Core.Tally
import LlmScaler.Nodes.InFlight

/-!
# Debits, charges and domains

A view keeps its debits, what each owner was charged and the topology domains taken in three maps.
Every operation changes them by charging nodes no more than they have free, by taking the domain of
a node it has just charged, or by giving back all that some owners were charged.
-/

namespace LlmScaler.Nodes

open LlmScaler.Core List GoMap

namespace NodeView

def charged (v : NodeView) (o : String) (j : ℕ) : Int := ((v.owned.getD ∅).get o).get j

def chargedOn (v : NodeView) (j : ℕ) : Int := (v.owned.getD ∅).sumBy fun perNode => perNode.get j

variable {j : ℕ}

section Charge

variable (v : NodeView) (i : ℕ) (g : Int)

@[simp] theorem slots_charge : (v.charge i g).slots = v.slots := rfl

@[simp] theorem owner_charge : (v.charge i g).owner = v.owner := rfl

@[simp] theorem domains_charge : (v.charge i g).domains = v.domains := rfl

@[simp] theorem takenAt_charge : (v.charge i g).takenAt = v.takenAt := rfl

@[simp] theorem isSome_owned_charge : (v.charge i g).owned.isSome = v.owned.isSome := by
  simp [charge, record]

@[simp] theorem isSome_owned_record : (v.record i g).owned.isSome = v.owned.isSome := by
  simp [record]

theorem debit_charge (j : ℕ) :
    (v.charge i g).debit.get j = v.debit.get j + if j = i then g else 0 := by
  rw [charge]
  exact get_modify_add ..

theorem free_charge_of_ne (h : j ≠ i) : (v.charge i g).free j = v.free j := by
  unfold free
  rw [debit_charge, if_neg h, Int.add_zero]
  rfl

variable {v}

theorem charged_record (hv : v.owned.isSome = true) (o : String) (j : ℕ) :
    (v.record i g).charged o j = v.charged o j + if o = v.owner ∧ j = i then g else 0 := by
  obtain ⟨m, hm⟩ := Option.isSome_iff_exists.mp hv
  simp only [charged, record, hm, Option.map_some, Option.getD_some, get_modify]
  by_cases ho : o = v.owner
  · rw [if_pos ho, get_modify_add, ho]
    simp
  · simp [ho]

theorem chargedOn_record (hv : v.owned.isSome = true) (j : ℕ) :
    (v.record i g).chargedOn j = v.chargedOn j + if j = i then g else 0 := by
  obtain ⟨m, hm⟩ := Option.isSome_iff_exists.mp hv
  simp only [chargedOn, record, hm, Option.map_some, Option.getD_some]
  rw [sumBy_modify m (fun perNode : GoMap ℕ Int => perNode.get j) rfl, get_modify_add]
  omega

theorem charged_charge (hv : v.owned.isSome = true) (o : String) (j : ℕ) :
    (v.charge i g).charged o j = v.charged o j + if o = v.owner ∧ j = i then g else 0 :=
  charged_record i g hv o j

theorem chargedOn_charge (hv : v.owned.isSome = true) (j : ℕ) :
    (v.charge i g).chargedOn j = v.chargedOn j + if j = i then g else 0 :=
  chargedOn_record i g hv j

end Charge

/-- A node of the topology domain on which the owner is charged. -/
def ChargedIn (v : NodeView) (id o : String) : Prop :=
  ∃ key d j, id = domainID key d ∧ labelAt v.slots j key = d ∧ 0 < v.charged o j

/-- The accounts of a root view. -/
structure Sound (v : NodeView) : Prop where
  root : v.owned.isSome = true
  /-- A node's debit is the sum of what its owners are charged. -/
  balanced : ∀ j, v.debit.get j = v.chargedOn j
  charged_nonneg : ∀ o j, 0 ≤ v.charged o j
  /-- A node's debit is within what the snapshot leaves free. -/
  within : ∀ j, v.debit.get j ≤ (slotAt v.slots j).unused
  /-- The holder of a domain is charged on one of its nodes. -/
  held : ∀ id o, v.domains.find? id = some o → v.ChargedIn id o

variable {v : NodeView}

theorem Sound.debit_nonneg (h : Sound v) (j : ℕ) : 0 ≤ v.debit.get j := by
  rw [h.balanced]
  refine sum_nonneg (forall_mem_map.mpr fun ⟨o, perNode⟩ he => ?_)
  have hget := get_of_find? (mem_entries.mp he)
  have := h.charged_nonneg o j
  rw [charged, hget] at this
  exact this

theorem sound_new (slots : List NodeSlot) (takenAt : Time) : Sound (new slots takenAt) where
  root := rfl
  balanced _ := rfl
  charged_nonneg _ _ := Int.le_refl 0
  within _ := by
    change (0 : Int) ≤ _
    exact le_max_left _ _
  held id o h := by
    change (GoMap.find? (∅ : GoMap String String) id) = some o at h
    cases h

theorem Sound.setOwner (h : Sound v) (o : String) : Sound (v.setOwner o) :=
  ⟨h.root, h.balanced, h.charged_nonneg, h.within, h.held⟩

theorem Sound.charge (h : Sound v) {i : ℕ} {g : Int} (h0 : 0 ≤ g) (hg : g ≤ v.free i) :
    Sound (v.charge i g) where
  root := by rw [isSome_owned_charge]; exact h.root
  balanced j := by rw [debit_charge, chargedOn_charge i g h.root, h.balanced]
  charged_nonneg o j := by
    have := h.charged_nonneg o j
    rw [charged_charge i g h.root]
    split_ifs
    · omega
    · omega
  within j := by
    have hw := h.within j
    rw [debit_charge, slots_charge]
    by_cases hj : j = i
    · subst hj
      rw [if_pos rfl]
      unfold NodeSlot.unused at hw ⊢
      unfold free at hg
      omega
    · rw [if_neg hj]
      omega
  held id o hd := by
    obtain ⟨key, d, j, hid, hlabel, hpos⟩ := h.held id o hd
    refine ⟨key, d, j, hid, hlabel, ?_⟩
    rw [charged_charge i g h.root]
    split_ifs
    · omega
    · omega

theorem Sound.takeDomain (h : Sound v) {id : String} (hid : v.ChargedIn id v.owner) :
    Sound (v.takeDomain id) where
  root := h.root
  balanced := h.balanced
  charged_nonneg := h.charged_nonneg
  within := h.within
  held id' o ho := by
    change (v.domains.set id v.owner).find? id' = some o at ho
    rw [find?_set] at ho
    split_ifs at ho with heq
    · cases ho
      rw [heq]
      exact hid
    · exact h.held id' o ho

variable {f : ℕ → Int} {ks : List ℕ}

section ChargeAll

variable {v : NodeView}

private theorem charges_fields (f : ℕ → Int) (ks : List ℕ) :
    (ks.foldl (fun v i => v.charge i (f i)) v).slots = v.slots ∧
    (ks.foldl (fun v i => v.charge i (f i)) v).owner = v.owner ∧
    (ks.foldl (fun v i => v.charge i (f i)) v).domains = v.domains ∧
    (ks.foldl (fun v i => v.charge i (f i)) v).takenAt = v.takenAt := by
  induction ks generalizing v with
  | nil => exact ⟨rfl, rfl, rfl, rfl⟩
  | cons k ks ih => exact ih

private theorem charges_debit (f : ℕ → Int) (ks : List ℕ) :
    (ks.foldl (fun v i => v.charge i (f i)) v).debit =
      ks.foldl (fun m i => m.modify i fun n => n + f i) v.debit := by
  induction ks generalizing v with
  | nil => rfl
  | cons k ks ih => exact ih

private theorem charges_charged (hv : v.owned.isSome = true) (hks : ks.Nodup) (o : String) (j : ℕ) :
    (ks.foldl (fun v i => v.charge i (f i)) v).charged o j =
      v.charged o j + if o = v.owner ∧ j ∈ ks then f j else 0 := by
  induction ks generalizing v with
  | nil => simp
  | cons k ks ih =>
    obtain ⟨hk, hks⟩ := nodup_cons.mp hks
    rw [foldl_cons, ih (by rw [isSome_owned_charge]; exact hv) hks, charged_charge k (f k) hv,
      owner_charge]
    by_cases hj : j = k
    · subst hj
      simp [hk]
    · simp [hj]

private theorem sound_charges (h : Sound v) (hks : ks.Nodup)
    (hf : ∀ i ∈ ks, 0 ≤ f i ∧ f i ≤ v.free i) :
    Sound (ks.foldl (fun v i => v.charge i (f i)) v) := by
  induction ks generalizing v with
  | nil => exact h
  | cons k ks ih =>
    obtain ⟨hk, hks⟩ := nodup_cons.mp hks
    obtain ⟨h0, hle⟩ := hf k mem_cons_self
    rw [foldl_cons]
    apply ih (h.charge h0 hle) hks
    intro i hi
    have hne : i ≠ k := fun he => hk (he ▸ hi)
    rw [free_charge_of_ne v k (f k) hne]
    exact hf i (mem_cons_of_mem k hi)

variable (taken : GoMap ℕ Int)

theorem nodup_sortedKeys : (taken.keys.insertionSort (· ≤ ·)).Nodup :=
  (perm_insertionSort _ _).nodup_iff.mpr taken.nodupKeys

theorem mem_sortedKeys : j ∈ taken.keys.insertionSort (· ≤ ·) ↔ j ∈ taken.keys :=
  (perm_insertionSort _ _).mem_iff

@[simp] theorem slots_chargeAll : (v.chargeAll taken).slots = v.slots :=
  (charges_fields taken.get _).1

@[simp] theorem owner_chargeAll : (v.chargeAll taken).owner = v.owner :=
  (charges_fields taken.get _).2.1

@[simp] theorem domains_chargeAll : (v.chargeAll taken).domains = v.domains :=
  (charges_fields taken.get _).2.2.1

@[simp] theorem takenAt_chargeAll : (v.chargeAll taken).takenAt = v.takenAt :=
  (charges_fields taken.get _).2.2.2

private theorem ite_mem_keys (j : ℕ) :
    (if j ∈ taken.keys.insertionSort (· ≤ ·) then taken.get j else 0) = taken.get j := by
  split_ifs with h
  · rfl
  · rw [mem_sortedKeys] at h
    exact (get_of_not_mem_keys h).symm

theorem debit_chargeAll (j : ℕ) :
    (v.chargeAll taken).debit.get j = v.debit.get j + taken.get j := by
  rw [chargeAll, charges_debit, get_foldl_add _ _ (nodup_sortedKeys taken), ite_mem_keys]

theorem charged_chargeAll (hv : v.owned.isSome = true) (j : ℕ) :
    (v.chargeAll taken).charged v.owner j = v.charged v.owner j + taken.get j := by
  rw [chargeAll, charges_charged hv (nodup_sortedKeys taken)]
  simp only [true_and]
  rw [ite_mem_keys]

theorem Sound.chargeAll (h : Sound v) (ht : ∀ j, 0 ≤ taken.get j ∧ taken.get j ≤ v.free j) :
    Sound (v.chargeAll taken) :=
  sound_charges h (nodup_sortedKeys taken) fun i _ => ht i

end ChargeAll

variable {domain key : String} {taken : GoMap ℕ Int}

section BestFit

variable {v : NodeView}

/-- What pods take of the nodes' holes, in the domain when there is one. -/
def Fits (v : NodeView) (key domain : String) (taken : GoMap ℕ Int) : Prop :=
  ∀ j, 0 ≤ taken.get j ∧ taken.get j ≤ v.free j ∧
    (0 < taken.get j → domain ≠ "" → labelAt v.slots j key = domain)

theorem free_nonneg (v : NodeView) (j : ℕ) : 0 ≤ v.free j := le_max_left _ _

theorem fits_empty (key domain : String) : Fits v key domain ∅ :=
  fun j => ⟨Int.le_refl 0, v.free_nonneg j, fun h => absurd h (Int.lt_irrefl 0)⟩

/-- A hole of `f` GPUs for the need, in the domain when there is one. -/
def IsHole (v : NodeView) (taken : GoMap ℕ Int) (need : ℕ) (key domain : String) (i : ℕ)
    (f : Int) : Prop :=
  f = v.free i - taken.get i ∧ (need : Int) ≤ f ∧
    (domain ≠ "" → labelAt v.slots i key = domain)

private theorem smallestHole_isHole {p : PodFit} {i : ℕ} {f : Int}
    (h : v.smallestHole taken p key domain = some (i, f)) :
    v.IsHole taken p.gpus key domain i f := by
  revert h
  refine foldlRecOn (motive := fun best => best = some (i, f) →
    v.IsHole taken p.gpus key domain i f) _ _ (fun hn => by cases hn) fun best hbest n _ hif => ?_
  unfold betterHole at hif
  by_cases hdom : domain ≠ "" ∧ labelAt v.slots n key ≠ domain
  · rw [if_pos hdom] at hif
    exact hbest hif
  · rw [if_neg hdom] at hif
    by_cases hneed : v.free n - taken.get n < p.gpus
    · rw [if_pos hneed] at hif
      exact hbest hif
    · rw [if_neg hneed] at hif
      have hn : v.IsHole taken p.gpus key domain n (v.free n - taken.get n) := by
        refine ⟨rfl, by omega, fun hd => ?_⟩
        by_contra hne
        exact hdom ⟨hd, hne⟩
      match best with
      | none =>
        cases hif
        exact hn
      | some (b, bf) =>
        dsimp only at hif
        split_ifs at hif
        · exact hbest hif
        · cases hif
          exact hn

theorem smallestHole_spec {p : PodFit} {i : ℕ} {f : Int}
    (h : v.smallestHole taken p key domain = some (i, f)) :
    taken.get i + p.gpus ≤ v.free i ∧ (domain ≠ "" → labelAt v.slots i key = domain) := by
  obtain ⟨hf, hneed, hlabel⟩ := smallestHole_isHole h
  exact ⟨by omega, hlabel⟩

variable {pods : List PodFit}

theorem Fits.modify {p : PodFit} {i : ℕ} {f : Int} (ht : Fits v key domain taken)
    (hs : v.smallestHole taken p key domain = some (i, f)) :
    Fits v key domain (taken.modify i (· + p.gpus)) := by
  obtain ⟨hle, hlabel⟩ := smallestHole_spec hs
  intro j
  obtain ⟨h0, hfree, hdom⟩ := ht j
  rw [get_modify_add]
  by_cases hj : j = i
  · subst hj
    rw [if_pos rfl]
    exact ⟨by omega, hle, fun _ => hlabel⟩
  · rw [if_neg hj, Int.add_zero]
    exact ⟨h0, hfree, hdom⟩

theorem bestFitFrom_cons {p : PodFit} {out : GoMap ℕ Int}
    (h : v.bestFitFrom key domain taken (p :: pods) = some out) :
    ∃ i f, v.smallestHole taken p key domain = some (i, f) ∧
      v.bestFitFrom key domain (taken.modify i (· + p.gpus)) pods = some out := by
  unfold bestFitFrom at h
  cases hs : v.smallestHole taken p key domain with
  | none =>
    rw [hs] at h
    cases h
  | some best =>
    rw [hs] at h
    exact ⟨best.1, best.2, rfl, h⟩

theorem bestFitFrom_spec {out : GoMap ℕ Int} (ht : Fits v key domain taken)
    (h : v.bestFitFrom key domain taken pods = some out) :
    Fits v key domain out ∧ ∀ j, taken.get j ≤ out.get j := by
  induction pods generalizing taken with
  | nil =>
    cases h
    exact ⟨ht, fun j => Int.le_refl _⟩
  | cons p pods ih =>
    obtain ⟨i, f, hs, h⟩ := bestFitFrom_cons h
    obtain ⟨hout, hmono⟩ := ih (ht.modify hs) h
    refine ⟨hout, fun j => le_trans ?_ (hmono j)⟩
    rw [get_modify_add]
    split_ifs
    · omega
    · omega

theorem bestFit_fits (h : v.bestFit pods key domain = some taken) : Fits v key domain taken :=
  (bestFitFrom_spec (fits_empty key domain) h).1

theorem bestFit_pos (h : v.bestFit pods key domain = some taken) (hne : pods ≠ [])
    (hpos : ∀ p ∈ pods, 0 < p.gpus) : ∃ j, 0 < taken.get j := by
  cases pods with
  | nil => exact absurd rfl hne
  | cons p pods =>
    obtain ⟨i, f, hs, h⟩ := bestFitFrom_cons h
    refine ⟨i, lt_of_lt_of_le ?_ ((bestFitFrom_spec ((fits_empty key domain).modify hs) h).2 i)⟩
    rw [get_modify_add, if_pos rfl]
    simpa using hpos p mem_cons_self

end BestFit

/-- A placement leaves the view, or charges nodes within their holes and then takes at most the
domain of a node it charged. -/
inductive Step (v : NodeView) : NodeView → Prop
  | unchanged : Step v v
  | charged {taken : GoMap ℕ Int} (hfit : ∀ j, 0 ≤ taken.get j ∧ taken.get j ≤ v.free j) :
      Step v (v.chargeAll taken)
  | inDomain {taken : GoMap ℕ Int} {key d : String} {j : ℕ}
      (hfit : ∀ j, 0 ≤ taken.get j ∧ taken.get j ≤ v.free j) (hlabel : labelAt v.slots j key = d)
      (hpos : 0 < taken.get j) : Step v ((v.chargeAll taken).takeDomain (domainID key d))

section Steps

variable {v : NodeView}

theorem Fits.within (h : Fits v key domain taken) (j : ℕ) :
    0 ≤ taken.get j ∧ taken.get j ≤ v.free j := ⟨(h j).1, (h j).2.1⟩

theorem podFits_pos {r : ReplicaFit} {p : PodFit} (h : p ∈ v.podFits r) : 0 < p.gpus := by
  rw [podFits, Sorting.mem_sort] at h
  obtain ⟨⟨g, i⟩, hg, rfl⟩ := mem_map.mp h
  simpa using (mem_filter.mp hg).2

private theorem placeIn_step {r : ReplicaFit} (hne : v.podFits r ≠ []) {ds : List String}
    (hds : ∀ d ∈ ds, d ≠ "") : Step v (v.placeIn r ds).1 := by
  induction ds with
  | nil => exact .unchanged
  | cons d ds ih =>
    obtain ⟨hd, hds⟩ := forall_mem_cons.mp hds
    unfold placeIn
    split_ifs
    · exact ih hds
    · cases hb : v.bestFit (v.podFits r) r.domain d with
      | none => exact ih hds
      | some taken =>
        obtain ⟨j, hj⟩ := bestFit_pos hb hne fun p hp => podFits_pos hp
        have hfits := bestFit_fits hb
        exact .inDomain hfits.within ((hfits j).2.2 hj hd) hj

theorem domainsOf_ne {slots : List NodeSlot} {nodes : List ℕ} {d : String}
    (h : d ∈ domainsOf slots nodes key) : d ≠ "" := by
  unfold domainsOf at h
  rw [(perm_insertionSort _ _).mem_iff, mem_dedup] at h
  simpa using (mem_filter.mp h).2

theorem place_step (r : ReplicaFit) : Step v (v.place r).1 := by
  unfold place
  split_ifs with hne hex
  · exact .unchanged
  · exact placeIn_step hne fun d hd => domainsOf_ne hd
  · cases hb : v.bestFit (v.podFits r) r.domain "" with
    | none => exact .unchanged
    | some taken => exact .charged (bestFit_fits hb).within

theorem holdRest_step (r : ReplicaFit) {rest : List ℕ} (hne : rest ≠ []) (hpos : ∀ g ∈ rest, 0 < g)
    (d : String) : Step v (v.holdRest r rest d) := by
  unfold holdRest
  cases hb : v.bestFit ((rest.insertionSort (· ≥ ·)).map fun g => ⟨g, eligibleFit v.slots r⟩)
      (if d = "" then "" else r.domain) d with
  | none => exact .unchanged
  | some taken =>
    have hfits := bestFit_fits hb
    dsimp only
    split_ifs with hd
    · obtain ⟨j, hj⟩ := bestFit_pos hb (by
        rw [Ne, map_eq_nil_iff, ← length_eq_zero_iff, length_insertionSort,
          length_eq_zero_iff]
        exact hne) (forall_mem_map.mpr fun g hg =>
        hpos g ((perm_insertionSort _ _).mem_iff.mp hg))
      have hlabel := (hfits j).2.2 hj hd
      rw [if_neg hd] at hlabel
      exact .inDomain hfits.within hlabel hj
    · exact .charged hfits.within

theorem Sound.step {v' : NodeView} (h : Sound v) (hs : Step v v') : Sound v' := by
  cases hs with
  | unchanged => exact h
  | charged hfit => exact h.chargeAll _ hfit
  | @inDomain taken key d j hfit hlabel hpos =>
    apply (h.chargeAll taken hfit).takeDomain
    refine ⟨key, d, j, rfl, ?_, ?_⟩
    · rw [slots_chargeAll]
      exact hlabel
    · rw [owner_chargeAll, charged_chargeAll taken h.root]
      have := h.charged_nonneg v.owner j
      omega

end Steps

/-- A copy grown from a view by placements: its debits are at least the view's and within the
nodes, and each domain it took has a node it debited more. -/
structure Grown (v c : NodeView) : Prop where
  slots : c.slots = v.slots
  debit_le : ∀ j, v.debit.get j ≤ c.debit.get j
  within : ∀ j, c.debit.get j ≤ (slotAt v.slots j).unused
  taken : ∀ id, c.domains.has id = true → v.domains.has id = true ∨
    ∃ key d j, id = domainID key d ∧ labelAt v.slots j key = d ∧ v.debit.get j < c.debit.get j

theorem grown_clone (h : Sound v) : Grown v v.clone :=
  ⟨rfl, fun _ => Int.le_refl _, h.within, fun _ hid => .inl hid⟩

theorem Grown.step {c c' : NodeView} (h : Grown v c) (hs : Step c c') : Grown v c' := by
  have hwithin : ∀ {taken : GoMap ℕ Int}, (∀ j, 0 ≤ taken.get j ∧ taken.get j ≤ c.free j) →
      ∀ j, c.debit.get j + taken.get j ≤ (slotAt v.slots j).unused := by
    intro taken hfit j
    obtain ⟨h0, hle⟩ := hfit j
    have hw := h.within j
    unfold free at hle
    rw [h.slots] at hle
    unfold NodeSlot.unused at hw ⊢
    omega
  cases hs with
  | unchanged => exact h
  | @charged taken hfit =>
    refine ⟨by rw [slots_chargeAll, h.slots], ?_, ?_, ?_⟩
    · intro j
      have h1 := h.debit_le j
      have h2 := (hfit j).1
      rw [debit_chargeAll]
      omega
    · intro j
      rw [debit_chargeAll]
      exact hwithin hfit j
    · intro id hid
      rw [domains_chargeAll] at hid
      rcases h.taken id hid with hv | ⟨key, d, j, hid', hlabel, hlt⟩
      · exact .inl hv
      · refine .inr ⟨key, d, j, hid', hlabel, ?_⟩
        have h2 := (hfit j).1
        rw [debit_chargeAll]
        omega
  | @inDomain taken key d j hfit hlabel hpos =>
    have hdebit : ∀ j, ((c.chargeAll taken).takeDomain (domainID key d)).debit.get j =
        c.debit.get j + taken.get j := fun j => debit_chargeAll taken j
    refine ⟨?_, ?_, ?_, ?_⟩
    · exact (slots_chargeAll taken).trans h.slots
    · intro j
      have h1 := h.debit_le j
      have h2 := (hfit j).1
      rw [hdebit]
      omega
    · intro j
      rw [hdebit]
      exact hwithin hfit j
    · intro id hid
      change ((c.chargeAll taken).domains.set (domainID key d) (c.chargeAll taken).owner).has id =
        true at hid
      rw [has_set, Bool.or_eq_true, domains_chargeAll] at hid
      rcases hid with hid | hid
      · refine .inr ⟨key, d, j, by simpa using hid, h.slots ▸ hlabel, ?_⟩
        have h1 := h.debit_le j
        rw [hdebit]
        omega
      · rcases h.taken id hid with hv | ⟨key', d', j', hid', hlabel', hlt⟩
        · exact .inl hv
        · refine .inr ⟨key', d', j', hid', hlabel', ?_⟩
          have h2 := (hfit j').1
          rw [hdebit]
          omega

section Adopt

variable {v c : NodeView}

private theorem records_spec (hv : v.owned.isSome = true) (hks : ks.Nodup) :
    let w := ks.foldl (fun v' i => if f i = 0 then v' else v'.record i (f i)) v
    w.owned.isSome = true ∧ w.slots = v.slots ∧ w.owner = v.owner ∧ w.domains = v.domains ∧
    (∀ o j, w.charged o j = v.charged o j + if o = v.owner ∧ j ∈ ks then f j else 0) ∧
    ∀ j, w.chargedOn j = v.chargedOn j + if j ∈ ks then f j else 0 := by
  induction ks generalizing v with
  | nil => simp [hv]
  | cons k ks ih =>
    obtain ⟨hk, hks⟩ := nodup_cons.mp hks
    intro w
    -- a figure of zero is no charge, recorded or not
    obtain ⟨hsome, hslots, howner, hdomains, hcharged, hon⟩ :
        let v' := if f k = 0 then v else v.record k (f k)
        v'.owned.isSome = true ∧ v'.slots = v.slots ∧ v'.owner = v.owner ∧ v'.domains = v.domains ∧
        (∀ o j, v'.charged o j = v.charged o j + if o = v.owner ∧ j = k then f k else 0) ∧
        ∀ j, v'.chargedOn j = v.chargedOn j + if j = k then f k else 0 := by
      split_ifs with hf
      · simp [hv, hf]
      · exact ⟨(isSome_owned_record ..).trans hv, rfl, rfl, rfl, charged_record k (f k) hv,
          chargedOn_record k (f k) hv⟩
    obtain ⟨h1, h2, h3, h4, h5, h6⟩ := ih hsome hks
    refine ⟨h1, h2.trans hslots, h3.trans howner, h4.trans hdomains, fun o j => ?_, fun j => ?_⟩
    · refine (h5 o j).trans ?_
      rw [hcharged, howner]
      by_cases hj : j = k
      · subst hj
        simp [hk]
      · simp [hj]
    · refine (h6 j).trans ?_
      rw [hon]
      by_cases hj : j = k
      · subst hj
        simp [hk]
      · simp [hj]

private theorem sound_takeNew {w : NodeView} (h : Sound w) {ids : List String}
    (hids : ∀ id ∈ ids, w.domains.has id = true ∨ w.ChargedIn id w.owner) :
    Sound (ids.foldl (fun v' id => if v'.domains.has id then v' else v'.takeDomain id) w) := by
  induction ids generalizing w with
  | nil => exact h
  | cons id ids ih =>
    obtain ⟨hid, hids⟩ := forall_mem_cons.mp hids
    rw [foldl_cons]
    split_ifs with hhas
    · exact ih h hids
    · have hch : w.ChargedIn id w.owner := hid.resolve_left hhas
      apply ih (h.takeDomain hch)
      intro id' hid'
      rcases hids id' hid' with hh | hh
      · left
        change (w.domains.set id w.owner).has id' = true
        rw [has_set, hh, Bool.or_true]
      · exact .inr hh

theorem Sound.adopt (h : Sound v) (hg : Grown v c) : Sound (v.adopt c) := by
  obtain ⟨hroot, hslots, howner, hdom, hcharged, hon⟩ :=
    records_spec h.root c.debit.nodupKeys (f := fun i => c.debit.get i - v.debit.get i)
  change (v.recordAdded c).owned.isSome = true at hroot
  change (v.recordAdded c).slots = v.slots at hslots
  change (v.recordAdded c).owner = v.owner at howner
  change (v.recordAdded c).domains = v.domains at hdom
  change ∀ o j, (v.recordAdded c).charged o j = _ at hcharged
  change ∀ j, (v.recordAdded c).chargedOn j = _ at hon
  -- a node the copy has no debit on has none in the view either
  have hadded : ∀ j, (if j ∈ c.debit.entries.keys then c.debit.get j - v.debit.get j else 0) =
      c.debit.get j - v.debit.get j := by
    intro j
    split_ifs with hj
    · rfl
    · have hc : c.debit.get j = 0 := get_of_not_mem_keys hj
      have h1 := hg.debit_le j
      have h2 := h.debit_nonneg j
      omega
  have hmore : ∀ o j, v.charged o j ≤ (v.recordAdded c).charged o j := by
    intro o j
    have h1 := hg.debit_le j
    rw [hcharged]
    split_ifs
    · omega
    · omega
  have hsound : Sound { v.recordAdded c with debit := c.debit } := by
    refine ⟨hroot, ?_, ?_, ?_, ?_⟩
    · intro j
      change c.debit.get j = (v.recordAdded c).chargedOn j
      rw [hon, hadded, ← h.balanced]
      omega
    · intro o j
      exact le_trans (h.charged_nonneg o j) (hmore o j)
    · intro j
      change c.debit.get j ≤ (slotAt (v.recordAdded c).slots j).unused
      rw [hslots]
      exact hg.within j
    · intro id o ho
      change (v.recordAdded c).domains.find? id = some o at ho
      rw [hdom] at ho
      obtain ⟨key, d, j, hid, hlabel, hpos⟩ := h.held id o ho
      refine ⟨key, d, j, hid, ?_, lt_of_lt_of_le hpos (hmore o j)⟩
      change labelAt (v.recordAdded c).slots j key = d
      rw [hslots]
      exact hlabel
  apply sound_takeNew hsound
  intro id hid
  have hhas : c.domains.has id = true := has_iff_mem_keys.mpr hid
  rcases hg.taken id hhas with hv | ⟨key, d, j, hid', hlabel, hlt⟩
  · left
    change (v.recordAdded c).domains.has id = true
    rw [hdom]
    exact hv
  · refine .inr ⟨key, d, j, hid', ?_, ?_⟩
    · change labelAt (v.recordAdded c).slots j key = d
      rw [hslots]
      exact hlabel
    · change 0 < (v.recordAdded c).charged (v.recordAdded c).owner j
      rw [howner, hcharged]
      simp only [true_and]
      have := hadded j
      rw [this]
      have := h.charged_nonneg v.owner j
      omega

end Adopt

end NodeView

end LlmScaler.Nodes
