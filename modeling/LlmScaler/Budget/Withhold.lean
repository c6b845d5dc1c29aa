import LlmScaler.Budget.Acceptance

/-!
# Withholding promises

A wake accepted in a tick is withheld from the constraints of the later ones: each provider counts
it as used in the one pool `findKey` matches. The check bounds a name by every key that covers it.
Where the pool charged is the only finite one that covers the name, the two views agree.
-/

namespace LlmScaler.Budget

open Core Accelerator List GoMap

/-- A pool with `g` more GPUs in use, if it is the one the name is charged to and finite. -/
def chargedPool (charged : Option String) (g : ℕ) (key : String) (p : ResourcePool) :
    ResourcePool :=
  if charged = some key ∧ p.limit ≠ ⊤ then { p with used := p.used + g } else p

theorem find?_charge (pools : Pools) (acc : String) (g : ℕ) (k : String) :
    (charge pools acc g).1.find? k =
      (pools.find? k).map (chargedPool (findKey pools acc) g k) := by
  have hsame : ∀ charged, (∀ p, pools.find? k = some p → ¬ (charged = some k ∧ p.limit ≠ ⊤)) →
      pools.find? k = (pools.find? k).map (chargedPool charged g k) := by
    intro charged h
    cases hk : pools.find? k with
    | none => rfl
    | some p => rw [Option.map_some, chargedPool, if_neg (h p hk)]
  unfold charge
  cases hkey : findKey pools acc with
  | none =>
    apply hsame
    rintro p _ ⟨h, _⟩
    cases h
  | some key =>
    obtain ⟨p, hp⟩ := GoMap.mem_keys.mp (findKey_mem hkey)
    simp only [hp]
    by_cases htop : p.limit = ⊤
    · simp only [htop, if_true]
      apply hsame
      rintro p' hp' ⟨h, hlimit⟩
      cases h
      rw [hp] at hp'
      cases hp'
      exact hlimit htop
    · simp only [htop, if_false, find?_mapValues]
      by_cases hk : k = key
      · subst hk
        simp [hp, chargedPool, htop]
      · have hne : ¬ (some key = some k) := fun h => hk (Option.some_inj.mp h).symm
        simp only [hk, if_false]
        cases pools.find? k with
        | none => rfl
        | some p' => rw [Option.map_some, Option.map_some, chargedPool, if_neg fun h => hne h.1]

theorem keys_charge (pools : Pools) (acc : String) (g : ℕ) :
    (charge pools acc g).1.keys = pools.keys := by
  unfold charge
  split
  · rfl
  · split
    · rfl
    · split
      · rfl
      · exact keys_mapValues _ _

/-- Whether a name is charged where it is bounded: the pool `findKey` matches is the only finite
one that covers it, and a family is listed under its own name. -/
def chargedWhereBounded (pools : Pools) (name : String) : Bool :=
  (!isFamily name || pools.keys.any (equalFold · name)) &&
    pools.entries.all fun e =>
      !covers e.1 name || decide (e.2.limit = ⊤) || findKey pools name == some e.1

theorem chargedWhereBounded_iff {pools : Pools} {name : String} :
    chargedWhereBounded pools name = true ↔
      (isFamily name = true → OwnLists pools name) ∧
        ∀ q p, pools.find? q = some p → covers q name = true → p.limit ≠ ⊤ →
          findKey pools name = some q := by
  have hall : (∀ e ∈ pools.entries, (!covers e.1 name || decide (e.2.limit = ⊤) ||
      findKey pools name == some e.1) = true) ↔
      ∀ q p, pools.find? q = some p → covers q name = true → p.limit ≠ ⊤ →
        findKey pools name = some q := by
    constructor
    · intro h q p hq hcover hlimit
      simpa [hcover, hlimit] using h ⟨q, p⟩ (mem_entries.mpr hq)
    · rintro h ⟨q, p⟩ he
      have hq := h q p (mem_entries.mp he)
      by_cases hcover : covers q name = true
      · by_cases hlimit : p.limit = ⊤
        · simp [hlimit]
        · simp [hq hcover hlimit]
      · simp [hcover]
  rw [chargedWhereBounded, Bool.and_eq_true, all_eq_true, hall, OwnLists]
  refine and_congr_left fun _ => ?_
  simp only [Bool.or_eq_true, Bool.not_eq_true', any_eq_true, equalFold_iff,
    ← Bool.not_eq_true, imp_iff_not_or]

theorem chargedWhereBounded_charge (pools : Pools) (acc : String) (g : ℕ) (name : String) :
    chargedWhereBounded (charge pools acc g).1 name = chargedWhereBounded pools name := by
  rw [Bool.eq_iff_iff, chargedWhereBounded_iff, chargedWhereBounded_iff, OwnLists, OwnLists,
    keys_charge, findKey_of_keys (keys_charge pools acc g)]
  refine and_congr_right fun _ => forall_congr' fun q => ?_
  rw [find?_charge]
  cases pools.find? q with
  | none => simp
  | some p =>
    have hlimit : (chargedPool (findKey pools acc) g q p).limit = p.limit := by
      unfold chargedPool
      split_ifs <;> rfl
    simp [hlimit]

/-- A promise charged where its name is bounded is taken from every key that covers the name. -/
theorem spentFrom_charge {pools : Pools} {acc : String} (g : ℕ)
    (h : chargedWhereBounded pools acc = true) :
    SpentFrom poolBound (fun q => if covers q acc then g else 0) pools (charge pools acc g).1 where
  keys := keys_charge pools acc g
  drawn q hq := by
    obtain ⟨p, hp⟩ := GoMap.mem_keys.mp hq
    rw [boundAt, boundAt, find?_charge, hp, Option.map_some, Option.map_some, Option.map_some,
      Option.getD_some, Option.getD_some, chargedPool, poolBound, poolBound,
      ResourcePool.available, ResourcePool.available]
    by_cases hcover : covers q acc = true
    · rw [if_pos hcover]
      by_cases hlimit : p.limit = ⊤
      · rw [if_neg fun hc => hc.2 hlimit, hlimit]
        exact le_top.trans_eq (by simp)
      · have hkey := (chargedWhereBounded_iff.mp h).2 q p hp hcover hlimit
        rw [if_pos ⟨hkey, hlimit⟩, tsub_tsub, Nat.cast_add]
    · rw [if_neg hcover, Nat.cast_zero, tsub_zero]
      split_ifs
      · apply tsub_le_tsub_left
        exact_mod_cast Nat.le_add_right _ _
      · exact le_rfl

abbrev DemandEntry := Sigma fun _ : String => ℕ

/-- One promise charged, nothing for a promise of nothing. -/
def chargeEntry (pools : Pools) (e : DemandEntry) : Pools :=
  if e.2 = 0 then pools else (charge pools e.1 e.2).1

/-- Promises charged one after another. -/
def chargeAll (entries : List DemandEntry) (pools : Pools) : Pools :=
  entries.foldl chargeEntry pools

theorem SpentFrom.trans {spent spent' : String → ℕ} {a b c : Pools}
    (h : SpentFrom poolBound spent a b) (h' : SpentFrom poolBound spent' b c) :
    SpentFrom poolBound (fun q => spent q + spent' q) a c where
  keys := h'.keys.trans h.keys
  drawn q hq := by
    calc boundAt poolBound c q ≤ boundAt poolBound b q - spent' q := h'.drawn q (by rwa [h.keys])
      _ ≤ boundAt poolBound a q - spent q - spent' q := tsub_le_tsub_right (h.drawn q hq) _
      _ = boundAt poolBound a q - (spent q + spent' q : ℕ) := by rw [tsub_tsub, Nat.cast_add]

private theorem spentFrom_chargeEntry {pools : Pools} {e : DemandEntry}
    (h : chargedWhereBounded pools e.1 = true) :
    SpentFrom poolBound (fun q => if covers q e.1 then e.2 else 0) pools (chargeEntry pools e) := by
  unfold chargeEntry
  split_ifs with hzero
  · simp only [hzero, ite_self]
    exact ⟨rfl, fun q _ => le_of_eq (by rw [Nat.cast_zero, tsub_zero])⟩
  · exact spentFrom_charge e.2 h

private theorem chargedWhereBounded_chargeEntry (pools : Pools) (e : DemandEntry) (name : String) :
    chargedWhereBounded (chargeEntry pools e) name = chargedWhereBounded pools name := by
  unfold chargeEntry
  split_ifs
  · rfl
  · exact chargedWhereBounded_charge pools e.1 e.2 name

/-- A demand charged where its names are bounded is taken from every key by what is demanded
under the key. -/
theorem spentFrom_chargeAll {entries : List DemandEntry} {pools : Pools}
    (h : ∀ e ∈ entries, chargedWhereBounded pools e.1 = true) :
    SpentFrom poolBound (fun q => ((entries.filter fun e => covers q e.1).map Sigma.snd).sum)
      pools (chargeAll entries pools) := by
  induction entries generalizing pools with
  | nil => exact ⟨rfl, fun q _ => le_of_eq (by simp [chargeAll])⟩
  | cons e entries ih =>
    rw [forall_mem_cons] at h
    have hrest : ∀ e' ∈ entries, chargedWhereBounded (chargeEntry pools e) e'.1 = true := by
      intro e' he'
      rw [chargedWhereBounded_chargeEntry]
      exact h.2 e' he'
    have hboth := SpentFrom.trans (spentFrom_chargeEntry h.1) (ih hrest)
    refine ⟨hboth.keys, fun q hq => (hboth.drawn q hq).trans (le_of_eq ?_)⟩
    rw [filter_cons]
    split_ifs <;> simp

section Withheld

variable {c : ResourceConstraints} {ns : String}

private theorem withholdOne_fields (hns : ns ≠ "") (e : DemandEntry)
    (copy : ResourceConstraints × ℕ) :
    (withholdOne c ns e.1 e.2 copy).1.pools = chargeEntry copy.1.pools e ∧
      isClusterBound (withholdOne c ns e.1 e.2 copy).1 = isClusterBound copy.1 ∧
      ((withholdOne c ns e.1 e.2 copy).1.namespacePools.bind (·.find? ns)) =
        (copy.1.namespacePools.bind (·.find? ns)).map (chargeEntry · e) := by
  unfold withholdOne chargeEntry
  by_cases hzero : e.2 = 0
  · simp only [hzero, if_true, true_and]
    exact Option.map_id'.symm
  · rw [if_neg hzero, if_neg fun h => hns h.1]
    simp only [hzero, hns, if_false, true_and]
    constructor
    · rw [isClusterBound, isClusterBound, Option.isNone_map]
    · cases copy.1.namespacePools with
      | none => rfl
      | some held => simp

private theorem withholdAll_fields (hns : ns ≠ "") (entries : List DemandEntry)
    (copy : ResourceConstraints × ℕ) :
    let copy' := entries.foldl (fun copy e => withholdOne c ns e.1 e.2 copy) copy
    copy'.1.pools = chargeAll entries copy.1.pools ∧
      isClusterBound copy'.1 = isClusterBound copy.1 ∧
      (copy'.1.namespacePools.bind (·.find? ns)) =
        (copy.1.namespacePools.bind (·.find? ns)).map (chargeAll entries) := by
  induction entries generalizing copy with
  | nil => exact ⟨rfl, rfl, Option.map_id'.symm⟩
  | cons e entries ih =>
    obtain ⟨hpools, hbound, hheld⟩ := withholdOne_fields (c := c) hns e copy
    obtain ⟨hpools', hbound', hheld'⟩ := ih (withholdOne c ns e.1 e.2 copy)
    refine ⟨?_, hbound'.trans hbound, ?_⟩
    · rw [foldl_cons, hpools', hpools]
      rfl
    · rw [foldl_cons, hheld', hheld, Option.map_map]
      rfl

def WakesOf (ns : String) (wakes : TickWakes) (promised : Demand) : Prop :=
  wakes = ∅ ∧ promised = ∅ ∨ wakes = (∅ : TickWakes).set ns promised

variable (constraints : List ResourceConstraints) {wakes : TickWakes} {promised : Demand}

private theorem withheld_fields (hns : ns ≠ "") (h : WakesOf ns wakes promised) :
    ∃ copy : ResourceConstraints → ResourceConstraints,
      withholdPromised constraints wakes = constraints.map copy ∧
      ∀ c, (copy c).pools = chargeAll promised.entries c.pools ∧
        isClusterBound (copy c) = isClusterBound c ∧
        ((copy c).namespacePools.bind (·.find? ns)) =
          (c.namespacePools.bind (·.find? ns)).map (chargeAll promised.entries) := by
  rcases h with ⟨rfl, rfl⟩ | rfl
  · refine ⟨id, (map_id _).symm, fun c => ⟨rfl, rfl, Option.map_id'.symm⟩⟩
  · have hentries : ((∅ : TickWakes).set ns promised).entries = [⟨ns, promised⟩] := rfl
    unfold withholdPromised
    simp only [hentries, isEmpty_cons, Bool.false_eq_true, if_false, foldl_cons,
      foldl_nil]
    exact ⟨_, rfl, fun c => withholdAll_fields hns promised.entries (c, 0)⟩

theorem clusterPools_withheld (hns : ns ≠ "") (h : WakesOf ns wakes promised) :
    clusterPools (withholdPromised constraints wakes) =
      (clusterPools constraints).map (chargeAll promised.entries) := by
  obtain ⟨copy, hcopy, hfields⟩ := withheld_fields constraints hns h
  rw [hcopy, clusterPools, clusterPools, clusterBounds, clusterBounds, filter_map,
    map_map, map_map]
  have hbound : isClusterBound ∘ copy = isClusterBound := funext fun c => (hfields c).2.1
  rw [hbound]
  exact map_congr_left fun c _ => (hfields c).1

theorem namespaceHolders_withheld (hns : ns ≠ "") (h : WakesOf ns wakes promised) :
    namespaceHolders (withholdPromised constraints wakes) ns =
      (namespaceHolders constraints ns).map (chargeAll promised.entries) := by
  obtain ⟨copy, hcopy, hfields⟩ := withheld_fields constraints hns h
  rw [hcopy, namespaceHolders, namespaceHolders, filterMap_map, map_filterMap]
  exact filterMap_congr fun c _ => (hfields c).2.2

end Withheld

end LlmScaler.Budget
