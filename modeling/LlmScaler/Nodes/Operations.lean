import LlmScaler.Nodes.Landing

/-!
# Operations on a root view

Holding the in-flight ledger, reserving, placing, adopting a trial copy and taking back holes keep a
root view's accounts. What `without` gives is read off them.
-/

namespace LlmScaler.Nodes

open LlmScaler.Core List GoMap

namespace NodeView

theorem get_giveBackNode (d : GoMap ℕ Int) (i : ℕ) (g : Int) (j : ℕ) :
    (giveBackNode d i g).get j = if j = i then max 0 (d.get i - g) else d.get j := by
  unfold giveBackNode
  by_cases hle : d.get i - g ≤ 0
  · rw [if_pos hle, get_delete, max_eq_left hle]
    rfl
  · rw [if_neg hle, get_set, max_eq_right (by omega)]

variable {d : GoMap ℕ Int}

private theorem get_giveBackEntries {l : List (Sigma fun _ : ℕ => Int)} (hl : l.NodupKeys)
    (hle : ∀ e ∈ l, e.2 ≤ d.get e.1) (j : ℕ) :
    (l.foldl (fun d e => giveBackNode d e.1 e.2) d).get j = d.get j - (l.dlookup j).getD 0 := by
  induction l generalizing d with
  | nil => simp
  | cons e l ih =>
    obtain ⟨i, g⟩ := e
    obtain ⟨hnot, hl⟩ := nodupKeys_cons.mp hl
    obtain ⟨hg, hrest⟩ := forall_mem_cons.mp hle
    have hg : g ≤ d.get i := hg
    rw [foldl_cons, ih hl]
    · rw [get_giveBackNode]
      by_cases hj : j = i
      · subst hj
        rw [if_pos rfl, dlookup_cons_eq, dlookup_eq_none.mpr hnot]
        change max 0 (d.get j - g) - 0 = d.get j - g
        omega
      · rw [if_neg hj, dlookup_cons_ne _ _ hj]
    · intro e he
      have hne : e.1 ≠ i := by
        intro heq
        have hmem : e.1 ∈ l.keys := mem_map_of_mem he
        exact hnot (heq ▸ hmem)
      rw [get_giveBackNode, if_neg hne]
      exact hrest e he

theorem get_giveBack {perNode : GoMap ℕ Int} (hle : ∀ j, perNode.get j ≤ d.get j) (j : ℕ) :
    (giveBack d perNode).get j = d.get j - perNode.get j := by
  apply get_giveBackEntries perNode.nodupKeys
  rintro ⟨i, g⟩ he
  have := hle i
  rw [get_of_find? (mem_entries.mp he)] at this
  exact this

private theorem get_giveBackList {l : List (Sigma fun _ : String => GoMap ℕ Int)}
    (hnonneg : ∀ e ∈ l, ∀ j, 0 ≤ e.2.get j) (hle : ∀ j, (l.map fun e => e.2.get j).sum ≤ d.get j)
    (j : ℕ) :
    (l.foldl (fun d e => giveBack d e.2) d).get j = d.get j - (l.map fun e => e.2.get j).sum := by
  induction l generalizing d with
  | nil => simp
  | cons e l ih =>
    obtain ⟨he, hl⟩ := forall_mem_cons.mp hnonneg
    have hsum (j : ℕ) : 0 ≤ (l.map fun e => e.2.get j).sum :=
      sum_nonneg (forall_mem_map.mpr fun e he => hl e he j)
    have hfirst : ∀ j, e.2.get j ≤ d.get j := by
      intro j
      have h1 := hle j
      have h2 := hsum j
      rw [map_cons, sum_cons] at h1
      omega
    rw [foldl_cons, ih hl]
    · rw [get_giveBack hfirst, map_cons, sum_cons]
      omega
    · intro j
      have h1 := hle j
      rw [map_cons, sum_cons] at h1
      rw [get_giveBack hfirst]
      omega

section GiveBack

variable {v : NodeView}

theorem debitsExcept_add (v : NodeView) (named : String → Bool) (j : ℕ) :
    v.debitsExcept named j +
      (((v.owned.getD ∅).entries.filter fun e => named e.1).map fun e => e.2.get j).sum =
      v.chargedOn j :=
  sumBy_deleteFunc (v.owned.getD ∅) (fun perNode : GoMap ℕ Int => perNode.get j) named

private theorem Sound.entry_nonneg (h : Sound v) {e : Sigma fun _ : String => GoMap ℕ Int}
    (he : e ∈ (v.owned.getD ∅).entries) (j : ℕ) : 0 ≤ e.2.get j := by
  have := h.charged_nonneg e.1 j
  rw [charged, get_of_find? (mem_entries.mp he)] at this
  exact this

theorem Sound.debitsExcept_nonneg (h : Sound v) (named : String → Bool) (j : ℕ) :
    0 ≤ v.debitsExcept named j := by
  refine sum_nonneg (forall_mem_map.mpr fun e he => ?_)
  exact h.entry_nonneg (mem_of_mem_filter he) j

theorem Sound.get_giveBackOwners (h : Sound v) (named : String → Bool) (j : ℕ) :
    (giveBackOwners (v.owned.getD ∅) named v.debit).get j = v.debitsExcept named j := by
  have hsplit := debitsExcept_add v named
  unfold giveBackOwners
  rw [get_giveBackList]
  · have h1 := hsplit j
    have h2 := h.balanced j
    omega
  · intro e he
    exact h.entry_nonneg (mem_of_mem_filter he)
  · intro j
    have h1 := hsplit j
    have h2 := h.balanced j
    have h3 := h.debitsExcept_nonneg named j
    omega

theorem has_of_charged_pos {o : String} {j : ℕ} (h : 0 < v.charged o j) :
    (v.owned.getD ∅).has o = true := by
  apply has_iff_mem_keys.mpr
  by_contra hnot
  rw [charged, get_of_not_mem_keys hnot] at h
  exact absurd h (Int.lt_irrefl 0)

theorem charged_release (hv : v.owned.isSome = true) (created : GoMap String ℕ) (o : String)
    (j : ℕ) : (v.releaseUncreated created).charged o j =
      if uncreated created o then 0 else v.charged o j := by
  obtain ⟨m, hm⟩ := Option.isSome_iff_exists.mp hv
  simp only [charged, releaseUncreated, hm, Option.map_some, Option.getD_some]
  have hf := find?_deleteFunc m (fun owner _ => uncreated created owner) o
  by_cases hu : uncreated created o = true
  · rw [if_pos hu]
    have hnone : GoMap.find? (m.deleteFunc fun owner _ => uncreated created owner) o = none := by
      rw [hf]
      simp [hu]
    rw [get_of_find?_none hnone]
    rfl
  · rw [if_neg hu]
    cases ho : m.find? o with
    | none =>
      rw [ho] at hf
      rw [get_of_find?_none hf, get_of_find?_none ho]
    | some perNode =>
      have hf' : GoMap.find? (m.deleteFunc fun owner _ => uncreated created owner) o =
          some perNode := by
        rw [hf, ho]
        simp [hu]
      rw [get_of_find? hf', get_of_find? ho]

theorem Sound.releaseUncreated (h : Sound v) (created : GoMap String ℕ) :
    Sound (v.releaseUncreated created) := by
  have hdebit : ∀ j, (v.releaseUncreated created).debit.get j =
      v.debitsExcept (uncreated created) j := h.get_giveBackOwners (uncreated created)
  refine ⟨?_, ?_, ?_, ?_, ?_⟩
  · change (v.owned.map _).isSome = true
    rw [Option.isSome_map]
    exact h.root
  · intro j
    obtain ⟨m, hm⟩ := Option.isSome_iff_exists.mp h.root
    rw [hdebit, chargedOn, NodeView.releaseUncreated, debitsExcept, hm]
    rfl
  · intro o j
    rw [charged_release h.root]
    split_ifs
    · exact Int.le_refl 0
    · exact h.charged_nonneg o j
  · intro j
    have h1 := debitsExcept_add v (uncreated created) j
    have h2 := h.balanced j
    have h3 := h.within j
    have h4 : 0 ≤ (((v.owned.getD ∅).entries.filter fun e => uncreated created e.1).map
        fun e => e.2.get j).sum := by
      refine sum_nonneg (forall_mem_map.mpr fun e he => ?_)
      exact h.entry_nonneg (mem_of_mem_filter he) j
    rw [hdebit]
    change _ ≤ (slotAt v.slots j).unused
    omega
  · intro id o ho
    change GoMap.find? (v.domains.deleteFunc fun _ owner =>
      uncreated created owner && (v.owned.getD ∅).has owner) id = some o at ho
    rw [find?_deleteFunc, Option.filter_eq_some_iff] at ho
    obtain ⟨hfind, hkept⟩ := ho
    obtain ⟨key, d, j, hid, hlabel, hpos⟩ := h.held id o hfind
    refine ⟨key, d, j, hid, hlabel, ?_⟩
    have hun : uncreated created o = false := by
      rw [has_of_charged_pos hpos, Bool.and_true] at hkept
      simpa using hkept
    rw [charged_release h.root, hun]
    exact hpos

end GiveBack

section Reserve

variable {v : NodeView} {nodes : List ℕ}

theorem freest_free {i : ℕ} {f : Int} (h : v.freest nodes = some (i, f)) : f = v.free i := by
  revert h
  refine foldlRecOn (motive := fun most => most = some (i, f) → f = v.free i) _ _
    (fun hn => by cases hn) fun most hmost n _ hif => ?_
  match most with
  | none =>
    dsimp only at hif
    split_ifs at hif
    cases hif
    rfl
  | some (b, bf) =>
    dsimp only at hif
    split_ifs at hif
    · cases hif
      rfl
    · exact hmost hif

theorem Sound.reserveFrom {fuel : ℕ} (h : Sound v) {gpus : ℕ} :
    Sound (NodeView.reserveFrom nodes fuel v gpus) := by
  induction fuel generalizing v gpus with
  | zero => exact h
  | succ fuel ih =>
    unfold NodeView.reserveFrom
    split_ifs
    · exact h
    · cases hm : v.freest nodes with
      | none => exact h
      | some most =>
        obtain ⟨i, f⟩ := most
        have hf := freest_free hm
        have hfree := v.free_nonneg i
        apply ih
        apply h.charge
        · omega
        · omega

theorem Sound.reserve (h : Sound v) (owner acc : String) (gpus : ℕ) :
    Sound (v.reserve owner acc gpus) :=
  ((h.setOwner owner).reserveFrom).setOwner v.owner

end Reserve

section Hold

variable {v : NodeView}

theorem Sound.holdPlaced (h : Sound v) (node : ℕ) (p : PartialSeen) :
    Sound (v.holdPlaced node p) := by
  refine foldlRecOn (motive := Sound) _ _ h fun v h q _ => ?_
  split_ifs with hq
  · apply h.charge
    · omega
    · omega
  · exact h

theorem restOf_pos {pods placed : List ℕ} {g : ℕ} (hg : g ∈ restOf pods placed) : 0 < g := by
  simpa using (mem_filter.mp hg).2

theorem Sound.holdPartial (h : Sound v) (r : ReplicaFit) (p : PartialSeen) :
    Sound (v.holdPartial r p) := by
  have hrest : ∀ {held : NodeView} domain, Sound held →
      Sound (if restOf r.pods p.placedGPUs = [] then held
        else held.holdRest r (restOf r.pods p.placedGPUs) domain) := by
    intro held domain hheld
    split_ifs with hrest
    · exact hheld
    · exact hheld.step (holdRest_step r hrest (fun g hg => restOf_pos hg) _)
  unfold NodeView.holdPartial
  by_cases hpods : r.pods = []
  · rw [if_pos hpods]
    exact h
  · rw [if_neg hpods]
    cases slotOf v.slots p.node with
    | none => exact hrest _ h
    | some i => exact hrest _ (h.holdPlaced i p)

theorem Sound.holdReplica (h : Sound v) (key : String) (e : InFlightEntry) (placed i : ℕ) :
    Sound (v.holdReplica key e placed i) := by
  have ho := h.setOwner (inFlightReplicaOwner key (placed + i + 1))
  unfold NodeView.holdReplica
  cases e.partials[i]? with
  | none => exact ho.step (place_step _)
  | some p => exact ho.holdPartial _ p

theorem Sound.holdEntry (h : Sound v) (key : String) (e : InFlightEntry) :
    Sound (v.holdEntry key e) := by
  unfold NodeView.holdEntry
  generalize v.shownPlaced e = placed
  induction List.range (e.want - placed) generalizing v with
  | nil => exact h
  | cons i is ih => exact ih (h.holdReplica key e placed i)

theorem Sound.holdOn (h : Sound v) (l : InFlightLedger) (now : Int) : Sound (v.holdOn l now) := by
  unfold NodeView.holdOn
  apply Sound.setOwner
  refine foldlRecOn (motive := Sound) _ _ h fun v h k _ => ?_
  cases l.entries.find? k with
  | none => exact h
  | some e =>
    dsimp only
    split_ifs
    · exact h.holdEntry k e
    · exact h

end Hold

inductive Op
  | setOwner (owner : String)
  | place (r : ReplicaFit)
  /-- Place replicas on a trial copy and adopt it for an owner. -/
  | adopt (owner : String) (rs : List ReplicaFit)
  | reserve (owner acc : String) (gpus : ℕ)
  | hold (l : InFlightLedger) (now : Int)
  | release (created : GoMap String ℕ)

/-- A trial copy with the replicas of a list placed as far as they fit. -/
def trial (v : NodeView) (rs : List ReplicaFit) : NodeView :=
  rs.foldl (fun c r => (c.place r).1) v.clone

def next (v : NodeView) : Op → NodeView
  | .setOwner owner => v.setOwner owner
  | .place r => (v.place r).1
  | .adopt owner rs => (v.setOwner owner).adopt (v.trial rs)
  | .reserve owner acc gpus => v.reserve owner acc gpus
  | .hold l now => v.holdOn l now
  | .release created => v.releaseUncreated created

variable {v : NodeView}

theorem grown_trial (h : Sound v) (rs : List ReplicaFit) : Grown v (v.trial rs) := by
  unfold trial
  have hg := grown_clone h
  generalize v.clone = c at hg
  induction rs generalizing c with
  | nil => exact hg
  | cons r rs ih => exact ih (c.place r).1 (hg.step (place_step r))

theorem Sound.next (h : Sound v) (op : Op) : Sound (v.next op) := by
  cases op with
  | setOwner owner => exact h.setOwner owner
  | place r => exact h.step (place_step r)
  | adopt owner rs =>
    have hg := grown_trial h rs
    exact (h.setOwner owner).adopt ⟨hg.slots, hg.debit_le, hg.within, hg.taken⟩
  | reserve owner acc gpus => exact h.reserve owner acc gpus
  | hold l now => exact h.holdOn l now
  | release created => exact h.releaseUncreated created

theorem sound_run (slots : List NodeSlot) (takenAt : Time) (ops : List Op) :
    Sound (runFrom next (new slots takenAt) ops) := by
  have h := sound_new slots takenAt
  generalize new slots takenAt = v at h
  induction ops generalizing v with
  | nil => exact h
  | cons op ops ih => exact ih (v.next op) (h.next op)

/-- The view in which some owners' debits and domains are given back: on the same nodes, each node
is debited what the other owners are charged, and the other owners' domains are taken. -/
structure GivenBack (v : NodeView) (exclude : String → Bool) (w : NodeView) : Prop where
  slots : w.slots = v.slots
  takenAt : w.takenAt = v.takenAt
  /-- A node is debited what the other owners are charged on it. -/
  debit : ∀ j, w.debit.get j = v.debitsExcept exclude j
  /-- A domain is taken when another owner holds it, by that owner. -/
  domains : ∀ id o, w.domains.find? id = some o ↔ v.domains.find? id = some o ∧ exclude o = false

theorem Sound.givenBack_without (h : Sound v) (exclude : String → Bool) :
    GivenBack v exclude (v.without exclude) where
  slots := rfl
  takenAt := rfl
  debit := h.get_giveBackOwners exclude
  domains id o := by
    change GoMap.find? (v.domains.deleteFunc fun _ owner => exclude owner) id = some o ↔ _
    rw [find?_deleteFunc, Option.filter_eq_some_iff]
    simp

/-- After every sequence of operations on a root view, a node's debit is the sum of what its owners
are charged and no more than the GPUs the snapshot leaves free, the one holder of a taken domain is
charged on a node of it, and `without` gives back exactly the named owners' part. -/
theorem accounts_of_run (slots : List NodeSlot) (takenAt : Time) (ops : List Op) :
    (∀ j, (runFrom next (new slots takenAt) ops).debit.get j =
      (runFrom next (new slots takenAt) ops).chargedOn j) ∧
    (∀ j, 0 ≤ (runFrom next (new slots takenAt) ops).debit.get j ∧
      (runFrom next (new slots takenAt) ops).debit.get j ≤
        (slotAt (runFrom next (new slots takenAt) ops).slots j).unused) ∧
    (∀ id o, (runFrom next (new slots takenAt) ops).domains.find? id = some o →
      (runFrom next (new slots takenAt) ops).ChargedIn id o) ∧
    ∀ exclude, GivenBack (runFrom next (new slots takenAt) ops) exclude
      ((runFrom next (new slots takenAt) ops).without exclude) := by
  have h := sound_run slots takenAt ops
  refine ⟨h.balanced, ?_, h.held, h.givenBack_without⟩
  intro j
  exact ⟨h.debit_nonneg j, h.within j⟩

private def zoneNode : NodeSlot :=
  ⟨"n", "H100", 2, 0, false, [], GoMap.set ∅ "zone" "a", false⟩

private def zoneReplica : ReplicaFit := ⟨"H100", [1, 1], [], "zone", [], none⟩

/-- A replica of two pods takes its zone, charged there. -/
theorem accounts_of_exclusive_run :
    (runFrom next (new [zoneNode] none)
      [.setOwner "ns/v", .place zoneReplica]).domains.find? (domainID "zone" "a") = some "ns/v" ∧
    (runFrom next (new [zoneNode] none)
      [.setOwner "ns/v", .place zoneReplica]).ChargedIn (domainID "zone" "a") "ns/v" := by
  have htaken : (runFrom next (new [zoneNode] none)
      [.setOwner "ns/v", .place zoneReplica]).domains.find? (domainID "zone" "a") =
        some "ns/v" := by
    decide
  exact ⟨htaken, (accounts_of_run [zoneNode] none _).2.2.1 _ _ htaken⟩

theorem placeSome_spec {v c : NodeView} (hg : Grown v c) (reps : List ReplicaShape)
    (h : (placeSome c reps).2 = true) : Grown v (placeSome c reps).1 ∧
      Debited c (placeSome c reps).1 ↑(reps.flatMap fun r => (fitOf c.slots r).pods) := by
  induction reps generalizing c with
  | nil => exact ⟨hg, .refl c⟩
  | cons r reps ih =>
    have hgrown := hg.step (place_step (fitOf c.slots r))
    have hpods := debited_place (v := c) (r := fitOf c.slots r)
    unfold placeSome at h ⊢
    generalize c.place (fitOf c.slots r) = placed at hgrown hpods h ⊢
    obtain ⟨c', _ | _⟩ := placed
    · cases h
    · obtain ⟨hall, hrest⟩ := ih hgrown h
      rw [(hpods rfl).1] at hrest
      exact ⟨hall, (hpods rfl).trans hrest⟩

/-- After every run, `PlaceReplicas` keeps the accounts, and it debits every pod of the replicas or
leaves the view as it was. -/
theorem placeReplicas_of_run (slots : List NodeSlot) (takenAt : Time) (ops : List Op)
    (reps : List ReplicaShape) (commit : Bool) :
    let v := runFrom next (new slots takenAt) ops
    let out := v.placeReplicas reps commit
    Sound out.1 ∧ if out.2 && commit then
        Debited v out.1 ↑(reps.flatMap fun r => (fitOf v.slots r).pods)
      else out.1 = v := by
  intro v
  have hsound : Sound v := sound_run slots takenAt ops
  have hspec := placeSome_spec (grown_clone hsound) reps
  unfold placeReplicas
  generalize placeSome v.clone reps = trial at hspec ⊢
  obtain ⟨trial, _ | _⟩ := trial
  · exact ⟨hsound, rfl⟩
  cases commit with
  | false => exact ⟨hsound, rfl⟩
  | true =>
    obtain ⟨hgrown, hpods⟩ := hspec rfl
    exact ⟨hsound.adopt hgrown,
      hpods.of_debit rfl ((slots_adopt v trial).trans hgrown.slots.symm) rfl (debit_adopt v trial)⟩

end NodeView

end LlmScaler.Nodes
