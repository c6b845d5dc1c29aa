import LlmScaler.Core.GoMap
import LlmScaler.Core.Matching
import LlmScaler.Core.Sorting
import LlmScaler.Core.Time
import Mathlib.Algebra.Order.Group.Multiset

/-!
# Claims on transfers that are still releasing

A wake claims a releasing transfer for each of its replicas, all or none, found by backtracking. A
claim waits in the store until the engine takes it or it is too old, and its transfer is not listed
meanwhile.
-/

namespace LlmScaler.Decision

open LlmScaler.Core List

/-- A transfer a wake may claim. -/
structure ShareClaimable where
  id : String
  receiverZ : ℚ
  /-- The GPUs of each pod the donor releases, none if they are unknown. -/
  donorPodGPUs : List Int
  donorGPUs : Int
  deriving DecidableEq

/-- A claim that is not taken yet. -/
structure ShareClaim where
  scope : String
  accelerator : String
  id : String
  wake : String
  model : String
  madeAt : Int

structure ShareWake where
  pods : List Int
  gpus : Int
  variant : String

inductive ShareClaimOutcome where
  | redirected
  | refusedScore
  | refusedFit
  | noneReleasing
  | refusedHeld
  deriving DecidableEq

def shareClaimMaxAge : Int := 2 * minute

def shareClaimModelHold : Int := 2 * minute

def shareGroupKey (scope accelerator : String) : String := scope ++ "|" ++ accelerator

abbrev Claimable := GoMap String (List ShareClaimable)

structure ShareClaimStore where
  /-- `none` before the first list. -/
  claimable : Option Claimable := none
  claims : List ShareClaim := []
  publishedAt : Int := 0
  lastClaim : GoMap String Int := ∅

def descending (l : List Int) : List Int := (l.insertionSort (· ≤ ·)).reverse

def podsCover (donorPods : List Int) (donorGPUs : Int) (receiverPods : List Int)
    (receiverGPUs : Int) : Bool :=
  if donorPods = [] ∨ receiverPods = [] then max receiverGPUs 1 ≤ max donorGPUs 1
  else if donorPods.length < receiverPods.length then false
  else ((descending receiverPods).zip (descending donorPods)).all fun p => p.1 ≤ p.2

/-- A transfer qualifies for a replica of a wake that scores `z`. -/
def qualifies (z : ℚ) (w : ShareWake) (e : ShareClaimable) : Bool :=
  decide (z < e.receiverZ) && podsCover e.donorPodGPUs e.donorGPUs w.pods w.gpus

def largestFirst (wakes : List ShareWake) : List ShareWake :=
  (Sorting.byKey fun w : ShareWake => OrderDual.toDual w.gpus).sort wakes

/-- The transfers, that of the best-off receiver first. -/
def preferred (entries : List ShareClaimable) : List ShareClaimable :=
  (Sorting.byKey fun e : ShareClaimable => toLex (OrderDual.toDual e.receiverZ, e.id)).sort entries

def pickEach (entries : List ShareClaimable) (z : ℚ) (wakes : List ShareWake) :
    Option (List ShareClaimable) :=
  assign (qualifies z) (largestFirst wakes) (preferred entries)

def claimsOn (scope accelerator model : String) (now : Int) (wakes : List ShareWake)
    (pick : List ShareClaimable) : List ShareClaim :=
  ((largestFirst wakes).zip pick).map fun p =>
    ⟨scope, accelerator, p.2.id, p.1.variant, model, now⟩

def unclaimed (claims : List ShareClaim) (entries : List ShareClaimable) : List ShareClaimable :=
  entries.filter fun e => !claims.any (·.id = e.id)

namespace ShareClaimStore

variable (s : ShareClaimStore)

def publish (claimable : Claimable) (now : Int) : ShareClaimStore :=
  let claims := s.claims.filter fun c => now - c.madeAt ≤ shareClaimMaxAge
  { s with
    claims := claims
    claimable := some (claimable.mapValues fun _ => unclaimed claims)
    publishedAt := now }

def listed (key : String) : List ShareClaimable := (s.claimable.getD ∅).get key

/-- A model that claimed a moment ago. -/
def held (model : String) (now : Int) : Bool :=
  (s.lastClaim.find? model).any fun t => now - t < shareClaimModelHold

section ClaimSet

variable (scope accelerator : String) (wakes : List ShareWake) (z : ℚ) (model : String) (now : Int)

def claimSet : ShareClaimStore × List ShareClaim × ShareClaimOutcome :=
  let key := shareGroupKey scope accelerator
  let entries := s.listed key
  if wakes = [] ∨ s.claimable = none ∨ shareClaimMaxAge < now - s.publishedAt then
    (s, [], .noneReleasing)
  else if s.held model now then (s, [], .refusedHeld)
  else if entries = [] then (s, [], .noneReleasing)
  else if !entries.any fun e => z < e.receiverZ then (s, [], .refusedScore)
  else match pickEach entries z wakes with
    | none => (s, [], .refusedFit)
    | some pick =>
      let claims := claimsOn scope accelerator model now wakes pick
      ({ s with
        claimable := s.claimable.map (·.set key (unclaimed claims entries))
        claims := s.claims ++ claims
        lastClaim := s.lastClaim.set model now }, claims, .redirected)

end ClaimSet

def take (scope accelerator : String) : ShareClaimStore × List ShareClaim :=
  ({ s with claims := s.claims.filter fun c => !(c.scope = scope && c.accelerator = accelerator) },
    s.claims.filter fun c => c.scope = scope && c.accelerator = accelerator)

end ShareClaimStore

theorem pairwise_descending (l : List Int) : (descending l).Pairwise (· ≥ ·) :=
  pairwise_reverse.mpr (pairwise_insertionSort (· ≤ ·) l)

theorem perm_descending (l : List Int) : (descending l).Perm l :=
  (reverse_perm _).trans (perm_insertionSort (· ≤ ·) l)

/-- The pods are covered exactly when each has a donor pod of its own. -/
theorem podsCover_iff {donorPods receiverPods : List Int} (donorGPUs receiverGPUs : Int)
    (hdonor : donorPods ≠ []) (hreceiver : receiverPods ≠ []) :
    podsCover donorPods donorGPUs receiverPods receiverGPUs = true ↔
      Matches (· ≤ ·) receiverPods donorPods := by
  rw [matches_perm_left (perm_descending receiverPods).symm,
    matches_perm_right (perm_descending donorPods).symm,
    matches_le_iff (pairwise_descending _) (pairwise_descending _),
    (perm_descending _).length_eq, (perm_descending _).length_eq, podsCover,
    if_neg (not_or.mpr ⟨hdonor, hreceiver⟩)]
  split_ifs with hlen
  · simp [hlen]
  · simp [not_lt.mp hlen]

section Picks

variable {entries : List ShareClaimable} {z : ℚ} {wakes : List ShareWake}

theorem perm_preferred : (preferred entries).Perm entries := Sorting.perm _ _

theorem pickEach_isSome_iff : (pickEach entries z wakes).isSome = true ↔
    Matches (fun w e => qualifies z w e = true) wakes entries := by
  have hwakes : (largestFirst wakes).Perm wakes := Sorting.perm _ _
  rw [pickEach, assign_isSome_iff, matches_perm_left hwakes, matches_perm_right perm_preferred]

/-- The claims of a wake are on distinct transfers of the list. -/
theorem ids_claimsOn {pick : List ShareClaimable} (h : pickEach entries z wakes = some pick)
    (scope accelerator model : String) (now : Int) :
    (claimsOn scope accelerator model now wakes pick).map (·.id) <+~ entries.map (·.id) := by
  obtain ⟨hpick, hfits⟩ := assign_spec h
  obtain ⟨l, hperm, hsub⟩ := hpick.trans perm_preferred.subperm
  have hids : (claimsOn scope accelerator model now wakes pick).map (·.id) = pick.map (·.id) := by
    nth_rewrite 2 [← map_snd_zip hfits.length_eq.ge]
    rw [claimsOn, map_map, map_map]
    rfl
  exact hids ▸ ⟨l.map (·.id), hperm.map _, hsub.map _⟩

end Picks

/-- No transfer is listed twice, in one group or in two. -/
structure ListsOnce (listed : String → List ShareClaimable) : Prop where
  nodup : ∀ key, ((listed key).map (·.id)).Nodup
  apart : ∀ key key', key ≠ key' → ((listed key).map (·.id)).Disjoint ((listed key').map (·.id))

theorem ListsOnce.sublist {listed listed' : String → List ShareClaimable} (h : ListsOnce listed)
    (hsub : ∀ key, listed' key <+ listed key) : ListsOnce listed' where
  nodup key := (h.nodup key).sublist ((hsub key).map _)
  apart key key' hne _ hi hi' := h.apart key key' hne (((hsub key).map _).subset hi)
    (((hsub key').map _).subset hi')

theorem mem_unclaimed {claims : List ShareClaim} {entries : List ShareClaimable}
    {e : ShareClaimable} (h : e ∈ unclaimed claims entries) :
    e ∈ entries ∧ e.id ∉ claims.map (·.id) := by
  simpa [unclaimed] using h

namespace ShareClaimStore

/-- Every transfer has at most one claim, and is not listed while it has. -/
structure Kept (s : ShareClaimStore) : Prop where
  listsOnce : ListsOnce s.listed
  unclaimed : ∀ key, ∀ e ∈ s.listed key, e.id ∉ s.claims.map (·.id)
  nodup : (s.claims.map (·.id)).Nodup

variable {s : ShareClaimStore}

theorem listed_publish (m : Claimable) (now : Int) (key : String) :
    (s.publish m now).listed key = Decision.unclaimed (s.publish m now).claims (m.get key) := by
  let claims := (s.publish m now).claims
  refine (GoMap.get_mapValues m (fun _ => Decision.unclaimed claims) key).trans ?_
  change _ = Decision.unclaimed claims ((m.find? key).getD default)
  cases m.find? key <;> rfl

theorem Kept.publish (h : s.Kept) {m : Claimable} (hm : ListsOnce m.get) (now : Int) :
    (s.publish m now).Kept where
  listsOnce := hm.sublist fun key => listed_publish m now key ▸ filter_sublist
  unclaimed key _ he := (mem_unclaimed (listed_publish m now key ▸ he)).2
  nodup := h.nodup.sublist (filter_sublist.map _)

section ClaimSet

variable (s) (scope accelerator : String) (wakes : List ShareWake) (z : ℚ) (model : String)
  (now : Int)

theorem claimSet_cases :
    let s' := (s.claimSet scope accelerator wakes z model now).1
    s' = s ∨ ∃ key claims, claims.map (·.id) <+~ (s.listed key).map (·.id) ∧
      s'.claims = s.claims ++ claims ∧ ∀ k, s'.listed k =
        if k = key then Decision.unclaimed claims (s.listed key) else s.listed k := by
  rw [claimSet]
  dsimp only
  split_ifs with hnone
  · exact .inl rfl
  · exact .inl rfl
  · exact .inl rfl
  · exact .inl rfl
  · cases hpick : pickEach (s.listed (shareGroupKey scope accelerator)) z wakes with
    | none => exact .inl rfl
    | some pick =>
      refine .inr ⟨_, _, ids_claimsOn hpick scope accelerator model now, rfl, fun k => ?_⟩
      obtain ⟨m, hm⟩ := Option.ne_none_iff_exists'.mp fun h => hnone (.inr (.inl h))
      rw [listed, listed, listed, hm]
      exact GoMap.get_set ..

variable {s}

theorem Kept.claimSet (h : s.Kept) : (s.claimSet scope accelerator wakes z model now).1.Kept := by
  obtain heq | ⟨key, claims, hids, hclaims, hlisted⟩ :=
    s.claimSet_cases scope accelerator wakes z model now
  · rwa [heq]
  obtain ⟨l, hperm, hsub⟩ := id hids
  refine ⟨h.listsOnce.sublist fun k => ?_, fun k e he => ?_, ?_⟩
  · rw [hlisted]
    split_ifs with hk
    · exact hk ▸ filter_sublist
    · exact Sublist.refl _
  · rw [hclaims, map_append, mem_append, not_or]
    rw [hlisted] at he
    split_ifs at he with hk
    · obtain ⟨he, hnot⟩ := mem_unclaimed he
      exact ⟨h.unclaimed key e he, hnot⟩
    · exact ⟨h.unclaimed k e he, fun hmem =>
        h.listsOnce.apart k key hk (mem_map_of_mem he) (hids.subset hmem)⟩
  · rw [hclaims, map_append]
    refine h.nodup.append (hperm.nodup_iff.mp ((h.listsOnce.nodup key).sublist hsub)) ?_
    intro i hi hi'
    obtain ⟨e, he, rfl⟩ := mem_map.mp (hids.subset hi')
    exact h.unclaimed key e he hi

variable {wakes z model now}

theorem redirected_iff (hfresh : now - s.publishedAt ≤ shareClaimMaxAge)
    (hheld : s.held model now = false) (hwakes : wakes ≠ []) :
    (s.claimSet scope accelerator wakes z model now).2.2 = .redirected ↔
      Matches (fun w e => qualifies z w e = true) wakes
        (s.listed (shareGroupKey scope accelerator)) := by
  generalize hentries : s.listed (shareGroupKey scope accelerator) = entries
  have hscore : Matches (fun w e => qualifies z w e = true) wakes entries →
      ∃ e ∈ entries, z < e.receiverZ := by
    rintro ⟨picked, hsub, hfits⟩
    cases hfits with
    | nil => exact absurd rfl hwakes
    | @cons w e _ _ hw _ =>
      rw [qualifies, Bool.and_eq_true, decide_eq_true_eq] at hw
      exact ⟨e, hsub.subset mem_cons_self, hw.1⟩
  rw [claimSet, hheld, hentries, if_neg Bool.false_ne_true]
  split_ifs with hstop hnone hrefused
  · have hnone : s.claimable = none := by simpa [hwakes, not_lt.mpr hfresh] using hstop
    refine iff_of_false nofun fun h => ?_
    obtain ⟨e, he, -⟩ := hscore h
    rw [← hentries, listed, hnone] at he
    cases he
  · refine iff_of_false nofun fun h => ?_
    obtain ⟨e, he, -⟩ := hscore h
    exact not_mem_nil (hnone ▸ he)
  · refine iff_of_false nofun fun h => ?_
    obtain ⟨e, he, hz⟩ := hscore h
    simp only [Bool.not_eq_true', any_eq_false, decide_eq_true_eq] at hrefused
    exact hrefused e he hz
  · rw [← pickEach_isSome_iff]
    cases pickEach entries z wakes with
    | none => exact iff_of_false nofun nofun
    | some pick => exact iff_of_true rfl rfl

end ClaimSet

theorem Kept.take (h : s.Kept) (scope accelerator : String) :
    (s.take scope accelerator).1.Kept where
  listsOnce := h.listsOnce
  unclaimed key e he hmem := h.unclaimed key e he ((filter_sublist.map _).subset hmem)
  nodup := h.nodup.sublist (filter_sublist.map _)

inductive Op where
  | publish (claimable : Claimable) (now : Int)
  | claimSet (scope accelerator : String) (wakes : List ShareWake) (z : ℚ) (model : String)
      (now : Int)
  | take (scope accelerator : String)

def after (s : ShareClaimStore) : Op → ShareClaimStore
  | .publish claimable now => s.publish claimable now
  | .claimSet scope accelerator wakes z model now =>
    (s.claimSet scope accelerator wakes z model now).1
  | .take scope accelerator => (s.take scope accelerator).1

def Op.PublishesOnce : Op → Prop
  | .publish claimable _ => ListsOnce claimable.get
  | _ => True

theorem Kept.after (h : s.Kept) {op : Op} (hop : op.PublishesOnce) : (s.after op).Kept := by
  cases op with
  | publish m now => exact h.publish hop now
  | claimSet scope accelerator wakes z model now => exact h.claimSet ..
  | take scope accelerator => exact h.take ..

theorem kept_run {ops : List Op} (hops : ∀ op ∈ ops, op.PublishesOnce) :
    (ops.foldl ShareClaimStore.after {}).Kept :=
  foldlRecOn _ _ ⟨⟨fun _ => nodup_nil, fun _ _ _ => disjoint_nil_left _⟩, nofun, nodup_nil⟩
    fun _ hs op hop => hs.after (hops op hop)

/-- One transfer of eight GPUs in the cluster's group. -/
def oneTransfer : ShareClaimStore :=
  { claimable := some (GoMap.ofList [("|H100", [⟨"t", 2, [8], 8⟩])]) }

/-- A store with the claims made so far and those that left it, taken or too old. -/
structure Account where
  store : ShareClaimStore := {}
  made : Multiset ShareClaim := 0
  taken : Multiset ShareClaim := 0
  dropped : Multiset ShareClaim := 0

def Account.next (a : Account) : Op → Account
  | .publish claimable now =>
    { a with
      store := a.store.publish claimable now
      dropped := a.dropped + (a.store.claims.filter fun c => shareClaimMaxAge < now - c.madeAt) }
  | .claimSet scope accelerator wakes z model now =>
    let out := a.store.claimSet scope accelerator wakes z model now
    { a with store := out.1, made := a.made + out.2.1 }
  | .take scope accelerator =>
    let out := a.store.take scope accelerator
    { a with store := out.1, taken := a.taken + out.2 }

theorem claims_claimSet (s : ShareClaimStore) (scope accelerator : String) (wakes : List ShareWake)
    (z : ℚ) (model : String) (now : Int) :
    let out := s.claimSet scope accelerator wakes z model now
    out.1.claims = s.claims ++ out.2.1 := by
  rw [claimSet]
  dsimp only
  split_ifs
  any_goals exact (append_nil _).symm
  cases pickEach (s.listed (shareGroupKey scope accelerator)) z wakes with
  | none => exact (append_nil _).symm
  | some pick => rfl

/-- No claim is lost or taken twice: each claim made was taken once, was dropped once for its age,
or is in the store. -/
theorem claims_conserved (ops : List Op) :
    let a := ops.foldl Account.next {}
    a.made = a.taken + a.dropped + a.store.claims := by
  refine foldlRecOn (motive := fun a : Account => a.made = a.taken + a.dropped + a.store.claims)
    _ _ rfl fun a h op _ => ?_
  -- a filter and its complement share out the claims of the store
  have hsplit (p : ShareClaim → Bool) : (a.store.claims : Multiset ShareClaim) =
      ↑(a.store.claims.filter p) + ↑(a.store.claims.filter (!p ·)) :=
    (Multiset.coe_eq_coe.mpr (filter_append_perm p _)).symm
  cases op with
  | publish m now =>
    have hage := hsplit fun c => shareClaimMaxAge < now - c.madeAt
    simp only [← decide_not, not_lt] at hage
    simp only [Account.next, publish, h, hage, add_assoc]
  | claimSet scope accelerator wakes z model now =>
    simp only [Account.next, claims_claimSet, ← Multiset.coe_add, h, add_assoc]
  | take scope accelerator =>
    have htaken := hsplit fun c => c.scope = scope && c.accelerator = accelerator
    simp only [Account.next, take, h, htaken]
    rw [← add_assoc, add_right_comm a.taken]

end ShareClaimStore

end LlmScaler.Decision
