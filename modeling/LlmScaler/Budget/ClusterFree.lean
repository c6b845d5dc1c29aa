import LlmScaler.Budget.Merge
import LlmScaler.Core.Sorting
import LlmScaler.Core.Tally

/-!
# A cluster key split between the groups that draw on it

Groups whose fills draw on one finite cluster key get parts of it in proportion to what they could
fill, in whole replicas, and what rounding leaves goes round a replica at a time.
-/

namespace LlmScaler.Budget

open LlmScaler.Core Accelerator List

/-- `ShareGroup`: what the split reads of a group. -/
structure ShareGroup where
  acceleratorType : String
  budget : Int
  committed : GoMap String Int
  /-- The GPUs of one replica of the variant each role grows. -/
  grow : GoMap String ℕ
  /-- What a fill of the group may place this cycle. -/
  clusterFree : ℕ
  deriving Inhabited

/-- `growStepGPUs`: the fewest GPUs a group grows by, zero when it grows nothing. -/
def growStepGPUs (g : ShareGroup) : ℕ :=
  g.grow.entries.foldl (fun step v => if 0 < v.2 ∧ (step = 0 ∨ v.2 < step) then v.2 else step) 0

/-- `idleClaim`: the GPUs a group's fill could want, its budget less what its roles commit. -/
def idleClaim (g : ShareGroup) : ℕ :=
  (g.committed.entries.foldl (fun idle c => idle - c.2) g.budget).toNat

/-- A group's part in the split of a key. -/
structure Part where
  index : ℕ
  step : ℕ
  /-- The whole replicas it could fill. -/
  claim : ℕ
  share : ℕ
  step_pos : 0 < step
  dvd_claim : step ∣ claim

/-- The claim of a group, in whole replicas of the smallest variant it grows. -/
def claimOf (g : ShareGroup) : ℕ :=
  if growStepGPUs g = 0 then 0
  else min g.clusterFree (idleClaim g) - min g.clusterFree (idleClaim g) % max 1 (growStepGPUs g)

theorem claimOf_le (g : ShareGroup) : claimOf g ≤ g.clusterFree := by
  unfold claimOf
  split_ifs
  · exact Nat.zero_le _
  · exact (Nat.sub_le _ _).trans (min_le_left _ _)

/-- The part of a group before anything is shared out. -/
def partOf (g : ShareGroup) (index : ℕ) : Part where
  index := index
  step := max 1 (growStepGPUs g)
  claim := claimOf g
  share := 0
  step_pos := lt_of_lt_of_le Nat.one_pos (le_max_left _ _)
  dvd_claim := by
    unfold claimOf
    split_ifs
    · exact dvd_zero _
    · exact Nat.dvd_sub_mod _

/-- The whole replicas in a group's proportion of the key, or in an even part if nobody claims. -/
def floorShare (free total groups : ℕ) (p : Part) : Part :=
  let share := if 0 < total then free * p.claim / total else free / groups
  { p with share := share - share % p.step }

/-- One round of the remainder: every group that can takes a replica. -/
def handRound (free total : ℕ) : List Part → ℕ → List Part × ℕ
  | [], given => ([], given)
  | p :: ps, given =>
    if free < given + p.step ∨ (0 < total ∧ p.claim < p.share + p.step) then
      ((p :: (handRound free total ps given).1), (handRound free total ps given).2)
    else
      ({ p with share := p.share + p.step } :: (handRound free total ps (given + p.step)).1,
        (handRound free total ps (given + p.step)).2)

/-- The rounds of the remainder, until one gives nothing; an even split has one. -/
def handOut (free total : ℕ) : ℕ → List Part → ℕ → List Part
  | 0, ps, _ => ps
  | fuel + 1, ps, given =>
    if free ≤ given then ps
    else
      let round := handRound free total ps given
      if total = 0 ∨ round.2 = given then round.1 else handOut free total fuel round.1 round.2

/-- The parts of the groups that share a key. -/
def splitParts (free : ℕ) (ps : List Part) : List Part :=
  let total := (ps.map Part.claim).sum
  if total ≤ free then ps.map fun p => { p with share := p.claim }
  else
    let start := ps.map (floorShare free total ps.length)
    handOut free total (free + 1)
      ((Sorting.byKey fun p : Part => OrderDual.toDual p.claim).sort start)
      (start.map Part.share).sum

def sharing (available : Figures) (groups : List ShareGroup) (key : String) : List ℕ :=
  ((groups.map ShareGroup.acceleratorType).zipIdx.filter fun x =>
    covers key (budgetKey available x.1)).map Prod.snd

def groupAt (groups : List ShareGroup) (i : ℕ) : ShareGroup := groups.getD i default

/-- The parts taken over: no group gets more than it had. -/
def give (ps : List Part) (groups : List ShareGroup) : List ShareGroup :=
  ps.foldl (fun gs p => gs.modify p.index fun g =>
    { g with clusterFree := min g.clusterFree p.share }) groups

def splitKey (available : Figures) (groups : List ShareGroup) (key : String) : List ShareGroup :=
  if figureAt available key = ⊤ ∨ (sharing available groups key).length < 2 then groups
  else give (splitParts (figureAt available key).toNat
    ((sharing available groups key).map fun i => partOf (groupAt groups i) i)) groups

/-- `splitClusterFree`: each finite key of the cluster split between the groups that draw on it. -/
def splitClusterFree (available : Figures) (groups : List ShareGroup) : List ShareGroup :=
  (available.keys.insertionSort (· ≤ ·)).foldl (splitKey available) groups

/-- What stays of a part while it is shared out. -/
def Part.terms (p : Part) : ℕ × ℕ × ℕ := (p.index, p.step, p.claim)

/-- The share of a part is whole replicas within its claim. -/
def Part.Fair (p : Part) : Prop := p.step ∣ p.share ∧ p.share ≤ p.claim

variable {free total given : ℕ} {ps : List Part}

theorem handRound_spec (htotal : 0 < total) (hfair : ∀ p ∈ ps, p.Fair) (hgiven : given ≤ free) :
    let out := handRound free total ps given
    out.1.map Part.terms = ps.map Part.terms ∧
      (out.1.map Part.share).sum + given = (ps.map Part.share).sum + out.2 ∧
      given ≤ out.2 ∧ out.2 ≤ free ∧ (∀ p ∈ out.1, p.Fair) ∧
      (out.2 = given → ∀ p ∈ out.1, free < given + p.step ∨ p.claim < p.share + p.step) := by
  induction ps generalizing given with
  | nil => simpa [handRound] using hgiven
  | cons p ps ih =>
    obtain ⟨hp, hps⟩ := forall_mem_cons.mp hfair
    dsimp only
    rw [handRound]
    split_ifs with hskip
    · obtain ⟨hterms, hsum, hle, hwithin, hfair', hstuck⟩ := ih hps hgiven
      refine ⟨by simp [hterms], ?_, hle, hwithin, forall_mem_cons.mpr ⟨hp, hfair'⟩, ?_⟩
      · simp only [map_cons, sum_cons]
        omega
      · intro heq
        exact forall_mem_cons.mpr ⟨hskip.imp_right And.right, hstuck heq⟩
    · obtain ⟨hroom, hclaim⟩ := not_or.mp hskip
      have hclaim : p.share + p.step ≤ p.claim := not_lt.mp fun hlt => hclaim ⟨htotal, hlt⟩
      have hpos := p.step_pos
      obtain ⟨hterms, hsum, hle, hwithin, hfair', -⟩ := ih hps (not_lt.mp hroom)
      refine ⟨by simp [hterms, Part.terms], ?_, by omega, hwithin,
        forall_mem_cons.mpr ⟨⟨hp.1.add (dvd_refl _), hclaim⟩, hfair'⟩, fun heq => by omega⟩
      simp only [map_cons, sum_cons]
      omega

/-- The parts of a key: within it, and nobody who could use more is left room for it. -/
structure SplitOf (free : ℕ) (terms : List (ℕ × ℕ × ℕ)) (out : List Part) : Prop where
  terms : (out.map Part.terms).Perm terms
  within : (out.map Part.share).sum ≤ free
  le : ∀ p ∈ out, p.share ≤ p.claim
  left : ∀ p ∈ out, p.share < p.claim → free < (out.map Part.share).sum + p.step

/-- A group below its claim is at least a replica below it. -/
theorem splitOf_of_stuck (hfair : ∀ p ∈ ps, p.Fair) (hwithin : (ps.map Part.share).sum ≤ free)
    (hstuck : ∀ p ∈ ps, free < (ps.map Part.share).sum + p.step ∨ p.claim < p.share + p.step) :
    SplitOf free (ps.map Part.terms) ps := by
  refine ⟨.refl _, hwithin, fun p hp => (hfair p hp).2, fun p hp hlt => ?_⟩
  refine (hstuck p hp).resolve_right (not_lt.mpr ?_)
  obtain ⟨k, hk⟩ := (hfair p hp).1
  obtain ⟨n, hn⟩ := p.dvd_claim
  rw [hk, hn] at hlt ⊢
  have hkn : k < n := lt_of_mul_lt_mul_left hlt (Nat.zero_le _)
  calc p.step * k + p.step = p.step * (k + 1) := by ring
    _ ≤ p.step * n := Nat.mul_le_mul_left _ hkn

theorem handOut_spec (htotal : 0 < total) (fuel : ℕ) (hfuel : free - given < fuel)
    (hfair : ∀ p ∈ ps, p.Fair) (hgiven : given ≤ free) (hsum : (ps.map Part.share).sum = given) :
    SplitOf free (ps.map Part.terms) (handOut free total fuel ps given) := by
  induction fuel generalizing ps given with
  | zero => omega
  | succ fuel ih =>
    obtain ⟨hterms, hadd, hle, hwithin, hfair', hstuck⟩ := handRound_spec htotal hfair hgiven
    rw [handOut]
    dsimp only
    split_ifs with hall hround
    · refine splitOf_of_stuck hfair (hsum.trans_le hgiven) fun p _ => .inl ?_
      have := p.step_pos
      omega
    · have hsame := hround.resolve_left htotal.ne'
      rw [← hterms]
      refine splitOf_of_stuck hfair' (by omega) fun p hp => ?_
      rw [show ((handRound free total ps given).1.map Part.share).sum = given by omega]
      exact hstuck hsame p hp
    · rw [← hterms]
      have hne := (not_or.mp hround).2
      exact ih (by omega) hfair' hwithin (by omega)

theorem sum_floorShare_le (htotal : 0 < total) (hle : (ps.map Part.claim).sum ≤ total) (n : ℕ) :
    (ps.map fun p => (floorShare free total n p).share).sum ≤ free := by
  refine Nat.le_of_mul_le_mul_right ?_ htotal
  calc (ps.map fun p => (floorShare free total n p).share).sum * total
      = (ps.map fun p => (floorShare free total n p).share * total).sum :=
        (sum_map_mul_right ..).symm
    _ ≤ (ps.map fun p => free * p.claim).sum := by
        refine sum_le_sum fun p _ => ?_
        simp only [floorShare, if_pos htotal]
        exact (Nat.mul_le_mul_right _ (Nat.sub_le _ _)).trans (Nat.div_mul_le_self _ _)
    _ = free * (ps.map Part.claim).sum := sum_map_mul_left ..
    _ ≤ free * total := Nat.mul_le_mul_left _ hle

theorem fair_floorShare (htotal : 0 < total) (hle : free ≤ total) (n : ℕ) (p : Part) :
    (floorShare free total n p).Fair := by
  refine ⟨Nat.dvd_sub_mod _, ?_⟩
  simp only [floorShare, if_pos htotal]
  refine (Nat.sub_le _ _).trans (Nat.div_le_of_le_mul ?_)
  exact Nat.mul_le_mul_right _ hle

theorem splitParts_spec (free : ℕ) (ps : List Part) :
    SplitOf free (ps.map Part.terms) (splitParts free ps) := by
  unfold splitParts
  dsimp only
  split_ifs with hfits
  · refine ⟨?_, ?_, ?_, ?_⟩
    · rw [map_map]
      exact .refl _
    · simpa [Function.comp_def] using hfits
    · simp
    · simp
  · have hlt := not_le.mp hfits
    have htotal : 0 < (ps.map Part.claim).sum := (Nat.zero_le _).trans_lt hlt
    have hgiven : _ ≤ free := sum_floorShare_le htotal le_rfl ps.length
    generalize hstart : ps.map (floorShare free (ps.map Part.claim).sum ps.length) = start
    have hperm := (Sorting.byKey fun p : Part => OrderDual.toDual p.claim).perm start
    have hterms : start.map Part.terms = ps.map Part.terms := by
      rw [← hstart, map_map]
      rfl
    have hsum : (start.map Part.share).sum ≤ free := by
      rwa [← hstart, map_map]
    have hspec := handOut_spec htotal (free + 1) (by omega) (fun p hp => ?_) hsum
      (hperm.map Part.share).sum_eq
    · exact ⟨hspec.terms.trans (hterms ▸ hperm.map Part.terms), hspec.within, hspec.le, hspec.left⟩
    · rw [Sorting.mem_sort, ← hstart] at hp
      obtain ⟨q, _, rfl⟩ := mem_map.mp hp
      exact fair_floorShare htotal hlt.le _ q

variable {groups : List ShareGroup} {available : Figures} {key : String}

theorem clusterFree_modify (groups : List ShareGroup) (i n j : ℕ) :
    (groupAt (groups.modify i fun g => { g with clusterFree := min g.clusterFree n }) j).clusterFree =
      if j = i then min (groupAt groups j).clusterFree n else (groupAt groups j).clusterFree := by
  simp only [groupAt, getD_eq_getElem?_getD, getElem?_modify, eq_comm (a := j)]
  cases groups[j]? with
  | none => split_ifs <;> simp [default, instInhabitedShareGroup.default]
  | some g => split_ifs <;> rfl

theorem clusterFree_give (hnodup : (ps.map Part.index).Nodup) {p : Part} (hp : p ∈ ps)
    (groups : List ShareGroup) : (groupAt (give ps groups) p.index).clusterFree =
      min (groupAt groups p.index).clusterFree p.share :=
  GoMap.view_foldl Part.index (m := fun groups i => (groupAt groups i).clusterFree)
    (f := fun p n => min n p.share) (fun groups p i => clusterFree_modify groups p.index p.share i)
    hnodup hp groups

/-- The groups are the same but for figures that are no higher. -/
structure Lowered (groups after : List ShareGroup) : Prop where
  types : after.map ShareGroup.acceleratorType = groups.map ShareGroup.acceleratorType
  le : ∀ i, (groupAt after i).clusterFree ≤ (groupAt groups i).clusterFree

theorem Lowered.trans {after last : List ShareGroup} (h : Lowered groups after)
    (h' : Lowered after last) : Lowered groups last :=
  ⟨h'.types.trans h.types, fun i => (h'.le i).trans (h.le i)⟩

theorem Lowered.sharing_eq {after : List ShareGroup} (h : Lowered groups after) (key : String) :
    sharing available after key = sharing available groups key := by
  rw [sharing, h.types, sharing]

theorem lowered_give (ps : List Part) (groups : List ShareGroup) :
    Lowered groups (give ps groups) := by
  refine foldlRecOn (motive := Lowered groups) ps _ ⟨rfl, fun _ => le_rfl⟩ fun gs hgs p _ => ?_
  refine hgs.trans ⟨?_, fun i => ?_⟩
  · ext j
    simp only [getElem?_map, getElem?_modify]
    cases gs[j]? with
    | none => rfl
    | some g => split_ifs <;> rfl
  · rw [clusterFree_modify]
    split_ifs
    · exact min_le_left _ _
    · exact le_rfl

theorem lowered_splitKey (available : Figures) (groups : List ShareGroup) (key : String) :
    Lowered groups (splitKey available groups key) := by
  unfold splitKey
  split_ifs
  · exact ⟨rfl, fun _ => le_rfl⟩
  · exact lowered_give _ _

theorem lowered_foldl (available : Figures) (keys : List String) (groups : List ShareGroup) :
    Lowered groups (keys.foldl (splitKey available) groups) :=
  foldlRecOn (motive := Lowered groups) keys _ ⟨rfl, fun _ => le_rfl⟩ fun _ hgs key _ =>
    hgs.trans (lowered_splitKey available _ key)

/-- The GPUs the groups at some indices may fill together. -/
def heldBy (groups : List ShareGroup) (indices : List ℕ) : ℕ :=
  (indices.map fun i => (groupAt groups i).clusterFree).sum

theorem Lowered.heldBy_le {after : List ShareGroup} (h : Lowered groups after) (indices : List ℕ) :
    heldBy after indices ≤ heldBy groups indices :=
  sum_le_sum fun i _ => h.le i

theorem nodup_sharing : (sharing available groups key).Nodup := by
  have hsub := (filter_sublist (l := (groups.map ShareGroup.acceleratorType).zipIdx)
    (p := fun x => covers key (budgetKey available x.1))).map Prod.snd
  rw [zipIdx_map_snd] at hsub
  exact Nodup.sublist hsub nodup_range'

theorem splitKey_spec (hfree : figureAt available key = free)
    (hshared : 2 ≤ (sharing available groups key).length) :
    let after := splitKey available groups key
    heldBy after (sharing available groups key) ≤ free ∧
      ∀ i ∈ sharing available groups key,
        (groupAt after i).clusterFree < claimOf (groupAt groups i) →
          free < heldBy after (sharing available groups key) +
            max 1 (growStepGPUs (groupAt groups i)) := by
  have hspec := splitParts_spec free
    ((sharing available groups key).map fun i => partOf (groupAt groups i) i)
  have hkey : splitKey available groups key = give (splitParts free
      ((sharing available groups key).map fun i => partOf (groupAt groups i) i)) groups := by
    rw [splitKey, if_neg (by simp [hfree]; omega), hfree, ENat.toNat_natCast]
  rw [hkey]
  generalize splitParts free ((sharing available groups key).map fun i =>
    partOf (groupAt groups i) i) = out at hspec
  have hterms : (out.map Part.terms).Perm ((sharing available groups key).map fun i =>
      (i, max 1 (growStepGPUs (groupAt groups i)), claimOf (groupAt groups i))) := by
    have hperm := hspec.terms
    rw [map_map] at hperm
    exact hperm
  have hindices : (out.map Part.index).Perm (sharing available groups key) := by
    have hperm := hterms.map Prod.fst
    rw [map_map, map_map] at hperm
    exact hperm.trans (.of_eq (map_id _))
  have hfigure {p : Part} (hp : p ∈ out) :
      (groupAt (give out groups) p.index).clusterFree = p.share := by
    obtain ⟨i, _, hi⟩ := mem_map.mp (hterms.mem_iff.mp (mem_map_of_mem hp))
    obtain ⟨rfl, hrest⟩ := Prod.mk.inj hi
    rw [clusterFree_give (hindices.nodup_iff.mpr nodup_sharing) hp]
    refine min_eq_right ((hspec.le p hp).trans ?_)
    exact (Prod.mk.inj hrest).2.symm.trans_le (claimOf_le _)
  have hheld : heldBy (give out groups) (sharing available groups key) =
      (out.map Part.share).sum := by
    rw [heldBy, ← (hindices.map _).sum_eq, map_map]
    exact congrArg List.sum (map_congr_left fun p hp => hfigure hp)
  refine ⟨hheld.trans_le hspec.within, fun i hi hlt => ?_⟩
  obtain ⟨p, hp, hpi⟩ := mem_map.mp (hterms.mem_iff.mpr (mem_map_of_mem hi))
  obtain ⟨rfl, hstep⟩ := Prod.mk.inj hpi
  obtain ⟨hstep, hclaim⟩ := Prod.mk.inj hstep
  rw [hfigure hp, ← hclaim] at hlt
  rw [hheld, ← hstep]
  exact hspec.left p hp hlt

/-- No group's figure is raised; the groups that draw on a finite key are left at most what it
holds; and where only one key is shared, what is left of it is too little for one more replica of
any group that is below its claim. -/
theorem splitClusterFree_within (available : Figures) (groups : List ShareGroup) :
    let after := splitClusterFree available groups
    (∀ i, (groupAt after i).clusterFree ≤ (groupAt groups i).clusterFree) ∧
    ∀ key ∈ available.keys, ∀ free : ℕ, figureAt available key = free →
      2 ≤ (sharing available groups key).length →
        heldBy after (sharing available groups key) ≤ free ∧
        ((∀ k ∈ available.keys, figureAt available k ≠ ⊤ →
          2 ≤ (sharing available groups k).length → k = key) →
          ∀ i ∈ sharing available groups key,
            (groupAt after i).clusterFree < claimOf (groupAt groups i) →
              free < heldBy after (sharing available groups key) +
                max 1 (growStepGPUs (groupAt groups i))) := by
  refine ⟨(lowered_foldl available _ groups).le, fun key hkey free hfree hshared => ?_⟩
  have hmem : key ∈ available.keys.insertionSort (· ≤ ·) :=
    (perm_insertionSort _ _).mem_iff.mpr hkey
  have hnodup : (available.keys.insertionSort (· ≤ ·)).Nodup :=
    (perm_insertionSort _ _).nodup_iff.mpr available.nodupKeys
  have hkeys : ∀ k ∈ available.keys.insertionSort (· ≤ ·), k ∈ available.keys := fun k hk =>
    (perm_insertionSort _ _).mem_iff.mp hk
  unfold splitClusterFree
  obtain ⟨before, rest, hsplit⟩ := append_of_mem hmem
  rw [hsplit] at hnodup hkeys ⊢
  rw [foldl_append, foldl_cons]
  constructor
  · have hbefore := lowered_foldl available before groups
    rw [← hbefore.sharing_eq key] at hshared ⊢
    exact ((lowered_foldl available rest _).heldBy_le _).trans (splitKey_spec hfree hshared).1
  · intro honly
    -- every other key is skipped, so the groups are those the one split leaves
    have hskip (ks : List String) (hks : ks ⊆ before ++ rest) {gs : List ShareGroup}
        (hgs : Lowered groups gs) : ks.foldl (splitKey available) gs = gs := by
      refine foldlRecOn (motive := (· = gs)) ks _ rfl fun _ heq k hk => ?_
      rw [heq, splitKey, if_pos]
      by_contra hnot
      obtain ⟨hfinite, hmany⟩ := not_or.mp hnot
      have hk := hks hk
      rw [hgs.sharing_eq] at hmany
      obtain rfl := honly k (hkeys k (by simp at hk ⊢; tauto)) hfinite (not_lt.mp hmany)
      exact (nodup_middle.mp hnodup).notMem hk
    rw [hskip before (subset_append_left _ _) ⟨rfl, fun _ => le_rfl⟩,
      hskip rest (subset_append_right _ _) (lowered_splitKey available groups key)]
    exact (splitKey_spec hfree hshared).2

end LlmScaler.Budget
