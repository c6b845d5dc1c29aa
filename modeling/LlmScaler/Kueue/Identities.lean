import LlmScaler.Kueue.Cohort

/-!
# The figures of a cohort add up

Each member adds to the free pool its nominal quota less what it uses or keeps, and takes from it
what it uses past its nominal. Summed over the members this accounts for every GPU of the nominal
quotas.
-/

namespace LlmScaler.Kueue

open LlmScaler.Core List GoMap

namespace QueueResource

variable (r : QueueResource)

theorem kept_nonneg : 0 ≤ r.kept := by
  unfold kept lent
  cases r.lendingLimit with
  | none => simp
  | some limit => simp only; omega

theorem kept_le_nominal : r.kept ≤ r.nominal := by
  unfold kept lent
  cases r.lendingLimit with
  | none => simp
  | some limit => simp only; omega

/-- What a member adds to the free pool, negative when it uses more than its nominal. -/
def pooled : Int := r.nominal - max (r.reserved : Int) r.kept

theorem lent_sub_used : r.lent - max 0 ((r.reserved : Int) - r.kept) = r.pooled := by
  have hkept : r.kept = r.nominal - r.lent := rfl
  unfold pooled
  omega

theorem unused_eq : r.unused = max 0 r.pooled := rfl

theorem reserved_add_keptFree : r.reserved + r.keptFree + r.pooled = r.nominal := by
  unfold keptFree pooled
  omega

theorem neg_borrowed_le_pooled : -max 0 ((r.reserved : Int) - r.nominal) ≤ r.pooled := by
  have hkept := r.kept_le_nominal
  unfold pooled
  omega

/-- What a member within its nominal may still grow by is what it keeps and what it lends unused. -/
theorem keptFree_add_unused (h : r.reserved ≤ r.nominal) :
    r.keptFree + r.unused = r.nominal - r.reserved := by
  have hkept := r.kept_le_nominal
  unfold keptFree unused
  omega

end QueueResource

theorem clampQuota_eq_min (n : Int) : clampQuota n = min n maxQuotaValue := by
  unfold clampQuota
  split_ifs <;> omega

/-- The sum of a figure over the members that declare a key. -/
def totalOf (f : QueueResource → Int) (qs : List QueueState) (key : ResourceKey) : Int :=
  ((declared qs key).map f).sum

/-- The cohort uses more past what its members keep than they lend. -/
def OverCommitted (qs : List QueueState) (key : ResourceKey) : Prop :=
  totalOf QueueResource.lent qs key <
    totalOf (fun r => max 0 ((r.reserved : Int) - r.kept)) qs key

structure BelowClamp (qs : List QueueState) (key : ResourceKey) : Prop where
  pool : totalOf QueueResource.lent qs key -
    totalOf (fun r => max 0 ((r.reserved : Int) - r.kept)) qs key ≤ maxQuotaValue
  nominal : ∀ r ∈ declared qs key, (r.nominal : Int) ≤ maxQuotaValue

variable {q : QueueState}

section Sums

variable {qs : List QueueState} {key : ResourceKey}

theorem totalOf_add (f g : QueueResource → Int) :
    totalOf (fun r => f r + g r) qs key = totalOf f qs key + totalOf g qs key := by
  unfold totalOf
  exact sum_map_add

theorem totalOf_sub (f g : QueueResource → Int) :
    totalOf (fun r => f r - g r) qs key = totalOf f qs key - totalOf g qs key := by
  have hadd : totalOf (fun r => f r - g r + g r) qs key =
      totalOf (fun r => f r - g r) qs key + totalOf g qs key := totalOf_add _ _
  have hcancel : (fun r => f r - g r + g r) = f := funext fun r => Int.sub_add_cancel _ _
  rw [hcancel] at hadd
  omega

theorem totalOf_mono {f g : QueueResource → Int} (h : ∀ r ∈ declared qs key, f r ≤ g r) :
    totalOf f qs key ≤ totalOf g qs key :=
  sum_le_sum h

theorem totalOf_nonneg {f : QueueResource → Int} (h : ∀ r, 0 ≤ f r) : 0 ≤ totalOf f qs key := by
  exact sum_nonneg (forall_mem_map.mpr fun r _ => h r)

variable (qs key)

theorem totalOf_pooled : totalOf QueueResource.lent qs key -
    totalOf (fun r => max 0 ((r.reserved : Int) - r.kept)) qs key =
      totalOf QueueResource.pooled qs key := by
  rw [← totalOf_sub]
  exact congrArg (fun f => totalOf f qs key) (funext QueueResource.lent_sub_used)

theorem cohortFree_eq :
    cohortFree qs key = min (max 0 (totalOf QueueResource.pooled qs key)) maxQuotaValue := by
  rw [← totalOf_pooled, ← clampQuota_eq_min]
  rfl

theorem totalOf_nominal : totalOf (fun r => r.nominal) qs key =
    totalOf (fun r => r.reserved) qs key + totalOf QueueResource.keptFree qs key +
      totalOf QueueResource.pooled qs key := by
  rw [← totalOf_add, ← totalOf_add]
  exact congrArg (fun f => totalOf f qs key) (funext fun r => r.reserved_add_keptFree.symm)

theorem cohortFree_nonneg : 0 ≤ cohortFree qs key := by
  have hmax : (0 : Int) ≤ maxQuotaValue := by decide
  rw [cohortFree_eq]
  omega

variable {qs key}

theorem totalOf_eq_add_peers (hnames : (qs.map QueueState.name).Nodup) (hq : q ∈ qs)
    {r : QueueResource} (hr : q.resources.find? key = some r) (f : QueueResource → Int) :
    totalOf f qs key = f r + totalOf f (peers qs q.name) key := by
  obtain ⟨before, after, rfl⟩ := append_of_mem hq
  rw [map_append, map_cons, nodup_middle, nodup_cons, mem_append,
    not_or] at hnames
  have hpeers : peers (before ++ q :: after) q.name = before ++ after := by
    have hself : ∀ l : List QueueState, q.name ∉ l.map QueueState.name →
        l.filter (fun q' => q'.name != q.name) = l := by
      intro l hl
      rw [filter_eq_self]
      intro q' hq'
      rw [bne_iff_ne]
      exact fun he => hl (he ▸ mem_map_of_mem hq')
    rw [peers, filter_append, filter_cons_of_neg (by simp), hself before hnames.1.1,
      hself after hnames.1.2]
  have hhead : (q :: after).filterMap (fun q => q.resources.find? key) =
      r :: after.filterMap fun q => q.resources.find? key := filterMap_cons_some hr
  rw [hpeers, totalOf, totalOf, declared, declared, filterMap_append, filterMap_append,
    hhead, map_append, map_append, sum_append,
    sum_append, map_cons, sum_cons]
  omega

end Sums

theorem foldl_addCapped {α : Type*} (f : α → Int) (l : List α) (h : ∀ a ∈ l, 0 ≤ f a) {n : Int}
    (hn : n ≤ maxQuotaValue) :
    l.foldl (fun n a => addCapped n (f a)) n = min (n + (l.map f).sum) maxQuotaValue := by
  induction l generalizing n with
  | nil => simp only [foldl_nil, map_nil, sum_nil]; omega
  | cons a l ih =>
    obtain ⟨ha, hl⟩ := forall_mem_cons.mp h
    have hsum : 0 ≤ (l.map f).sum := sum_nonneg (forall_mem_map.mpr hl)
    have hclamp : addCapped n (f a) ≤ maxQuotaValue := by
      rw [addCapped, clampQuota_eq_min]
      omega
    rw [foldl_cons, ih hl hclamp, map_cons, sum_cons, addCapped, clampQuota_eq_min]
    omega

theorem peersBorrowed_eq (qs : List QueueState) (self : String) (key : ResourceKey) :
    peersBorrowed qs self key =
      min (totalOf (fun r => r.borrowed) (peers qs self) key) maxQuotaValue := by
  unfold peersBorrowed
  rw [foldl_addCapped (fun r : QueueResource => max 0 (r.borrowed : Int)) _
    (fun r _ => le_max_left _ _) (by decide), Int.zero_add, totalOf]
  have hborrowed : ∀ r : QueueResource, max 0 (r.borrowed : Int) = r.borrowed := by
    intro r
    omega
  simp only [hborrowed]

theorem peersBorrowed_nonneg (qs : List QueueState) (self : String) (key : ResourceKey) :
    0 ≤ peersBorrowed qs self key := by
  have hmax : (0 : Int) ≤ maxQuotaValue := by decide
  rw [peersBorrowed_eq]
  exact le_min (totalOf_nonneg fun r => Int.natCast_nonneg _) hmax

section Read

variable {t : Topology} {stale : Bool} {cohort : String}

theorem mem_members : q ∈ members t cohort ↔
    t.queues.find? q.name = some q ∧ q.cohort ≠ "" ∧ q.cohort = cohort := by
  unfold members
  simp only [mem_filter, mem_map, Bool.and_eq_true, bne_iff_ne, beq_iff_eq]
  refine and_congr_left fun _ => ⟨?_, fun h => ⟨⟨q.name, q⟩, mem_entries.mpr h, rfl⟩⟩
  rintro ⟨e, he, rfl⟩
  have hfind : t.queues.find? e.1 = some e.2 := mem_entries.mp he
  rw [t.named e.1 e.2 hfind, hfind]

theorem nodup_members (t : Topology) (cohort : String) :
    ((members t cohort).map QueueState.name).Nodup := by
  have hnames : (t.queues.entries.map Sigma.snd).map QueueState.name = t.queues.keys := by
    rw [map_map]
    refine map_congr_left fun e he => ?_
    exact t.named e.1 e.2 (mem_entries.mp he)
  have hall : ((t.queues.entries.map Sigma.snd).map QueueState.name).Nodup := by
    rw [hnames]
    exact t.queues.keys_nodup
  exact hall.sublist (filter_sublist.map _)

theorem mem_computeBorrowing (hq : t.queues.find? q.name = some q) {f : QueueFigures}
    (hf : f ∈ (computeBorrowing t stale).get q.name) :
    ∃ r, q.resources.find? f.key = some r ∧ f = figuresOf t stale q f.key r := by
  rw [computeBorrowing, get_mapValues, hq] at hf
  obtain ⟨e, he, rfl⟩ := mem_map.mp ((Sorting.mem_sort _).mp hf)
  have hkey : (figuresOf t stale q e.1 e.2).key = e.1 := by
    unfold figuresOf
    cases queueReason t stale q <;> rfl
  exact ⟨e.2, by rw [hkey]; exact mem_entries.mp he, by rw [hkey]⟩

theorem figuresOf_counted (hq : q ∈ members t cohort)
    (hcounted : withheldReason t cohort (members t cohort) stale = none)
    (hactive : q.inactive = false) (key : ResourceKey) (r : QueueResource) :
    figuresOf t stale q key r = countedFigures (members t cohort) q key r := by
  obtain ⟨_, hne, hcohort⟩ := mem_members.mp hq
  have hreason : queueReason t stale q = none := by
    unfold queueReason
    rw [if_neg hne, hcohort, hcounted, hactive]
    rfl
  unfold figuresOf
  rw [hreason, hcohort]

theorem hasStatus_of_counted (hq : q ∈ members t cohort)
    (hcounted : withheldReason t cohort (members t cohort) stale = none) : q.hasStatus = true := by
  unfold withheldReason at hcounted
  rw [precedence_eq_none] at hcounted
  have hreason : reasonIf (!q.hasStatus) Reason.noStatus = none := by
    apply hcounted
    rw [mem_append]
    exact .inr (mem_flatMap.mpr ⟨q, hq, by simp [memberReasons]⟩)
  unfold reasonIf at hreason
  by_contra hstatus
  rw [Bool.not_eq_true] at hstatus
  rw [hstatus] at hreason
  cases hreason

theorem borrowed_of_driftOf (h : driftOf q = 0) {key : ResourceKey} {r : QueueResource}
    (hr : q.resources.find? key = some r) :
    (r.borrowed : Int) = max 0 ((r.reserved : Int) - r.nominal) := by
  let differs : (Sigma fun _ : ResourceKey => QueueResource) → Int := fun e =>
    max (max 0 ((e.2.reserved : Int) - e.2.nominal) - e.2.borrowed)
      (e.2.borrowed - max 0 ((e.2.reserved : Int) - e.2.nominal))
  have hnonneg : ∀ e ∈ q.resources.entries, 0 ≤ differs e := by
    intro e _
    simp only [differs]
    omega
  have hdrift : driftOf q = min (0 + (q.resources.entries.map differs).sum) maxQuotaValue :=
    foldl_addCapped differs q.resources.entries hnonneg (by decide)
  have hle : differs ⟨key, r⟩ ≤ (q.resources.entries.map differs).sum := by
    exact single_le_sum (forall_mem_map.mpr hnonneg) _ (mem_map_of_mem (mem_entries.mpr hr))
  have hmax : (0 : Int) < maxQuotaValue := by decide
  generalize (q.resources.entries.map differs).sum = total at hdrift hle
  simp only [differs] at hle
  omega

theorem driftOf_of_borrowDrift (hq : q ∈ members t cohort) (hstatus : q.hasStatus = true)
    (h : (borrowDrift t).get q.name = 0) : driftOf q = 0 := by
  obtain ⟨hfind, hne, _⟩ := mem_members.mp hq
  rw [borrowDrift, get_mapValues, find?_deleteFunc, hfind] at h
  simpa [Option.filter, hne, hstatus] using h

end Read

section Identities

variable {qs : List QueueState} {key : ResourceKey}

/-- What the members reserve, what they keep unused and the free pool are the nominal quotas. -/
theorem reserved_add_kept_add_free (hover : ¬ OverCommitted qs key) (hclamp : BelowClamp qs key) :
    totalOf (fun r => r.reserved) qs key + totalOf QueueResource.keptFree qs key +
      cohortFree qs key = totalOf (fun r => r.nominal) qs key := by
  have hpool := hclamp.pool
  unfold OverCommitted at hover
  rw [totalOf_pooled] at hpool
  have hpooled := totalOf_pooled qs key
  rw [cohortFree_eq, totalOf_nominal]
  omega

/-- A queue that cannot reclaim reaches no further than what it uses or keeps and the free pool. -/
theorem reach_le (hreclaim : q.canReclaim = false) (r : QueueResource) :
    (countedFigures qs q key r).guaranteed + (countedFigures qs q key r).borrowable ≤
      max (r.reserved : Int) r.kept + cohortFree qs key := by
  have hfree := cohortFree_nonneg qs key
  have htop : topOf r (cohortFree qs key) ≤ max (r.reserved : Int) r.kept + cohortFree qs key := by
    have hadd : addCapped (max (r.reserved : Int) r.kept) (cohortFree qs key) ≤
        max (r.reserved : Int) r.kept + cohortFree qs key := by
      rw [addCapped, clampQuota_eq_min]
      exact min_le_left _ _
    unfold topOf
    cases r.borrowingLimit with
    | none => exact hadd
    | some limit => exact (min_le_left _ _).trans hadd
  simp only [countedFigures, reach, hreclaim, if_false, Bool.false_eq_true]
  omega

variable (hnames : (qs.map QueueState.name).Nodup) {q : QueueState} (hq : q ∈ qs)
  {r : QueueResource} (hr : q.resources.find? key = some r)

include hnames hq hr

section Within

variable (hwithin : r.reserved ≤ r.nominal) (hclamp : (r.nominal : Int) ≤ maxQuotaValue)
  (hborrowed : ∀ r ∈ declared qs key, (r.borrowed : Int) = max 0 ((r.reserved : Int) - r.nominal))
include hwithin hclamp hborrowed

/-- Where Kueue's borrowed figures are the usage past nominal, the peers borrow what the pool does
not cover of a member's unused nominal. -/
theorem unused_le_free_add_borrowed :
    r.unused ≤ cohortFree qs key + peersBorrowed qs q.name key := by
  have hkept := r.kept_nonneg
  have hpeers : -totalOf (fun r => r.borrowed) (peers qs q.name) key ≤
      totalOf QueueResource.pooled (peers qs q.name) key := by
    have hneg : totalOf (fun r => 0 - (r.borrowed : Int)) (peers qs q.name) key ≤
        totalOf QueueResource.pooled (peers qs q.name) key := by
      apply totalOf_mono
      intro p hp
      obtain ⟨q', hq', hp'⟩ := mem_filterMap.mp hp
      have hdeclared : p ∈ declared qs key :=
        mem_filterMap.mpr ⟨q', mem_of_mem_filter hq', hp'⟩
      have hpooled := p.neg_borrowed_le_pooled
      rw [hborrowed p hdeclared]
      omega
    rw [totalOf_sub] at hneg
    have hzero : totalOf (fun _ => 0) (peers qs q.name) key = 0 := by simp [totalOf]
    omega
  have hsum := totalOf_eq_add_peers hnames hq hr QueueResource.pooled
  have hborrow : 0 ≤ totalOf (fun r => (r.borrowed : Int)) (peers qs q.name) key :=
    totalOf_nonneg fun r => Int.natCast_nonneg _
  rw [cohortFree_eq, peersBorrowed_eq, hsum, r.unused_eq]
  have hpooled : r.pooled ≤ r.nominal := by
    unfold QueueResource.pooled
    omega
  omega

/-- A reclaiming queue within its nominal grows by what is admitted before Kueue preempts and by what
peers are preempted for, and by nothing else. -/
theorem preemptAfter_add_lentOut (hreclaim : q.canReclaim = true) :
    (countedFigures qs q key r).preemptAfter + (countedFigures qs q key r).lentOut =
        r.nominal - r.reserved ∧
      (countedFigures qs q key r).preemptKept ≤ (countedFigures qs q key r).preemptAfter := by
  have hle := unused_le_free_add_borrowed hnames hq hr hwithin hclamp hborrowed
  have hsplit := r.keptFree_add_unused hwithin
  have hfree := cohortFree_nonneg qs key
  have hpeers := peersBorrowed_nonneg qs q.name key
  have hunused : 0 ≤ r.unused := le_max_left _ _
  simp only [countedFigures, reclaimable, hreclaim, if_true]
  omega

end Within

/-- Growth of such a queue within its reach keeps the cohort within the nominal quotas, unless the
cohort is over-committed and the queue uses less than it keeps. -/
theorem growth_within_nominal (hreclaim : q.canReclaim = false)
    (htotal : totalOf (fun r => r.reserved) qs key ≤ totalOf (fun r => r.nominal) qs key)
    (hover : ¬ OverCommitted qs key ∨ r.kept ≤ r.reserved) {usage : Int}
    (husage : usage ≤ (countedFigures qs q key r).guaranteed +
      (countedFigures qs q key r).borrowable) :
    totalOf (fun r => r.reserved) (peers qs q.name) key + usage ≤
      totalOf (fun r => r.nominal) qs key := by
  have hreach : (countedFigures qs q key r).guaranteed + (countedFigures qs q key r).borrowable ≤
      max (r.reserved : Int) r.kept + cohortFree qs key := reach_le hreclaim r
  have hreserved := totalOf_eq_add_peers hnames hq hr fun r => (r.reserved : Int)
  have hkept := totalOf_eq_add_peers hnames hq hr QueueResource.keptFree
  have hpeersKept : 0 ≤ totalOf QueueResource.keptFree (peers qs q.name) key :=
    totalOf_nonneg fun r => le_max_left _ _
  have hnominal := totalOf_nominal qs key
  have hpooled := totalOf_pooled qs key
  have hself : max (r.reserved : Int) r.kept = r.reserved + r.keptFree := by
    unfold QueueResource.keptFree
    omega
  unfold OverCommitted at hover
  rw [cohortFree_eq] at hreach
  omega

end Identities

/-- In a cohort read with borrowing counted, below the quota clamp: what is reserved, kept unused and
free are the nominal quotas unless the cohort is over-committed; an active reclaiming queue's growth
splits exactly when Kueue's borrowed figures agree with usage; and an active queue that cannot reclaim
grows within the nominal quotas, unless the cohort is over-committed and it uses less than it
keeps. -/
theorem cohort_figures_add_up {t : Topology} {stale : Bool} {cohort : String} {key : ResourceKey}
    (hcounted : withheldReason t cohort (members t cohort) stale = none)
    (hclamp : BelowClamp (members t cohort) key) :
    (¬ OverCommitted (members t cohort) key →
      totalOf (fun r => r.reserved) (members t cohort) key +
          totalOf QueueResource.keptFree (members t cohort) key + cohortFree (members t cohort) key =
        totalOf (fun r => r.nominal) (members t cohort) key) ∧
    ((∀ q ∈ members t cohort, (borrowDrift t).get q.name = 0) →
      ∀ q ∈ members t cohort, q.inactive = false → q.canReclaim = true →
        ∀ f ∈ (computeBorrowing t stale).get q.name, f.key = key →
          ∀ r, q.resources.find? key = some r → r.reserved ≤ r.nominal →
            f.preemptAfter + f.lentOut = r.nominal - r.reserved ∧ f.preemptKept ≤ f.preemptAfter) ∧
    (totalOf (fun r => r.reserved) (members t cohort) key ≤
        totalOf (fun r => r.nominal) (members t cohort) key →
      ∀ q ∈ members t cohort, q.inactive = false → q.canReclaim = false →
        ∀ f ∈ (computeBorrowing t stale).get q.name, f.key = key →
          ∀ r, q.resources.find? key = some r →
            (¬ OverCommitted (members t cohort) key ∨ r.kept ≤ r.reserved) →
            ∀ usage : ℕ, r.reserved ≤ usage → (usage : Int) ≤ f.guaranteed + f.borrowable →
              totalOf (fun r => r.reserved) (peers (members t cohort) q.name) key + usage ≤
                totalOf (fun r => r.nominal) (members t cohort) key) := by
  have hnames := nodup_members t cohort
  have hfigures : ∀ q ∈ members t cohort, q.inactive = false →
      ∀ f ∈ (computeBorrowing t stale).get q.name, f.key = key →
        ∀ r, q.resources.find? key = some r → f = countedFigures (members t cohort) q key r := by
    intro q hq hactive f hf hkey r hr
    obtain ⟨r', hr', hfig⟩ := mem_computeBorrowing (mem_members.mp hq).1 hf
    rw [hkey, hr, Option.some_inj] at hr'
    rw [hfig, hkey, ← hr', figuresOf_counted hq hcounted hactive]
  refine ⟨fun hover => reserved_add_kept_add_free hover hclamp, ?_, ?_⟩
  · intro hdrift q hq hactive hreclaim f hf hkey r hr hwithin
    rw [hfigures q hq hactive f hf hkey r hr]
    refine preemptAfter_add_lentOut hnames hq hr hwithin ?_ ?_ hreclaim
    · exact hclamp.nominal r (mem_filterMap.mpr ⟨q, hq, hr⟩)
    · intro p hp
      obtain ⟨q', hq', hp'⟩ := mem_filterMap.mp hp
      have hstatus := hasStatus_of_counted hq' hcounted
      exact borrowed_of_driftOf (driftOf_of_borrowDrift hq' hstatus (hdrift q' hq')) hp'
  · intro htotal q hq hactive hreclaim f hf hkey r hr hover usage _ husage
    rw [hfigures q hq hactive f hf hkey r hr] at husage
    exact growth_within_nominal hnames hq hr hreclaim htotal hover husage

def readOf (queues : List QueueState) (h : (queues.map QueueState.name).Nodup) : Topology where
  queues := GoMap.ofList (queues.map fun q => (q.name, q))
  cohorts := ∅
  cohortsUnreadable := false
  topologyName := ∅
  versionUntested := false
  versionUnknown := false
  lendersUnreadable := false
  named name q hfind := by
    have hnodup : ((queues.map fun q => (q.name, q)).map Prod.fst).Nodup := by
      rw [map_map]
      exact h
    rw [find?_ofList hnodup] at hfind
    obtain ⟨q', _, he⟩ := mem_map.mp hfind
    cases he
    rfl

def gpuKey : ResourceKey := ⟨"h100", "nvidia.com/gpu"⟩

def sampleQueue (name : String) (reclaim : ReclaimPolicy) (inactive : Bool)
    (r : QueueResource) : QueueState where
  name := name
  cohort := "research"
  reclaim := reclaim
  hasStatus := true
  fairSharing := false
  effectiveQuotas := false
  inactive := inactive
  malformed := false
  admissionChecks := false
  borrowWithinCohort := false
  resources := GoMap.ofList [(gpuKey, r)]

/-- A queue that cannot reclaim and keeps its 4 GPUs, beside one that uses 8 of a nominal 4. -/
def keepingRead : Topology :=
  readOf [sampleQueue "idle" .never false ⟨4, some 0, none, 0, 0⟩,
    sampleQueue "busy" .never false ⟨4, none, none, 8, 4⟩] (by decide)

/-- A queue that admits nothing and would reclaim its 8 GPUs. -/
def stoppedRead : Topology :=
  readOf [sampleQueue "stopped" .any true ⟨8, none, none, 0, 0⟩] (by decide)

/-- The idle queue's reach takes the cohort from 8 to 12 GPUs of a nominal 8; and the stopped queue's
growth has no figure at all. -/
theorem kept_growth_past_nominal :
    (withheldReason keepingRead "research" (members keepingRead "research") false = none ∧
      totalOf (fun r => r.reserved) (members keepingRead "research") gpuKey = 8 ∧
      totalOf (fun r => r.nominal) (members keepingRead "research") gpuKey = 8 ∧
      ((computeBorrowing keepingRead false).get "idle").map
        (fun f => (f.key, f.guaranteed + f.borrowable)) = [(gpuKey, 4)] ∧
      totalOf (fun r => r.reserved) (peers (members keepingRead "research") "idle") gpuKey + 4 = 12) ∧
    (withheldReason stoppedRead "research" (members stoppedRead "research") false = none ∧
      (borrowDrift stoppedRead).get "stopped" = 0 ∧
      ((computeBorrowing stoppedRead false).get "stopped").map
        (fun f => (f.key, f.preemptAfter + f.lentOut)) = [(gpuKey, 0)]) := by
  decide

/-- A lender on `Any`, part of whose quota a queue that cannot reclaim holds. -/
def lentRead : Topology :=
  readOf [sampleQueue "lender" .any false ⟨8, none, none, 1, 0⟩,
    sampleQueue "serving" .never false ⟨4, some 2, some 6, 7, 3⟩] (by decide)

/-- Of the lender's 7 unused GPUs the pool covers 4 and 3 are borrowed; the other queue grows to 10,
which takes the cohort to 11 of the nominal 12. -/
theorem cohort_figures_add_up_lent :
    totalOf (fun r => r.reserved) (members lentRead "research") gpuKey +
        totalOf QueueResource.keptFree (members lentRead "research") gpuKey +
        cohortFree (members lentRead "research") gpuKey = 12 ∧
    (∀ f ∈ (computeBorrowing lentRead false).get "lender", f.key = gpuKey →
      f.preemptAfter + f.lentOut = 7) ∧
    (∀ f ∈ (computeBorrowing lentRead false).get "serving", f.key = gpuKey →
      ∀ usage : ℕ, 7 ≤ usage → (usage : Int) ≤ f.guaranteed + f.borrowable →
        totalOf (fun r => r.reserved) (peers (members lentRead "research") "serving") gpuKey + usage ≤
          totalOf (fun r => r.nominal) (members lentRead "research") gpuKey) := by
  have hcounted : withheldReason lentRead "research" (members lentRead "research") false = none := by
    decide
  have hclamp : BelowClamp (members lentRead "research") gpuKey := ⟨by decide, by decide⟩
  have hover : ¬ OverCommitted (members lentRead "research") gpuKey := by
    unfold OverCommitted
    decide
  obtain ⟨hsum, hreclaiming, hgrowing⟩ := cohort_figures_add_up hcounted hclamp
  refine ⟨(hsum hover).trans (by decide), fun f hf hkey => ?_, fun f hf hkey usage hlow hhigh => ?_⟩
  · have hq : sampleQueue "lender" .any false ⟨8, none, none, 1, 0⟩ ∈ members lentRead "research" :=
      mem_members.mpr ⟨rfl, by decide, rfl⟩
    exact (hreclaiming (by decide) _ hq rfl rfl f hf hkey _ rfl (by decide)).1
  · have hq : sampleQueue "serving" .never false ⟨4, some 2, some 6, 7, 3⟩ ∈
        members lentRead "research" := mem_members.mpr ⟨rfl, by decide, rfl⟩
    exact hgrowing (by decide) _ hq rfl rfl f hf hkey _ rfl (.inl hover) usage hlow hhigh

end LlmScaler.Kueue
