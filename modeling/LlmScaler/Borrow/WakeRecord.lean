import LlmScaler.Borrow.Wake

/-!
# A wake on the record

The entries a wake emits have distinct keys when its variants are distinct, so each one with GPUs is
recorded unless the record held its key.
-/

namespace LlmScaler.Borrow

open LlmScaler.Core LlmScaler.Nodes List GoMap

def InFlightKey.chunk (k : InFlightKey) : String × String × String := (k.cohort, k.flavor, k.resource)

/-- An entry of a replica: of its namespace and variant, one replica, and recorded whenever it takes
GPUs of the pool. -/
structure BorrowDraw.WakeOf (ns variant : String) (d : BorrowDraw) : Prop where
  ns_eq : d.ns = ns
  variant_eq : d.variant = variant
  replicas_eq : d.replicas = 1
  records : d.poolGPUs ≠ 0 → 0 < d.gpus

section DrawPast

variable (ns modelID : String) (r : WakeReplica)

theorem chunks_drawPast (pool : Int) (chunks : List (SharedPoolChunk × Int)) :
    (drawPast ns modelID r pool chunks).2.map Prod.fst = chunks.map Prod.fst := by
  induction chunks generalizing pool with
  | nil => rfl
  | cons c rest ih =>
    obtain ⟨ch, free⟩ := c
    unfold drawPast
    split_ifs
    · rfl
    · rw [map_cons, ih, map_cons]
    · rw [map_cons, ih, map_cons]

theorem drawPast_wakeOf (pool : Int) (chunks : List (SharedPoolChunk × Int)) :
    ∀ d ∈ (drawPast ns modelID r pool chunks).1,
      d.WakeOf ns r.variant ∧ d.reclaim = false := by
  induction chunks generalizing pool with
  | nil =>
    intro d hd
    exact absurd hd not_mem_nil
  | cons c rest ih =>
    obtain ⟨ch, free⟩ := c
    unfold drawPast
    split_ifs with hpool hnone
    · intro d hd
      exact absurd hd not_mem_nil
    · exact ih pool
    · intro d hd
      rcases mem_cons.mp hd with rfl | hd
      · refine ⟨⟨rfl, rfl, rfl, fun _ => ?_⟩, rfl⟩
        change 0 < min pool free
        omega
      · exact ih _ d hd

theorem chunks_drawPast_sublist (pool : Int) (chunks : List (SharedPoolChunk × Int)) :
    ((drawPast ns modelID r pool chunks).1.map fun d => d.key.chunk).Sublist
      (chunks.map fun p => p.1.id) := by
  induction chunks generalizing pool with
  | nil => exact Sublist.refl _
  | cons c rest ih =>
    obtain ⟨ch, free⟩ := c
    unfold drawPast
    split_ifs
    · exact nil_sublist _
    · exact (ih pool).cons _
    · exact (ih _).cons_cons _

end DrawPast

section Entries

variable {ns modelID : String} {r : WakeReplica} {s : TypeState}

/-- Whether a replica that takes pool GPUs before preempting also reclaims some. -/
def TypeState.RecordsPool (s : TypeState) (g : ℕ) : Prop :=
  (s.takes g).pool = 0 ∨ 0 < (s.takes g).gpus

theorem entries_wakeOf (h : s.RecordsPool r.size) :
    ∀ d ∈ s.entries ns modelID r, d.WakeOf ns r.variant := by
  intro d hd
  unfold TypeState.entries at hd
  rcases mem_append.mp hd with hd | hd
  · exact (drawPast_wakeOf ns modelID r _ _ d hd).1
  · unfold wakeReclaimEntry at hd
    split_ifs at hd
    · cases mem_singleton.mp hd
      refine ⟨rfl, rfl, rfl, ?_⟩
      intro hpool
      exact h.resolve_left hpool
    · exact absurd hd not_mem_nil

theorem nodup_entries (hchunks : (s.chunks.map fun p => p.1.id).Nodup) :
    ((s.entries ns modelID r).map BorrowDraw.key).Nodup := by
  unfold TypeState.entries
  rw [map_append]
  refine Nodup.append ?_ ?_ ?_
  · have h := (chunks_drawPast_sublist ns modelID r (s.past r.size) s.chunks).nodup hchunks
    have hchunk : (List.map InFlightKey.chunk
        ((drawPast ns modelID r (s.past r.size) s.chunks).1.map BorrowDraw.key)).Nodup := by
      rw [map_map]
      exact h
    exact hchunk.of_map
  · unfold wakeReclaimEntry
    split_ifs
    · exact nodup_singleton _
    · exact nodup_nil
  · -- the draws are kept apart from the reclaim
    intro k hk hk'
    obtain ⟨d, hd, rfl⟩ := mem_map.mp hk
    obtain ⟨d', hd', heq⟩ := mem_map.mp hk'
    have hdraw := (drawPast_wakeOf ns modelID r _ _ d hd).2
    have hreclaim : d'.reclaim = true := by
      unfold wakeReclaimEntry at hd'
      split_ifs at hd'
      · cases mem_singleton.mp hd'
        rfl
      · exact absurd hd' not_mem_nil
    have hsame : d'.reclaim = d.reclaim := congrArg InFlightKey.reclaim heq
    rw [hdraw, hreclaim] at hsame
    cases hsame

end Entries

section Run

variable {constraints : List BorrowConstraints} {ns modelID : String} {prior : GoMap String ℕ}
  {reclaim : GoMap String Reclaim} {it : Iteration}

/-- What a wake keeps as it grows: its types' chunks are distinct, and so are the keys of its
entries, all of the variants seen. -/
structure WakeState.Sound (ns : String) (w : WakeState) (seen : List String) : Prop where
  chunks : ∀ p ∈ w.states, (p.2.chunks.map fun c => c.1.id).Nodup
  entries : ∀ d ∈ w.out, ∃ v ∈ seen, d.WakeOf ns v
  nodup : (w.out.map BorrowDraw.key).Nodup

variable {seen : List String} {w : WakeState}

theorem mem_put {k : String} {s : TypeState} {p : String × TypeState} (h : p ∈ w.put k s) :
    p ∈ w.states ∨ p = (k, s) := by
  unfold WakeState.put at h
  split_ifs at h
  · obtain ⟨p', hp', heq⟩ := mem_map.mp h
    split_ifs at heq
    · exact .inr heq.symm
    · exact .inl (heq ▸ hp')
  · rcases mem_append.mp h with h | h
    · exact .inl h
    · exact .inr (mem_singleton.mp h)

/-- A step whose replica records what it takes of the pool. -/
def WakeState.RecordsPool (constraints : List BorrowConstraints) (ns : String)
    (prior : GoMap String ℕ) (reclaim : GoMap String Reclaim) (it : Iteration) (w : WakeState)
    (r : WakeReplica) : Prop :=
  (w.stateOf constraints ns prior reclaim it r).2.RecordsPool r.size

variable (hchunks : ∀ c ∈ constraints, (c.sharedPools.map SharedPoolChunk.id).Nodup)
include hchunks

theorem nodup_typeState (acc : String) :
    ((typeState constraints ns prior reclaim acc).chunks.map fun c => c.1.id).Nodup := by
  unfold typeState
  cases hc : constraints.findSome? fun c => (readPool ns acc c).map fun p => (c, p) with
  | none => exact nodup_nil
  | some cp =>
    obtain ⟨c, p⟩ := cp
    obtain ⟨c', hmem, hread⟩ := exists_of_findSome?_eq_some hc
    obtain ⟨p', _, heq⟩ := Option.map_eq_some_iff.mp hread
    obtain ⟨rfl, rfl⟩ := Prod.mk.inj heq
    dsimp only
    rw [map_map]
    exact (filter_sublist.map SharedPoolChunk.id).nodup (hchunks c' hmem)

theorem WakeState.Sound.stateOf (h : w.Sound ns seen) (r : WakeReplica) :
    ((w.stateOf constraints ns prior reclaim it r).2.chunks.map fun c => c.1.id).Nodup := by
  unfold WakeState.stateOf
  cases hf : (it.sort w.states).find? fun p => Accelerator.sameName p.1 r.accelerator with
  | none => exact nodup_typeState hchunks r.accelerator
  | some p => exact h.chunks p (it.mem_sort.mp (mem_of_find?_eq_some hf))

theorem WakeState.Sound.step (h : w.Sound ns seen) {r : WakeReplica}
    (hr : w.RecordsPool constraints ns prior reclaim it r) (hnew : r.variant ∉ seen) :
    (wakeStep constraints ns modelID prior reclaim it w r).Sound ns (seen ++ [r.variant]) := by
  have hstate : ((w.stateOf constraints ns prior reclaim it r).2.chunks.map
      fun c => c.1.id).Nodup := h.stateOf hchunks r
  have hold : ∀ d ∈ w.out, ∃ v ∈ seen ++ [r.variant], d.WakeOf ns v := by
    intro d hd
    obtain ⟨v, hv, hwake⟩ := h.entries d hd
    exact ⟨v, mem_append_left _ hv, hwake⟩
  unfold wakeStep
  split_ifs
  · refine ⟨?_, ?_, ?_⟩
    · intro p hp
      rcases mem_put hp with hp | rfl
      · exact h.chunks p hp
      · change ((drawPast ns modelID r _ _).2.map fun c => c.1.id).Nodup
        have hsame := chunks_drawPast ns modelID r
          ((w.stateOf constraints ns prior reclaim it r).2.past r.size)
          (w.stateOf constraints ns prior reclaim it r).2.chunks
        have hid : ∀ l : List (SharedPoolChunk × Int),
            (l.map fun c => c.1.id) = (l.map Prod.fst).map SharedPoolChunk.id := by
          intro l
          rw [map_map]
          rfl
        rw [hid] at hstate ⊢
        rw [hsame]
        exact hstate
    · intro d hd
      rcases mem_append.mp hd with hd | hd
      · exact hold d hd
      · exact ⟨r.variant, mem_append_right _ (mem_singleton_self _),
          entries_wakeOf hr d hd⟩
    · rw [map_append]
      refine h.nodup.append (nodup_entries hstate) ?_
      intro k hk hk'
      obtain ⟨d, hd, rfl⟩ := mem_map.mp hk
      obtain ⟨d', hd', heq⟩ := mem_map.mp hk'
      obtain ⟨v, hv, hwake⟩ := h.entries d hd
      have hvar : d'.variant = d.variant := congrArg InFlightKey.variant heq
      rw [(entries_wakeOf hr d' hd').variant_eq, hwake.variant_eq] at hvar
      exact hnew (hvar ▸ hv)
  · refine ⟨?_, hold, h.nodup⟩
    intro p hp
    rcases mem_put hp with hp | rfl
    · exact h.chunks p hp
    · exact hstate

theorem WakeState.Sound.run (h : w.Sound ns seen) {reps : List WakeReplica}
    (hsteps : Keeps (wakeStep constraints ns modelID prior reclaim it) (WakeState.RecordsPool
      constraints ns prior reclaim it) w reps)
    (hnew : (seen ++ reps.map WakeReplica.variant).Nodup) :
    (runFrom (wakeStep constraints ns modelID prior reclaim it) w reps).Sound ns
      (seen ++ reps.map WakeReplica.variant) := by
  induction reps generalizing w seen with
  | nil =>
    rw [map_nil, append_nil]
    exact h
  | cons r reps ih =>
    obtain ⟨hr, hsteps⟩ := hsteps
    have hr' : r.variant ∉ seen := by
      intro hmem
      exact (nodup_append.mp hnew).2.2 _ hmem _ mem_cons_self rfl
    have hsplit : seen ++ (r :: reps).map WakeReplica.variant =
        (seen ++ [r.variant]) ++ reps.map WakeReplica.variant := by simp
    rw [hsplit] at hnew ⊢
    exact ih (h.step hchunks hr hr') hsteps hnew

end Run

variable {d : BorrowDraw}

section Record

variable {now : Int}

theorem entries_recordWakeDraw (b : BorrowInFlight) (d : BorrowDraw) :
    (BorrowInFlight.recordWakeDraw now b d).entries =
      if b.entries.has d.key || d.gpus ≤ 0 || d.replicas ≤ 0 then b.entries
      else b.entries.set d.key (BorrowInFlight.wakeEntry now d) := by
  unfold BorrowInFlight.recordWakeDraw
  rw [apply_ite BorrowInFlight.entries]

theorem lagging_recordWakeDraw (b : BorrowInFlight) (d : BorrowDraw) :
    (BorrowInFlight.recordWakeDraw now b d).lagging = b.lagging := by
  unfold BorrowInFlight.recordWakeDraw
  rw [apply_ite BorrowInFlight.lagging, ite_self]

theorem find?_recordWake {draws : List BorrowDraw} {b : BorrowInFlight}
    (hnodup : (draws.map BorrowDraw.key).Nodup) (hd : d ∈ draws)
    (hkey : b.entries.has d.key = false) (hgpus : 0 < d.gpus) (hreplicas : 0 < d.replicas) :
    (draws.foldl (BorrowInFlight.recordWakeDraw now) b).entries.find? d.key =
      some (BorrowInFlight.wakeEntry now d) := by
  -- an entry of the record stays
  have hstays : ∀ (ds : List BorrowDraw) (b : BorrowInFlight) (k : InFlightKey) (e : BorrowDraw),
      b.entries.find? k = some e →
        (ds.foldl (BorrowInFlight.recordWakeDraw now) b).entries.find? k = some e := by
    intro ds b k e h
    refine foldlRecOn (motive := fun b : BorrowInFlight => b.entries.find? k = some e) _ _ h
      fun b h x _ => ?_
    rw [entries_recordWakeDraw]
    split_ifs with hskip
    · exact h
    · have hne : k ≠ x.key := by
        rintro rfl
        have hhas : b.entries.has x.key = true := has_iff_mem_keys.mpr (mem_keys.mpr ⟨e, h⟩)
        rw [hhas] at hskip
        exact hskip rfl
      rw [find?_set, if_neg hne]
      exact h
  induction draws generalizing b with
  | nil => exact absurd hd not_mem_nil
  | cons x ds ih =>
    obtain ⟨hx, hnodup⟩ := nodup_cons.mp hnodup
    rw [foldl_cons]
    rcases mem_cons.mp hd with rfl | hd
    · apply hstays
      have hskip : (b.entries.has d.key || decide (d.gpus ≤ 0) || decide (d.replicas ≤ 0)) =
          false := by
        rw [hkey]
        simp [hgpus, hreplicas]
      rw [entries_recordWakeDraw, hskip, if_neg Bool.false_ne_true, find?_set, if_pos rfl]
    · apply ih hnodup hd
      rw [entries_recordWakeDraw]
      split_ifs
      · exact hkey
      · have hne : d.key ≠ x.key := fun heq => hx (heq ▸ mem_map_of_mem hd)
        rw [has_set, hkey, decide_eq_false hne]
        rfl

theorem recordWake_entries (draws : List BorrowDraw) (b : BorrowInFlight) :
    (draws.foldl (BorrowInFlight.recordWakeDraw now) b).lagging = b.lagging ∧
    ∀ k e, (draws.foldl (BorrowInFlight.recordWakeDraw now) b).entries.find? k = some e →
      b.entries.find? k = some e ∨
        ∃ d ∈ draws, 0 < d.gpus ∧ e = BorrowInFlight.wakeEntry now d := by
  refine foldlRecOn (motive := fun b' : BorrowInFlight => b'.lagging = b.lagging ∧
    ∀ k e, b'.entries.find? k = some e → b.entries.find? k = some e ∨
      ∃ d ∈ draws, 0 < d.gpus ∧ e = BorrowInFlight.wakeEntry now d) _ _
    ⟨rfl, fun _ _ h => .inl h⟩ fun b' hb' x hx => ⟨?_, fun k e h => ?_⟩
  · rw [lagging_recordWakeDraw, hb'.1]
  · rw [entries_recordWakeDraw] at h
    split_ifs at h with hskip
    · exact hb'.2 k e h
    · rw [find?_set] at h
      split_ifs at h
      · cases h
        refine .inr ⟨x, hx, ?_, rfl⟩
        simp only [Bool.or_eq_true, decide_eq_true_eq, not_or] at hskip
        omega
      · exact hb'.2 k e h

theorem mem_sortedEntries {b : BorrowInFlight} :
    d ∈ b.sortedEntries ↔ ∃ k, b.entries.find? k = some d := by
  unfold BorrowInFlight.sortedEntries
  rw [mem_filterMap]
  constructor
  · rintro ⟨k, _, h⟩
    exact ⟨k, h⟩
  · rintro ⟨k, h⟩
    exact ⟨k, (Sorting.mem_sort _).mpr (mem_keys.mpr ⟨d, h⟩), h⟩

end Record

/-- The GPUs of the pool a wake takes of a chunk, by the entries whose key the record did not
hold. -/
def wakeTakes (b : BorrowInFlight) (p : SharedPoolChunk) (draws : List BorrowDraw) : Int :=
  sumIf (fun d => p.holds d && !b.entries.has d.key) BorrowDraw.poolGPUs draws

/-- A record whose draws take no negative figure of the pool. -/
structure BorrowInFlight.Counts (b : BorrowInFlight) : Prop where
  entries : b.entries.Every fun _ d => 0 ≤ d.poolGPUs
  lagging : ∀ d ∈ b.lagging, 0 ≤ d.poolGPUs

section Deduct

variable {b : BorrowInFlight} {draws : List BorrowDraw} {now later : Int}

theorem poolGPUs_nonneg_of_gpus (h : 0 < d.gpus) : 0 ≤ d.poolGPUs := by
  unfold BorrowDraw.poolGPUs
  split_ifs
  · exact Reclaim.pool_nonneg _
  · omega

theorem unreserved_nonneg (hb : b.Counts) (draws : List BorrowDraw) (now later : Int) :
    ∀ d ∈ ((b.recordWake draws now).unreserved later).inFlight, 0 ≤ d.poolGPUs := by
  intro d hd
  obtain ⟨hlag, hfind⟩ : (b.recordWake draws now).lagging = b.lagging ∧
      ∀ k e, (b.recordWake draws now).entries.find? k = some e → b.entries.find? k = some e ∨
        ∃ d ∈ draws, 0 < d.gpus ∧ e = BorrowInFlight.wakeEntry now d :=
    recordWake_entries draws _
  rcases mem_append.mp hd with hd | hd
  · obtain ⟨k, hk⟩ := mem_sortedEntries.mp (mem_of_mem_filter hd)
    rcases hfind k d hk with hold | ⟨d', _, hg, rfl⟩
    · exact hb.entries k d hold
    · exact poolGPUs_nonneg_of_gpus (d := BorrowInFlight.wakeEntry now d') hg
  · have hmem := mem_of_mem_filter hd
    rw [hlag] at hmem
    exact hb.lagging d hmem

theorem wakeTakes_le (hb : b.Counts) (hnodup : (draws.map BorrowDraw.key).Nodup)
    (hreplicas : ∀ d ∈ draws, 0 < d.replicas)
    (hrecords : ∀ d ∈ draws, d.poolGPUs ≠ 0 → 0 < d.gpus) (hlater : later ≤ now + inFlightTTL)
    (p : SharedPoolChunk) :
    wakeTakes b p draws ≤ sumIf (inFlightOn p) BorrowDraw.poolGPUs
      ((b.recordWake draws now).unreserved later).inFlight := by
  have hnonneg := unreserved_nonneg hb draws now later
  -- the wake's entries that are recorded
  have htake : wakeTakes b p draws = sumIf (inFlightOn p) BorrowDraw.poolGPUs
      ((draws.filter fun d => !b.entries.has d.key && decide (0 < d.gpus)).map
        (BorrowInFlight.wakeEntry now)) := by
    clear hnodup hnonneg hreplicas
    unfold wakeTakes
    induction draws with
    | nil => rfl
    | cons d ds ih =>
      obtain ⟨hd, hds⟩ := forall_mem_cons.mp hrecords
      rw [sumIf_cons, ih hds]
      by_cases hnew : b.entries.has d.key = true
      · simp [hnew]
      · by_cases hg : 0 < d.gpus
        · rw [filter_cons_of_pos (by simp [hnew, hg]), map_cons, sumIf_cons]
          have hon : inFlightOn p (BorrowInFlight.wakeEntry now d) = p.holds d := by
            unfold inFlightOn
            exact Bool.and_true _
          rw [hon, Bool.eq_false_iff.mpr hnew, Bool.not_false, Bool.and_true]
          rfl
        · have hzero : d.poolGPUs = 0 := by
            by_contra hne
            exact hg (hd hne)
          rw [filter_cons_of_neg (by simp [hg]), hzero, ite_self, Int.zero_add]
  rw [htake]
  apply sumIf_subset
  · have hkeys : (((draws.filter fun d => !b.entries.has d.key && decide (0 < d.gpus)).map
        (BorrowInFlight.wakeEntry now)).map BorrowDraw.key).Nodup := by
      rw [map_map]
      exact (filter_sublist.map BorrowDraw.key).nodup hnodup
    exact hkeys.of_map
  · intro e he
    obtain ⟨d, hd, rfl⟩ := mem_map.mp he
    obtain ⟨hmem, hd⟩ := mem_filter.mp hd
    rw [Bool.and_eq_true, Bool.not_eq_true', decide_eq_true_eq] at hd
    apply mem_append_left
    apply mem_filter.mpr
    refine ⟨mem_sortedEntries.mpr ⟨d.key, ?_⟩, ?_⟩
    · exact find?_recordWake hnodup hmem hd.1 hd.2 (hreplicas d hmem)
    · change (!decide (inFlightTTL < later - now)) = true
      simp only [Bool.not_eq_true', decide_eq_false_iff_not]
      omega
  · exact fun d hd _ => hnonneg d hd

end Deduct

private def inOrder : Iteration where
  sort l := l
  perm l := Perm.refl l
  sorted _ := pairwise_iff_forall_sublist.mpr fun _ => rfl

private def wakeChunk : SharedPoolChunk where
  acceleratorType := "H100"
  nodeLabels := ∅
  tolerations := []
  cohort := "co"
  flavor := "f"
  resource := "gpu"
  free := 8
  readAt := some 0
  pendingGPUs := 0
  coFree := ∅
  restricted := []
  classPriority := ∅
  borrowed := 0
  borrowerPriority := none
  restrictedClosed := false

/-- A namespace with 8 guaranteed GPUs, of which Kueue admits some before it preempts. -/
private def wakeConstraints (after : Int) : BorrowConstraints where
  namespacePools := GoMap.set ∅ "x" (GoMap.set ∅ "H100" ⟨(8 : ℕ), 0⟩)
  namespaceBorrow := some (GoMap.set ∅ "x" (GoMap.set ∅ "H100"
    ⟨0, 8 - after, after, 0, false, ∅, ∅, none, []⟩))
  namespaceNominal := ∅
  sharedPools := [wakeChunk]
  namespaceCohorts := GoMap.set ∅ "x" ["co"]

/-- The entries of a wake of one replica of 8 GPUs. -/
private def wakeOfOne (after : Int) : List BorrowDraw :=
  wakeDraws [wakeConstraints after] "x" "m" ∅
    (GoMap.set ∅ "H100" ⟨after, 0, 8 - after, false⟩) inOrder [⟨"v", "H100", 8⟩]

end LlmScaler.Borrow
