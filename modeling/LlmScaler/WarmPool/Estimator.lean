import LlmScaler.Core.GoMap
import LlmScaler.Core.Sorting

/-!
# The warm-pool estimator

The estimator runs a pool over a trace: a spike finds its model resident or misses, and a resident
one finds a slot free or is blocked. Residency is a recency cache, slots come free a hold after they
were taken. A larger cache holds what the smaller one holds, in the same order, and a run that never
had fewer slots or fewer takers has never given out fewer of them.
-/

namespace LlmScaler.Estimator

open LlmScaler.Core List

/-- `Kind`: everything that is not a request is a spike. -/
inductive Kind where
  | spike
  | request
  deriving DecidableEq

/-- `Event`: one line of a trace. -/
structure Event where
  time : Int
  model : String
  kind : Kind
  deriving DecidableEq

/-- `Config`: the pool simulated. -/
structure Config where
  memberships : Int
  slots : Int
  hold : Int
  coldStart : Int
  wake : Int
  fillOnMiss : Bool

/-- Why a configuration cannot be simulated. -/
inductive ConfigError where
  | memberships
  | slots
  | hold
  | coldStart
  | wakeNegative
  | wakeNotFaster
  deriving DecidableEq

def Config.validate (c : Config) : Option ConfigError :=
  if c.memberships ≤ 0 then some .memberships
  else if c.slots ≤ 0 then some .slots
  else if c.hold ≤ 0 then some .hold
  else if c.coldStart ≤ 0 then some .coldStart
  else if c.wake < 0 then some .wakeNegative
  else if c.coldStart ≤ c.wake then some .wakeNotFaster
  else none

/-- How a spike resolves. -/
inductive Outcome where
  | miss
  | blocked
  | hit
  deriving DecidableEq

/-- `ModelResult`: the counts of one model, and of all of them. -/
structure ModelResult where
  spikes : ℕ := 0
  hits : ℕ := 0
  blocked : ℕ := 0
  misses : ℕ := 0
  saved : Int := 0
  deriving DecidableEq, Inhabited

def ModelResult.count (c : Config) (o : Outcome) (r : ModelResult) : ModelResult where
  spikes := r.spikes + 1
  hits := r.hits + if o = .hit then 1 else 0
  blocked := r.blocked + if o = .blocked then 1 else 0
  misses := r.misses + if o = .miss then 1 else 0
  saved := r.saved + if o = .hit then c.coldStart - c.wake else 0

/-- `Result`: what the pool would have done. -/
structure Result extends ModelResult where
  meanWait : Int
  meanWaitBaseline : Int
  perModel : GoMap String ModelResult

structure Sim where
  /-- The resident models, the most recently wanted first. -/
  warm : List String
  releases : List Int
  total : ModelResult
  perModel : GoMap String ModelResult
  totalWait : Int

namespace Config

variable (c : Config)

/-- `newWarmSet`: the models the cache has room for. -/
def capacity : ℕ := max 1 c.memberships.toNat

/-- `touch`: a model becomes the most recently wanted; one too many and the least recently wanted
goes. -/
def touch (warm : List String) (model : String) : List String :=
  (model :: warm.erase model).take c.capacity

/-- How a spike of a model resolves. -/
def outcome (warm : List String) (busy : ℕ) (model : String) : Outcome :=
  if model ∉ warm then .miss
  else if c.slots ≤ busy then .blocked
  else .hit

/-- `free`: the slots still held. -/
def free (releases : List Int) (now : Int) : List Int := releases.filter fun r => now < r

def spike (s : Sim) (now : Int) (model : String) : Sim :=
  let releases := free s.releases now
  let o := c.outcome s.warm releases.length model
  { warm := if o = .miss ∧ c.fillOnMiss = false then s.warm else c.touch s.warm model
    releases := if o = .hit then releases ++ [now + c.hold] else releases
    total := s.total.count c o
    perModel := s.perModel.set model ((s.perModel.get model).count c o)
    totalWait := s.totalWait + if o = .hit then c.wake else c.coldStart }

/-- One event. A request refreshes its model, and makes one resident that was not. -/
def step (s : Sim) (ev : Event) : Sim :=
  if ev.model = "" then s
  else if ev.kind = .request then { s with warm := c.touch s.warm ev.model }
  else c.spike s ev.time ev.model

/-- The pool before the trace. -/
def start : Sim := ⟨[], [], {}, ∅, 0⟩

/-- The events of a trace one after another. -/
def simulate (s : Sim) (events : List Event) : Sim := events.foldl c.step s

def resultOf (s : Sim) : Result where
  toModelResult := s.total
  meanWait := if 0 < s.total.spikes then s.totalWait.tdiv s.total.spikes else 0
  meanWaitBaseline := c.coldStart
  perModel := s.perModel

end Config

/-- The events by time, those of one time as they were. -/
def ordered (events : List Event) : List Event := (Sorting.byKey Event.time).sort events

/-- `Run`: a pool simulated over events, which need not be sorted. -/
def run (events : List Event) (c : Config) : Except ConfigError Result :=
  match c.validate with
  | some e => .error e
  | none => .ok (c.resultOf (c.simulate Config.start (ordered events)))

theorem simulate_append (c : Config) (s : Sim) (pre : List Event) (ev : Event)
    (post : List Event) : c.simulate s (pre ++ ev :: post) =
      c.simulate (c.step (c.simulate s pre) ev) post := by
  simp [Config.simulate]

theorem run_eq_ok {events : List Event} {c : Config} {r : Result} : run events c = .ok r ↔
    c.validate = none ∧ c.resultOf (c.simulate Config.start (ordered events)) = r := by
  unfold run
  cases c.validate with
  | none => simp
  | some e => simp

theorem validate_raised {c : Config} {memberships slots : Int}
    (hm : c.memberships ≤ memberships) (hs : c.slots ≤ slots) (h : c.validate = none) :
    ({ c with memberships := memberships, slots := slots } : Config).validate = none := by
  unfold Config.validate at h ⊢
  split_ifs at h with h₁ h₂ h₃ h₄ h₅ h₆
  simp only [h₃, h₄, h₅, h₆, if_false]
  rw [if_neg (by omega), if_neg (by omega)]

section Monotone

variable {c c' : Config} {s s' : Sim} {now : Int} {model : String}

/-- A cache with more room keeps what the smaller one keeps. -/
structure Wider (cap cap' : ℕ) (warm warm' : List String) : Prop where
  sublist : warm.Sublist warm'
  nodup : warm'.Nodup
  within : warm.length ≤ cap
  within' : warm'.length ≤ cap'
  /-- Nothing was dropped before the smaller cache was full. -/
  full : warm.length = cap ∨ warm = warm'

theorem nodup_touch {warm : List String} (h : warm.Nodup) : (c.touch warm model).Nodup :=
  (nodup_cons.mpr ⟨h.not_mem_erase, h.erase model⟩).sublist (take_sublist _ _)

theorem length_touch_le (warm : List String) : (c.touch warm model).length ≤ c.capacity :=
  length_take_le _ _

theorem touch_of_mem {warm : List String} (hmem : model ∈ warm)
    (hlen : warm.length ≤ c.capacity) : c.touch warm model = model :: warm.erase model := by
  refine take_of_length_le ?_
  have hpos := length_pos_of_mem hmem
  rw [length_cons, length_erase_of_mem hmem]
  omega

theorem dropLast_sublist {l l' : List String} (h : l.Sublist l') :
    l.dropLast.Sublist l'.dropLast := by
  have htail := (reverse_sublist.mpr h).tail
  rwa [tail_reverse, tail_reverse, reverse_sublist] at htail

theorem length_refreshed (warm : List String) (model : String) :
    (model :: warm.erase model).length =
      if model ∈ warm then warm.length - 1 + 1 else warm.length + 1 := by
  rw [length_cons, length_erase]
  split_ifs <;> rfl

theorem Wider.touch {warm warm' : List String} (h : Wider c.capacity c'.capacity warm warm')
    (hle : c.capacity ≤ c'.capacity) :
    Wider c.capacity c'.capacity (c.touch warm model) (c'.touch warm' model) := by
  have hcons : (model :: warm.erase model).Sublist (model :: warm'.erase model) :=
    (h.sublist.erase model).cons_cons model
  have hlen := length_refreshed warm model
  have hlen' := length_refreshed warm' model
  have hsub : model ∈ warm → model ∈ warm' := fun hmem => h.sublist.subset hmem
  have hwithin := h.within
  have hwithin' := h.within'
  have hsame : warm = warm' → warm.length = warm'.length := congrArg List.length
  refine ⟨?_, nodup_touch h.nodup, length_touch_le _, length_touch_le _, ?_⟩
  · rcases Nat.lt_or_ge c'.capacity (model :: warm'.erase model).length with hover | hfits
    · -- The wider cache drops its oldest model; the smaller one was then full and drops its own.
      have hmem' : model ∉ warm' := by
        intro hmem'
        have hpos := length_pos_of_mem hmem'
        rw [if_pos hmem'] at hlen'
        omega
      rw [if_neg hmem'] at hlen'
      rw [if_neg (mt hsub hmem')] at hlen
      have hcap : warm.length = c.capacity := by
        rcases h.full with hfull | heq
        · exact hfull
        · have := hsame heq
          omega
      rw [Config.touch, Config.touch, take_eq_dropLast (by omega),
        take_eq_dropLast (by omega)]
      exact dropLast_sublist hcons
    · rw [Config.touch, Config.touch, take_of_length_le hfits]
      exact (take_sublist _ _).trans hcons
  · rcases Nat.lt_or_ge (model :: warm.erase model).length c.capacity with hlt | hge
    · right
      obtain hfull | rfl := h.full
      · split_ifs at hlen <;> omega
      · rw [Config.touch, Config.touch, take_of_length_le hlt.le,
          take_of_length_le (hlt.le.trans hle)]
    · left
      rw [Config.touch, length_take]
      omega

theorem Wider.touch_wide {warm warm' : List String}
    (h : Wider c.capacity c'.capacity warm warm') (hmem : model ∉ warm) (hmem' : model ∈ warm') :
    Wider c.capacity c'.capacity warm (c'.touch warm' model) := by
  refine ⟨?_, nodup_touch h.nodup, h.within, length_touch_le _, ?_⟩
  · rw [touch_of_mem hmem' h.within']
    have herase := h.sublist.erase model
    rw [erase_of_not_mem hmem] at herase
    exact herase.cons model
  · left
    exact h.full.resolve_right fun heq => hmem (heq ▸ hmem')

theorem countP_free {releases : List Int} {t : Int} (ht : now ≤ t) :
    (Config.free releases now).countP (fun r => t < r) = releases.countP fun r => t < r := by
  rw [Config.free, countP_filter]
  refine countP_congr fun r _ => ?_
  simp only [Bool.and_eq_true, decide_eq_true_eq, and_iff_left_iff_imp]
  intro hlt
  omega

/-- A run of a pool with at least the slots and the memberships of another over the same trace. The
hits less the slots still held at a time are those whose slot came free by then. -/
structure Ahead (c c' : Config) (now : Int) (s s' : Sim) : Prop where
  wider : Wider c.capacity c'.capacity s.warm s'.warm
  misses : s'.total.misses ≤ s.total.misses
  hits : ∀ t, now ≤ t → s.total.hits + s'.releases.countP (fun r => t < r) ≤
    s'.total.hits + s.releases.countP fun r => t < r
  held : ∀ r ∈ s'.releases, r ≤ now + c.hold
  same : c.capacity = c'.capacity → s.warm = s'.warm ∧ s.total.misses = s'.total.misses

/-- A pool that has at least the slots and the memberships of another, and is else the same. -/
structure Raised (c c' : Config) : Prop where
  capacity : c.capacity ≤ c'.capacity
  slots : c.slots ≤ c'.slots
  hold : c'.hold = c.hold
  fill : c'.fillOnMiss = c.fillOnMiss

theorem Ahead.request (h : Ahead c c' now s s') (hr : Raised c c') {later : Int}
    (hnow : now ≤ later) : Ahead c c' later { s with warm := c.touch s.warm model }
      { s' with warm := c'.touch s'.warm model } where
  wider := h.wider.touch hr.capacity
  misses := h.misses
  hits t ht := h.hits t (hnow.trans ht)
  held r hmem := (h.held r hmem).trans (by omega)
  same heq := ⟨by rw [(h.same heq).1, Config.touch, Config.touch, heq], (h.same heq).2⟩

theorem outcome_eq_miss {warm : List String} {busy : ℕ} :
    c.outcome warm busy model = .miss ↔ model ∉ warm := by
  unfold Config.outcome
  split_ifs <;> simp_all

theorem outcome_eq_hit {warm : List String} {busy : ℕ} :
    c.outcome warm busy model = .hit ↔ model ∈ warm ∧ (busy : Int) < c.slots := by
  unfold Config.outcome
  split_ifs <;> simp_all

theorem countP_taken (o : Outcome) (releases : List Int) (r t : Int) :
    (if o = .hit then releases ++ [r] else releases).countP (fun x => t < x) =
      releases.countP (fun x => t < x) + if o = .hit ∧ t < r then 1 else 0 := by
  by_cases ho : o = .hit
  · simp [ho, countP_append, countP_singleton]
  · simp [ho]

theorem countP_free_self (releases : List Int) (now : Int) :
    releases.countP (fun r => now < r) = (Config.free releases now).length :=
  countP_eq_length_filter

theorem Ahead.hits_spike (h : Ahead c c' now s s') (hr : Raised c c') {later : Int}
    (hnow : now ≤ later) (t : Int) (ht : later ≤ t) :
    (c.spike s later model).total.hits + (c'.spike s' later model).releases.countP
      (fun r => t < r) ≤ (c'.spike s' later model).total.hits +
        (c.spike s later model).releases.countP fun r => t < r := by
  simp only [Config.spike, ModelResult.count]
  rw [countP_taken, countP_taken, countP_free ht, countP_free ht]
  simp only [outcome_eq_hit, hr.hold]
  have hstep := h.hits t (hnow.trans ht)
  have hsub : model ∈ s.warm → model ∈ s'.warm := fun hmem => h.wider.sublist.subset hmem
  by_cases hhit : model ∈ s.warm ∧ ((Config.free s.releases later).length : Int) < c.slots
  · by_cases hhit' : model ∈ s'.warm ∧ ((Config.free s'.releases later).length : Int) < c'.slots
    · simp only [hhit, hhit', and_self, true_and]
      omega
    · have hbusy := h.hits later hnow
      rw [countP_free_self, countP_free_self] at hbusy
      have hfew : c'.slots ≤ (Config.free s'.releases later).length :=
        not_lt.mp fun hlt => hhit' ⟨hsub hhit.1, hlt⟩
      have hslots := hr.slots
      have hlt := hhit.2
      rw [if_pos hhit, if_neg hhit', if_neg fun hand => hhit' hand.1]
      by_cases hheld : t < later + c.hold
      · rw [if_pos ⟨hhit, hheld⟩]
        omega
      · have hnone : s'.releases.countP (fun r => t < r) = 0 := by
          rw [countP_eq_zero]
          intro r hmem
          have := h.held r hmem
          simp only [decide_eq_true_eq]
          omega
        omega
  · simp only [hhit, false_and, if_false]
    by_cases hhit' : model ∈ s'.warm ∧ ((Config.free s'.releases later).length : Int) < c'.slots
    · simp only [hhit', true_and]
      split_ifs <;> omega
    · simp only [hhit', false_and, if_false]
      omega

theorem Ahead.wider_spike (h : Ahead c c' now s s') (hr : Raised c c') (later : Int) :
    Wider c.capacity c'.capacity (c.spike s later model).warm (c'.spike s' later model).warm := by
  simp only [Config.spike, outcome_eq_miss, hr.fill]
  have hsub : model ∈ s.warm → model ∈ s'.warm := fun hmem => h.wider.sublist.subset hmem
  by_cases hmem' : model ∈ s'.warm
  · rw [if_neg (c := model ∉ s'.warm ∧ c.fillOnMiss = false) fun hand => hand.1 hmem']
    split_ifs with hleft
    · exact h.wider.touch_wide hleft.1 hmem'
    · exact h.wider.touch hr.capacity
  · have hmem := mt hsub hmem'
    simp only [hmem, hmem', not_false_eq_true, true_and]
    split_ifs
    · exact h.wider
    · exact h.wider.touch hr.capacity

theorem Ahead.spike (h : Ahead c c' now s s') (hr : Raised c c') {later : Int}
    (hnow : now ≤ later) : Ahead c c' later (c.spike s later model) (c'.spike s' later model) where
  wider := h.wider_spike hr later
  misses := by
    have hmisses := h.misses
    have hsub : model ∉ s'.warm → model ∉ s.warm := fun hmem' hmem =>
      hmem' (h.wider.sublist.subset hmem)
    simp only [Config.spike, ModelResult.count, outcome_eq_miss]
    split_ifs <;> grind
  hits := h.hits_spike hr hnow
  held r hmem := by
    simp only [Config.spike, hr.hold] at hmem
    have hold {x} (hx : x ∈ Config.free s'.releases later) : x ≤ later + c.hold := by
      have := h.held x (mem_of_mem_filter hx)
      omega
    split_ifs at hmem
    · rcases mem_append.mp hmem with hmem | hmem
      · exact hold hmem
      · exact (mem_singleton.mp hmem).le
    · exact hold hmem
  same heq := by
    obtain ⟨hwarm, hmisses⟩ := h.same heq
    simp only [Config.spike, ModelResult.count, outcome_eq_miss, hwarm, hmisses, hr.fill,
      Config.touch, heq, and_self]

theorem Ahead.step (h : Ahead c c' now s s') (hr : Raised c c') {ev : Event}
    (hnow : now ≤ ev.time) : Ahead c c' ev.time (c.step s ev) (c'.step s' ev) := by
  unfold Config.step
  split_ifs
  · exact { h with
      hits := fun t ht => h.hits t (hnow.trans ht)
      held := fun r hmem => (h.held r hmem).trans (by omega) }
  · exact h.request hr hnow
  · exact h.spike hr hnow

theorem Ahead.simulate {events : List Event} (hr : Raised c c')
    (hsorted : events.Pairwise fun e e' => e.time ≤ e'.time) (h : Ahead c c' now s s')
    (hnow : ∀ ev ∈ events, now ≤ ev.time) :
    ∃ last, Ahead c c' last (c.simulate s events) (c'.simulate s' events) := by
  induction events generalizing s s' now with
  | nil => exact ⟨now, h⟩
  | cons ev events ih =>
    have hpair := pairwise_cons.mp hsorted
    exact ih hpair.2 (h.step hr (hnow ev mem_cons_self)) hpair.1

theorem ahead_start (now : Int) : Ahead c c' now Config.start Config.start where
  wider := ⟨Sublist.refl _, nodup_nil, Nat.zero_le _, Nat.zero_le _, .inr rfl⟩
  misses := le_rfl
  hits _ _ := le_rfl
  held _ hmem := absurd hmem not_mem_nil
  same _ := ⟨rfl, rfl⟩

theorem ordered_pairwise (events : List Event) :
    (ordered events).Pairwise fun e e' => e.time ≤ e'.time :=
  pairwise_insertionSort_key Event.time events

theorem Raised.simulate (hr : Raised c c') (events : List Event) :
    ∃ last, Ahead c c' last (c.simulate Config.start (ordered events))
      (c'.simulate Config.start (ordered events)) := by
  have hsorted := ordered_pairwise events
  cases hord : ordered events with
  | nil => exact ⟨0, ahead_start 0⟩
  | cons ev rest =>
    rw [hord] at hsorted
    refine Ahead.simulate hr hsorted (ahead_start ev.time) fun e hmem => ?_
    rcases mem_cons.mp hmem with rfl | hmem
    · exact le_rfl
    · exact rel_of_pairwise_cons hsorted hmem

theorem Ahead.hits_le (h : Ahead c c' now s s') : s.total.hits ≤ s'.total.hits := by
  obtain ⟨t, ht⟩ := (insert now s.releases.toFinset).exists_le
  have hbalance := h.hits t (ht now (Finset.mem_insert_self _ _))
  have hnone : s.releases.countP (fun r => t < r) = 0 := by
    rw [countP_eq_zero]
    intro r hmem
    simpa using ht r (Finset.mem_insert_of_mem (mem_toFinset.mpr hmem))
  omega

end Monotone

/-- Raising the slots leaves the misses as they were and never lowers the hits; raising the
memberships never raises the misses and never lowers the hits. -/
theorem run_mono (events : List Event) (c : Config) {r : Result} (h : run events c = .ok r) :
    (∀ slots, c.slots ≤ slots → ∃ r', run events { c with slots := slots } = .ok r' ∧
      r'.misses = r.misses ∧ r.hits ≤ r'.hits) ∧
    (∀ memberships, c.memberships ≤ memberships →
      ∃ r', run events { c with memberships := memberships } = .ok r' ∧
        r'.misses ≤ r.misses ∧ r.hits ≤ r'.hits) := by
  obtain ⟨hvalid, rfl⟩ := run_eq_ok.mp h
  constructor
  · intro slots hle
    have hr : Raised c { c with slots := slots } := ⟨le_rfl, hle, rfl, rfl⟩
    obtain ⟨last, hahead⟩ := hr.simulate events
    exact ⟨_, run_eq_ok.mpr ⟨validate_raised (by omega) hle hvalid, rfl⟩,
      (hahead.same rfl).2.symm, hahead.hits_le⟩
  · intro memberships hle
    have hr : Raised c { c with memberships := memberships } :=
      ⟨max_le_max le_rfl (Int.toNat_le_toNat hle), le_rfl, rfl, rfl⟩
    obtain ⟨last, hahead⟩ := hr.simulate events
    exact ⟨_, run_eq_ok.mpr ⟨validate_raised hle le_rfl hvalid, rfl⟩, hahead.misses,
      hahead.hits_le⟩

private def smallPool : Config := ⟨1, 1, 60, 10, 1, true⟩

/-- One model spikes and, once it is warm, spikes twice within a hold. -/
private def busyTrace : List Event :=
  [⟨0, "a", .spike⟩, ⟨5, "b", .spike⟩, ⟨100, "a", .spike⟩, ⟨110, "a", .spike⟩]

theorem run_mono_busy : (∃ r, run busyTrace smallPool = .ok r) ∧
    ∃ r', run busyTrace { smallPool with slots := 2 } = .ok r' ∧
      r'.misses = (smallPool.simulate Config.start (ordered busyTrace)).total.misses := by
  have h : run busyTrace smallPool = .ok _ := run_eq_ok.mpr ⟨by decide, rfl⟩
  obtain ⟨r', hrun, hmisses, _⟩ := (run_mono busyTrace smallPool h).1 2 (by decide)
  exact ⟨⟨_, h⟩, r', hrun, hmisses⟩

/-- An event put in order goes to the same place whether another one is left out or not. -/
theorem orderedInsert_erase (x ev : Event) {pre post : List Event}
    (h : (pre ++ ev :: post).Pairwise fun e e' => e.time ≤ e'.time) :
    ∃ pre' post', (pre ++ ev :: post).orderedInsert (fun e e' => e.time ≤ e'.time) x =
        pre' ++ ev :: post' ∧
      (pre ++ post).orderedInsert (fun e e' => e.time ≤ e'.time) x = pre' ++ post' := by
  induction pre with
  | nil =>
    obtain ⟨hle, _⟩ := pairwise_cons.mp h
    by_cases hx : x.time ≤ ev.time
    · refine ⟨[x], post, by simp [hx], ?_⟩
      cases post with
      | nil => rfl
      | cons y post =>
        have hy := hx.trans (hle y mem_cons_self)
        simp [hy]
    · exact ⟨[], _, by simp [hx], rfl⟩
  | cons y pre ih =>
    obtain ⟨pre', post', hwith, hwithout⟩ := ih (pairwise_cons.mp h).2
    by_cases hx : x.time ≤ y.time
    · exact ⟨x :: y :: pre, post, by simp [hx], by simp [hx]⟩
    · exact ⟨y :: pre', post', by simp [hx, hwith], by simp [hx, hwithout]⟩

theorem ordered_erase (before : List Event) (ev : Event) (after : List Event) :
    ∃ pre post, ordered (before ++ ev :: after) = pre ++ ev :: post ∧
      ordered (before ++ after) = pre ++ post := by
  induction before with
  | nil =>
    exact ⟨_, _, orderedInsert_eq_take_drop _ ev (ordered after),
      takeWhile_append_dropWhile.symm⟩
  | cons x before ih =>
    obtain ⟨pre, post, hwith, hwithout⟩ := ih
    have hsorted := ordered_pairwise (before ++ ev :: after)
    rw [hwith] at hsorted
    obtain ⟨pre', post', hwith', hwithout'⟩ := orderedInsert_erase x ev hsorted
    refine ⟨pre', post', ?_, ?_⟩
    · rw [← hwith', ← hwith]
      rfl
    · rw [← hwithout', ← hwithout]
      rfl

section Left

variable {c : Config} {s s' : Sim} {model : String} {models : List String}

/-- The resident models are among those the trace names, each once. -/
structure Among (models warm : List String) : Prop where
  nodup : warm.Nodup
  subset : warm ⊆ models

variable (hroom : models.length ≤ c.capacity)
include hroom

theorem Among.touch {warm : List String} (h : Among models warm) (hmem : model ∈ models) :
    Among models (c.touch warm model) ∧ ∀ y, y ∈ c.touch warm model ↔ y = model ∨ y ∈ warm := by
  have hnodup : (model :: warm.erase model).Nodup :=
    nodup_cons.mpr ⟨h.nodup.not_mem_erase, h.nodup.erase model⟩
  have hsubset : model :: warm.erase model ⊆ models :=
    cons_subset.mpr ⟨hmem, fun y hy => h.subset (mem_of_mem_erase hy)⟩
  have htouch : c.touch warm model = model :: warm.erase model :=
    take_of_length_le ((hnodup.subperm hsubset).length_le.trans hroom)
  rw [htouch]
  refine ⟨⟨hnodup, hsubset⟩, fun y => ?_⟩
  rw [mem_cons]
  by_cases hy : y = model
  · simp [hy]
  · rw [mem_erase_of_ne hy]

/-- Two warm sets that differ at most in one model, which only the first has. -/
structure Beside (models : List String) (model : String) (apart : Bool)
    (warm warm' : List String) : Prop where
  among : Among models warm
  among' : Among models warm'
  mem : ∀ y, y ≠ model ∨ apart = false → (y ∈ warm ↔ y ∈ warm')
  apart : apart = true → model ∈ warm ∧ model ∉ warm'

variable {apart : Bool} {warm' : List String}

theorem Beside.touch {warm : List String} (h : Beside models model apart warm warm') {m : String}
    (hmem : m ∈ models) (hm : m ≠ model ∨ apart = false) :
    Beside models model apart (c.touch warm m) (c.touch warm' m) := by
  have htouch := h.among.touch hroom hmem
  have htouch' := h.among'.touch hroom hmem
  refine ⟨htouch.1, htouch'.1, fun y hy => ?_, fun ht => ?_⟩
  · rw [htouch.2, htouch'.2, h.mem y hy]
  · obtain ⟨hin, hout⟩ := h.apart ht
    have hne : model ≠ m := fun heq => hm.elim (· heq.symm) (by simp [ht])
    rw [htouch.2, htouch'.2]
    exact ⟨.inr hin, by simp [hne, hout]⟩

theorem Beside.step (h : Beside models model apart s.warm warm') {ev : Event}
    (hmem : ev.model ∈ models) (hev : ev.model ≠ model ∨ apart = false) :
    ∃ warm'', c.step { s with warm := warm' } ev = { c.step s ev with warm := warm'' } ∧
      Beside models model apart (c.step s ev).warm warm'' := by
  have htouch := h.touch hroom hmem hev
  unfold Config.step
  split_ifs
  · exact ⟨warm', rfl, h⟩
  · exact ⟨_, rfl, htouch⟩
  · have hsame (busy : ℕ) : c.outcome warm' busy ev.model = c.outcome s.warm busy ev.model := by
      simp only [Config.outcome, h.mem _ hev]
    unfold Config.spike
    simp only [hsame]
    refine ⟨_, rfl, ?_⟩
    split_ifs
    · exact h
    · exact htouch

theorem Beside.simulate (h : Beside models model apart s.warm warm') (events : List Event)
    (hmem : ∀ ev ∈ events, ev.model ∈ models)
    (hev : ∀ ev ∈ events, ev.model ≠ model ∨ apart = false) :
    ∃ warm'', c.simulate { s with warm := warm' } events =
        { c.simulate s events with warm := warm'' } ∧
      Beside models model apart (c.simulate s events).warm warm'' := by
  refine foldl_rel (r := fun s' s : Sim => ∃ warm'', s' = { s with warm := warm'' } ∧
    Beside models model apart s.warm warm'') ⟨warm', rfl, h⟩ fun ev he _ s hs => ?_
  obtain ⟨warm'', rfl, hs⟩ := hs
  exact hs.step hroom (hmem ev he) (hev ev he)

/-- A run that has missed less, and holds whatever the other one holds. -/
structure Fewer (models : List String) (s s' : Sim) : Prop where
  among : Among models s.warm
  among' : Among models s'.warm
  subset : s'.warm ⊆ s.warm
  misses : s.total.misses < s'.total.misses

theorem Fewer.step (h : Fewer models s s') {ev : Event} (hmem : ev.model ∈ models) :
    Fewer models (c.step s ev) (c.step s' ev) := by
  have htouch := h.among.touch hroom hmem
  have htouch' := h.among'.touch hroom hmem
  have hresident : ev.model ∈ s'.warm → ev.model ∈ s.warm := fun hin => h.subset hin
  have hkept : s.warm ⊆ c.touch s.warm ev.model := fun y hy => (htouch.2 y).mpr (.inr hy)
  have hboth : c.touch s'.warm ev.model ⊆ c.touch s.warm ev.model := by
    intro y hy
    rw [htouch'.2] at hy
    rw [htouch.2]
    exact hy.imp_right fun hin => h.subset hin
  unfold Config.step
  split_ifs
  · exact h
  · exact ⟨htouch.1, htouch'.1, hboth, h.misses⟩
  · have hmisses := h.misses
    simp only [Config.spike, ModelResult.count, outcome_eq_miss]
    constructor
    · dsimp only
      split_ifs
      · exact h.among
      · exact htouch.1
    · dsimp only
      split_ifs
      · exact h.among'
      · exact htouch'.1
    · dsimp only
      split_ifs with hout' hout hout
      · exact h.subset
      · exact fun y hy => hkept (h.subset hy)
      · exact absurd ⟨mt hresident hout.1, hout.2⟩ hout'
      · exact hboth
    · by_cases hin : ev.model ∈ s'.warm
      · simpa [hin, hresident hin] using hmisses
      · simp only [hin, not_false_eq_true, if_true]
        split_ifs <;> omega

theorem Fewer.simulate {events : List Event} (h : Fewer models s s')
    (hmem : ∀ ev ∈ events, ev.model ∈ models) :
    Fewer models (c.simulate s events) (c.simulate s' events) :=
  foldl_rel h fun ev he _ _ hs => hs.step hroom (hmem ev he)

theorem among_simulate {events : List Event} (hmem : ∀ ev ∈ events, ev.model ∈ models) :
    Among models (c.simulate Config.start events).warm := by
  have hstart : Beside models "" false Config.start.warm Config.start.warm :=
    ⟨⟨nodup_nil, nil_subset _⟩, ⟨nodup_nil, nil_subset _⟩,
      fun _ _ => Iff.rfl, by simp⟩
  obtain ⟨_, _, h⟩ := hstart.simulate hroom events hmem fun _ _ => .inr rfl
  exact h.among

theorem simulate_without (post : List Event) (hpost : ∀ e ∈ post, e.model ∈ models)
    (hmodel : model ≠ "") (h : Beside models model true s.warm warm') :
    c.resultOf (c.simulate s post) = c.resultOf (c.simulate { s with warm := warm' } post) ↔
      ∀ next ∈ post.find? (fun e => e.model = model), next.kind = .request := by
  cases hfind : post.find? (fun e => e.model = model) with
  | none =>
    have hnone := find?_eq_none.mp hfind
    obtain ⟨w, heq, _⟩ := h.simulate hroom post hpost fun e he =>
      .inl (by simpa using hnone e he)
    rw [heq]
    simp [Config.resultOf]
  | some next =>
    obtain ⟨hnext, first, last, rfl, hfirst⟩ := find?_eq_some_iff_append.mp hfind
    have hnext : next.model = model := by simpa using hnext
    have hlast : ∀ e ∈ last, e.model ∈ models := fun e he => hpost e (by simp [he])
    have hmem : model ∈ models := hnext ▸ hpost next (by simp)
    obtain ⟨w, heq, hbeside⟩ := h.simulate hroom first
      (fun e he => hpost e (by simp [he])) fun e he => .inl (by simpa using hfirst e he)
    obtain ⟨hin, hout⟩ := hbeside.apart rfl
    have htouch := hbeside.among.touch hroom hmem
    have htouch' := hbeside.among'.touch hroom hmem
    rw [simulate_append, simulate_append, heq]
    generalize c.simulate s first = a at hbeside hin htouch
    cases hkind : next.kind with
    | request =>
      have hstep (b : Sim) : c.step b next = { b with warm := c.touch b.warm model } := by
        simp [Config.step, hnext, hmodel, hkind]
      rw [hstep, hstep]
      have hsame : Beside models model false (c.touch a.warm model) (c.touch w model) := by
        refine ⟨htouch.1, htouch'.1, fun y _ => ?_, by simp⟩
        rw [htouch.2, htouch'.2]
        by_cases hy : y = model
        · simp [hy]
        · rw [hbeside.mem y (.inl hy)]
      obtain ⟨w', heq', _⟩ := Beside.simulate (s := { a with warm := c.touch a.warm model })
        hroom hsame last hlast fun _ _ => .inr rfl
      rw [heq']
      simp [Config.resultOf, hkind]
    | spike =>
      have hfewer : Fewer models (c.step a next) (c.step { a with warm := w } next) := by
        simp only [Config.step, hnext, hmodel, hkind, Config.spike, ModelResult.count,
          outcome_eq_miss, hin, hout, reduceCtorEq, if_false, not_true_eq_false, not_false_eq_true,
          false_and, true_and, if_true]
        refine ⟨htouch.1, ?_, ?_, by simp⟩
        · dsimp only
          split_ifs
          · exact hbeside.among'
          · exact htouch'.1
        · intro y hy
          rw [htouch.2]
          by_cases hym : y = model
          · exact .inl hym
          · refine .inr ((hbeside.mem y (.inl hym)).mpr ?_)
            dsimp only at hy
            split_ifs at hy
            · exact hy
            · exact ((htouch'.2 y).mp hy).resolve_left hym
      have hmisses := (hfewer.simulate hroom hlast).misses
      have hne : c.resultOf (c.simulate (c.step a next) last) ≠
          c.resultOf (c.simulate (c.step { a with warm := w } next) last) := by
        intro hsame
        have : (c.simulate (c.step a next) last).total =
            (c.simulate (c.step { a with warm := w } next) last).total :=
          congrArg Result.toModelResult hsame
        rw [this] at hmisses
        exact lt_irrefl _ hmisses
      simp [hne, hkind]

end Left

/-- With room for every model of the trace, leaving out a request for a model that is not resident
changes nothing exactly when the model's next event is not a spike. -/
theorem run_without_request {c : Config} (hvalid : c.validate = none) (before : List Event)
    (ev : Event) (after : List Event) (hkind : ev.kind = .request) (hmodel : ev.model ≠ "")
    (hroom : (((before ++ ev :: after).map Event.model).dedup.length : Int) ≤ c.memberships) :
    ∃ pre post, ordered (before ++ ev :: after) = pre ++ ev :: post ∧
      ordered (before ++ after) = pre ++ post ∧
      (ev.model ∉ (c.simulate Config.start pre).warm →
        (run (before ++ ev :: after) c = run (before ++ after) c ↔
          ∀ next ∈ post.find? (fun e => e.model = ev.model), next.kind = .request)) := by
  obtain ⟨pre, post, hwith, hwithout⟩ := ordered_erase before ev after
  refine ⟨pre, post, hwith, hwithout, fun habsent => ?_⟩
  have hmem : ∀ e ∈ pre ++ ev :: post, e.model ∈ ((before ++ ev :: after).map Event.model).dedup := by
    intro e he
    rw [← hwith, ordered, Sorting.mem_sort] at he
    exact mem_dedup.mpr (mem_map_of_mem he)
  have hroom' : (((before ++ ev :: after).map Event.model).dedup).length ≤ c.capacity :=
    le_max_of_le_right (by omega)
  generalize ((before ++ ev :: after).map Event.model).dedup = models at hmem hroom'
  have hamong := among_simulate hroom' fun e he => hmem e (mem_append_left _ he)
  have htouch := hamong.touch hroom' (hmem ev (by simp))
  have hbeside : Beside models ev.model true
      (c.touch (c.simulate Config.start pre).warm ev.model) (c.simulate Config.start pre).warm := by
    refine ⟨htouch.1, hamong, fun y hy => ?_, fun _ => ⟨(htouch.2 _).mpr (.inl rfl), habsent⟩⟩
    simp [htouch.2, hy.resolve_right (by simp)]
  have hstep : c.step (c.simulate Config.start pre) ev = { c.simulate Config.start pre with
      warm := c.touch (c.simulate Config.start pre).warm ev.model } := by
    simp [Config.step, hmodel, hkind]
  have hrest : c.simulate Config.start (pre ++ post) =
      c.simulate (c.simulate Config.start pre) post := foldl_append
  have hiff := simulate_without (s := { c.simulate Config.start pre with
    warm := c.touch (c.simulate Config.start pre).warm ev.model }) hroom' post
    (fun e he => hmem e (by simp [he])) hmodel hbeside
  rw [← hiff]
  simp [run, hvalid, hwith, hwithout, simulate_append, hstep, hrest]

/-- A request and then a spike of a model nobody had warmed. -/
private def requestFirst : List Event := [⟨0, "a", .request⟩, ⟨1, "a", .spike⟩]

/-- The request warms the model: with it the spike hits, without it the spike misses. -/
theorem request_warms_absent :
    "a" ∉ Config.start.warm ∧
    ((run requestFirst smallPool).toOption.map fun r => (r.hits, r.misses)) = some (1, 0) ∧
    ((run (requestFirst.drop 1) smallPool).toOption.map fun r => (r.hits, r.misses)) =
      some (0, 1) := by
  decide

theorem run_without_last_request :
    run [⟨0, "b", .spike⟩, ⟨1, "a", .request⟩] { smallPool with memberships := 2 } =
      run [⟨0, "b", .spike⟩] { smallPool with memberships := 2 } := by
  obtain ⟨pre, post, hwith, hwithout, hiff⟩ := run_without_request
    (c := { smallPool with memberships := 2 }) (by decide) [⟨0, "b", .spike⟩] ⟨1, "a", .request⟩ []
    rfl (by decide) (by decide)
  have hpost : pre = [⟨0, "b", .spike⟩] ∧ post = [] := by
    have hord : ordered [⟨0, "b", .spike⟩, ⟨1, "a", .request⟩] =
        [⟨0, "b", .spike⟩, ⟨1, "a", .request⟩] := by decide
    simp only [cons_append, nil_append, hord] at hwith
    cases pre with
    | nil => simp at hwith
    | cons x pre =>
      cases pre with
      | nil => simp_all
      | cons y pre => simp at hwith
  obtain ⟨rfl, rfl⟩ := hpost
  exact (hiff (by decide)).mpr (by simp)

end LlmScaler.Estimator
