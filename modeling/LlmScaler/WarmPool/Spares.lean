import LlmScaler.WarmPool.Reserve

/-!
# The plan spares what is busy

A Pod is taken as free as soon as anything in it is handed back. That is right exactly when
whatever else keeps the Pod busy is handed back as well, and the only instances that always are
are those awake with nothing using them.
-/

namespace LlmScaler.WarmPool

open LlmScaler.Core List

/-- Every other model that is busy in a Pod the plan uses is handed back by the plan. -/
def Plan.Spares (plan : Plan) (all : List Membership) : Prop :=
  ∀ a ∈ plan.borrow ++ plan.admits, ∀ m ∈ all, m.pod = a.pod →
    m.model.variant ≠ a.model.variant → m.state.busy = true → ∃ r ∈ plan.returns, r.key = m.key

/-- No Pod is in more than one of the plan's borrows and admissions. -/
def Plan.UsesOnce (plan : Plan) : Prop :=
  ((plan.borrow ++ plan.admits).map Action.pod).Nodup

instance (plan : Plan) (all : List Membership) : Decidable (plan.Spares all) :=
  inferInstanceAs (Decidable (∀ a ∈ plan.borrow ++ plan.admits, ∀ m ∈ all, m.pod = a.pod →
    m.model.variant ≠ a.model.variant → m.state.busy = true → ∃ r ∈ plan.returns, r.key = m.key))

/-- Beside an instance that may be handed back, every busy instance of another variant in its
Pod is awake with nothing using it. -/
def ReturnsClear (all : List Membership) : Prop :=
  ∀ a ∈ all, a.state = .serving ∨ a.state = .waking →
    ∀ b ∈ all, b.pod = a.pod → b.model.variant ≠ a.model.variant → b.state.busy = true →
      ∃ c ∈ all, c.key = b.key ∧ c.state = .waking

instance (all : List Membership) : Decidable (ReturnsClear all) :=
  inferInstanceAs (Decidable (∀ a ∈ all, a.state = .serving ∨ a.state = .waking →
    ∀ b ∈ all, b.pod = a.pod → b.model.variant ≠ a.model.variant → b.state.busy = true →
      ∃ c ∈ all, c.key = b.key ∧ c.state = .waking))

section Sufficient

variable {input : Input} (o : Orders input) (cfg : Config) (shapeOf : String → Shape)

theorem usesOnce : (decidePlan shapeOf o cfg).UsesOnce := by
  obtain ⟨l, hperm, hsub⟩ := plan_pods_subperm o cfg shapeOf
  exact hperm.nodup_iff.mp ((nodup_freePods _).sublist hsub)

theorem return_stays {a : Action}
    (ha : a ∈ (decidePlan shapeOf o cfg).borrow ++ (decidePlan shapeOf o cfg).admits) {r : Action}
    (hr : r ∈ allReturns o cfg) (hp : r.pod = a.pod) (hv : r.model.variant ≠ a.model.variant) :
    r ∈ (decidePlan shapeOf o cfg).returns := by
  apply mem_dropped_of_not_borrowed hr
  intro b hb hkey
  -- the Pod has no other use, so what supersedes the return is the use itself
  have hpod : b.pod = a.pod := by
    have := congrArg Borrow.pod hkey
    exact this.trans hp
  have hba : b = a := inj_on_of_nodup_map (usesOnce o cfg shapeOf)
    (mem_append_left _ hb) ha hpod
  apply hv
  rw [← hba]
  exact (congrArg Borrow.variant hkey).symm

theorem spares_of_returnsClear (h : ReturnsClear input.memberships) :
    (decidePlan shapeOf o cfg).Spares input.memberships := by
  intro a ha b hb hpod hvar hbusy
  have hfree := (plan_pods_subperm o cfg shapeOf).subset (mem_map_of_mem ha)
  obtain ⟨_, _, hfree | hret⟩ := mem_freePods.mp hfree
  · have := isFree_iff.mp hfree b (mem_inPod.mpr ⟨hb, hpod⟩)
    rw [hbusy] at this
    cases this
  · obtain ⟨r, hr, hrp⟩ := mem_map.mp hret
    obtain ⟨m, hm, hstate, hkey⟩ := allReturns_from o cfg hr
    have hmp : m.pod = a.pod := (congrArg Borrow.pod hkey).symm.trans hrp
    by_cases hmv : b.model.variant = m.model.variant
    · have hrb : r.key = b.key := by
        rw [hkey, Membership.key, Membership.key, hmv, hmp, hpod]
      have hrv : r.model.variant = b.model.variant := congrArg Borrow.variant hrb
      exact ⟨r, return_stays o cfg shapeOf ha hr hrp (hrv ▸ hvar), hrb⟩
    · obtain ⟨c, hc, hcb, hwaking⟩ := h m hm hstate b hb (hpod.trans hmp.symm) hmv hbusy
      obtain ⟨r', hr', hkey'⟩ := exists_knownOrphan hc hwaking
      have hrb : r'.key = b.key := hkey'.trans hcb
      have hrp' : r'.pod = a.pod := (congrArg Borrow.pod hrb).trans hpod
      have hrv : r'.model.variant = b.model.variant := congrArg Borrow.variant hrb
      refine ⟨r', return_stays o cfg shapeOf ha ?_ hrp' (hrv ▸ hvar), hrb⟩
      exact mem_append_left _ (mem_append_right _ hr')

end Sufficient

section Necessary

variable (all : List Membership) (a : Membership)

/-- Demand that takes `a`'s Pod again as it is handed back: one more Pod than is lent. -/
def oneMore : VariantDemand where
  model := a.model
  desired := (lent all a.model.variant).length + 1
  ready := 0
  parked := false
  share := 0
  warmCopies := none

/-- An observation in which every Pod but `a`'s is loading. -/
def onlyPodOf : Input where
  memberships := all
  variants := [oneMore all a]
  borrowedAt := ∅
  admitting := (pods all).filter fun p => p ≠ a.pod
  wantAwake := ""
  missesAt := ∅
  now := 0

/-- A policy under which every lend has reached its timeout. -/
def noHold : Config := ⟨0, 0, 0, false, 0, 0, 0, 0, 0⟩

variable {all a} (o : Orders (onlyPodOf all a))

theorem expired_noHold (m : Membership) : expired (onlyPodOf all a) noHold m = true := by
  simp [expired, noHold, borrowedAt, onlyPodOf, GoMap.find?]

theorem shortfall_oneMore : shortfall (onlyPodOf all a) (oneMore all a) = 1 := by
  simp [shortfall, oneMore, onlyPodOf]

theorem exists_return (ha : a ∈ all) (hs : a.state = .serving ∨ a.state = .waking) :
    ∃ r ∈ allReturns o noHold, r.key = a.key := by
  rcases hs with hs | hs
  · have hl : a ∈ lent (onlyPodOf all a).memberships (oneMore all a).model.variant :=
      mem_lent.mpr ⟨ha, hs, rfl⟩
    have hr := returnsFor_of_expired o noHold hl (expired_noHold a)
    refine ⟨withKnownModel [oneMore all a] ⟨a.pod, a.model⟩, ?_, key_withKnownModel _ _⟩
    apply mem_append_left
    apply mem_append_left
    exact mem_map_of_mem (mem_flatMap.mpr ⟨_, mem_singleton.mpr rfl, hr⟩)
  · obtain ⟨r, hr, hkey⟩ : ∃ r ∈ knownOrphans (onlyPodOf all a), r.key = a.key :=
      exists_knownOrphan ha hs
    exact ⟨r, mem_append_left _ (mem_append_right _ hr), hkey⟩

theorem mem_free_onlyPodOf (ha : a ∈ all) (hs : a.state = .serving ∨ a.state = .waking)
    (p : NamespacedName) :
    p ∈ freePods (onlyPodOf all a) ((allReturns o noHold).map Action.pod) ↔ p = a.pod := by
  rw [mem_freePods]
  constructor
  · rintro ⟨hp, hadm, _⟩
    by_contra hne
    exact hadm (mem_filter.mpr ⟨hp, by simpa using hne⟩)
  · rintro rfl
    refine ⟨mem_pods.mpr ⟨a, ha, rfl⟩, by simp [onlyPodOf], .inr ?_⟩
    obtain ⟨r, hr, hkey⟩ := exists_return o ha hs
    exact mem_map.mpr ⟨r, hr, congrArg Borrow.pod hkey⟩

private theorem mem_take_one {α : Type*} {l : List α} {x : α} (hx : x ∈ l)
    (hall : ∀ y ∈ l, y = x) : x ∈ l.take 1 := by
  cases l with
  | nil => cases hx
  | cons y ys => simp [hall y mem_cons_self]

theorem borrowed_onlyPodOf (ha : a ∈ all) (hs : a.state = .serving ∨ a.state = .waking) :
    ⟨a.pod, a.model⟩ ∈ (borrows o noHold).borrow := by
  have hmem := mem_free_onlyPodOf o ha hs
  generalize hf : freePods (onlyPodOf all a) ((allReturns o noHold).map Action.pod) = free at hmem
  have hhold : a.pod ∈ holding o free a.model.variant := by
    rw [mem_holding]
    exact ⟨(hmem _).mpr rfl, holds_iff.mpr ⟨a, mem_inPod.mpr ⟨ha, rfl⟩, rfl⟩⟩
  have htaken : a.pod ∈ taken o free (oneMore all a) := by
    rw [taken, shortfall_oneMore]
    apply mem_take_one hhold
    intro q hq
    exact (hmem q).mp ((mem_holding o).mp hq).1
  have hne : ¬(holding o free (oneMore all a).model.variant).isEmpty = true := by
    rw [List.isEmpty_iff]
    exact ne_nil_of_mem hhold
  change _ ∈ (borrowFor o ⟨freePods (onlyPodOf all a) _, [], [], []⟩ (oneMore all a)).borrow
  rw [hf, borrowFor, if_neg (by rw [shortfall_oneMore]; decide), if_neg hne]
  exact mem_append_right _ (mem_map_of_mem htaken)

theorem return_of_other {r : Action} (hr : r ∈ allReturns o noHold)
    (hv : r.model.variant ≠ a.model.variant) :
    ∃ c ∈ all, c.key = r.key ∧ c.state = .waking := by
  rcases mem_append.mp hr with hr | hr
  · rcases mem_append.mp hr with hr | hr
    · obtain ⟨v, hv', m, hm, hkey⟩ := askedReturns_from o noHold hr
      rw [mem_singleton.mp hv'] at hm
      have hvar : r.model.variant = m.model.variant := congrArg Borrow.variant hkey
      exact absurd (hvar.trans (mem_lent.mp hm).2.2) hv
    · obtain ⟨m, hm, hw, hkey⟩ := knownOrphans_from hr
      exact ⟨m, hm, hkey.symm, hw⟩
  · exact absurd hr not_mem_nil

end Necessary

def podP : NamespacedName := ⟨"pool", "p"⟩

def inPodP (variant : String) (state : State) : Membership :=
  ⟨⟨"tenant", variant, "", "", []⟩, podP, state, 0, ⟨1, 0, "", 1⟩⟩

def demandFor (variant : String) (desired ready : Int) : VariantDemand :=
  ⟨⟨"tenant", variant, "", "", []⟩, desired, ready, false, 0, none⟩

/-- A pass over the Pod with `a` serving or asleep, `b` awake with nothing using it and `c`
asleep, where `c` is short of one replica. -/
def threeModels (a : State) : Input where
  memberships := [inPodP "a" a, inPodP "b" .waking, inPodP "c" .asleep]
  variants := [demandFor "a" 2 1, demandFor "c" 1 0]
  borrowedAt := ∅
  admitting := []
  wantAwake := ""
  missesAt := ∅
  now := 100

/-- Engines of one device in one Pod, of no known size. -/
def smallShape : String → Shape := fun _ => ⟨0, 1, 1⟩

/-- A pool without a reserve whose lends may last. -/
def longHold : Config := ⟨0, 600, 0, false, 0, 0, 0, 0, 0⟩

end LlmScaler.WarmPool
