import LlmScaler.Borrow.Reads

/-!
# What a merge of reads depends on

Every field the merge joins is the same in every order and grouping of the reads, and on the
cautious side of each of them. The three fields of a lender that are not joined are those of the
read merged first, so the merged chunk is free of the order exactly when the reads agree on them.
-/

namespace LlmScaler.Borrow

open LlmScaler.Core LlmScaler.Kueue OrderDual List GoMap Grouping

theorem find?_takeBetter (better : Int → Int → Bool) (known more : GoMap String Int) (k : String) :
    (takeBetter better known more).find? k =
      Option.merge (fun m n => if better n m then n else m) (known.find? k) (more.find? k) := by
  unfold takeBetter
  rw [find?_foldl_entries_of (f := fun _ n o =>
    Option.merge (fun m n => if better n m then n else m) o (some n))]
  · cases more.find? k with
    | none => simp
    | some n => rfl
  · intro m e k
    by_cases hk : k = e.1
    · subst hk
      rw [if_pos rfl]
      cases hfind : m.find? e.1 with
      | none => simp [find?_set]
      | some n =>
        by_cases hbetter : better e.2 n = true
        · simp [hbetter, find?_set]
        · simp [hbetter, hfind]
    · rw [if_neg hk]
      cases hfind : m.find? e.1 with
      | none => simp [find?_set, hk]
      | some n =>
        by_cases hbetter : better e.2 n = true
        · simp [hbetter, find?_set, hk]
        · simp [hbetter]

theorem mergeReadAt_eq (prev p : Time) : mergeReadAt prev p = Option.merge min prev p := by
  cases p with
  | none => cases prev <;> rfl
  | some t =>
    cases prev with
    | none => rfl
    | some t' => simp [mergeReadAt, min_comm]

theorem mergeBorrowerPriority_eq (prev p : SharedPoolChunk) :
    mergeBorrowerPriority prev p =
      if (0 < prev.borrowed ∧ prev.borrowerPriority = none) ∨
        (0 < p.borrowed ∧ p.borrowerPriority = none) then none
      else Option.merge max prev.borrowerPriority p.borrowerPriority := by
  unfold mergeBorrowerPriority
  congr 1
  cases p.borrowerPriority with
  | none => cases prev.borrowerPriority <;> rfl
  | some n =>
    cases prev.borrowerPriority with
    | none => rfl
    | some m => simp [max_comm]

/-- The priority something is borrowed at: above all when it is not known, below all when nothing is
borrowed and none is given. -/
def heldAt {β : Type*} (f : Int → β) (borrowed : Int) (priority : Option Int) :
    WithTop (WithBot β) :=
  if 0 < borrowed ∧ priority = none then ⊤ else (orBot f priority : WithBot β)

theorem heldAt_merge {β : Type*} [SemilatticeSup β] {f : Int → β} {best : Int → Int → Int}
    (hbest : ∀ m n, f (best m n) = f m ⊔ f n) (b b' : Int) (p p' : Option Int) :
    heldAt f (max b b') (if (0 < b ∧ p = none) ∨ (0 < b' ∧ p' = none) then none
      else Option.merge best p p') = heldAt f b p ⊔ heldAt f b' p' := by
  unfold heldAt
  by_cases h : 0 < b ∧ p = none
  · rw [if_pos (Or.inl h), if_pos h, if_pos ⟨lt_max_of_lt_left h.1, rfl⟩, top_sup_eq]
  · by_cases h' : 0 < b' ∧ p' = none
    · rw [if_pos (Or.inr h'), if_pos h', if_pos ⟨lt_max_of_lt_right h'.1, rfl⟩, sup_top_eq]
    · rw [if_neg (not_or.mpr ⟨h, h'⟩), if_neg h, if_neg h', if_neg, orBot_merge hbest,
        WithTop.coe_sup]
      rintro ⟨hpos, hnone⟩
      have hboth : p = none ∧ p' = none := by
        cases p <;> cases p' <;> simp_all
      rcases lt_max_iff.mp hpos with hb | hb
      · exact h ⟨hb, hboth.1⟩
      · exact h' ⟨hb, hboth.2⟩

theorem heldAt_inj {β : Type*} {f : Int → β} (hf : Function.Injective f) {b : Int}
    {p p' : Option Int} (h : heldAt f b p = heldAt f b p') : p = p' := by
  unfold heldAt at h
  by_cases hp : 0 < b ∧ p = none
  · by_cases hp' : 0 < b ∧ p' = none
    · rw [hp.2, hp'.2]
    · rw [if_pos hp, if_neg hp'] at h
      exact absurd h WithTop.top_ne_coe
  · by_cases hp' : 0 < b ∧ p' = none
    · rw [if_neg hp, if_pos hp'] at h
      exact absurd h WithTop.coe_ne_top
    · rw [if_neg hp, if_neg hp'] at h
      exact orBot_injective hf (WithTop.coe_injective h)

/-- What is joined of a lender. -/
def joinedPart (l : LenderState) : Bool × Intᵒᵈ × Int × WithBot Int × WithBot Int :=
  (l.waiting, toDual l.pendingGPUs, l.kept, orBot id l.pendingPriority, orBot id l.pendingSince)

/-- What is not: its policy, what it lends and its priority. -/
def lendingPart (l : LenderState) : ReclaimPolicy × Int × Option Int :=
  (l.reclaim, l.unused, l.priority)

theorem joinedPart_joinLender (o l : LenderState) :
    joinedPart (joinLender o l) = joinedPart o ⊔ joinedPart l := by
  have hmax : ∀ m n : Int, id (max m n) = id m ⊔ id n := fun _ _ => rfl
  simp only [joinedPart, joinLender, orBot_merge hmax, Prod.mk_sup_mk]
  rfl

theorem lender_ext {l l' : LenderState} (hqueue : l.queue = l'.queue)
    (hjoined : joinedPart l = joinedPart l') (hlending : lendingPart l = lendingPart l') :
    l = l' := by
  have hid : Function.Injective (orBot (id : Int → Int)) := orBot_injective Function.injective_id
  simp only [joinedPart, Prod.mk.injEq, hid.eq_iff] at hjoined
  simp only [lendingPart, Prod.mk.injEq] at hlending
  obtain ⟨hwaiting, hgpus, hkept, hpriority, hsince⟩ := hjoined
  obtain ⟨hreclaim, hunused, hprio⟩ := hlending
  cases l
  cases l'
  simp_all

namespace ChunkRead

variable (a b : ChunkRead)

theorem coFree_mergeRead (res : String) : orBot toDual ((mergeRead a b).coFree.find? res) =
    orBot toDual (a.coFree.find? res) ⊔ orBot toDual (b.coFree.find? res) := by
  have hmin : ∀ m n : Int, toDual (if decide (n < m) then n else m) = toDual m ⊔ toDual n := by
    intro m n
    rw [← toDual_inf, inf_comm]
    simp [min_def_lt]
  rw [← orBot_merge hmin]
  exact congrArg _ (find?_takeBetter _ _ _ res)

theorem classPriority_mergeRead (cls : String) :
    orBot id ((mergeRead a b).classPriority.find? cls) =
      orBot id (a.classPriority.find? cls) ⊔ orBot id (b.classPriority.find? cls) := by
  have hmax : ∀ m n : Int, id (if decide (m < n) then n else m) = id m ⊔ id n := by
    simp [max_def_lt]
  rw [← orBot_merge hmax]
  exact congrArg _ (find?_takeBetter _ _ _ cls)

theorem readAt_mergeRead : orBot toDual (mergeRead a b).readAt =
    orBot toDual a.readAt ⊔ orBot toDual b.readAt := by
  rw [← orBot_merge fun m n : Int => (toDual_inf m n : toDual (min m n) = _), ← mergeReadAt_eq]
  rfl

/-- A lender's restricted part: its GPUs, and its priority the other way around. -/
def lendAt (q : String) : WithBot (ℕ × Intᵒᵈ) :=
  orBot (fun r : PriorityLend => (r.gpus, toDual r.below))
    (entryAt PriorityLend.queue a.restricted q)

theorem lendAt_mergeRead (q : String) :
    (mergeRead a b).lendAt q = a.lendAt q ⊔ b.lendAt q := by
  have hentry : entryAt PriorityLend.queue (mergeRead a b).restricted q =
      Option.merge joinLend (entryAt PriorityLend.queue a.restricted q)
        (entryAt PriorityLend.queue b.restricted q) := by
    rw [← entryAt_foldl_upsert queue_joinLend a.restricted b.restricted_distinct,
      ← mergedRestricted_eq]
    rfl
  rw [lendAt, hentry, orBot_merge]
  · rfl
  · intro o r
    rfl

theorem entryAt_lenders_mergeRead (q : String) :
    entryAt LenderState.queue (mergeRead a b).lenders q =
      Option.merge joinLender (entryAt LenderState.queue a.lenders q)
        (entryAt LenderState.queue b.lenders q) := by
  rw [← entryAt_foldl_upsert queue_joinLender a.lenders b.lenders_distinct]
  exact entryAt_perm (mergeRead a b).lenders_distinct ((Sorting.byKey LenderState.queue).perm _) q

theorem lenderAt_mergeRead (q : String) :
    orBot joinedPart (entryAt LenderState.queue (mergeRead a b).lenders q) =
      orBot joinedPart (entryAt LenderState.queue a.lenders q) ⊔
        orBot joinedPart (entryAt LenderState.queue b.lenders q) := by
  rw [entryAt_lenders_mergeRead, orBot_merge joinedPart_joinLender]

theorem mem_coUnbound_mergeRead (res : String) :
    res ∈ (mergeRead a b).coUnbound ↔ res ∈ a.coUnbound ∨ res ∈ b.coUnbound := by
  have hfold : ∀ l : List String, res ∈ b.coUnbound.foldl (upsert id fun o _ => o) l ↔
      res ∈ l ∨ res ∈ b.coUnbound := by
    induction b.coUnbound with
    | nil => simp
    | cons r rs ih =>
      intro l
      have hkeys : res ∈ (upsert id (fun o _ => o) l r).map id ↔ res ∈ l.map id ∨ res = id r :=
        mem_keys_upsert (fun _ _ => rfl) l r res
      rw [map_id, map_id] at hkeys
      rw [foldl_cons, ih, hkeys, mem_cons, or_assoc]
      rfl
  rw [← hfold]
  exact (Sorting.byKey id).mem_sort

theorem borrowerPriority_mergeRead :
    heldAt id (mergeRead a b).borrowed (mergeRead a b).borrowerPriority =
      heldAt id a.borrowed a.borrowerPriority ⊔ heldAt id b.borrowed b.borrowerPriority := by
  have hmax : ∀ m n : Int, id (max m n) = id m ⊔ id n := fun _ _ => rfl
  rw [← heldAt_merge hmax, ← mergeBorrowerPriority_eq]
  rfl

theorem borrowerLowest_mergeRead :
    heldAt toDual (mergeRead a b).borrowed (mergeRead a b).borrowerLowest =
      heldAt toDual a.borrowed a.borrowerLowest ⊔ heldAt toDual b.borrowed b.borrowerLowest := by
  have hmin : ∀ m n : Int, toDual (min m n) = toDual m ⊔ toDual n := fun _ _ => rfl
  rw [← heldAt_merge hmin]
  rfl

end ChunkRead

/-- A read is on the cautious side of another in what a model may draw. -/
structure Cautious (m r : ChunkRead) : Prop where
  free : m.free ≤ r.free
  closed : r.restrictedClosed = true → m.restrictedClosed = true
  /-- It restricts as much of each lender, at a priority no higher. -/
  restricted : ∀ q, r.lendAt q ≤ m.lendAt q
  borrowed : r.borrowed ≤ m.borrowed
  /-- It is held at as high a priority, or at one not known. -/
  held : heldAt id r.borrowed r.borrowerPriority ≤ heldAt id m.borrowed m.borrowerPriority
  classes : ∀ cls, orBot id (r.classPriority.find? cls) ≤ orBot id (m.classPriority.find? cls)

theorem cautious_merged {g : Grouping ChunkRead} {r : ChunkRead} (hr : r ∈ g.readings) :
    Cautious (g.merged mergeRead) r where
  free := toDual_le_toDual.mp
    (value_le_merged (v := fun c : ChunkRead => toDual c.free) (fun _ _ => rfl) hr)
  closed := by
    have hle : r.restrictedClosed ≤ (g.merged mergeRead).restrictedClosed :=
      value_le_merged (v := fun c : ChunkRead => c.restrictedClosed) (fun _ _ => rfl) hr
    exact fun h => hle h
  restricted q := value_le_merged (v := (ChunkRead.lendAt · q))
    (ChunkRead.lendAt_mergeRead · · q) hr
  borrowed := value_le_merged (v := fun c : ChunkRead => c.borrowed) (fun _ _ => rfl) hr
  held := value_le_merged
    (v := fun c : ChunkRead => heldAt id c.borrowed c.borrowerPriority)
    ChunkRead.borrowerPriority_mergeRead hr
  classes cls := value_le_merged
    (v := fun c : ChunkRead => orBot id (c.classPriority.find? cls))
    (ChunkRead.classPriority_mergeRead · · cls) hr

def KnowsClass (c : ChunkRead) (cls : String) (fallback : Option Int) : Prop :=
  (c.priorityOf cls fallback).isSome = true

section Drawable

variable {m r : ChunkRead} (h : Cautious m r) {cls : String} {fallback : Option Int}

include h

theorem Cautious.priorityOf {p : Int} (hp : r.priorityOf cls fallback = some p) :
    ∃ p', m.priorityOf cls fallback = some p' ∧ p ≤ p' := by
  have hclass := h.classes cls
  unfold SharedPoolChunk.priorityOf at hp ⊢
  cases hr : r.classPriority.find? cls with
  | none =>
    rw [hr] at hp
    cases fallback with
    | none => split_ifs at hp
    | some f =>
      split_ifs at hp ⊢ with hnone
      cases hm : m.classPriority.find? cls with
      | none => exact ⟨p, hp, le_rfl⟩
      | some n => exact ⟨max n f, rfl, by cases hp; exact le_max_right _ _⟩
  | some n =>
    rw [hr] at hp hclass
    cases hm : m.classPriority.find? cls with
    | none =>
      rw [hm] at hclass
      exact absurd hclass (by simp)
    | some n' =>
      rw [hm] at hclass
      have hle : n ≤ n' := WithBot.coe_le_coe.mp hclass
      cases fallback with
      | none =>
        split_ifs at hp ⊢
        · exact ⟨n', rfl, by cases hp; exact hle⟩
        · exact ⟨n', rfl, by cases hp; exact hle⟩
      | some f =>
        split_ifs at hp ⊢
        · exact ⟨max n' f, rfl, by cases hp; exact max_le_max_right f hle⟩
        · exact ⟨n', rfl, by cases hp; exact hle⟩

theorem Cautious.heldAbove {e e' : PriorityLend} (hbelow : e'.below ≤ e.below)
    (he : r.heldAbove e = true) : m.heldAbove e' = true := by
  have hheld := h.held
  have hborrowed := h.borrowed
  unfold SharedPoolChunk.heldAbove at he ⊢
  rw [Bool.and_eq_true, decide_eq_true_eq] at he ⊢
  refine ⟨he.1.trans_le hborrowed, ?_⟩
  unfold heldAt at hheld
  cases hm : m.borrowerPriority with
  | none => rfl
  | some n' =>
    cases hr : r.borrowerPriority with
    | none => simp [hr, hm, he.1] at hheld
    | some n =>
      have hle : n ≤ n' := by simpa [hr, hm] using hheld
      have hnot : ¬ n < e.below := by simpa [hr, reclaimsLower] using he.2
      simp only [reclaimsLower, Bool.not_eq_true', decide_eq_false_iff_not]
      omega

theorem Cautious.closedTo (hknows : KnowsClass m cls fallback → KnowsClass r cls fallback)
    {e e' : PriorityLend} (hbelow : e'.below ≤ e.below)
    (he : r.closedTo cls fallback e = true) : m.closedTo cls fallback e' = true := by
  unfold SharedPoolChunk.closedTo at he ⊢
  rw [Bool.or_eq_true, Bool.or_eq_true] at he ⊢
  rcases he with (hclosed | hheld) | hprio
  · exact .inl (.inl (h.closed hclosed))
  · exact .inl (.inr (h.heldAbove hbelow hheld))
  · right
    cases hm : m.priorityOf cls fallback with
    | none => rfl
    | some p' =>
      obtain ⟨p, hp⟩ := Option.isSome_iff_exists.mp (hknows (by rw [KnowsClass, hm]; rfl))
      obtain ⟨p'', hp'', hle⟩ := h.priorityOf hp
      rw [hm, Option.some_inj] at hp''
      have hnot : ¬ p < e.below := by simpa [hp, reclaimsLower] using hprio
      simp only [reclaimsLower, Bool.not_eq_true', decide_eq_false_iff_not]
      omega

theorem Cautious.exists_partner {e : PriorityLend} (he : e ∈ r.restricted) :
    ∃ e' ∈ m.restricted, e'.queue = e.queue ∧ e.gpus ≤ e'.gpus ∧ e'.below ≤ e.below := by
  have hlend := h.restricted e.queue
  have hentry : entryAt PriorityLend.queue r.restricted e.queue = some e :=
    (entryAt_eq_some r.restricted_distinct).mpr ⟨he, rfl⟩
  rw [ChunkRead.lendAt, hentry] at hlend
  unfold ChunkRead.lendAt at hlend
  cases hm : entryAt PriorityLend.queue m.restricted e.queue with
  | none =>
    rw [hm] at hlend
    exact absurd hlend (by simp)
  | some e' =>
    rw [hm] at hlend
    obtain ⟨hmem, hqueue⟩ := mem_of_entryAt hm
    have hle := WithBot.coe_le_coe.mp hlend
    exact ⟨e', hmem, hqueue, hle.1, toDual_le_toDual.mp hle.2⟩

/-- A model draws no more on the cautious side, when its class is known there only if the other read
knows it. -/
theorem Cautious.drawable_le
    (hknows : KnowsClass m cls fallback → KnowsClass r cls fallback) :
    m.drawable cls fallback ≤ r.drawable cls fallback := by
  have hsum : ((r.restricted.filter (r.closedTo cls fallback)).map fun e => (e.gpus : Int)).sum ≤
      ((m.restricted.filter (m.closedTo cls fallback)).map fun e => (e.gpus : Int)).sum := by
    have hdistinct : ((r.restricted.filter (r.closedTo cls fallback)).map
        PriorityLend.queue).Nodup := r.restricted_distinct.sublist (filter_sublist.map _)
    apply sum_le_of_partners hdistinct
    · exact fun e _ => Int.natCast_nonneg _
    · intro e he
      obtain ⟨hmem, hclosed⟩ := mem_filter.mp he
      obtain ⟨e', hmem', hqueue, hgpus, hbelow⟩ := h.exists_partner hmem
      refine ⟨e', mem_filter.mpr ⟨hmem', h.closedTo hknows hbelow hclosed⟩, hqueue, ?_⟩
      exact_mod_cast hgpus
  have hfree := h.free
  unfold SharedPoolChunk.drawable
  omega

end Drawable

theorem knowsClass_iff {c : ChunkRead} {cls : String} {fallback : Option Int} :
    KnowsClass c cls fallback ↔
      (cls = priorityClassNone ∧ fallback.isSome = true) ∨
        orBot id (c.classPriority.find? cls) ≠ ⊥ := by
  unfold KnowsClass SharedPoolChunk.priorityOf
  cases c.classPriority.find? cls with
  | none => cases fallback <;> split_ifs <;> simp_all
  | some p => cases fallback <;> split_ifs <;> simp

theorem knowsClass_merged {g : Grouping ChunkRead} {cls : String} {fallback : Option Int} :
    KnowsClass (g.merged mergeRead) cls fallback ↔ ∃ r ∈ g.readings, KnowsClass r cls fallback := by
  induction g with
  | one r => simp [Grouping.merged, Grouping.readings]
  | both left right ihl ihr =>
    simp only [Grouping.readings, mem_append, or_and_right, exists_or, ← ihl, ← ihr]
    rw [Grouping.merged, knowsClass_iff, knowsClass_iff, knowsClass_iff,
      ChunkRead.classPriority_mergeRead, ne_eq, sup_eq_bot_iff]
    tauto

/-- Reads of one chunk, on one flavor placement. -/
def OneChunk (reads : List ChunkRead) : Prop :=
  ∀ a ∈ reads, ∀ b ∈ reads, a.toFlavorPlacement = b.toFlavorPlacement ∧ a.id = b.id

def LendersAgree (reads : List ChunkRead) : Prop :=
  ∀ a ∈ reads, ∀ b ∈ reads, ∀ l ∈ a.lenders, ∀ l' ∈ b.lenders, l.queue = l'.queue →
    lendingPart l = lendingPart l'

def ClassAgreed (reads : List ChunkRead) (cls : String) (fallback : Option Int) : Prop :=
  ∀ a ∈ reads, ∀ b ∈ reads, KnowsClass a cls fallback → KnowsClass b cls fallback

/-- A grouping that merges some reads, each of them once or more. -/
def Merges (g : Grouping ChunkRead) (reads : List ChunkRead) : Prop :=
  ∀ r, r ∈ g.readings ↔ r ∈ reads

theorem exists_lending_merged {g : Grouping ChunkRead} {l : LenderState}
    (hl : l ∈ (g.merged mergeRead).lenders) :
    ∃ a ∈ g.readings, ∃ l₀ ∈ a.lenders, l₀.queue = l.queue ∧ lendingPart l₀ = lendingPart l := by
  refine merged_induction (P := fun c : ChunkRead => ∀ l ∈ c.lenders, ∃ a ∈ g.readings,
    ∃ l₀ ∈ a.lenders, l₀.queue = l.queue ∧ lendingPart l₀ = lendingPart l) ?_ ?_ l hl
  · intro a b ha hb l hl
    have hentry := (entryAt_eq_some (mergeRead a b).lenders_distinct).mpr ⟨hl, rfl⟩
    rw [ChunkRead.entryAt_lenders_mergeRead] at hentry
    cases hla : entryAt LenderState.queue a.lenders l.queue with
    | none =>
      rw [hla, Option.merge_none_left] at hentry
      exact hb l (mem_of_entryAt hentry).1
    | some o =>
      obtain ⟨ho, hqueue⟩ := mem_of_entryAt hla
      obtain ⟨c, hc, l₀, hl₀, hq, hlending⟩ := ha o ho
      refine ⟨c, hc, l₀, hl₀, hq.trans hqueue, hlending.trans ?_⟩
      cases hlb : entryAt LenderState.queue b.lenders l.queue with
      | none =>
        rw [hla, hlb, Option.merge_none_right, Option.some_inj] at hentry
        rw [hentry]
      | some o' =>
        rw [hla, hlb, Option.merge_some_some, Option.some_inj] at hentry
        rw [← hentry]
        rfl
  · exact fun a ha l hl => ⟨a, ha, l, hl, rfl, rfl⟩

theorem lending_first (g : Grouping ChunkRead) {q : String} {l₀ : LenderState}
    (hl₀ : entryAt LenderState.queue g.first.lenders q = some l₀) :
    ∃ l, entryAt LenderState.queue (g.merged mergeRead).lenders q = some l ∧
      lendingPart l = lendingPart l₀ := by
  induction g with
  | one a => exact ⟨l₀, hl₀, rfl⟩
  | both left right ihl _ =>
    obtain ⟨l, hl, hlending⟩ := ihl hl₀
    rw [Grouping.merged, ChunkRead.entryAt_lenders_mergeRead, hl]
    cases entryAt LenderState.queue (right.merged mergeRead).lenders q with
    | none => exact ⟨l, rfl, hlending⟩
    | some l' => exact ⟨joinLender l l', rfl, hlending⟩

section Orders

variable {reads : List ChunkRead} {g g' : Grouping ChunkRead}

private theorem placement_merged (hchunk : OneChunk reads) (hg : Merges g reads) {a : ChunkRead}
    (ha : a ∈ reads) : (g.merged mergeRead).toFlavorPlacement = a.toFlavorPlacement ∧
      (g.merged mergeRead).id = a.id := by
  apply merged_induction (P := fun c : ChunkRead =>
    c.toFlavorPlacement = a.toFlavorPlacement ∧ c.id = a.id)
  · exact fun _ _ hprev _ => hprev
  · exact fun b hb => hchunk b ((hg b).mp hb) a ha

/-- Reads that agree on what is not joined merge to the same chunk in every order and grouping. -/
theorem sameRead_merged (hchunk : OneChunk reads) (hlenders : LendersAgree reads)
    (hg : Merges g reads) (hg' : Merges g' reads) :
    SameRead (g.merged mergeRead) (g'.merged mergeRead) := by
  have hjoined {β : Type} [SemilatticeSup β] (v : ChunkRead → β)
      (hv : ∀ a b, v (mergeRead a b) = v a ⊔ v b) : v (g.merged mergeRead) = v (g'.merged mergeRead) :=
    value_merged_congr hv fun r => (hg r).trans (hg' r).symm
  have hid : Function.Injective (orBot (id : Int → Int)) := orBot_injective Function.injective_id
  have hdual : Function.Injective (orBot (toDual : Int → Intᵒᵈ)) :=
    orBot_injective toDual.injective
  have hfirst : g.first ∈ reads := by
    rw [← hg]
    exact first_mem_readings g
  obtain ⟨hplacement, hidg⟩ := placement_merged hchunk hg hfirst
  obtain ⟨hplacement', hidg'⟩ := placement_merged hchunk hg' hfirst
  have hborrowed := hjoined (·.borrowed) fun _ _ => rfl
  constructor
  case placement => rw [hplacement, hplacement']
  case id => rw [hidg, hidg']
  case free =>
    exact hjoined (toDual ·.free) fun _ _ => rfl
  case readAt =>
    exact hdual (hjoined (orBot toDual ·.readAt) ChunkRead.readAt_mergeRead)
  case pendingGPUs =>
    exact hjoined (·.pendingGPUs) fun _ _ => rfl
  case coFree =>
    intro res
    exact hdual (hjoined (fun c => orBot toDual (c.coFree.find? res))
      (ChunkRead.coFree_mergeRead · · res))
  case restricted =>
    refine perm_of_entryAt (ChunkRead.restricted_distinct _) (ChunkRead.restricted_distinct _)
      fun q => ?_
    apply entryAt_eq_of_orBot (f := fun r : PriorityLend => (r.gpus, toDual r.below))
    · intro r _ r' _ hqueue hfigures
      cases r
      cases r'
      simp_all
    · exact hjoined (ChunkRead.lendAt · q) (ChunkRead.lendAt_mergeRead · · q)
  case classPriority =>
    intro cls
    exact hid (hjoined (fun c => orBot id (c.classPriority.find? cls))
      (ChunkRead.classPriority_mergeRead · · cls))
  case borrowed => exact hborrowed
  case borrowerPriority =>
    have hheld := hjoined (fun c => heldAt id c.borrowed c.borrowerPriority)
      ChunkRead.borrowerPriority_mergeRead
    rw [hborrowed] at hheld
    exact heldAt_inj Function.injective_id hheld
  case restrictedClosed =>
    exact hjoined (·.restrictedClosed) fun _ _ => rfl
  case rawFree =>
    exact hjoined (toDual ·.rawFree) fun _ _ => rfl
  case lenders =>
    refine perm_of_entryAt (ChunkRead.lenders_distinct _) (ChunkRead.lenders_distinct _)
      fun q => ?_
    apply entryAt_eq_of_orBot (f := joinedPart)
    · intro l hl l' hl' hqueue hparts
      obtain ⟨a, ha, l₀, hl₀, hq, hlending⟩ := exists_lending_merged hl
      obtain ⟨a', ha', l₀', hl₀', hq', hlending'⟩ := exists_lending_merged hl'
      have hagree := hlenders a ((hg a).mp ha) a' ((hg' a').mp ha') l₀ hl₀ l₀' hl₀'
        (hq.trans (hqueue.trans hq'.symm))
      exact lender_ext hqueue hparts (hlending.symm.trans (hagree.trans hlending'))
    · exact hjoined (fun c => orBot joinedPart (entryAt LenderState.queue c.lenders q))
        (ChunkRead.lenderAt_mergeRead · · q)
  case stale =>
    exact hjoined (·.stale) fun _ _ => rfl
  case coUnbound =>
    rw [perm_ext_iff_of_nodup (ChunkRead.coUnbound_distinct _) (ChunkRead.coUnbound_distinct _)]
    intro res
    exact iff_of_eq (hjoined (res ∈ ·.coUnbound)
      fun a b => propext (ChunkRead.mem_coUnbound_mergeRead a b res))
  case borrowerLowest =>
    have hheld := hjoined (fun c => heldAt toDual c.borrowed c.borrowerLowest)
      ChunkRead.borrowerLowest_mergeRead
    rw [hborrowed] at hheld
    exact heldAt_inj toDual.injective hheld
  case evictingGPUs =>
    exact hjoined (·.evictingGPUs) fun _ _ => rfl
  case evictionsRead =>
    exact hjoined (toDual ·.evictionsRead) fun _ _ => rfl
  case stuckEvictingGPUs =>
    exact hjoined (·.stuckEvictingGPUs) fun _ _ => rfl
  case releaseToNonReclaiming =>
    exact hjoined (toDual ·.releaseToNonReclaiming) fun _ _ => rfl

theorem lendersAgree_of_sameRead (h : ∀ g g' : Grouping ChunkRead, Merges g reads → Merges g' reads →
    SameRead (g.merged mergeRead) (g'.merged mergeRead)) : LendersAgree reads := by
  intro a ha b hb l hl l' hl' hqueue
  have hchain : ∀ c ∈ reads, Merges (Grouping.chain c reads) reads := by
    intro c hc r
    rw [mem_readings_chain]
    exact ⟨fun hr => hr.elim (fun he => he ▸ hc) fun hr => hr, .inr⟩
  -- the read merged first decides, and either may be
  have hfirst : ∀ c ∈ reads, ∀ o ∈ c.lenders, o.queue = l.queue → ∃ m,
      entryAt LenderState.queue ((Grouping.chain c reads).merged mergeRead).lenders l.queue = some m ∧
        lendingPart m = lendingPart o := by
    intro c hc o ho hoq
    apply lending_first
    rw [first_chain]
    exact (entryAt_eq_some c.lenders_distinct).mpr ⟨ho, hoq⟩
  obtain ⟨m, hm, hlending⟩ := hfirst a ha l hl rfl
  obtain ⟨m', hm', hlending'⟩ := hfirst b hb l' hl' hqueue.symm
  have hperm := (h _ _ (hchain a ha) (hchain b hb)).lenders
  rw [entryAt_perm (ChunkRead.lenders_distinct _) hperm, hm', Option.some_inj] at hm
  rw [← hlending, ← hm, hlending']

/-- The merged chunk is the same for every order and grouping of the reads, however often each is
merged, exactly when they agree on each lender's policy, lending and priority; and a model draws no
more on it than on any of the reads when all or none of them know its class. -/
theorem merged_reads_cautious (hchunk : OneChunk reads) :
    ((∀ g g' : Grouping ChunkRead, Merges g reads → Merges g' reads →
        SameRead (g.merged mergeRead) (g'.merged mergeRead)) ↔ LendersAgree reads) ∧
    ∀ cls fallback, ClassAgreed reads cls fallback →
      ∀ g : Grouping ChunkRead, Merges g reads → ∀ r ∈ reads,
        (g.merged mergeRead).drawable cls fallback ≤ r.drawable cls fallback := by
  constructor
  · exact ⟨lendersAgree_of_sameRead, fun hlenders _ _ => sameRead_merged hchunk hlenders⟩
  · intro cls fallback hclass g hg r hr
    apply (cautious_merged ((hg r).mpr hr)).drawable_le
    intro hknows
    obtain ⟨a, ha, hknows⟩ := knowsClass_merged.mp hknows
    exact hclass a ((hg a).mp ha) r hr hknows

end Orders

/-- A read of a chunk one queue lends into below priority 100. -/
def batchRead (free : Int) (unused : ℕ) (classes : GoMap String Int) : ChunkRead where
  acceleratorType := "H100"
  nodeLabels := ∅
  tolerations := []
  cohort := "research"
  flavor := "h100"
  resource := "nvidia.com/gpu"
  free := free
  readAt := none
  pendingGPUs := 0
  coFree := ∅
  restricted := [⟨"batch", 100, unused⟩]
  classPriority := classes
  borrowed := 0
  borrowerPriority := none
  restrictedClosed := false
  rawFree := free
  lenders := [⟨"batch", false, .lowerPriority, unused, some 100, 0, 0, none, none⟩]
  stale := false
  coUnbound := []
  borrowerLowest := none
  evictingGPUs := 0
  evictionsRead := true
  stuckEvictingGPUs := 0
  releaseToNonReclaiming := false
  restricted_distinct := nodup_singleton _
  lenders_distinct := nodup_singleton _
  coUnbound_distinct := nodup_nil

theorem oneChunk_batchReads (free free' : Int) (unused unused' : ℕ)
    (classes classes' : GoMap String Int) :
    OneChunk [batchRead free unused classes, batchRead free' unused' classes'] := by
  intro a ha b hb
  simp only [mem_cons, not_mem_nil, or_false] at ha hb
  rcases ha with rfl | rfl <;> rcases hb with rfl | rfl <;> exact ⟨rfl, rfl⟩

/-- One read knows the class and one does not: the merged chunk gives a model of it 4 GPUs, the read
that does not know it none; and what the lender lends is that of the read merged first. -/
theorem merged_class_known_by_one :
    OneChunk [batchRead 4 4 ∅, batchRead 4 2 (GoMap.ofList [("serving", 10)])] ∧
    (mergeRead (batchRead 4 4 ∅) (batchRead 4 2 (GoMap.ofList [("serving", 10)]))).drawable
      "serving" none = 4 ∧
    (batchRead 4 4 ∅).drawable "serving" none = 0 ∧
    ¬ SameRead (mergeRead (batchRead 4 4 ∅) (batchRead 4 2 (GoMap.ofList [("serving", 10)])))
      (mergeRead (batchRead 4 2 (GoMap.ofList [("serving", 10)])) (batchRead 4 4 ∅)) := by
  refine ⟨oneChunk_batchReads _ _ _ _ _ _, by decide, by decide, fun h => ?_⟩
  have hlenders := h.lenders
  revert hlenders
  decide

/-- Two reads that differ in the free pool and in the priority of the class. -/
theorem merged_reads_cautious_two :
    SameRead (mergeRead (batchRead 8 4 (GoMap.ofList [("serving", 10)]))
        (batchRead 6 4 (GoMap.ofList [("serving", 20)])))
      (mergeRead (batchRead 6 4 (GoMap.ofList [("serving", 20)]))
        (batchRead 8 4 (GoMap.ofList [("serving", 10)]))) ∧
    (mergeRead (batchRead 8 4 (GoMap.ofList [("serving", 10)]))
      (batchRead 6 4 (GoMap.ofList [("serving", 20)]))).drawable "serving" none ≤
        (batchRead 8 4 (GoMap.ofList [("serving", 10)])).drawable "serving" none := by
  have hmerges : ∀ a b : ChunkRead, Merges (.both (.one a) (.one b)) [a, b] :=
    fun _ _ _ => Iff.rfl
  have hmerges' : ∀ a b : ChunkRead, Merges (.both (.one b) (.one a)) [a, b] :=
    fun a b r => Perm.mem_iff (Perm.swap a b [])
  have hreads := merged_reads_cautious (oneChunk_batchReads 8 6 4 4
    (GoMap.ofList [("serving", 10)]) (GoMap.ofList [("serving", 20)]))
  constructor
  · refine hreads.1.mpr ?_ _ _ (hmerges _ _) (hmerges' _ _)
    intro a ha b hb l hl l' hl' _
    simp only [mem_cons, not_mem_nil, or_false] at ha hb
    rcases ha with rfl | rfl <;> rcases hb with rfl | rfl <;>
      rw [mem_singleton.mp hl, mem_singleton.mp hl']
  · refine hreads.2 "serving" none ?_ _ (hmerges _ _) _ mem_cons_self
    intro a ha b hb _
    simp only [mem_cons, not_mem_nil, or_false] at hb
    rcases hb with rfl | rfl <;> rfl

end LlmScaler.Borrow
