import LlmScaler.Governor.Backoff

/-!
# What a run of the borrow governor keeps

No mark brings the end of a cooldown forward, a pass of `Observe` drops only what has ended and
clamps only what is further away than the longest cooldown, and a restart rounds up. What a restart
adds by rounding may be clamped away again.
-/

namespace LlmScaler.Governor

open Core List GoMap

section Cooldown

variable {s : Settings} {level : ℕ}

theorem backoffFor_nonneg (s : Settings) (level : ℕ) : 0 ≤ s.backoffFor level := by
  have hpos := s.cooldown_pos
  have hpow : 0 < s.cooldown * 2 ^ level := mul_pos hpos (by positivity)
  unfold Settings.backoffFor
  exact le_min hpow.le (hpos.le.trans (le_max_right _ _))

theorem backoffFor_le (s : Settings) (level : ℕ) :
    s.backoffFor level ≤ max maxBackoff s.cooldown := min_le_right _ _

theorem backoffFor_le_longest (s : Settings) (h : level ≤ maxBackoffLevel) :
    s.backoffFor level ≤ s.longest := by
  refine min_le_min_right _ (mul_le_mul_of_nonneg_left ?_ s.cooldown_pos.le)
  exact pow_le_pow_right₀ (by decide) h

theorem minute_pos : 0 < minute := by decide

theorem second_pos : 0 < second := by decide

end Cooldown

variable {cohorts : List String} {P : Int → Prop}

section Marks

variable {s : Settings} {ev : Event} {e : BackoffEntry}

/-- What an event makes of a cooldown: nothing, or a new one from its own time that ends no earlier
and whose end the event or the old one set. -/
theorem marked_cases (s : Settings) (ev : Event) (e : BackoffEntry) :
    marked s ev (some e) = e ∨
      ∃ level ends preempted, marked s ev (some e) = ⟨ends, level, ev.time, preempted⟩ ∧
        e.lastAt + sameEvent ≤ ev.time ∧ (e.level ≤ maxBackoffLevel → level ≤ maxBackoffLevel) ∧
        e.untilTime ≤ ends ∧ (ends = e.untilTime ∨ ends = ev.time + s.backoffFor level) := by
  have hnonneg := backoffFor_nonneg s e.level
  simp only [marked]
  by_cases hsame : ev.time - e.lastAt < sameEvent
  · exact .inl (if_pos hsame)
  · have hlater : e.lastAt + sameEvent ≤ ev.time := by omega
    rw [if_neg hsame]
    by_cases hforce : (!ev.preempted && e.preempted && decide (ev.time < e.untilTime)) = true
    · exact .inl (if_pos hforce)
    · rw [if_neg hforce]
      refine .inr ?_
      by_cases hafter : (!ev.preempted && e.preempted &&
          decide (ev.time < e.lastAt + (ev.timeout + s.placementTimeout))) = true
      · -- the release of a preempted pod, after the preemption's cooldown ended
        rw [if_pos hafter]
        refine ⟨_, _, _, rfl, hlater, id, ?_, .inr rfl⟩
        simp only [Bool.and_eq_true, decide_eq_true_eq, not_and, not_lt] at hforce hafter
        have := hforce hafter.1
        omega
      · rw [if_neg hafter]
        refine ⟨_, _, _, rfl, hlater, fun _ => ?_, ?_, ?_⟩
        · split_ifs
          · exact min_le_right _ _
          · exact Nat.zero_le _
        · split_ifs <;> omega
        · by_cases hkeep : ev.time + s.backoffFor (if ev.time < e.untilTime + s.cooldown then
              min (e.level + 1) maxBackoffLevel else 0) < e.untilTime
          · exact .inl (if_pos hkeep)
          · exact .inr (if_neg hkeep)

theorem untilTime_le_marked (s : Settings) (ev : Event) (e : BackoffEntry) :
    e.untilTime ≤ (marked s ev (some e)).untilTime := by
  rcases marked_cases s ev e with heq | ⟨_, _, _, heq, _, _, hle, _⟩
  · rw [heq]
  · rw [heq]
    exact hle

theorem level_marked_le {o : Option BackoffEntry} (h : ∀ e, o = some e → e.level ≤ maxBackoffLevel) :
    (marked s ev o).level ≤ maxBackoffLevel := by
  cases o with
  | none => exact Nat.zero_le _
  | some e =>
    rcases marked_cases s ev e with heq | ⟨_, _, _, heq, _, hlevel, _, _⟩
    · rw [heq]
      exact h e rfl
    · rw [heq]
      exact hlevel (h e rfl)

theorem untilTime_marked_le {now : Int} (hev : ev.time ≤ now) {o : Option BackoffEntry}
    (h : ∀ e, o = some e → e.level ≤ maxBackoffLevel ∧ e.untilTime ≤ now + s.longest) :
    (marked s ev o).untilTime ≤ now + s.longest := by
  cases o with
  | none =>
    have := backoffFor_le_longest s (Nat.zero_le maxBackoffLevel)
    simp only [marked]
    omega
  | some e =>
    obtain ⟨hlevel, hends⟩ := h e rfl
    rcases marked_cases s ev e with heq | ⟨_, _, _, heq, _, hlevel', _, hold | hnew⟩
    · rw [heq]
      exact hends
    · rw [heq, hold]
      exact hends
    · have hlongest := backoffFor_le_longest s (hlevel' hlevel)
      rw [heq, hnew]
      simp only
      omega

/-- A cooldown as one event started it: the event's time is kept to the second, and the end is
within the longest any cooldown lasts, rounded up. -/
structure StartedAt (s : Settings) (t : Int) (e : BackoffEntry) : Prop where
  second_le : truncate second t ≤ e.lastAt
  le_time : e.lastAt ≤ t
  ends : e.untilTime ≤ roundUp minute (t + max maxBackoff s.cooldown)

theorem startedAt_new (s : Settings) (t : Int) (level : ℕ) (preempted : Bool) :
    StartedAt s t ⟨t + s.backoffFor level, level, t, preempted⟩ := by
  refine ⟨truncate_le second_pos t, le_rfl, ?_⟩
  have := backoffFor_le s level
  exact le_trans (by simp only; omega) (le_roundUp minute_pos _)

theorem startedAt_marked {o : Option BackoffEntry} (hev : P ev.time)
    (h : ∀ e, o = some e → ∃ t, P t ∧ StartedAt s t e) :
    ∃ t, P t ∧ StartedAt s t (marked s ev o) := by
  cases o with
  | none => exact ⟨ev.time, hev, startedAt_new s ev.time 0 ev.preempted⟩
  | some e =>
    obtain ⟨t, ht, hstarted⟩ := h e rfl
    rcases marked_cases s ev e with heq | ⟨level, ends, preempted, heq, hlater, _, _, hold | hnew⟩
    · rw [heq]
      exact ⟨t, ht, hstarted⟩
    · -- the old end stays; the event is later than the one that set it
      rw [heq]
      refine ⟨ev.time, hev, truncate_le second_pos _, le_rfl, ?_⟩
      have hearlier : t ≤ ev.time := by
        have hspan := lt_truncate_add second_pos t
        have hsecond := hstarted.second_le
        have : second ≤ sameEvent := by decide
        omega
      rw [hold]
      exact hstarted.ends.trans (roundUp_mono minute_pos (by omega))
    · rw [heq, hnew]
      exact ⟨ev.time, hev, startedAt_new s ev.time level preempted⟩

/-- What holds of each cooldown of a governor holds after the marks of an event, if each of them
keeps it. -/
theorem markBackoffAfter_induction {P : String → Option BackoffEntry → Prop} {key : String}
    {g : BorrowGovernor} (hinit : ∀ k, P k (g.backoff.find? k))
    (hmark : ∀ c ∈ cohorts, ∀ o, P (key ++ "@" ++ c) o → P (key ++ "@" ++ c) (some (marked s ev o)))
    (k : String) : P k ((markBackoffAfter s g key cohorts ev).backoff.find? k) := by
  unfold markBackoffAfter
  split_ifs with hempty
  · have hsame : (markModelCooldown s g key ev.time).backoff = g.backoff := by
      simp only [markModelCooldown]
      split
      · rfl
      · split_ifs <;> rfl
    rw [hsame]
    exact hinit k
  · refine foldlRecOn (motive := fun g : BorrowGovernor => ∀ k, P k (g.backoff.find? k)) _ _
      hinit (fun g hg c hc k => ?_) k
    simp only [find?_set]
    split_ifs with hk
    · rw [hk]
      exact hmark c hc _ (hg _)
    · exact hg k

theorem modelCooldown_mark_of_ne (h : cohorts ≠ []) (s : Settings) (g : BorrowGovernor)
    (key : String) (ev : Event) :
    (markBackoffAfter s g key cohorts ev).modelCooldown = g.modelCooldown := by
  rw [markBackoffAfter, if_neg (by simpa using h)]
  exact foldlRecOn (motive := fun g' : BorrowGovernor => g'.modelCooldown = g.modelCooldown)
    _ _ rfl fun _ hg _ _ => hg

theorem find?_modelCooldown_mark (s : Settings) (g : BorrowGovernor) (key k : String) (ev : Event) :
    (markBackoffAfter s g key [] ev).modelCooldown.find? k =
      if k = key then some ((g.modelCooldown.find? key).elim (ev.time + s.cooldown)
        fun cur => max cur (ev.time + s.cooldown))
      else g.modelCooldown.find? k := by
  simp only [markBackoffAfter, isEmpty_nil, if_true, markModelCooldown]
  cases hcur : g.modelCooldown.find? key with
  | none => simp only [find?_set, Option.elim_none]
  | some cur =>
    simp only [Option.elim_some]
    split_ifs with hlt hk hk
    · simp only [find?_set, hk, if_true, max_eq_right hlt.le]
    · simp only [find?_set, hk, if_false]
    · rw [hk, hcur, max_eq_left (not_lt.mp hlt)]
    · rfl

end Marks

section Clocks

variable {s : Settings} {g : BorrowGovernor} {k : String}

theorem find?_backoff_pruneClocks (s : Settings) (g : BorrowGovernor) (now : Int) (k : String) :
    (pruneClocks s g now).backoff.find? k =
      ((g.backoff.find? k).filter fun e => now < e.untilTime + s.cooldown).map fun e =>
        { e with untilTime := clamped now s.longest e.untilTime } := by
  simp only [pruneClocks, find?_mapValues, find?_deleteFunc, Bool.not_not]

theorem find?_modelCooldown_pruneClocks (s : Settings) (g : BorrowGovernor) (now : Int)
    (k : String) : (pruneClocks s g now).modelCooldown.find? k =
      ((g.modelCooldown.find? k).filter fun ends => now < ends).map (clamped now s.cooldown) := by
  simp only [pruneClocks, find?_mapValues, find?_deleteFunc, Bool.not_not]

theorem find?_restoreClock {ν : Type*} (usable : String → ν → Bool) (src dst : GoMap String ν)
    (c k : String) : (restoreClock usable src dst c).find? k =
      if k = c then (dst.find? k).or ((src.find? c).filter (usable c)) else dst.find? k := by
  rw [restoreClock]
  cases src.find? c with
  | none => simp
  | some v =>
    by_cases hk : k = c
    · subst hk
      cases hdst : dst.find? k <;> by_cases hv : usable k v = true <;>
        simp_all [GoMap.has, GoMap.find?, GoMap.set, Option.filter]
    · simp only [if_neg hk]
      split_ifs
      · rw [find?_set, if_neg hk]
      · rfl

theorem find?_restoreClocks {ν : Type*} {usable : String → ν → Bool} {src : GoMap String ν}
    (hsize : src.keys.length ≤ maxLedgerItems) (k : String) :
    (restoreClocks usable ∅ src).find? k = (src.find? k).filter (usable k) := by
  have hkeys : (boundedKeys src).Perm src.keys := by
    rw [boundedKeys, take_of_length_le (by rwa [length_insertionSort])]
    exact perm_insertionSort _ _
  have hstep := find?_restoreClock usable src
  by_cases hmem : k ∈ boundedKeys src
  · refine view_foldl id (m := GoMap.find?)
      (f := fun c (o : Option ν) => o.or ((src.find? c).filter (usable c))) hstep ?_ hmem ∅
    rw [map_id]
    exact hkeys.nodup_iff.mpr src.nodupKeys
  · have hnone : src.find? k = none := by
      rw [← Option.not_isSome_iff_eq_none]
      exact fun hsome => hmem (hkeys.mem_iff.mpr (has_iff_mem_keys.mp hsome))
    rw [hnone]
    exact view_foldl_of_not_mem id (m := GoMap.find?)
      (f := fun c (o : Option ν) => o.or ((src.find? c).filter (usable c))) hstep (by rwa [map_id]) ∅

/-- Keys and levels as the marks write them. -/
structure Sound (g : BorrowGovernor) : Prop where
  key : ∀ k e, g.backoff.find? k = some e → '@' ∈ k.toList
  level : ∀ k e, g.backoff.find? k = some e → e.level ≤ maxBackoffLevel
  model : ∀ k ends, g.modelCooldown.find? k = some ends → k ≠ ""

theorem sound_newBorrowGovernor : Sound newBorrowGovernor := ⟨nofun, nofun, nofun⟩

theorem Sound.find?_backoff_restart (h : Sound g) (hsize : g.backoff.keys.length ≤ maxLedgerItems)
    (k : String) : (restart g).backoff.find? k = (g.backoff.find? k).map fun e =>
      { e with untilTime := roundUp minute e.untilTime, lastAt := truncate second e.lastAt } := by
  have hkeys : (ledger g).backoff.keys.length ≤ maxLedgerItems := by
    rw [ledger, keys_mapValues]
    exact hsize
  simp only [restart, restore, newBorrowGovernor, find?_restoreClocks hkeys]
  simp only [ledger, find?_mapValues]
  cases hfind : g.backoff.find? k with
  | none => rfl
  | some e =>
    rw [Option.map_some, Option.filter_some_pos]
    simp only [h.key k e hfind, h.level k e hfind, decide_true, Bool.and_self]

theorem Sound.find?_modelCooldown_restart (h : Sound g)
    (hsize : g.modelCooldown.keys.length ≤ maxLedgerItems) (k : String) :
    (restart g).modelCooldown.find? k = (g.modelCooldown.find? k).map (roundUp minute) := by
  have hkeys : (ledger g).modelCooldown.keys.length ≤ maxLedgerItems := by
    rw [ledger, keys_mapValues]
    exact hsize
  simp only [restart, restore, newBorrowGovernor, find?_restoreClocks hkeys]
  simp only [ledger, find?_mapValues]
  cases hfind : g.modelCooldown.find? k with
  | none => rfl
  | some ends =>
    rw [Option.map_some, Option.filter_some_pos]
    simpa using h.model k ends hfind

end Clocks

/-- What an action may do to a model's cooldown in a cohort. -/
inductive Moves (s : Settings) (a : Action) (k : String) :
    Option BackoffEntry → Option BackoffEntry → Prop
  | same (o) : Moves s a k o o
  | mark {ns modelID cohorts ev c} (hop : a.op = .mark ns modelID cohorts ev) (hc : c ∈ cohorts)
      (hk : k = backoffKey ns modelID c) (o) : Moves s a k o (some (marked s ev o))
  /-- It has ended for a clean cooldown and is forgotten. -/
  | ended {e} (hends : e.untilTime + s.cooldown ≤ a.now) : Moves s a k (some e) none
  | clamp (e) : Moves s a k (some e)
      (some { e with untilTime := clamped a.now s.longest e.untilTime })
  | round (hop : a.op = .restart) (e) : Moves s a k (some e) (some
      { e with untilTime := roundUp minute e.untilTime, lastAt := truncate second e.lastAt })
  | trans {o o' o''} (h : Moves s a k o o') (h' : Moves s a k o' o'') : Moves s a k o o''

/-- What an action may do to a model's cooldown in all cohorts. -/
inductive ModelMoves (s : Settings) (a : Action) (k : String) : Option Int → Option Int → Prop
  | same (o) : ModelMoves s a k o o
  | mark {ns modelID ev} (hop : a.op = .mark ns modelID [] ev) (hk : k = modelKey ns modelID) (o) :
      ModelMoves s a k o
        (some (o.elim (ev.time + s.cooldown) fun cur => max cur (ev.time + s.cooldown)))
  | ended {ends} (hends : ends ≤ a.now) : ModelMoves s a k (some ends) none
  | clamp (ends) : ModelMoves s a k (some ends) (some (clamped a.now s.cooldown ends))
  | round (hop : a.op = .restart) (ends) : ModelMoves s a k (some ends) (some (roundUp minute ends))

variable {k : String} {w : Int}

section Step

variable {s : Settings} {st : Clocked} {a : Action}

theorem next_moves (hsound : Sound st.governor) (hok : Ok st a) (k : String) :
    Moves s a k (st.governor.backoff.find? k) ((next s st a).governor.backoff.find? k) := by
  obtain ⟨now, op⟩ := a
  cases op with
  | mark ns modelID cohorts ev =>
    refine markBackoffAfter_induction
      (P := fun k o => Moves s ⟨now, .mark ns modelID cohorts ev⟩ k (st.governor.backoff.find? k) o)
      (fun k => .same _) (fun c hc o ho => ?_) k
    exact ho.trans (.mark rfl hc rfl o)
  | observe =>
    simp only [next, find?_backoff_pruneClocks]
    cases st.governor.backoff.find? k with
    | none => exact .same _
    | some e =>
      by_cases hlive : now < e.untilTime + s.cooldown
      · rw [Option.filter_some, if_pos (decide_eq_true hlive)]
        exact .clamp e
      · rw [Option.filter_some, if_neg (by simpa using hlive)]
        exact .ended (not_lt.mp hlive)
  | restart =>
    simp only [next, hsound.find?_backoff_restart hok.2.1]
    cases st.governor.backoff.find? k with
    | none => exact .same _
    | some e => exact .round rfl e

theorem next_modelMoves (hsound : Sound st.governor) (hok : Ok st a) (k : String) :
    ModelMoves s a k (st.governor.modelCooldown.find? k)
      ((next s st a).governor.modelCooldown.find? k) := by
  obtain ⟨now, op⟩ := a
  cases op with
  | mark ns modelID cohorts ev =>
    by_cases hcohorts : cohorts = []
    · subst hcohorts
      simp only [next, find?_modelCooldown_mark]
      split_ifs with hk
      · rw [hk]
        exact .mark rfl rfl _
      · exact .same _
    · simp only [next, modelCooldown_mark_of_ne hcohorts]
      exact .same _
  | observe =>
    simp only [next, find?_modelCooldown_pruneClocks]
    cases st.governor.modelCooldown.find? k with
    | none => exact .same _
    | some ends =>
      by_cases hlive : now < ends
      · rw [Option.filter_some, if_pos (decide_eq_true hlive)]
        exact .clamp ends
      · rw [Option.filter_some, if_neg (by simpa using hlive)]
        exact .ended (not_lt.mp hlive)
  | restart =>
    simp only [next, hsound.find?_modelCooldown_restart hok.2.2]
    cases st.governor.modelCooldown.find? k with
    | none => exact .same _
    | some ends => exact .round rfl ends

theorem Ok.time_le (hok : Ok st a) {ns modelID : String} {ev : Event}
    (hop : a.op = .mark ns modelID cohorts ev) : ev.time ≤ a.now := by
  have h := hok.2
  rw [hop] at h
  exact h

theorem clamped_le (now cooldown ends : Int) : clamped now cooldown ends ≤ ends := by
  unfold clamped
  split_ifs <;> omega

theorem clamped_le_add (now cooldown ends : Int) : clamped now cooldown ends ≤ now + cooldown := by
  unfold clamped
  split_ifs <;> omega

theorem le_clamped {now cooldown ends : Int} (hends : w ≤ ends) (hnow : w ≤ now + cooldown) :
    w ≤ clamped now cooldown ends := by
  unfold clamped
  split_ifs <;> omega

/-- What holds of a cooldown holds after an action, if each of its moves keeps it. -/
theorem Moves.every {o o' : Option BackoffEntry} {Q : BackoffEntry → Prop} (h : Moves s a k o o')
    (hmark : ∀ {ns modelID cohorts ev c o}, a.op = .mark ns modelID cohorts ev → c ∈ cohorts →
      k = backoffKey ns modelID c → (∀ e, o = some e → Q e) → Q (marked s ev o))
    (hclamp : ∀ e, Q e → Q { e with untilTime := clamped a.now s.longest e.untilTime })
    (hround : a.op = .restart → ∀ e, Q e → Q
      { e with untilTime := roundUp minute e.untilTime, lastAt := truncate second e.lastAt })
    (hold : ∀ e, o = some e → Q e) : ∀ e, o' = some e → Q e := by
  induction h with
  | same => exact hold
  | mark hop hc hk =>
    rintro _ ⟨⟩
    exact hmark hop hc hk hold
  | ended => exact nofun
  | clamp e =>
    rintro _ ⟨⟩
    exact hclamp e (hold e rfl)
  | round hop e =>
    rintro _ ⟨⟩
    exact hround hop e (hold e rfl)
  | trans _ _ ih ih' => exact ih' (ih hold)

theorem ModelMoves.every {o o' : Option Int} {Q : Int → Prop} (h : ModelMoves s a k o o')
    (hmark : ∀ {ns modelID ev}, a.op = .mark ns modelID [] ev → k = modelKey ns modelID →
      Q (ev.time + s.cooldown))
    (hclamp : ∀ ends, Q ends → Q (clamped a.now s.cooldown ends))
    (hround : a.op = .restart → ∀ ends, Q ends → Q (roundUp minute ends))
    (hold : ∀ ends, o = some ends → Q ends) : ∀ ends, o' = some ends → Q ends := by
  cases h with
  | same => exact hold
  | @mark _ _ ev hop hk =>
    rintro _ ⟨⟩
    cases o with
    | none => exact hmark hop hk
    | some cur =>
      rw [Option.elim_some]
      rcases max_choice cur (ev.time + s.cooldown) with hmax | hmax <;> rw [hmax]
      · exact hold cur rfl
      · exact hmark hop hk
  | ended => exact nofun
  | clamp ends =>
    rintro _ ⟨⟩
    exact hclamp ends (hold ends rfl)
  | round hop ends =>
    rintro _ ⟨⟩
    exact hround hop ends (hold ends rfl)

theorem Sound.next (hsound : Sound st.governor) (hok : Ok st a) :
    Sound (Governor.next s st a).governor where
  key k := (next_moves hsound hok k).every
    (fun _ _ hk _ => by
      rw [hk, backoffKey, String.toList_append, String.toList_append]
      simp)
    (fun _ h => h) (fun _ _ h => h) (hsound.key k)
  level k := (next_moves hsound hok k).every (fun _ _ _ hold => level_marked_le hold)
    (fun _ h => h) (fun _ _ h => h) (hsound.level k)
  model k := (next_modelMoves hsound hok k).every
    (fun _ hk hempty => by
      rw [hempty, modelKey] at hk
      have hlength := congrArg String.length hk
      have hslash : "/".length = 1 := rfl
      rw [String.length_append, String.length_append, hslash, String.length_empty] at hlength
      omega)
    (fun _ h => h) (fun _ _ h => h) (hsound.model k)

/-- Of a clock with an end: it has not ended before `w`, or `w` is past. -/
def Lasts {ν : Type*} (w now : Int) (ends : ν → Int) (o : Option ν) : Prop :=
  w ≤ now ∨ ∃ e, o = some e ∧ w ≤ ends e

theorem Lasts.imp {ν : Type*} {now : Int} {ends : ν → Int} {e e' : ν}
    (h : Lasts w now ends (some e)) (hle : w ≤ ends e → w ≤ ends e') :
    Lasts w now ends (some e') := by
  refine Or.imp_right ?_ h
  rintro ⟨_, ⟨⟩, hw⟩
  exact ⟨e', rfl, hle hw⟩

/-- A cooldown that lasts until a time no further away than the longest stays until then. -/
theorem Moves.holds {o o' : Option BackoffEntry} (h : Moves s a k o o')
    (hnear : w ≤ a.now + s.longest) (hold : Lasts w a.now BackoffEntry.untilTime o) :
    Lasts w a.now BackoffEntry.untilTime o' := by
  induction h with
  | same => exact hold
  | mark _ _ _ o =>
    cases o with
    | none => exact hold.imp_right nofun
    | some e => exact hold.imp fun hw => hw.trans (untilTime_le_marked s _ e)
  | ended hends =>
    refine .inl (hold.elim id ?_)
    rintro ⟨_, ⟨⟩, hw⟩
    have := s.cooldown_pos
    omega
  | clamp e => exact hold.imp fun hw => le_clamped hw hnear
  | round _ e => exact hold.imp fun hw => hw.trans (le_roundUp minute_pos _)
  | trans _ _ ih ih' => exact ih' (ih hold)

theorem ModelMoves.holds {o o' : Option Int} (h : ModelMoves s a k o o')
    (hnear : w ≤ a.now + s.cooldown) (hold : Lasts w a.now id o) : Lasts w a.now id o' := by
  cases h with
  | same => exact hold
  | mark =>
    cases o with
    | none => exact hold.imp_right nofun
    | some cur => exact hold.imp fun hw => hw.trans (le_max_left _ _)
  | ended hends =>
    refine .inl (hold.elim id ?_)
    rintro ⟨_, ⟨⟩, hw⟩
    exact hw.trans hends
  | clamp ends => exact hold.imp fun hw => le_clamped hw hnear
  | round _ ends => exact hold.imp fun hw => hw.trans (le_roundUp minute_pos _)

theorem Moves.near {o o' : Option BackoffEntry} (h : Moves s a k o o') (hok : Ok st a)
    (hop : a.op ≠ .restart)
    (hold : ∀ e, o = some e → e.level ≤ maxBackoffLevel ∧ e.untilTime ≤ a.now + s.longest) :
    ∀ e, o' = some e → e.level ≤ maxBackoffLevel ∧ e.untilTime ≤ a.now + s.longest :=
  h.every
    (fun hmark _ _ hold => ⟨level_marked_le fun e he => (hold e he).1,
      untilTime_marked_le (hok.time_le hmark) hold⟩)
    (fun _ he => ⟨he.1, clamped_le_add _ _ _⟩) (fun hrestart => absurd hrestart hop) hold

theorem ModelMoves.near {o o' : Option Int} (h : ModelMoves s a k o o') (hok : Ok st a)
    (hop : a.op ≠ .restart) (hold : ∀ ends, o = some ends → ends ≤ a.now + s.cooldown) :
    ∀ ends, o' = some ends → ends ≤ a.now + s.cooldown :=
  h.every (fun hmark _ => by have := hok.time_le hmark; omega)
    (fun _ _ => clamped_le_add _ _ _) (fun hrestart => absurd hrestart hop) hold

/-- The times of the events marked for a model in a cohort. -/
def Action.Marks (a : Action) (k : String) (t : Int) : Prop :=
  ∃ ns modelID cohorts ev, a.op = .mark ns modelID cohorts ev ∧ ev.time = t ∧
    ∃ c ∈ cohorts, k = backoffKey ns modelID c

/-- The times of the events marked for a model without a cohort. -/
def Action.MarksModel (a : Action) (k : String) (t : Int) : Prop :=
  ∃ ns modelID ev, a.op = .mark ns modelID [] ev ∧ ev.time = t ∧ k = modelKey ns modelID

theorem Moves.started {o o' : Option BackoffEntry} (h : Moves s a k o o')
    (hmarks : ∀ t, a.Marks k t → P t) (hold : ∀ e, o = some e → ∃ t, P t ∧ StartedAt s t e) :
    ∀ e, o' = some e → ∃ t, P t ∧ StartedAt s t e := by
  refine h.every (fun hop hc hk hold => ?_) ?_ ?_ hold
  · exact startedAt_marked (hmarks _ ⟨_, _, _, _, hop, rfl, _, hc, hk⟩) hold
  · rintro e ⟨t, ht, hstarted⟩
    exact ⟨t, ht, { hstarted with ends := (clamped_le _ _ _).trans hstarted.ends }⟩
  · rintro - e ⟨t, ht, hstarted⟩
    refine ⟨t, ht, ?_, (truncate_le second_pos _).trans hstarted.le_time, ?_⟩
    · have := truncate_mono second_pos hstarted.second_le
      rwa [truncate_truncate] at this
    · have := roundUp_mono minute_pos hstarted.ends
      rwa [roundUp_roundUp] at this

theorem ModelMoves.started {o o' : Option Int} (h : ModelMoves s a k o o')
    (hmarks : ∀ t, a.MarksModel k t → P t)
    (hold : ∀ ends, o = some ends → ∃ t, P t ∧ ends ≤ roundUp minute (t + s.cooldown)) :
    ∀ ends, o' = some ends → ∃ t, P t ∧ ends ≤ roundUp minute (t + s.cooldown) := by
  refine h.every (fun hop hk => ?_) ?_ ?_ hold
  · exact ⟨_, hmarks _ ⟨_, _, _, hop, rfl, hk⟩, le_roundUp minute_pos _⟩
  · rintro ends ⟨t, ht, hends⟩
    exact ⟨t, ht, (clamped_le _ _ _).trans hends⟩
  · rintro - ends ⟨t, ht, hends⟩
    refine ⟨t, ht, ?_⟩
    have := roundUp_mono minute_pos hends
    rwa [roundUp_roundUp] at this

end Step

section Runs

variable {s : Settings} {st : Clocked} {as : List Action}

/-- Along a run keys and levels are as the marks write them. -/
theorem sound_run (hsound : Sound st.governor) (h : Keeps (next s) Ok st as) :
    Sound (runFrom (next s) st as).governor :=
  h.invariant (fun st' => Sound st'.governor) (fun _ _ hst' hok => hst'.next hok) hsound

/-- What a step keeps until it ends lasts along a run. -/
theorem lasts_run {ν : Type*} (read : BorrowGovernor → Option ν) {ends : ν → Int} {longest : Int}
    (hstep : ∀ {st : Clocked} {a : Action}, Sound st.governor → Ok st a → w ≤ a.now + longest →
      Lasts w a.now ends (read st.governor) → Lasts w a.now ends (read (next s st a).governor))
    (hsound : Sound st.governor) (h : Keeps (next s) Ok st as) {e : ν}
    (he : read st.governor = some e) (hw : w ≤ ends e) (hnear : w ≤ st.now + longest) :
    Lasts w (runFrom (next s) st as).now ends (read (runFrom (next s) st as).governor) := by
  refine (h.invariant (fun st' => (Sound st'.governor ∧ st.now ≤ st'.now) ∧
    Lasts w st'.now ends (read st'.governor)) ?_ ⟨⟨hsound, le_rfl⟩, .inr ⟨e, he, hw⟩⟩).2
  rintro st' a ⟨⟨hsound', hnow⟩, hold⟩ hok
  have hle := hok.1
  refine ⟨⟨hsound'.next hok, hnow.trans hle⟩, ?_⟩
  exact hstep hsound' hok (by omega) (hold.imp_left fun hpast => hpast.trans hle)

/-- No block is further away than the longest cooldown. -/
def Near (s : Settings) (st : Clocked) : Prop :=
  (∀ k e, st.governor.backoff.find? k = some e → e.untilTime ≤ st.now + s.longest) ∧
    ∀ k ends, st.governor.modelCooldown.find? k = some ends → ends ≤ st.now + s.cooldown

/-- Every cooldown goes back to an event that one of the actions marks. -/
def Started (s : Settings) (as : List Action) (g : BorrowGovernor) : Prop :=
  (∀ k e, g.backoff.find? k = some e → ∃ t, (∃ a ∈ as, a.Marks k t) ∧ StartedAt s t e) ∧
    ∀ k ends, g.modelCooldown.find? k = some ends →
      ∃ t, (∃ a ∈ as, a.MarksModel k t) ∧ ends ≤ roundUp minute (t + s.cooldown)

variable {start : Int} (h : Keeps (next s) Ok ⟨start, newBorrowGovernor⟩ as)
include h

theorem near_run (hrestart : ∀ a ∈ as, a.op ≠ .restart) :
    Near s (runFrom (next s) ⟨start, newBorrowGovernor⟩ as) := by
  refine (h.invariant_mem (fun st => Sound st.governor ∧ Near s st) ?_
    ⟨sound_newBorrowGovernor, ?_⟩).2
  swap
  · exact ⟨nofun, nofun⟩
  rintro st a ha ⟨hsound, hnear, hmodel⟩ hok
  have hle := hok.1
  refine ⟨hsound.next hok, fun k e he => ?_, fun k => ?_⟩
  · refine ((next_moves hsound hok k).near hok (hrestart a ha) (fun e' he' => ?_) e he).2
    have := hnear k e' he'
    exact ⟨hsound.level k e' he', by omega⟩
  · refine (next_modelMoves hsound hok k).near hok (hrestart a ha) fun ends hends => ?_
    have := hmodel k ends hends
    omega

theorem started_run : Started s as (runFrom (next s) ⟨start, newBorrowGovernor⟩ as).governor := by
  refine (h.invariant_mem (fun st => Sound st.governor ∧ Started s as st.governor) ?_
    ⟨sound_newBorrowGovernor, ?_⟩).2
  swap
  · exact ⟨nofun, nofun⟩
  rintro st a ha ⟨hsound, hstarted, hmodel⟩ hok
  refine ⟨hsound.next hok, fun k => ?_, fun k => ?_⟩
  · exact (next_moves hsound hok k).started (fun t ht => ⟨a, ha, ht⟩) (hstarted k)
  · exact (next_modelMoves hsound hok k).started (fun t ht => ⟨a, ha, ht⟩) (hmodel k)

end Runs

def defaultSettings : Settings := ⟨10 * minute, 5 * minute, by decide⟩

/-- Three preemptions a minute apart, and a restart after the last. -/
def preemptedThrice : List Action :=
  [⟨30 * second, .mark "x" "m" ["c"] ⟨30 * second, true, 5 * minute⟩⟩,
    ⟨90 * second, .mark "x" "m" ["c"] ⟨90 * second, true, 5 * minute⟩⟩,
    ⟨150 * second, .mark "x" "m" ["c"] ⟨150 * second, true, 5 * minute⟩⟩,
    ⟨151 * second, .restart⟩]

end LlmScaler.Governor
