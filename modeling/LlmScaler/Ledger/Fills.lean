import LlmScaler.Ledger.FillPass
import LlmScaler.Ledger.History

/-!
# Fills that landed are reported done

The fills of a receiver are judged by one count, in list order, while they enter Filling in another
order and from bases of their own. The invariant `Fills` says that no base of a fill still open lies
above the first fill's base by more than the GPUs of the fills already ended.
-/

namespace LlmScaler.Ledger

open LlmScaler.Core List Row

/-- Shown released, and nothing but a broken set can keep it from entering Filling. -/
def Cycle.ready (c : Cycle) (row : Row) : Bool :=
  row.ok && !(row.t.isSetPrimary && c.waiting row.t.id) && !row.wrongPod && !row.t.plannedUnknown

namespace ShareLedger

variable (l : ShareLedger) (held : Held) (now : Int) (tm : ShareTimings) {r : String}

theorem released_spec {t : ShareTransfer} (ht : t ∈ (l.observe held now tm).released) :
    t.receiverBase = (l.rheld held).get t.receiver ∧
      t.receiverBaseUnset = (t.receiver != "" && !(l.rheld held).has t.receiver) ∧
      ∃ row ∈ l.rows held, row.t.receiver = t.receiver ∧
        (l.cycle held now tm).ready row = true := by
  rw [observe_released] at ht
  obtain ⟨as, row, bs, hrows, hskip, rfl⟩ := exists_of_mem_releasedFrom ht
  refine ⟨rfl, rfl, row, by simp [hrows], rfl, ?_⟩
  -- the tests at the row's turn other than the broken set read what no release changes
  simp only [Cycle.skips, Bool.or_eq_false_iff, Row.ok, Row.wrongPod, after_t,
    after_releasable, Bool.not_eq_false'] at hskip
  obtain ⟨⟨⟨⟨hok, hwait⟩, -⟩, hwrong⟩, hunknown⟩ := hskip
  simp only [Cycle.ready, Bool.and_eq_true, Bool.not_eq_true', Row.ok, Row.wrongPod]
  exact ⟨⟨⟨hok, hwait⟩, hwrong⟩, hunknown⟩

theorem mem_fillsTo_passed {t : ShareTransfer}
    (ht : t ∈ fillsTo r ((l.passed held now tm).map (·.t))) :
    t ∈ fillsTo r l.transfers ∨ t ∈ (l.observe held now tm).released := by
  obtain ⟨hmem, hstate, hr⟩ := mem_fillsTo.mp ht
  obtain ⟨row, hrow, rfl⟩ := mem_map.mp hmem
  obtain ⟨as, row₀, bs, hrows, ⟨-, rfl⟩ | ⟨hskip, rfl⟩⟩ := exists_of_mem_rowsAfter hrow
  · have hfilling : row₀.t.state = .filling := by simpa using hstate
    rw [after_of_filling hfilling] at hr ⊢
    refine .inl (mem_fillsTo.mpr ⟨?_, hfilling, hr⟩)
    rw [← l.rows_map_t held, hrows]
    simp
  · have := mem_releasedFrom [] as bs hskip
    rw [← hrows, ← observe_released] at this
    exact .inr this

theorem takes_passed : takes (fillsTo r ((l.passed held now tm).map (·.t))) =
    takes (fillsTo r l.transfers) +
      takes ((l.observe held now tm).released.filter (·.receiver = r)) := by
  rw [passed, takes_rowsAfter _ r [] (fun row hrow => l.ok_releasing held hrow), rows_map_t,
    observe_released]

/-- A fill left in the ledger is one the filter kept, with the landed fills counted in. -/
theorem exists_kept_of_fill {u : ShareTransfer}
    (hu : u ∈ fillsTo r (l.observe held now tm).ledger.transfers) :
    ∃ t ∈ fillsTo r (l.filterPass held now tm).keep,
      u = t.settle (l.filterPass held now tm).wrong (l.filterPass held now tm).filled now := by
  obtain ⟨hmem, hstate, hr⟩ := mem_fillsTo.mp hu
  have hmem := (mem_filter.mp hmem).1
  rw [settled_eq, mem_map] at hmem
  obtain ⟨t, ht, rfl⟩ := hmem
  exact ⟨t, mem_fillsTo.mpr ⟨ht, hstate, hr⟩, rfl⟩

private theorem takes_settled : takes (fillsTo r (l.observe held now tm).ledger.transfers) =
    takes (fillsTo r (l.filterPass held now tm).keep) := by
  have hfills : fillsTo r (l.observe held now tm).ledger.transfers =
      (fillsTo r (l.filterPass held now tm).keep).map
        (·.settle (l.filterPass held now tm).wrong (l.filterPass held now tm).filled now) := by
    simp only [observe, settled_eq, fillsTo, filter_map, filter_filter]
    congr 1
    refine filter_congr fun t _ => ?_
    cases hstate : t.state with
    | releasing => simp [hstate]
    | filling => simp [orphaned, ShareTransfer.settle, hstate]
  rw [hfills, takes, takes, map_map]
  rfl

private theorem takes_ended :
    takes (fillsTo r ((l.observe held now tm).ended.map (·.transfer))) =
      takes (fillsTo r ((l.filterPass held now tm).ended.map (·.transfer))) := by
  have hgone : fillsTo r ((((settled (l.filterPass held now tm) now).filter
      (orphaned (l.filterPass held now tm).ended)).map fun t =>
        ({ transfer := t, outcome := .aborted } : ShareTransferEnd)).map (·.transfer)) = [] := by
    rw [map_map, fillsTo, filter_eq_nil_iff, forall_mem_map]
    intro u hu
    have horphan := (mem_filter.mp hu).2
    simp only [orphaned, Bool.and_eq_true, beq_iff_eq] at horphan
    simp [horphan.1.1]
  change takes (fillsTo r (((l.filterPass held now tm).ended ++ _).map (·.transfer))) = _
  rw [map_append, fillsTo_append, hgone, append_nil]

theorem takes_observe :
    takes (fillsTo r (l.observe held now tm).ledger.transfers) +
        takes (fillsTo r ((l.observe held now tm).ended.map (·.transfer))) =
      takes (fillsTo r l.transfers) +
        takes ((l.observe held now tm).released.filter (·.receiver = r)) := by
  have hfilter := takes_filter (l.cycle held now tm) r (l.passed held now tm)
    (l.filterStart held now tm)
  rw [← filterPass_eq, takes_passed] at hfilter
  rw [takes_settled, takes_ended, hfilter]
  simp

theorem landedFor_le (u : ShareTransfer) (hu : u.receiver = r) :
    landedFor u (l.filterPass held now tm).filled now ≤
      takes (fillsTo r ((l.observe held now tm).ended.map (·.transfer))) := by
  have hsub := filled_sublist (l.cycle held now tm) (l.passed held now tm)
    (l.filterStart held now tm) ⟨Sublist.refl _, by simp⟩
  rw [← filterPass_eq] at hsub
  have hfills : fillsTo r (l.filterPass held now tm).filled =
      (l.filterPass held now tm).filled.filter (·.receiver = r) :=
    filter_congr fun t ht => by simp [hsub.2 t ht]
  calc landedFor u (l.filterPass held now tm).filled now
      ≤ takes ((l.filterPass held now tm).filled.filter (·.receiver = r)) := by
        refine takes_sublist (monotone_filter_right _ fun f hf => ?_)
        simp only [decide_eq_true_eq] at hf ⊢
        exact hf.2.1.symm.trans hu
    _ ≤ takes (fillsTo r ((l.filterPass held now tm).ended.map (·.transfer))) := by
        rw [← hfills]
        exact takes_sublist (hsub.1.filter _)
    _ = takes (fillsTo r ((l.observe held now tm).ended.map (·.transfer))) :=
        (l.takes_ended held now tm).symm

/-- When the receiver's count covers every base by the GPUs of all fills judged, the
Observe times out none of them. -/
theorem no_fillTimeout_observe (hseen : (l.rheld held).has r = true) {b : Int}
    (hjudged : ∀ t ∈ fillsTo r ((l.passed held now tm).map (·.t)),
      t.receiverBaseUnset = false ∧ t.receiverBase ≤ b)
    (hcover : b + takes (fillsTo r ((l.passed held now tm).map (·.t))) ≤
      (l.rheld held).get r) :
    ∀ e ∈ (l.observe held now tm).ended, e.outcome = .fillTimeout → e.transfer.receiver ≠ r := by
  have hcover' : b + ((∅ : Held).get r + takes (fillsTo r ((l.passed held now tm).map (·.t)))) ≤
      (l.rheld held).get r := by simpa using hcover
  have hfilter := no_fillTimeout (c := l.cycle held now tm) hseen (l.passed held now tm)
    (l.filterStart held now tm) (by simp) hjudged hcover' (by simp)
  rw [← filterPass_eq] at hfilter
  intro e he hout
  rcases mem_append.mp he with he | he
  · exact hfilter e he hout
  · obtain ⟨t, -, rfl⟩ := mem_map.mp he
    cases hout

end ShareLedger

namespace History

/-- The receiver's fills that have entered Filling, each as it was then. -/
def fillsEntered (h : History) (r : String) : List ShareTransfer :=
  h.entered.filter (·.receiver = r)

/-- The first of the receiver's fills that entered Filling. -/
def firstFill (h : History) (r : String) : Option ShareTransfer := (h.fillsEntered r).head?

def endedFills (h : History) (r : String) : List ShareTransfer :=
  fillsTo r (h.ended.map (·.transfer))

/-- The count lies above the base of the receiver's first fill by at most the GPUs of its
fills that have ended. -/
def Within (h : History) (r : String) (v : Int) : Prop :=
  ∀ f ∈ h.firstFill r, v ≤ f.receiverBase + takes (h.endedFills r)

instance (h : History) (r : String) (v : Int) : Decidable (h.Within r v) :=
  inferInstanceAs (Decidable (∀ f ∈ h.firstFill r, _))

/-- What a step has to meet for its run to time out no fill of the receiver that landed:
every Observe reads the receiver's count, and a fill enters Filling only while that count
has risen by no more than the receiver's ended fills. -/
def FillGuard (r : String) (h : History) : LedgerOp → Prop
  | .startFill receiver _ _ _ _ held _ _ => receiver = r → h.Within r (held.get r)
  | .observe held now tm => (h.ledger.rheld held).has r = true ∧
    ∀ row ∈ h.ledger.rows held, row.t.receiver = r →
      (h.ledger.cycle held now tm).ready row = true → h.Within r ((h.ledger.rheld held).get r)
  | _ => True

instance (r : String) (h : History) (op : LedgerOp) : Decidable (FillGuard r h op) :=
  match op with
  | .startFill .. => inferInstanceAs (Decidable (_ → _))
  | .observe .. => inferInstanceAs (Decidable (_ ∧ _))
  | .start .. | .restore .. | .linkSet .. | .cancel .. | .forget .. | .redirect ..
  | .plannedRunning .. | .receiverFilled .. | .takeReleased => inferInstanceAs (Decidable True)

/-- The invariant of a receiver's fills over a run. -/
structure Fills (r : String) (h : History) : Prop where
  entered : fillsTo r h.ledger.transfers ≠ [] → h.fillsEntered r ≠ []
  set : ∀ u ∈ fillsTo r h.ledger.transfers, u.receiverBaseUnset = false
  base : ∀ u ∈ fillsTo r h.ledger.transfers, h.Within r u.receiverBase
  sum : takes (h.endedFills r) + takes (fillsTo r h.ledger.transfers) ≤ takes (h.fillsEntered r)

namespace Fills

variable {r : String} {h h' : History}

theorem init (incarnation : String) : Fills r (.init incarnation) where
  entered := by simp [History.init, newShareLedger]
  set := by simp [History.init, newShareLedger]
  base := by simp [History.init, newShareLedger]
  sum := by simp [History.init, newShareLedger, endedFills]

/-- What a step may not change about a fill that stays. -/
def figures (t : ShareTransfer) : Bool × Int × Nat :=
  (t.receiverBaseUnset, t.receiverBase, t.gpus)

theorem of_fills (hf : Fills r h) (hentered : h'.fillsEntered r = h.fillsEntered r)
    (hended : h'.endedFills r = h.endedFills r)
    (hfills : ((fillsTo r h'.ledger.transfers).map figures).Sublist
      ((fillsTo r h.ledger.transfers).map figures)) : Fills r h' := by
  have hwithin (v : Int) : h'.Within r v ↔ h.Within r v := by
    rw [Within, Within, firstFill, firstFill, hentered, hended]
  have hback : ∀ u ∈ fillsTo r h'.ledger.transfers, ∃ w ∈ fillsTo r h.ledger.transfers,
      w.receiverBaseUnset = u.receiverBaseUnset ∧ w.receiverBase = u.receiverBase := by
    intro u hu
    obtain ⟨w, hw, heq⟩ := mem_map.mp (hfills.subset (mem_map_of_mem hu))
    simp only [figures, Prod.mk.injEq] at heq
    exact ⟨w, hw, heq.1, heq.2.1⟩
  refine { entered := ?_, set := ?_, base := ?_, sum := ?_ }
  · intro hne
    obtain ⟨u, hu⟩ := exists_mem_of_ne_nil _ hne
    obtain ⟨w, hw, -⟩ := hback u hu
    rw [hentered]
    exact hf.entered (ne_nil_of_mem hw)
  · intro u hu
    obtain ⟨w, hw, hset, -⟩ := hback u hu
    exact hset ▸ hf.set w hw
  · intro u hu
    obtain ⟨w, hw, -, hbase⟩ := hback u hu
    rw [hwithin, ← hbase]
    exact hf.base w hw
  · have hle : takes (fillsTo r h'.ledger.transfers) ≤ takes (fillsTo r h.ledger.transfers) := by
      have := ((hfills.map fun x => x.2.2).sum_le_sum (by simp) :)
      simpa [takes, figures, Function.comp_def] using this
    have := hf.sum
    rw [hended, hentered]
    omega

/-- With fills added to the record, the first one stays, or is the first of those added. -/
private theorem firstFill_append {xs : List ShareTransfer}
    (hentered : h'.fillsEntered r = h.fillsEntered r ++ xs) {f : ShareTransfer}
    (hf : f ∈ h'.firstFill r) : f ∈ h.firstFill r ∨ h.fillsEntered r = [] ∧ f ∈ xs := by
  rw [firstFill, hentered] at hf
  rw [firstFill]
  cases he : h.fillsEntered r with
  | nil =>
    rw [he, nil_append] at hf
    exact .inr ⟨rfl, mem_of_mem_head? hf⟩
  | cons g gs =>
    rw [he, cons_append] at hf
    exact .inl hf

theorem startFill (hf : Fills r h) {receiver variant : String} {gpus : Nat} {urgent : Bool}
    {salt : String} {held : Held} {now : Int} {tm : ShareTimings}
    (hg : FillGuard r h (.startFill receiver variant gpus urgent salt held now tm)) :
    Fills r (h.next (.startFill receiver variant gpus urgent salt held now tm)) := by
  set t := h.ledger.idleFill receiver variant gpus urgent salt held now tm with ht
  have hentered : (h.next (.startFill receiver variant gpus urgent salt held now tm)).fillsEntered r =
      h.fillsEntered r ++ if receiver = r then [t] else [] := by
    simp only [fillsEntered, History.next, filter_append, ← ht, filter_cons,
      filter_nil, decide_eq_true_eq]
    rfl
  have hfills : fillsTo r
      (h.next (.startFill receiver variant gpus urgent salt held now tm)).ledger.transfers =
        fillsTo r h.ledger.transfers ++ if receiver = r then [t] else [] := by
    change fillsTo r (h.ledger.transfers ++ [t]) = _
    rw [fillsTo_append, fillsTo_cons_filling _ rfl]
    rfl
  by_cases hr : receiver = r
  · rw [if_pos hr] at hentered hfills
    have hwithin (v : Int) (hv : h.Within r v) (hbase : h.fillsEntered r = [] → v ≤ t.receiverBase) :
        (h.next (.startFill receiver variant gpus urgent salt held now tm)).Within r v := by
      intro f hmem
      rcases firstFill_append hentered hmem with hold | ⟨hnil, hnew⟩
      · exact hv f hold
      · obtain rfl := mem_singleton.mp hnew
        have := hbase hnil
        omega
    refine { entered := ?_, set := ?_, base := ?_, sum := ?_ }
    · intro _
      rw [hentered]
      simp
    · intro u hu
      rw [hfills, mem_append, mem_singleton] at hu
      rcases hu with hu | rfl
      · exact hf.set u hu
      · rfl
    · intro u hu
      rw [hfills, mem_append, mem_singleton] at hu
      rcases hu with hu | rfl
      · exact hwithin _ (hf.base u hu) fun hnil =>
          absurd hnil (hf.entered (ne_nil_of_mem hu))
      · refine hwithin _ ?_ fun _ => le_rfl
        have : t.receiverBase = held.get r := by rw [ht, ← hr]; rfl
        exact this ▸ hg hr
    · have := hf.sum
      rw [hentered, hfills, takes_append, takes_append]
      change takes (h.endedFills r) + _ ≤ _
      omega
  · rw [if_neg hr, append_nil] at hentered hfills
    exact hf.of_fills hentered rfl (hfills ▸ Sublist.refl _)

section Observe
variable {held : Held} {now : Int} {tm : ShareTimings}

private theorem fillsEntered_observe (h : History) (r : String) (held : Held) (now : Int)
    (tm : ShareTimings) : (h.next (.observe held now tm)).fillsEntered r =
      h.fillsEntered r ++ (h.ledger.observe held now tm).released.filter (·.receiver = r) :=
  filter_append ..

theorem judged (hf : Fills r h) (hg : FillGuard r h (.observe held now tm)) {t : ShareTransfer}
    (ht : t ∈ fillsTo r ((h.ledger.passed held now tm).map (·.t))) :
    t.receiverBaseUnset = false ∧
      (h.next (.observe held now tm)).fillsEntered r ≠ [] ∧
      ∀ f ∈ (h.next (.observe held now tm)).firstFill r,
        t.receiverBase ≤ f.receiverBase + takes (h.endedFills r) := by
  have happend := fillsEntered_observe h r held now tm
  have hr : t.receiver = r := (mem_fillsTo.mp ht).2.2
  rcases h.ledger.mem_fillsTo_passed held now tm ht with hold | hnew
  · have hne := hf.entered (ne_nil_of_mem hold)
    refine ⟨hf.set t hold, by simp [happend, hne], ?_⟩
    intro f hmem
    rcases firstFill_append happend hmem with hmem | ⟨hnil, -⟩
    · exact hf.base t hold f hmem
    · exact absurd hnil hne
  · obtain ⟨hbase, hunset, row, hrow, hrec, hready⟩ := h.ledger.released_spec held now tm hnew
    rw [hr] at hbase hunset hrec
    have hmem : t ∈ (h.ledger.observe held now tm).released.filter (·.receiver = r) :=
      mem_filter.mpr ⟨hnew, by simpa using hr⟩
    refine ⟨by simp [hunset, hg.1], ?_, ?_⟩
    · rw [happend]
      simp [ne_nil_of_mem hmem]
    · intro f hfirst
      rcases firstFill_append happend hfirst with hfirst | ⟨-, hfirst⟩
      · rw [hbase]
        exact hg.2 row hrow hrec hready f hfirst
      · -- the first fill entered in this Observe too, from the same count
        obtain ⟨hfirst, hfr⟩ := mem_filter.mp hfirst
        have hfbase := (h.ledger.released_spec held now tm hfirst).1
        rw [of_decide_eq_true hfr] at hfbase
        rw [hbase, hfbase]
        omega

theorem observe (hf : Fills r h) (hg : FillGuard r h (.observe held now tm)) :
    Fills r (h.next (.observe held now tm)) := by
  have happend := fillsEntered_observe h r held now tm
  have hended : takes ((h.next (.observe held now tm)).endedFills r) = takes (h.endedFills r) +
      takes (fillsTo r ((h.ledger.observe held now tm).ended.map (·.transfer))) := by
    rw [endedFills, endedFills, ← takes_append, ← fillsTo_append, ← map_append]
    rfl
  -- a fill left was judged and kept; first seen it was not, since its base was set before
  have hkept : ∀ u ∈ fillsTo r (h.next (.observe held now tm)).ledger.transfers,
      ∃ t ∈ fillsTo r ((h.ledger.passed held now tm).map (·.t)),
        u = t.settle (h.ledger.filterPass held now tm).wrong
          (h.ledger.filterPass held now tm).filled now := by
    intro u hu
    obtain ⟨t, ht, rfl⟩ := h.ledger.exists_kept_of_fill held now tm hu
    obtain ⟨hmem, hstate, hr⟩ := mem_fillsTo.mp ht
    rw [ShareLedger.filterPass_eq] at hmem
    rcases exists_row_of_kept_filling hmem hstate with hnil | ⟨row, hrow, hrs, hsame⟩
    · cases hnil
    have hrr : row.t.receiver = r := by
      rcases hsame with rfl | ⟨-, rfl⟩ <;> exact hr
    have hjudge := mem_fillsTo.mpr ⟨mem_map_of_mem hrow, hrs, hrr⟩
    rcases hsame with rfl | ⟨hunset, -⟩
    · exact ⟨_, hjudge, rfl⟩
    · rw [(hf.judged hg hjudge).1] at hunset
      cases hunset
  refine { entered := ?_, set := ?_, base := ?_, sum := ?_ }
  · intro hne
    obtain ⟨u, hu⟩ := exists_mem_of_ne_nil _ hne
    obtain ⟨t, ht, -⟩ := hkept u hu
    exact (hf.judged hg ht).2.1
  · intro u hu
    obtain ⟨t, ht, rfl⟩ := hkept u hu
    exact (hf.judged hg ht).1
  · intro u hu f hfirst
    obtain ⟨t, ht, rfl⟩ := hkept u hu
    have hbase := (hf.judged hg ht).2.2 f hfirst
    have hland := h.ledger.landedFor_le held now tm t (mem_fillsTo.mp ht).2.2
    rw [hended]
    simp only [ShareTransfer.settle]
    push_cast
    omega
  · have hsum := hf.sum
    have htakes := h.ledger.takes_observe held now tm (r := r)
    change takes (fillsTo r (h.next (.observe held now tm)).ledger.transfers) + _ = _ at htakes
    rw [happend, takes_append, hended]
    omega

end Observe

/-- A transfer that is not filling is no fill, whatever a minor operation does to it. -/
private def fillFigures (t : ShareTransfer) : Option (String × Bool × Int × Nat) :=
  if t.state = .filling then some (t.receiver, figures t) else none

private theorem fillsTo_figures (r : String) (ts : List ShareTransfer) :
    (fillsTo r ts).map figures =
      (ts.map fillFigures).filterMap fun o => (o.filter (·.1 = r)).map (·.2) := by
  induction ts with
  | nil => rfl
  | cons t ts ih =>
    cases hstate : t.state with
    | releasing =>
      rw [fillsTo_cons_releasing _ hstate, ih]
      simp [fillFigures, hstate]
    | filling =>
      rw [fillsTo_cons_filling _ hstate]
      by_cases hr : t.receiver = r <;> simp [fillFigures, hstate, hr, ih]

theorem next (hf : Fills r h) {op : LedgerOp} (hg : FillGuard r h op) : Fills r (h.next op) := by
  by_cases hop : op.minor = true
  · obtain ⟨-, -, he, hends, -, -, -, -⟩ := h.minor_record hop
    refine hf.of_fills ?_ ?_ ?_
    · rw [fillsEntered, fillsEntered, he]
    · rw [endedFills, endedFills, hends]
    · rw [fillsTo_figures, fillsTo_figures]
      refine Sublist.filterMap _ (h.minor_transfers ?_ hop)
      intro t t' ht
      cases ht with
      | same => rfl
      | planned => rfl
      | redirected hred =>
        simp only [ShareTransfer.redirectable, Bool.and_eq_true, beq_iff_eq] at hred
        simp [fillFigures, ShareLedger.redirectedTransfer, hred.1.1.1]
  cases op with
  | start t salt held now tm =>
    have hl := ShareLedger.eq_of_withoutMoves (h.ledger.start_withoutMoves now tm t salt held)
    refine hf.of_fills rfl rfl ?_
    change ((fillsTo r (h.ledger.start t salt held now tm).transfers).map figures).Sublist _
    rw [hl.1]
    change ((fillsTo r (h.ledger.transfers ++ [h.ledger.admitted t salt held now tm])).map
      figures).Sublist _
    rw [fillsTo_append, fillsTo_cons_releasing _ rfl, fillsTo_nil, append_nil]
  | restore t heldDonor =>
    refine hf.of_fills rfl rfl ?_
    change ((fillsTo r (h.ledger.transfers ++ [ShareLedger.restored t heldDonor])).map
      figures).Sublist _
    rw [fillsTo_append, fillsTo_cons_releasing _ rfl, fillsTo_nil, append_nil]
  | startFill => exact hf.startFill hg
  | linkSet primary contributors =>
    refine hf.of_fills rfl rfl ?_
    change ((fillsTo r (h.ledger.linkSet primary contributors).transfers).map figures).Sublist _
    rw [fillsTo_figures, fillsTo_figures, h.ledger.linkSet_map fun _ _ _ => rfl]
  | observe => exact hf.observe hg
  | cancel | forget | redirect | plannedRunning | receiverFilled | takeReleased =>
    exact absurd rfl hop

end Fills

/-- In every run whose steps meet `FillGuard`, no fill of the receiver is timed out in an
Observe in which the receiver's count has risen, since the first of its fills entered
Filling, by at least the GPUs of all its fills that have entered Filling. -/
theorem landed_not_timedOut (incarnation r : String) (ops : List LedgerOp) (held : Held)
    (now : Int) (tm : ShareTimings)
    (hrun : Keeps History.next (FillGuard r) (.init incarnation) (ops ++ [.observe held now tm])) :
    let h := run incarnation ops
    let h' := h.next (.observe held now tm)
    ∀ f ∈ h'.firstFill r,
      f.receiverBase + takes (h'.fillsEntered r) ≤ (h.ledger.rheld held).get r →
      ∀ e ∈ (h.ledger.observe held now tm).ended, e.outcome = .fillTimeout →
        e.transfer.receiver ≠ r := by
  obtain ⟨hops, hlast⟩ := hrun.last
  have hfills : Fills r (run incarnation ops) :=
    hops.invariant (Fills r) (fun _ _ hs hg => hs.next hg) (.init incarnation)
  intro h h' f hfirst hrisen
  refine h.ledger.no_fillTimeout_observe held now tm hlast.1
    (b := f.receiverBase + takes (h.endedFills r)) (fun t ht => ?_) ?_
  · obtain ⟨hset, -, hbase⟩ := hfills.judged hlast ht
    exact ⟨hset, hbase f hfirst⟩
  · have hsum : takes (h.endedFills r) + takes (fillsTo r h.ledger.transfers) ≤
        takes (h.fillsEntered r) := hfills.sum
    rw [h.ledger.takes_passed held now tm]
    rw [Fills.fillsEntered_observe, takes_append] at hrisen
    push_cast at hrisen ⊢
    omega

/-- Two transfers to receiver `r`; the second one's donor gives first, and `filled` GPUs have
landed when the first one's donor has given too. -/
def fillOps (tm : ShareTimings) (filled : Int) : List LedgerOp :=
  let held : Held := GoMap.ofList [("a", 8), ("b", 8), ("r", 0)]
  [.start { donor := "a", receiver := "r", gpus := 4, donorGPUs := 4 } "" held 0 tm,
    .start { donor := "b", receiver := "r", gpus := 4, donorGPUs := 4 } "" held 0 tm,
    .observe (GoMap.ofList [("a", 8), ("b", 4), ("r", 0)]) 1 tm,
    .observe (GoMap.ofList [("a", 4), ("b", 4), ("r", filled)]) 2 tm]

/-- Nothing had landed when the first transfer was released: both fills are reported done. -/
theorem landed_not_timedOut_two :
    let tm : ShareTimings := { window := 5, releaseTimeout := 10, fillTimeout := 10 }
    let held : Held := GoMap.ofList [("a", 4), ("b", 4), ("r", 8)]
    let h := run "i" (fillOps tm 0)
    let h' := h.next (.observe held 11 tm)
    (h.ledger.observe held 11 tm).ended.map (·.outcome) = [.done, .done] ∧
      ∀ f ∈ h'.firstFill "r",
        f.receiverBase + takes (h'.fillsEntered "r") ≤ (h.ledger.rheld held).get "r" →
        ∀ e ∈ (h.ledger.observe held 11 tm).ended, e.outcome = .fillTimeout →
          e.transfer.receiver ≠ "r" := by
  intro tm held h h'
  exact ⟨by decide, landed_not_timedOut "i" "r" (fillOps tm 0) held 11 tm (by decide)⟩

/-- The second transfer's GPUs had landed when the first was released, whose base then
counts them: the second is timed out although everything has landed. -/
theorem landed_timedOut :
    ∃ ops held now tm,
      let h := run "i" ops
      let h' := h.next (.observe held now tm)
      (∀ m ∈ h'.fills, m.has "r" = true) ∧ (h'.fills.map (·.get "r")).Pairwise (· ≤ ·) ∧
        (∃ f ∈ h'.firstFill "r",
          f.receiverBase + takes (h'.fillsEntered "r") ≤ (h.ledger.rheld held).get "r") ∧
        ∃ e ∈ (h.ledger.observe held now tm).ended,
          e.outcome = .fillTimeout ∧ e.transfer.receiver = "r" := by
  refine ⟨fillOps { window := 5, releaseTimeout := 10, fillTimeout := 10 } 4,
    GoMap.ofList [("a", 4), ("b", 4), ("r", 8)], 11,
    { window := 5, releaseTimeout := 10, fillTimeout := 10 }, ?_⟩
  decide

end History

end LlmScaler.Ledger
