import LlmScaler.Ledger.Counted
import LlmScaler.Ledger.Identifiers

/-!
# No freed GPU is counted twice

A donor's releases are inferred from one count against bases that are moved as transfers leave, so
the invariant `Donor` bounds the bases too: whatever point of the donor's starts nothing has been
counted before, the count and the later bases lie below the base of that point by all that was
counted.
-/

namespace LlmScaler.Ledger

open LlmScaler.Core List GoMap

namespace History

def startsOf (h : History) (d : String) : List ShareTransfer := h.starts.filter (·.donor = d)

/-- The donor's transfers that have been counted as released. -/
def counted (h : History) (d : String) : List ShareTransfer :=
  (h.entered ++ countedEnds h.ended).filter (·.donor = d)

/-- The GPUs counted as released by the donor. -/
def countedGPUs (h : History) (d : String) : Nat := gives (h.counted d)

/-- The donor's counts in the readings that show it. -/
def levels (h : History) (d : String) : List Int := h.readings.filterMap (·.find? d)

/-- The donor's count never rises. -/
def NeverRises (h : History) (d : String) : Prop := (h.levels d).Pairwise (· ≥ ·)

instance (h : History) (d : String) : Decidable (h.NeverRises d) :=
  inferInstanceAs (Decidable (Pairwise _ _))

/-- The first started of the donor's transfers that have been counted. -/
def firstCounted (h : History) (d : String) : Option ShareTransfer :=
  (h.startsOf d).find? fun t => t.id ∈ (h.counted d).map (·.id)

/-- What a step has to meet for its run to count no GPU of the donor twice. A transfer
starts from a reading that shows its donor. An Observe at the very time a transfer
started reads no lower count than its base. A primary about to be aborted although its
donor released is the donor's only release. And while the donor's first release is
shown but held back, the later ones started before the donor fell for it. -/
def DonorGuard (d : String) (h : History) : LedgerOp → Prop
  | .start t _ held _ _ => t.donor = d → held.has d = true
  | .restore t _ => h.restorable t
  | .observe held now tm => held.has d = true →
    (∀ u ∈ givers d h.ledger.transfers, u.started < now ∨ u.donorBase ≤ held.get d) ∧
    h.ledger.AbortsAlone held now tm d ∧ h.ledger.FirstCovers held now tm d
  | _ => True

instance (d : String) (h : History) (op : LedgerOp) : Decidable (DonorGuard d h op) :=
  match op with
  | .start .. => inferInstanceAs (Decidable (_ → _))
  | .restore t _ => inferInstanceAs (Decidable (h.restorable t))
  | .observe .. => inferInstanceAs (Decidable (_ → _ ∧ _ ∧ _))
  | .startFill .. | .linkSet .. | .cancel .. | .forget .. | .redirect .. | .plannedRunning ..
  | .receiverFilled .. | .takeReleased => inferInstanceAs (Decidable True)

/-- With nothing counted before `x`, the donor's count and the bases of its transfers
from `x` on are below the base of `x` by all that was counted. -/
structure Below (d : String) (h : History) (x : ShareTransfer) (post : List ShareTransfer) :
    Prop where
  level : ∀ v, (h.levels d).getLast? = some v → (h.countedGPUs d : Int) + v ≤ x.donorBase
  later : ∀ u ∈ givers d h.ledger.transfers, u.id ∈ (x :: post).map (·.id) →
    u.donorBase + h.countedGPUs d ≤ x.donorBase

/-- The invariant of a donor's releases over a run. -/
structure Donor (d : String) (h : History) : Prop where
  ids : IDs h
  nodup : ((h.startsOf d).map (·.id)).Nodup
  order : ((givers d h.ledger.transfers).map (·.id)).Sublist ((h.startsOf d).map (·.id))
  started : ∀ t ∈ h.counted d, t.id ∈ (h.startsOf d).map (·.id)
  read : h.startsOf d ≠ [] → h.levels d ≠ []
  below : h.NeverRises d → ∀ pre x post, h.startsOf d = pre ++ x :: post →
    (∀ y ∈ pre, y.id ∉ (h.counted d).map (·.id)) → Below d h x post

theorem DonorGuard.ids {d : String} {h : History} {op : LedgerOp} (hg : DonorGuard d h op) :
    h.IDsGuard op := by
  cases op with
  | restore => exact hg
  | start | startFill | linkSet | cancel | forget | redirect | plannedRunning | receiverFilled
  | takeReleased | observe => trivial

end History

private theorem getLast_le {xs ys : List Int} {v w : Int} (h : (xs ++ ys).Pairwise (· ≥ ·))
    (hv : xs.getLast? = some v) (hw : (xs ++ ys).getLast? = some w) : w ≤ v := by
  rw [getLast?_append] at hw
  cases hys : ys.getLast? with
  | none =>
    rw [hys, hv, Option.none_or] at hw
    exact (Option.some.inj hw).symm.le
  | some z =>
    rw [hys, Option.some_or] at hw
    obtain rfl := Option.some.inj hw
    exact (pairwise_append.mp h).2.2 v (mem_of_getLast? hv) z (mem_of_getLast? hys)

theorem givers_map_sublist {α : Type*} {k : ShareTransfer → α} (d : String)
    {ts us : List ShareTransfer}
    (h : (ts.map fun t => (t.state, t.donor, k t)).Sublist
      (us.map fun t => (t.state, t.donor, k t))) :
    ((givers d ts).map k).Sublist ((givers d us).map k) := by
  have := (h.filter fun x => x.1 = .releasing ∧ x.2.1 = d).map (·.2.2)
  simpa [filter_map, map_map, Function.comp_def, givers] using this

namespace History

namespace Donor

variable {d : String} {h h' : History}

theorem init (incarnation : String) : Donor d (.init incarnation) where
  ids := .init incarnation
  nodup := by simp [startsOf, History.init]
  order := by simp [givers, History.init, newShareLedger]
  started := by simp [counted, countedEnds, History.init]
  read := by simp [startsOf, History.init]
  below := by simp [startsOf, History.init]

private theorem neverRises_of_append {ys : List Int}
    (hlevels : h'.levels d = h.levels d ++ ys) (hnever : h'.NeverRises d) : h.NeverRises d := by
  rw [NeverRises, hlevels] at hnever
  exact (pairwise_append.mp hnever).1

private theorem level_of_append {x : ShareTransfer} {post : List ShareTransfer} {ys : List Int}
    (hb : Below d h x post) (hread : h.levels d ≠ [])
    (hcounted : h'.countedGPUs d = h.countedGPUs d) (hlevels : h'.levels d = h.levels d ++ ys)
    (hnever : h'.NeverRises d) (w : Int) (hw : (h'.levels d).getLast? = some w) :
    (h'.countedGPUs d : Int) + w ≤ x.donorBase := by
  have hv := getLast?_eq_some_getLast hread
  rw [NeverRises, hlevels] at hnever
  rw [hlevels] at hw
  have hle := getLast_le hnever hv hw
  have := hb.level _ hv
  rw [hcounted]
  omega

theorem of_givers (hd : Donor d h) (hids : IDs h') (hstarts : h'.startsOf d = h.startsOf d)
    (hcounted : h'.counted d = h.counted d) (ys : List Int)
    (hlevels : h'.levels d = h.levels d ++ ys)
    (hgivers : ((givers d h'.ledger.transfers).map fun t => (t.id, t.donorBase)).Sublist
      ((givers d h.ledger.transfers).map fun t => (t.id, t.donorBase))) : Donor d h' where
  ids := hids
  nodup := by rw [hstarts]; exact hd.nodup
  order := by
    rw [hstarts]
    have := hgivers.map Prod.fst
    rw [map_map, map_map] at this
    exact this.trans hd.order
  started := by rw [hcounted, hstarts]; exact hd.started
  read := by
    intro hne
    rw [hstarts] at hne
    rw [hlevels]
    exact append_ne_nil_of_left_ne_nil (hd.read hne) _
  below := by
    intro hnever pre x post hsplit hpre
    rw [hstarts] at hsplit
    rw [hcounted] at hpre
    have hb := hd.below (neverRises_of_append hlevels hnever) pre x post hsplit hpre
    have hgpus : h'.countedGPUs d = h.countedGPUs d := by rw [countedGPUs, countedGPUs, hcounted]
    refine ⟨level_of_append hb (hd.read (by simp [hsplit])) hgpus hlevels hnever, ?_⟩
    intro u hu hid
    obtain ⟨w, hw, heq⟩ := mem_map.mp (hgivers.subset (mem_map_of_mem hu))
    obtain ⟨hwid, hwbase⟩ := Prod.mk.inj heq
    rw [hgpus, ← hwbase]
    exact hb.later w hw (hwid ▸ hid)

theorem of_start (hd : Donor d h) {t : ShareTransfer} {held : Held} (hids : IDs h')
    (htransfers : h'.ledger.transfers = h.ledger.transfers ++ [t])
    (hstarts : h'.starts = h.starts ++ [t]) (hreadings : h'.readings = h.readings ++ [held])
    (hentered : h'.entered = h.entered) (hended : h'.ended = h.ended) (hnew : t.id ∉ h.known)
    (hstate : t.state = .releasing) (hbase : t.donorBase = held.get t.donor)
    (hshown : t.donor = d → held.has d = true) : Donor d h' := by
  have hcounted : h'.counted d = h.counted d := by rw [counted, counted, hentered, hended]
  have hlevels : h'.levels d = h.levels d ++ (held.find? d).toList := by
    rw [levels, levels, hreadings, filterMap_append]
    cases hf : held.find? d <;> simp [hf]
  by_cases hdonor : t.donor = d
  · -- one of the donor's own transfers: its base is the reading it starts from
    have hstartsOf : h'.startsOf d = h.startsOf d ++ [t] := by
      rw [startsOf, startsOf, hstarts, filter_append]
      simp [hdonor]
    have hgivers : givers d h'.ledger.transfers = givers d h.ledger.transfers ++ [t] := by
      rw [htransfers, givers_append, givers_cons_of_pos _ hstate hdonor]
      rfl
    have hfind : held.find? d = some t.donorBase := by
      rw [find?_of_has (hshown hdonor), hbase, hdonor]
    rw [hfind, Option.toList_some] at hlevels
    have hfresh : t.id ∉ (h.startsOf d).map (·.id) := by
      intro hmem
      obtain ⟨u, hu, hid⟩ := mem_map.mp hmem
      refine hnew (mem_append_left _ ?_)
      exact mem_map.mpr ⟨u, (mem_filter.mp hu).1, hid⟩
    have hother {u : ShareTransfer} (hu : u ∈ givers d h.ledger.transfers) : u.id ≠ t.id :=
      fun hid => hfresh (hid ▸ hd.order.subset (mem_map_of_mem hu))
    have hlast : (h'.levels d).getLast? = some t.donorBase := by rw [hlevels]; simp
    refine { ids := hids, nodup := ?_, order := ?_, started := ?_, read := ?_, below := ?_ }
    · rw [hstartsOf, map_append, map_singleton, ← concat_eq_append]
      exact hd.nodup.concat hfresh
    · rw [hstartsOf, hgivers, map_append, map_append]
      exact hd.order.append (Sublist.refl _)
    · intro u hu
      rw [hstartsOf, map_append]
      exact mem_append_left _ (hd.started u (hcounted ▸ hu))
    · intro _
      rw [hlevels]
      simp
    · intro hnever pre x post hsplit hpre
      rw [hstartsOf] at hsplit
      rw [hcounted] at hpre
      have hgpus : h'.countedGPUs d = h.countedGPUs d := by
        rw [countedGPUs, countedGPUs, hcounted]
      -- the level settles the new transfer's base, which is the last level read
      suffices hb : (∀ v, (h'.levels d).getLast? = some v →
          (h'.countedGPUs d : Int) + v ≤ x.donorBase) ∧
          ∀ u ∈ givers d h.ledger.transfers, u.id ∈ (x :: post).map (·.id) →
            u.donorBase + h'.countedGPUs d ≤ x.donorBase by
        refine ⟨hb.1, fun u hu hid => ?_⟩
        rw [hgivers, mem_append, mem_singleton] at hu
        rcases hu with hu | rfl
        · exact hb.2 u hu hid
        · have := hb.1 _ hlast
          omega
      rcases eq_nil_or_concat post with rfl | ⟨post, y, rfl⟩
      · -- nothing before the new transfer is counted, so nothing is
        obtain ⟨rfl, hx⟩ := append_inj' hsplit rfl
        obtain rfl := (List.cons.inj hx).1
        have hnone : h.counted d = [] := by
          rw [eq_nil_iff_forall_not_mem]
          intro u hu
          obtain ⟨y, hy, hid⟩ := mem_map.mp (hd.started u hu)
          exact hpre y hy (hid ▸ mem_map_of_mem hu)
        refine ⟨fun v hv => ?_, fun u hu hid => absurd (by simpa using hid) (hother hu)⟩
        rw [hlast] at hv
        rw [← Option.some.inj hv, hgpus, countedGPUs, hnone, gives_nil]
        omega
      · rw [concat_eq_append, ← cons_append, ← append_assoc] at hsplit
        obtain ⟨hstarted, hy⟩ := append_inj' hsplit rfl
        obtain rfl := (List.cons.inj hy).1
        have hb := hd.below (neverRises_of_append hlevels hnever) pre x post hstarted hpre
        refine ⟨level_of_append hb (hd.read (by simp [hstarted])) hgpus hlevels hnever, ?_⟩
        intro u hu hid
        rw [hgpus]
        refine hb.later u hu ?_
        rw [concat_eq_append, ← cons_append, map_append, mem_append] at hid
        exact hid.resolve_right fun hid => hother hu (by simpa using hid)
  · -- another donor's transfer: only the reading can matter
    refine hd.of_givers hids ?_ hcounted _ hlevels ?_
    · rw [startsOf, startsOf, hstarts, filter_append]
      simp [hdonor]
    · rw [htransfers, givers_append, givers_cons_of_neg _ fun hg => hdonor hg.2]
      simp [givers]

private theorem upward (hd : Donor d h) {pre post : List ShareTransfer} {x : ShareTransfer}
    (hsplit : h.startsOf d = pre ++ x :: post) :
    (givers d h.ledger.transfers).Pairwise fun a b =>
      decide (a.id ∈ (x :: post).map (·.id)) = true →
        decide (b.id ∈ (x :: post).map (·.id)) = true := by
  have horder := hd.order
  have hnodup := hd.nodup
  rw [hsplit, map_append] at horder hnodup
  have hids : (pre.map (·.id) ++ (x :: post).map (·.id)).Pairwise fun a b =>
      a ∈ (x :: post).map (·.id) → b ∈ (x :: post).map (·.id) := by
    rw [pairwise_append]
    refine ⟨pairwise_of_forall_mem_list ?_, pairwise_of_forall_mem_list ?_, ?_⟩
    · intro a ha b _ hmem
      exact absurd rfl ((nodup_append.mp hnodup).2.2 a ha a hmem)
    · exact fun _ _ _ hb _ => hb
    · exact fun _ _ _ hb _ => hb
  have := hids.sublist horder
  rw [pairwise_map] at this
  simpa only [decide_eq_true_eq] using this

theorem observe (hd : Donor d h) (hne : d ≠ "") {held : Held} {now : Int} {tm : ShareTimings}
    (hg : DonorGuard d h (.observe held now tm)) : Donor d (h.next (.observe held now tm)) := by
  have hcounted (t : ShareTransfer) : t ∈ (h.next (.observe held now tm)).counted d ↔
      t ∈ h.counted d ∨ t ∈ h.ledger.countedOf held now tm d := by
    simp only [counted, History.next, countedEnds_append, ShareLedger.countedOf,
      ShareLedger.counted, mem_filter, mem_append]
    tauto
  have hgpus : (h.next (.observe held now tm)).countedGPUs d =
      h.countedGPUs d + gives (h.ledger.countedOf held now tm d) := by
    simp only [countedGPUs, counted, History.next, countedEnds_append, ShareLedger.countedOf,
      ShareLedger.counted, filter_append, gives_append]
    omega
  have hlevels : (h.next (.observe held now tm)).levels d =
      h.levels d ++ (held.find? d).toList := by
    simp only [levels, History.next, filterMap_append]
    cases hf : held.find? d <;> simp [hf]
  have horder : ((givers d (h.ledger.observe held now tm).ledger.transfers).map (·.id)).Sublist
      ((givers d h.ledger.transfers).map (·.id)) := by
    have hstatic : Static fun t : ShareTransfer => (t.donor, t.id) := fun _ => rfl
    have hsub := h.ledger.observe_releasing_sublist held now tm hstatic
    have := (hsub.filter fun k => k.1 = d).map Prod.snd
    simpa [filter_map, map_map, Function.comp_def, givers, filter_filter,
      and_comm] using this
  refine { ids := hd.ids.next (.observe held now tm) trivial, nodup := hd.nodup
           order := horder.trans hd.order, started := ?_, read := ?_, below := ?_ }
  · intro t ht
    rcases (hcounted t).mp ht with ht | ht
    · exact hd.started t ht
    · obtain ⟨r, -, -, hid, hgiver, -⟩ := h.ledger.exists_row_of_countedOf held now tm d ht
      exact hid ▸ hd.order.subset (mem_map_of_mem hgiver)
  · intro hstarted
    rw [hlevels]
    simp [hd.read hstarted]
  · intro hnever pre x post hsplit hpre
    have hstarted : h.startsOf d = pre ++ x :: post := hsplit
    have hb : Below d h x post := by
      refine hd.below (neverRises_of_append hlevels hnever) pre x post hsplit
        fun y hy hmem => hpre y hy ?_
      obtain ⟨t, ht, hid⟩ := mem_map.mp hmem
      exact mem_map.mpr ⟨t, (hcounted t).mpr (.inl ht), hid⟩
    have hread : h.levels d ≠ [] := hd.read (by simp [hstarted])
    have hlevel : ∀ v, ((h.next (.observe held now tm)).levels d).getLast? = some v →
        ((h.next (.observe held now tm)).countedGPUs d : Int) + v ≤ x.donorBase := by
      by_cases hnone : h.ledger.countedOf held now tm d = []
      · rw [hnone, gives_nil] at hgpus
        exact level_of_append hb hread hgpus hlevels hnever
      -- something new is counted, so the reading shows the donor and is its last level
      obtain ⟨t, ht⟩ := exists_mem_of_ne_nil _ hnone
      obtain ⟨-, -, -, -, -, hheld⟩ := h.ledger.exists_row_of_countedOf held now tm d ht
      have hle := h.ledger.gives_countedOf_le hne
        (p := fun id => id ∈ (x :: post).map (·.id)) (b := x.donorBase - h.countedGPUs d)
        (hd.upward hstarted) ?_ (hg hheld).2.2 ?_ hnone
      · intro v hv
        rw [hlevels, find?_of_has hheld] at hv
        have hv : held.get d = v := by simpa using hv
        rw [hgpus]
        push_cast
        omega
      · intro g hgiver hnot hmem
        have hgid := hd.order.subset (mem_map_of_mem hgiver)
        rw [hstarted, map_append, mem_append] at hgid
        rcases hgid with hgid | hgid
        · obtain ⟨y, hy, hyid⟩ := mem_map.mp hgid
          obtain ⟨w, hw, hwid⟩ := mem_map.mp hmem
          exact hpre y hy (mem_map.mpr ⟨w, (hcounted w).mpr (.inr hw), hwid.trans hyid.symm⟩)
        · exact of_decide_eq_false hnot hgid
      · intro u hu hid
        have := hb.later u hu (of_decide_eq_true hid)
        omega
    refine ⟨hlevel, ?_⟩
    intro u hu hid
    obtain ⟨w, hw, hwid, hle, hfall⟩ := h.ledger.base_of_releasing hd.ids.nodup
      (fun hheld => (hg hheld).2.1) hu
    have hlater := hb.later w hw (hwid ▸ hid)
    by_cases hheld : held.has d = true
    · rcases (hg hheld).1 w hw with hbefore | hbase
      · have := hfall hbefore
        rw [hgpus]
        push_cast
        omega
      · have := hlevel (held.get d) (by rw [hlevels, find?_of_has hheld]; simp)
        omega
    · have hnone : h.ledger.countedOf held now tm d = [] := by
        rw [eq_nil_iff_forall_not_mem]
        intro t ht
        exact hheld (h.ledger.exists_row_of_countedOf held now tm d ht).choose_spec.2.2.2.2
      rw [hgpus, hnone, gives_nil]
      omega

theorem next (hd : Donor d h) (hne : d ≠ "") {op : LedgerOp} (hg : DonorGuard d h op) :
    Donor d (h.next op) := by
  have hids := hd.ids.next op hg.ids
  by_cases hop : op.minor = true
  · obtain ⟨hs, -, he, hends, hr, -, -, -⟩ := h.minor_record hop
    refine hd.of_givers hids ?_ ?_ [] ?_ (givers_map_sublist d (h.minor_transfers ?_ hop))
    · rw [startsOf, startsOf, hs]
    · rw [counted, counted, he, hends]
    · rw [levels, levels, hr, append_nil]
    · intro t t' ht
      cases ht <;> rfl
  cases op with
  | start t salt held now tm =>
    have hl := ShareLedger.eq_of_withoutMoves (h.ledger.start_withoutMoves now tm t salt held)
    exact hd.of_start (t := h.ledger.admitted t salt held now tm) hids hl.1 rfl rfl rfl rfl
      (hd.ids.fresh _ _ _ (Nat.lt_succ_self _)) rfl rfl hg
  | restore t heldDonor =>
    refine hd.of_start (t := ShareLedger.restored t heldDonor) hids rfl rfl rfl rfl rfl hg.1 rfl
      ?_ ?_
    · exact (get_singleton t.donor heldDonor).symm
    · rintro rfl
      exact has_singleton ..
  | startFill receiver variant gpus urgent salt held now tm =>
    refine hd.of_givers hids rfl ?_ [] (append_nil _).symm ?_
    · simp only [counted, History.next, filter_append]
      simp [ShareLedger.idleFill, Ne.symm hne]
    · change ((givers d (h.ledger.transfers ++ [_])).map _).Sublist _
      rw [givers_append, givers_cons_of_neg _ (by rintro ⟨hstate, -⟩; cases hstate)]
      simp [givers]
  | linkSet primary contributors =>
    refine hd.of_givers hids rfl rfl [] (append_nil _).symm (givers_map_sublist d ?_)
    change ((h.ledger.linkSet primary contributors).transfers.map _).Sublist _
    rw [h.ledger.linkSet_map fun _ _ _ => rfl]
  | observe held now tm => exact hd.observe hne hg
  | cancel | forget | redirect | plannedRunning | receiverFilled | takeReleased =>
    exact absurd rfl hop

end Donor

/-- In every run whose steps meet `DonorGuard`, a donor whose count never rises has fallen,
since the first of its counted transfers started, by at least the GPUs counted as released. -/
theorem counted_le_fall (incarnation d : String) (hd : d ≠ "") (ops : List LedgerOp)
    (hrun : Keeps History.next (DonorGuard d) (.init incarnation) ops)
    (hnever : (run incarnation ops).NeverRises d) :
    ∀ f v, (run incarnation ops).firstCounted d = some f →
      ((run incarnation ops).levels d).getLast? = some v →
      ((run incarnation ops).countedGPUs d : Int) ≤ f.donorBase - v := by
  have hdonor : Donor d (run incarnation ops) :=
    hrun.invariant (Donor d) (fun _ _ hs hg => hs.next hd hg) (.init incarnation)
  intro f v hf hv
  obtain ⟨-, pre, post, hsplit, hpre⟩ := find?_eq_some_iff_append.mp hf
  have hb := hdonor.below hnever pre f post hsplit fun y hy => by simpa using hpre y hy
  have := hb.level v hv
  omega

/-- Two transfers of donor `a`, one of them the primary of a set, and their cycles. -/
def donorOps (tm : ShareTimings) (started : List Int) (seen : List Held) : List LedgerOp :=
  let held : Held := GoMap.ofList [("a", 16), ("e", 16), ("r", 0)]
  [.start { donor := "a", receiver := "r", gpus := 16, donorGPUs := 8, setID := "pending" } ""
      held 0 tm,
    .start { donor := "e", donorGPUs := 8, setID := "pending" } "" held 0 tm,
    .linkSet "i-t1-" ["i-t2-"]] ++
  started.map (fun now =>
    .start { donor := "a", receiver := "r", gpus := 8, donorGPUs := 8 } "" held now tm) ++
  seen.map fun held => .observe held 10 tm

/-- Both donors give for the set, then `a` gives for its second transfer: 16 of 16 counted. -/
theorem counted_le_fall_two :
    let tm : ShareTimings := { window := 5, releaseTimeout := 20, fillTimeout := 10 }
    let seen : List Held := [GoMap.ofList [("a", 8), ("e", 8), ("r", 0)],
      GoMap.ofList [("a", 0), ("e", 8), ("r", 0)]]
    (run "i" (donorOps tm [1] seen)).countedGPUs "a" = 16 ∧
      ∀ f v, (run "i" (donorOps tm [1] seen)).firstCounted "a" = some f →
        ((run "i" (donorOps tm [1] seen)).levels "a").getLast? = some v →
        ((run "i" (donorOps tm [1] seen)).countedGPUs "a" : Int) ≤ f.donorBase - v := by
  intro tm seen
  exact ⟨by decide, counted_le_fall "i" "a" (by decide) (donorOps tm [1] seen) (by decide)
    (by decide)⟩

/-- A primary aborted after its donor released does not move the bases of the donor's other
transfers: the same 8 GPUs are counted for both. -/
theorem counted_twice :
    ∃ ops, (run "i" ops).NeverRises "a" ∧
      ∃ f v, (run "i" ops).firstCounted "a" = some f ∧
        ((run "i" ops).levels "a").getLast? = some v ∧
        f.donorBase - v < ((run "i" ops).countedGPUs "a" : Int) := by
  let tm : ShareTimings := { window := 5, releaseTimeout := 10, fillTimeout := 10 }
  let seen : Held := GoMap.ofList [("a", 8), ("e", 16), ("r", 0)]
  refine ⟨donorOps tm [1] [seen, seen], by decide, ?_⟩
  have hbase : ((run "i" (donorOps tm [1] [seen, seen])).firstCounted "a").map (·.donorBase) =
      some 16 := by decide
  obtain ⟨f, hf, hf16⟩ := Option.map_eq_some_iff.mp hbase
  refine ⟨f, 8, hf, by decide, ?_⟩
  rw [hf16]
  decide

end History

end LlmScaler.Ledger
