/-
# Detaching and attaching

Dequeueing and dropping take units out of their lists and do nothing else to the round
robin: `Shed q q'` says that some units were detached between `q` and `q'`, that all the
others kept their place, and that no weight and no deficit changed.  `Grown q q'` is the
other direction: units were attached at the tails of the lists, and those that were
attached before did not notice.
-/
import OpenwrtAc.TbqEffects

open Outcome MachineInt

namespace Tbq

/-- The round robin is the same. -/
structure SameTurns (q q' : QueueState) : Prop extends SameLinks q q' where
  weight : ∀ x, (q'.unit x).weight = (q.unit x).weight
  deficit : ∀ x, (q'.unit x).drrDeficit = (q.unit x).drrDeficit

/-- A step that changes nothing takes no turn. -/
theorem SameTurns.refl (q : QueueState) : SameTurns q q :=
  ⟨.refl q, fun _ => rfl, fun _ => rfl⟩

/-- Steps that take no turn compose. -/
theorem SameTurns.trans {q q' q'' : QueueState} (h : SameTurns q q') (h' : SameTurns q' q'') :
    SameTurns q q'' :=
  ⟨h.toSameLinks.trans h'.toSameLinks, fun x => (h'.weight x).trans (h.weight x),
    fun x => (h'.deficit x).trans (h.deficit x)⟩

/-- Counters, packets and lists of the call have no part in the round robin. -/
theorem SameTurns.of_unit {q q' : QueueState} (hunit : q'.unit = q.unit)
    (hunits : ∀ X, (q'.bl X).units = (q.bl X).units) : SameTurns q q' := by
  refine ⟨⟨fun x => ?_, fun x => ?_, hunits⟩, fun x => ?_, fun x => ?_⟩
  · rw [hunit]
  · rw [hunit]
  · rw [hunit]
  · rw [hunit]

/-- Some units were detached, and nothing else happened to the round robin. -/
structure Shed (q q' : QueueState) : Prop where
  links : Links q'
  tc : ∀ x, (q'.unit x).tc = none ∨ (q'.unit x).tc = (q.unit x).tc
  weight : ∀ x, (q'.unit x).weight = (q.unit x).weight
  deficit : ∀ x, (q'.unit x).drrDeficit = (q.unit x).drrDeficit
  units : ∀ X, (q'.bl X).units = (q.bl X).units.filter fun x => (q'.unit x).tc = some X

namespace Shed

variable {q q' q'' : QueueState}

/-- Where no turn is taken nobody is detached. -/
theorem of_same (h : Links q) (hs : SameTurns q q') : Shed q q' := by
  refine ⟨h.congr hs.toSameLinks, fun x => .inr (hs.tc x), hs.weight, hs.deficit, fun X => ?_⟩
  rw [hs.units]
  refine (List.filter_eq_self.mpr fun x hx => ?_).symm
  rw [decide_eq_true_eq, hs.tc]
  exact (h.units X x).mp hx

/-- A step that changes nothing detaches nobody. -/
theorem refl (h : Links q) : Shed q q := of_same h (.refl q)

/-- Steps that only detach compose. -/
theorem trans (h : Shed q q') (h' : Shed q' q'') : Shed q q'' := by
  refine ⟨h'.links, fun x => ?_, fun x => (h'.weight x).trans (h.weight x),
    fun x => (h'.deficit x).trans (h.deficit x), fun X => ?_⟩
  · rcases h'.tc x with h₁ | h₁
    · exact .inl h₁
    · rw [h₁]
      exact h.tc x
  · rw [h'.units, h.units, List.filter_filter]
    apply List.filter_congr
    intro x _
    rw [← Bool.decide_and, decide_eq_decide]
    refine ⟨fun hx => hx.1, fun hx => ⟨hx, ?_⟩⟩
    rcases h'.tc x with h₁ | h₁
    · rw [h₁] at hx
      cases hx
    · rwa [← h₁]

/-- What is attached afterwards was attached before, to the same token control. -/
theorem attached (h : Shed q q') {x : UnitId} {X : TcId} (hx : (q'.unit x).tc = some X) :
    (q.unit x).tc = some X := by
  rcases h.tc x with h₁ | h₁
  · rw [h₁] at hx
    cases hx
  · rwa [← h₁]

end Shed

/-- Unlinking detaches only. -/
theorem Links.unlink_shed {q : QueueState} (h : Links q) (x : UnitId) : Shed q (unlink q x) := by
  refine ⟨h.unlink_links x, fun y => ?_, fun y => ?_, fun y => ?_, fun X => ?_⟩
  · rw [unlink_tc]
    split
    · exact .inl rfl
    · exact .inr rfl
  · by_cases hy : y = x
    · simp [unlink, hy]
    · rw [unlink, setUnit_of_ne _ _ hy, Links.listDel_unit]
  · by_cases hy : y = x
    · simp [unlink, hy]
    · rw [unlink, setUnit_of_ne _ _ hy, Links.listDel_unit]
  · rw [h.unlink_units, (h.nodup X).erase_eq_filter]
    apply List.filter_congr
    intro y hy
    have htc := (h.units X y).mp hy
    rw [unlink_tc]
    by_cases hyx : y = x <;> simp [hyx, htc]

/-- Draining detaches nobody. -/
theorem Links.drain_shed {q : QueueState} (h : Links q) (x : UnitId) (n : ℕ) :
    Shed q (drain q x n) := by
  have hset : Shed q (q.setUnit x { q.unit x with octets := (q.unit x).octets - n }) := by
    refine .of_same h ⟨drain_sameLinks q x n, fun y => ?_, fun y => ?_⟩
    · by_cases hy : y = x
      · subst hy
        simp
      · rw [setUnit_of_ne _ _ hy]
    · by_cases hy : y = x
      · subst hy
        simp
      · rw [setUnit_of_ne _ _ hy]
  unfold drain
  by_cases h0 : (q.unit x).octets - n = 0
  · simp only [if_pos h0]
    exact hset.trans ((h.congr (drain_sameLinks q x n)).unlink_shed x)
  · simp only [if_neg h0]
    exact hset

/-- Detaching a flow detaches only. -/
theorem Links.detachedFlow_shed {q : QueueState} (h : Links q) (r : UserRef) (f : FlowId)
    (d : Dir) :
    Shed q (detachedFlow q r f d) :=
  (h.drain_shed _ _).trans ((h.drain_links _ _).unlink_shed _)

/-- Taking a packet out of its flow detaches the flow, its user entry or neither. -/
theorem Links.takePacket_shed {q q' : QueueState} (h : Links q) {f : FlowId} {d : Dir} {p : Packet}
    {rest : List Packet} (hq : takePacket q f d p rest = .ok q') : Shed q q' := by
  obtain ⟨r, -, -, -, hup⟩ := h.takePacket_iff.mp hq
  obtain ⟨hup, -⟩ := packetCtrlBacklogUpdate_ok hup
  have hdrain : Shed q (drain (drain q (.user r) p.pktLen) (.flow f d) p.pktLen) :=
    (h.drain_shed _ _).trans ((h.drain_links _ _).drain_shed _ _)
  refine hdrain.trans (.of_same hdrain.links (.of_unit ?_ hup.units))
  rw [hup.frame]
  rfl

/-! ## Attaching -/

/-- Some units were attached at the tails of the lists, or set up while they were detached. -/
structure Grown (q q' : QueueState) : Prop where
  kept : ∀ x, (q.unit x).tc ≠ none → (q'.unit x).tc = (q.unit x).tc
    ∧ (q'.unit x).weight = (q.unit x).weight ∧ (q'.unit x).drrDeficit = (q.unit x).drrDeficit
  units : ∀ X, ∃ l, (q'.bl X).units = (q.bl X).units ++ l

namespace Grown

variable {q q' q'' : QueueState}

/-- Where no turn is taken nobody is added. -/
theorem of_same (h : SameTurns q q') : Grown q q' :=
  ⟨fun x _ => ⟨h.tc x, h.weight x, h.deficit x⟩, fun X => ⟨[], by rw [h.units, List.append_nil]⟩⟩

/-- Only detached units changed. -/
theorem of_detached (hkept : ∀ x, (q.unit x).tc ≠ none → q'.unit x = q.unit x)
    (hunits : ∀ X, (q'.bl X).units = (q.bl X).units) : Grown q q' := by
  refine ⟨fun x hx => ?_, fun X => ⟨[], by rw [hunits, List.append_nil]⟩⟩
  rw [hkept x hx]
  exact ⟨rfl, rfl, rfl⟩

/-- A step that changes nothing adds nobody. -/
theorem refl (q : QueueState) : Grown q q := of_same (.refl q)

/-- Steps that only add compose. -/
theorem trans (h : Grown q q') (h' : Grown q' q'') : Grown q q'' := by
  refine ⟨fun x hx => ?_, fun X => ?_⟩
  · obtain ⟨h₁, h₂, h₃⟩ := h.kept x hx
    obtain ⟨h₄, h₅, h₆⟩ := h'.kept x (by rwa [h₁])
    exact ⟨h₄.trans h₁, h₅.trans h₂, h₆.trans h₃⟩
  · obtain ⟨l, hl⟩ := h.units X
    obtain ⟨l', hl'⟩ := h'.units X
    exact ⟨l ++ l', by rw [hl', hl, List.append_assoc]⟩

end Grown

/-- A link appends the unit to one list. -/
theorem link_units (q : QueueState) (x : UnitId) (X Y : TcId) :
    ((link q x X).bl Y).units = (q.bl Y).units ++ if Y = X then [x] else [] := by
  unfold link
  rw [setUnit_bl]
  by_cases hY : Y = X
  · subst hY
    simp
  · rw [setUnits_of_ne _ _ hY, if_neg hY, List.append_nil]

/-- Linking a unit that is detached, with whatever weight it is given. -/
theorem link_grown {q : QueueState} {x : UnitId} (X : TcId) (hx : (q.unit x).tc = none) (w : ℕ) :
    Grown q ((link q x X).setUnit x { (link q x X).unit x with weight := w }) := by
  refine ⟨fun y hy => ?_, fun Y => ⟨_, link_units q x X Y⟩⟩
  have hne : y ≠ x := by
    rintro rfl
    exact hy hx
  rw [setUnit_of_ne _ _ hne, link, setUnit_of_ne _ _ hne, setUnits_unit]
  exact ⟨rfl, rfl, rfl⟩

/-- Linking a detached unit adds only. -/
theorem link_grown_self {q : QueueState} {x : UnitId} (X : TcId) (hx : (q.unit x).tc = none) :
    Grown q (link q x X) := by
  have hg := link_grown X hx ((link q x X).unit x).weight
  rwa [show (link q x X).setUnit x { (link q x X).unit x with
    weight := ((link q x X).unit x).weight } = link q x X from by
      simp [QueueState.setUnit, Function.update_eq_self]] at hg

/-- Counting octets up takes no turn. -/
theorem sameTurns_backlogEnqueue (q : QueueState) (x : UnitId) (n : ℕ) :
    SameTurns q (backlogEnqueue q x n) := by
  refine ⟨sameLinks_backlogEnqueue q x n, fun y => ?_, fun y => ?_⟩
  · by_cases hy : y = x
    · subst hy
      simp [backlogEnqueue]
    · rw [backlogEnqueue, setUnit_of_ne _ _ hy]
  · by_cases hy : y = x
    · subst hy
      simp [backlogEnqueue]
    · rw [backlogEnqueue, setUnit_of_ne _ _ hy]

/-- A flow that is attached finds its place behind the others, and so does its user. -/
theorem attachedFlow_grown (pending : List TcId) {q : QueueState} {f : FlowId} {d : Dir}
    (r : UserRef) (htc : (q.unit (.flow f d)).tc = none) :
    Grown q (attachedFlow pending q f d r) := by
  have huser : Grown q (userAttached pending q r) := by
    unfold userAttached
    by_cases hc : r.bucket ∈ pending ∧ (q.unit (.user r)).tc = none
    · rw [if_pos hc]
      exact link_grown_self r.bucket hc.2
    · rw [if_neg hc]
      exact .refl q
  refine (huser.trans (.of_same (sameTurns_backlogEnqueue _ (.user r) _))).trans
    (link_grown (.user r) ?_ _)
  rw [backlogEnqueue, setUnit_of_ne _ _ (by intro e; cases e), userAttached_flow_unit, htc]

end Tbq
