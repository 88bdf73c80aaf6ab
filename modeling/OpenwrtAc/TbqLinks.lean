/-
# The links between backlog units and token controls

A unit keeps the token control it waits for in `tb->tc` and is at the same time a
node of that token control's list `tc->backlog.units`.  `Links` says that the two
agree, that a flow waits only for a token control of its own user and a user only
for the bucket of its rule.  The operations on units are equations under it: the
assertions of `tbq_backlog_attached` never fail.
-/
import OpenwrtAc.TbqSched

open Outcome MachineInt

namespace Tbq

/-- A unit may wait for a token control: a flow for a rule of its user in its own
direction, a user for its bucket. -/
def Compat : UnitId → TcId → Prop
  | .flow f d, .user r => r.u = f.user ∧ r.d = d
  | .user r, X => X = r.bucket
  | _, _ => False

/-- The pointers of the units and the lists of the token controls agree. -/
structure Links (q : QueueState) : Prop where
  linked : ∀ x, (q.unit x).linked = (q.unit x).tc.isSome
  units : ∀ X x, x ∈ (q.bl X).units ↔ (q.unit x).tc = some X
  nodup : ∀ X, (q.bl X).units.Nodup
  compat : ∀ x X, (q.unit x).tc = some X → Compat x X

/-! ## Field lemmas -/

section Fields

variable (q : QueueState)

@[simp] theorem setUnit_self (x : UnitId) (b : Backlog) : (q.setUnit x b).unit x = b := by
  simp [QueueState.setUnit]

/-- Writing one unit leaves the others alone. -/
theorem setUnit_of_ne {x y : UnitId} (b : Backlog) (h : y ≠ x) :
    (q.setUnit x b).unit y = q.unit y := by
  simp [QueueState.setUnit, h]

@[simp] theorem setUnit_bl (x : UnitId) (b : Backlog) : (q.setUnit x b).bl = q.bl := rfl

@[simp] theorem setUnit_packets (x : UnitId) (b : Backlog) :
    (q.setUnit x b).packets = q.packets := rfl

@[simp] theorem setBl_unit (X : TcId) (b : TcBacklog) : (q.setBl X b).unit = q.unit := rfl

@[simp] theorem setBl_self (X : TcId) (b : TcBacklog) : (q.setBl X b).bl X = b := by
  simp [QueueState.setBl]

/-- Writing one control's backlog leaves the others alone. -/
theorem setBl_of_ne {X Y : TcId} (b : TcBacklog) (h : Y ≠ X) :
    (q.setBl X b).bl Y = q.bl Y := by
  simp [QueueState.setBl, h]

@[simp] theorem setUnits_unit (X : TcId) (l : List UnitId) :
    (q.setUnits X l).unit = q.unit := rfl

@[simp] theorem setUnits_self (X : TcId) (l : List UnitId) :
    ((q.setUnits X l).bl X).units = l := by
  simp [QueueState.setUnits]

/-- Writing one list leaves the others alone. -/
theorem setUnits_of_ne {X Y : TcId} (l : List UnitId) (h : Y ≠ X) :
    (q.setUnits X l).bl Y = q.bl Y := by
  simp [QueueState.setUnits, QueueState.setBl, h]

/-- The totals of a token control do not change with its list. -/
@[simp] theorem setUnits_octets (X Y : TcId) (l : List UnitId) :
    ((q.setUnits X l).bl Y).octets = (q.bl Y).octets := by
  by_cases h : Y = X
  · subst h; simp [QueueState.setUnits]
  · rw [setUnits_of_ne q l h]

@[simp] theorem setUnits_weight (X Y : TcId) (l : List UnitId) :
    ((q.setUnits X l).bl Y).weight = (q.bl Y).weight := by
  by_cases h : Y = X
  · subst h; simp [QueueState.setUnits]
  · rw [setUnits_of_ne q l h]

@[simp] theorem setPackets_unit (f : FlowId) (d : Dir) (l : List Packet) :
    (q.setPackets f d l).unit = q.unit := rfl

@[simp] theorem setPackets_bl (f : FlowId) (d : Dir) (l : List Packet) :
    (q.setPackets f d l).bl = q.bl := rfl

@[simp] theorem setPackets_self (f : FlowId) (d : Dir) (l : List Packet) :
    (q.setPackets f d l).packets f d = l := by
  simp [QueueState.setPackets]

/-- Writing the packets of one direction of a flow leaves the others alone. -/
theorem setPackets_of_ne {f g : FlowId} {d e : Dir} (l : List Packet) (h : ¬ (g = f ∧ e = d)) :
    (q.setPackets f d l).packets g e = q.packets g e := by
  by_cases hg : g = f
  · subst hg
    have he : e ≠ d := fun he => h ⟨rfl, he⟩
    simp [QueueState.setPackets, he]
  · simp [QueueState.setPackets, hg]

end Fields

/-! ## Equal links -/

/-- Two states with the same links; counters, weights and packets may differ. -/
structure SameLinks (q q' : QueueState) : Prop where
  tc : ∀ x, (q'.unit x).tc = (q.unit x).tc
  linked : ∀ x, (q'.unit x).linked = (q.unit x).linked
  units : ∀ X, (q'.bl X).units = (q.bl X).units

/-- A queue has the links it has. -/
theorem SameLinks.refl (q : QueueState) : SameLinks q q :=
  ⟨fun _ => rfl, fun _ => rfl, fun _ => rfl⟩

/-- Having the same links is transitive. -/
theorem SameLinks.trans {q q' q'' : QueueState} (h : SameLinks q q') (h' : SameLinks q' q'') :
    SameLinks q q'' :=
  ⟨fun x => (h'.tc x).trans (h.tc x), fun x => (h'.linked x).trans (h.linked x),
    fun X => (h'.units X).trans (h.units X)⟩

/-- The invariant speaks of the links only. -/
theorem Links.congr {q q' : QueueState} (h : Links q) (hs : SameLinks q q') : Links q' := by
  refine ⟨fun x => ?_, fun X x => ?_, fun X => ?_, fun x X hX => ?_⟩
  · rw [hs.linked, hs.tc, h.linked]
  · rw [hs.units, hs.tc, h.units]
  · rw [hs.units]
    exact h.nodup X
  · rw [hs.tc] at hX
    exact h.compat x X hX

/-- Changing a unit without touching its links. -/
theorem sameLinks_setUnit {q : QueueState} {x : UnitId} {b : Backlog}
    (htc : b.tc = (q.unit x).tc) (hl : b.linked = (q.unit x).linked) :
    SameLinks q (q.setUnit x b) := by
  refine ⟨fun y => ?_, fun y => ?_, fun X => rfl⟩
  · by_cases hy : y = x
    · subst hy; simp [htc]
    · rw [setUnit_of_ne q b hy]
  · by_cases hy : y = x
    · subst hy; simp [hl]
    · rw [setUnit_of_ne q b hy]

/-- Packets are no part of the links. -/
theorem sameLinks_setPackets (q : QueueState) (f : FlowId) (d : Dir) (l : List Packet) :
    SameLinks q (q.setPackets f d l) :=
  ⟨fun _ => rfl, fun _ => rfl, fun _ => rfl⟩

/-! ## Attaching and detaching -/

namespace Links

variable {q : QueueState}

/-- The assertions of `tbq_backlog_attached` hold. -/
theorem attached_eq (h : Links q) (x : UnitId) :
    backlogAttached q x = .ok (q.unit x).tc.isSome := by
  unfold backlogAttached
  have hl := h.linked x
  cases htc : (q.unit x).tc with
  | none =>
      rw [htc] at hl
      rw [if_neg (by simp [htc]), stopIf_of_not (by simp [hl])]
      rfl
  | some X =>
      rw [htc] at hl
      rw [if_pos (by simp [htc]), stopIf_of_not (by simp [hl])]
      rfl

/-- What attaching computes: nothing on an attached unit, a link otherwise. -/
theorem attach_eq (h : Links q) (x : UnitId) (X : TcId) :
    backlogAttach q x X = .ok (if (q.unit x).tc.isSome then q else link q x X) := by
  unfold backlogAttach
  rw [h.attached_eq x]
  cases (q.unit x).tc <;> rfl

/-- Unlinking a detached unit changes nothing. -/
theorem setUnit_eta (h : Links q) {x : UnitId} (hx : (q.unit x).tc = none) : unlink q x = q := by
  have hl := h.linked x
  rw [hx] at hl
  have hb : ({ q.unit x with tc := none, linked := false } : Backlog) = q.unit x := by
    cases hu : q.unit x
    rw [hu] at hx hl
    simp_all
  have hq : listDel q x = q := by
    unfold listDel
    rw [hx]
  simp only [unlink, hb, hq, QueueState.setUnit, Function.update_eq_self]

/-- Detaching is unlinking. -/
theorem detach_eq (h : Links q) (x : UnitId) : backlogDetach q x = .ok (unlink q x) := by
  unfold backlogDetach
  rw [h.attached_eq x]
  cases htc : (q.unit x).tc with
  | none => rw [h.setUnit_eta htc]; rfl
  | some X => rfl

/-- Linking a detached unit at its own level keeps the invariant. -/
theorem link_links (h : Links q) {x : UnitId} {X : TcId} (hx : (q.unit x).tc = none)
    (hc : Compat x X) : Links (link q x X) := by
  -- a unit that is not linked stands in no list
  have hnew : ∀ Y, x ∉ (q.bl Y).units := by
    intro Y hY
    rw [h.units, hx] at hY
    cases hY
  refine ⟨fun y => ?_, fun Y y => ?_, fun Y => ?_, fun y Y hY => ?_⟩
  · by_cases hy : y = x
    · subst hy; simp [link]
    · rw [link, setUnit_of_ne _ _ hy]
      exact h.linked y
  · have hbl : ((link q x X).bl Y).units
        = if Y = X then (q.bl X).units ++ [x] else (q.bl Y).units := by
      by_cases hYX : Y = X
      · subst hYX; simp [link]
      · simp [link, setUnits_of_ne _ _ hYX, hYX]
    rw [hbl]
    by_cases hy : y = x
    · subst hy
      by_cases hYX : Y = X
      · subst hYX; simp [link]
      · simp only [if_neg hYX, link, setUnit_self, Option.some.injEq]
        exact ⟨fun hm => absurd hm (hnew Y), fun he => absurd he.symm hYX⟩
    · rw [link, setUnit_of_ne _ _ hy, setUnits_unit]
      by_cases hYX : Y = X
      · subst hYX
        simp [hy, h.units]
      · simp only [if_neg hYX]
        exact h.units Y y
  · by_cases hYX : Y = X
    · subst hYX
      have : ((link q x Y).bl Y).units = (q.bl Y).units ++ [x] := by simp [link]
      rw [this]
      refine (h.nodup Y).append (List.nodup_singleton x) ?_
      intro z hz hzx
      rw [List.mem_singleton.mp hzx] at hz
      exact hnew Y hz
    · have : ((link q x X).bl Y).units = (q.bl Y).units := by
        simp [link, setUnits_of_ne _ _ hYX]
      rw [this]
      exact h.nodup Y
  · by_cases hy : y = x
    · subst hy
      simp only [link, setUnit_self, Option.some.injEq] at hY
      subst hY
      exact hc
    · rw [link, setUnit_of_ne _ _ hy] at hY
      exact h.compat y Y hY

@[simp] theorem listDel_unit (q : QueueState) (x : UnitId) : (listDel q x).unit = q.unit := by
  unfold listDel
  cases (q.unit x).tc <;> rfl

/-- Taking a unit off its list erases it from every list, as it stands in one only. -/
theorem listDel_units (h : Links q) (x : UnitId) (X : TcId) :
    ((listDel q x).bl X).units = (q.bl X).units.erase x := by
  unfold listDel
  cases htc : (q.unit x).tc with
  | none =>
      rw [List.erase_of_not_mem]
      rw [h.units, htc]
      simp
  | some Y =>
      by_cases hXY : X = Y
      · subst hXY
        simp
      · simp only [setUnits_of_ne _ _ hXY]
        rw [List.erase_of_not_mem]
        rw [h.units, htc, Option.some.injEq]
        exact fun e => hXY e.symm

/-- What unlinking does to the pointers. -/
theorem unlink_tc (q : QueueState) (x y : UnitId) :
    ((unlink q x).unit y).tc = if y = x then none else (q.unit y).tc := by
  by_cases hy : y = x
  · subst hy
    simp [unlink]
  · rw [if_neg hy, unlink, setUnit_of_ne _ _ hy, listDel_unit]

/-- Unlinking erases the unit from every list. -/
theorem unlink_units (h : Links q) (x : UnitId) (X : TcId) :
    ((unlink q x).bl X).units = (q.bl X).units.erase x := by
  rw [unlink, setUnit_bl, h.listDel_units]

/-- Unlinking keeps the invariant. -/
theorem unlink_links (h : Links q) (x : UnitId) : Links (unlink q x) := by
  refine ⟨fun y => ?_, fun Y y => ?_, fun Y => ?_, fun y Y hY => ?_⟩
  · by_cases hy : y = x
    · subst hy; simp [unlink]
    · rw [unlink, setUnit_of_ne _ _ hy, listDel_unit]
      exact h.linked y
  · rw [h.unlink_units, unlink_tc, (h.nodup Y).mem_erase_iff, h.units]
    by_cases hy : y = x
    · simp [hy]
    · simp [hy]
  · rw [h.unlink_units]
    exact (h.nodup Y).erase x
  · rw [unlink_tc] at hY
    by_cases hy : y = x
    · simp [hy] at hY
    · rw [if_neg hy] at hY
      exact h.compat y Y hY

end Links

/-! ## Taking octets out of a unit -/

/-- The effect of `tbq_backlog_dequeue` when its assertion holds. -/
def drain (q : QueueState) (x : UnitId) (octets : ℕ) : QueueState :=
  let q' := q.setUnit x { q.unit x with octets := (q.unit x).octets - octets }
  if (q.unit x).octets - octets = 0 then unlink q' x else q'

/-- Counting octets down leaves the links. -/
theorem drain_sameLinks (q : QueueState) (x : UnitId) (n : ℕ) :
    SameLinks q (q.setUnit x { q.unit x with octets := (q.unit x).octets - n }) :=
  sameLinks_setUnit rfl rfl

/-- What taking octets computes where the unit has as many. -/
theorem Links.dequeue_eq {q : QueueState} (h : Links q) {x : UnitId} {n : ℕ}
    (hn : n ≤ (q.unit x).octets) : backlogDequeue q x n = .ok (drain q x n) := by
  unfold backlogDequeue drain
  dsimp only
  rw [stopIf_of_not (by omega)]
  simp only [setUnit_self]
  by_cases h0 : (q.unit x).octets - n = 0
  · simp only [if_pos h0]
    exact (h.congr (drain_sameLinks q x n)).detach_eq x
  · simp only [if_neg h0]
    rfl

/-- Taking octets succeeds only where the unit has as many. -/
theorem Links.dequeue_ok {q q' : QueueState} (h : Links q) {x : UnitId} {n : ℕ}
    (hq : backlogDequeue q x n = .ok q') : n ≤ (q.unit x).octets ∧ q' = drain q x n := by
  have hn : n ≤ (q.unit x).octets := by
    by_contra hlt
    unfold backlogDequeue at hq
    dsimp only at hq
    rw [stopIf_of (by omega)] at hq
    cases hq
  rw [h.dequeue_eq hn] at hq
  exact ⟨hn, (Except.ok.inj hq).symm⟩

/-- Draining a unit keeps the invariant. -/
theorem Links.drain_links {q : QueueState} (h : Links q) (x : UnitId) (n : ℕ) :
    Links (drain q x n) := by
  have h' := h.congr (drain_sameLinks q x n)
  unfold drain
  by_cases h0 : (q.unit x).octets - n = 0
  · simp only [if_pos h0]
    exact h'.unlink_links x
  · simp only [if_neg h0]
    exact h'

/-- The unit itself after `drain`. -/
theorem drain_unit_self (q : QueueState) (x : UnitId) (n : ℕ) :
    (drain q x n).unit x = { q.unit x with
      octets := (q.unit x).octets - n
      tc := if (q.unit x).octets - n = 0 then none else (q.unit x).tc
      linked := if (q.unit x).octets - n = 0 then false else (q.unit x).linked } := by
  unfold drain
  by_cases h0 : (q.unit x).octets - n = 0
  · simp [h0, unlink]
  · simp [h0]

/-- Draining one unit leaves the others alone. -/
theorem drain_unit_of_ne (q : QueueState) {x y : UnitId} (n : ℕ) (h : y ≠ x) :
    (drain q x n).unit y = q.unit y := by
  unfold drain
  by_cases h0 : (q.unit x).octets - n = 0
  · simp only [if_pos h0, unlink]
    rw [setUnit_of_ne _ _ h, Links.listDel_unit, setUnit_of_ne _ _ h]
  · simp only [if_neg h0]
    rw [setUnit_of_ne _ _ h]

@[simp] theorem listDel_octets (q : QueueState) (x : UnitId) (X : TcId) :
    ((listDel q x).bl X).octets = (q.bl X).octets := by
  unfold listDel
  cases (q.unit x).tc <;> simp

@[simp] theorem listDel_weight (q : QueueState) (x : UnitId) (X : TcId) :
    ((listDel q x).bl X).weight = (q.bl X).weight := by
  unfold listDel
  cases (q.unit x).tc <;> simp

/-- Everything but the units and the lists of units. -/
structure SameRest (q q' : QueueState) : Prop where
  octets : ∀ X, (q'.bl X).octets = (q.bl X).octets
  weight : ∀ X, (q'.bl X).weight = (q.bl X).weight
  unitWeight : ∀ r, (q'.unit (.user r)).weight = (q.unit (.user r)).weight
  packets : q'.packets = q.packets
  flow : q'.flow = q.flow
  flows : q'.flows = q.flows
  users : q'.users = q.users
  userMask : q'.userMask = q.userMask
  backlogPackets : q'.backlogPackets = q.backlogPackets
  dq : q'.dq = q.dq

/-- A queue has the weights and the packets it has. -/
theorem SameRest.refl (q : QueueState) : SameRest q q :=
  ⟨fun _ => rfl, fun _ => rfl, fun _ => rfl, rfl, rfl, rfl, rfl, rfl, rfl, rfl⟩

/-- Having the same weights and packets is transitive. -/
theorem SameRest.trans {q q' q'' : QueueState} (h : SameRest q q') (h' : SameRest q' q'') :
    SameRest q q'' :=
  ⟨fun X => (h'.octets X).trans (h.octets X), fun X => (h'.weight X).trans (h.weight X),
    fun r => (h'.unitWeight r).trans (h.unitWeight r),
    h'.packets.trans h.packets, h'.flow.trans h.flow, h'.flows.trans h.flows,
    h'.users.trans h.users, h'.userMask.trans h.userMask,
    h'.backlogPackets.trans h.backlogPackets, h'.dq.trans h.dq⟩

/-- Writing a unit under its weight changes nothing else. -/
theorem sameRest_setUnit {q : QueueState} {x : UnitId} {b : Backlog}
    (hw : b.weight = (q.unit x).weight) : SameRest q (q.setUnit x b) := by
  refine ⟨fun _ => rfl, fun _ => rfl, fun r => ?_, rfl, rfl, rfl, rfl, rfl, rfl, rfl⟩
  by_cases hr : UnitId.user r = x
  · subst hr; simp [hw]
  · rw [setUnit_of_ne _ _ hr]

/-- The lists are no part of the rest. -/
theorem sameRest_setUnits (q : QueueState) (X : TcId) (l : List UnitId) :
    SameRest q (q.setUnits X l) :=
  ⟨fun Y => by simp, fun Y => by simp, fun _ => rfl, rfl, rfl, rfl, rfl, rfl, rfl, rfl⟩

/-- Taking a unit off its list changes nothing else. -/
theorem sameRest_listDel (q : QueueState) (x : UnitId) : SameRest q (listDel q x) := by
  unfold listDel
  cases (q.unit x).tc with
  | none => exact .refl q
  | some X => exact sameRest_setUnits q X _

/-- Unlinking changes nothing else. -/
theorem sameRest_unlink (q : QueueState) (x : UnitId) : SameRest q (unlink q x) :=
  (sameRest_listDel q x).trans (sameRest_setUnit (by simp))

/-- Linking changes nothing else. -/
theorem sameRest_link (q : QueueState) (x : UnitId) (X : TcId) : SameRest q (link q x X) :=
  (sameRest_setUnits q X _).trans (sameRest_setUnit rfl)

/-- Draining changes nothing else. -/
theorem sameRest_drain (q : QueueState) (x : UnitId) (n : ℕ) : SameRest q (drain q x n) := by
  unfold drain
  have h : SameRest q (q.setUnit x { q.unit x with octets := (q.unit x).octets - n }) :=
    sameRest_setUnit rfl
  by_cases h0 : (q.unit x).octets - n = 0
  · simp only [if_pos h0]
    exact h.trans (sameRest_unlink _ x)
  · simp only [if_neg h0]
    exact h

/-! ## The totals of one user and bucket -/

/-- The user's totals after `tbq_user_backlog_update`. -/
def updatedUser (b : TcBacklog) (pktLen weight : ℤ) : TcBacklog :=
  { b with octets := u32 (b.octets + pktLen), weight := (b.weight + weight).toNat }

/-- The bucket's totals after `tbq_user_backlog_update` of a user of weight `w`. -/
def updatedBucket (b user : TcBacklog) (w : ℕ) (pktLen weight : ℤ) : TcBacklog :=
  { b with
    octets := u32 (b.octets + pktLen)
    weight := b.weight + (if user.octets = 0 then w else 0)
      - (if (updatedUser user pktLen weight).octets = 0 then w else 0) }

/-- The first group of assertions of `tbq_user_backlog_update`. -/
def FirstOk (user : TcBacklog) (pktLen weight : ℤ) : Prop :=
  user.octets = 0 → user.weight = 0 ∧ 0 < weight ∧ 0 < pktLen

/-- The second group of assertions of `tbq_user_backlog_update`. -/
def LastOk (user : TcBacklog) (pktLen weight : ℤ) : Prop :=
  (updatedUser user pktLen weight).octets = 0 →
    (updatedUser user pktLen weight).weight = 0 ∧ weight < 0 ∧ pktLen < 0

/-- What the update of a user's sums computes under its two assertions. -/
theorem userBacklogUpdate_eq {q : QueueState} {r : UserRef} {pktLen weight : ℤ}
    (h₁ : FirstOk (q.bl (.user r)) pktLen weight) (h₂ : LastOk (q.bl (.user r)) pktLen weight) :
    userBacklogUpdate q r pktLen weight = .ok ((q.setBl r.bucket
      (updatedBucket (q.bl r.bucket) (q.bl (.user r)) (q.unit (.user r)).weight pktLen weight)).setBl
        (.user r) (updatedUser (q.bl (.user r)) pktLen weight)) := by
  unfold userBacklogUpdate
  dsimp only
  by_cases h0 : (q.bl (.user r)).octets = 0
  · obtain ⟨hw, hwp, hlp⟩ := h₁ h0
    rw [if_pos h0, stopIf_of_not (by omega)]
    by_cases h0' : (updatedUser (q.bl (.user r)) pktLen weight).octets = 0
    · obtain ⟨-, hwn, -⟩ := h₂ h0'
      omega
    · have h0'' : ¬ u32 (↑(q.bl (.user r)).octets + pktLen) = 0 := h0'
      simp only [pure_bind, if_neg h0'', updatedBucket, if_pos h0, if_neg h0']
      rfl
  · rw [if_neg h0]
    by_cases h0' : (updatedUser (q.bl (.user r)) pktLen weight).octets = 0
    · obtain ⟨hw, hwn, hln⟩ := h₂ h0'
      have h0'' : u32 (↑(q.bl (.user r)).octets + pktLen) = 0 := h0'
      have hw' : (↑(q.bl (.user r)).weight + weight).toNat = 0 := hw
      simp only [pure_bind, if_pos h0'']
      rw [stopIf_of_not (by omega)]
      simp only [updatedBucket, if_neg h0, if_pos h0']
      rfl
    · have h0'' : ¬ u32 (↑(q.bl (.user r)).octets + pktLen) = 0 := h0'
      simp only [pure_bind, if_neg h0'', updatedBucket, if_neg h0, if_neg h0']
      rfl

/-- The update succeeds under its two assertions only. -/
theorem userBacklogUpdate_ok {q q' : QueueState} {r : UserRef} {pktLen weight : ℤ}
    (h : userBacklogUpdate q r pktLen weight = .ok q') :
    FirstOk (q.bl (.user r)) pktLen weight ∧ LastOk (q.bl (.user r)) pktLen weight := by
  unfold userBacklogUpdate at h
  simp only [bind_eq_ok] at h
  obtain ⟨b₁, h₁, b₂, h₂, -⟩ := h
  constructor
  · intro h0
    rw [if_pos h0] at h₁
    simp only [bind_eq_ok, stopIf_eq_ok] at h₁
    obtain ⟨-, hc, -⟩ := h₁
    omega
  · intro h0
    have h0' : u32 (↑(q.bl (.user r)).octets + pktLen) = 0 := h0
    rw [if_pos h0'] at h₂
    simp only [bind_eq_ok, stopIf_eq_ok] at h₂
    obtain ⟨-, hc, -⟩ := h₂
    refine ⟨?_, by omega, by omega⟩
    show (↑(q.bl (.user r)).weight + weight).toNat = 0
    omega

end Tbq
