/-
# Packets that enter and flows that move

The accounting invariant under the operations that bring a packet into the queue,
under the move of a flow from one user entry to another, and under the links of the
users.
-/
import OpenwrtAc.TbqAccounting

open Outcome MachineInt ListSum

namespace Tbq

/-! ## Changes that the sums do not see -/

/-- The totals depend on the packets, on which flows are attached, and on the octets at
the users. -/
theorem TcTotals.congr {q q' : QueueState} (h : TcTotals q) (hrest : SameRest q q')
    (hatt : ∀ f d, (q'.unit (.flow f d)).tc = none ↔ (q.unit (.flow f d)).tc = none) :
    TcTotals q' := by
  refine ⟨fun r => ?_, fun d i => ?_, fun r => ?_, fun d i => ?_⟩
  · rw [hrest.octets, h.tcOctets, userBytes, userBytes, hrest.flows, hrest.packets]
  · rw [hrest.octets, h.bucketOctets, bucketBytes, bucketBytes, hrest.flows, hrest.packets]
  · rw [hrest.weight, h.tcWeight, userWeight, userWeight, hrest.flows, hrest.flow]
    simp only [ne_eq, hatt]
  · rw [hrest.weight, h.bucketWeights, bucketWeight, bucketWeight, hrest.users]
    simp only [hrest.octets, hrest.unitWeight]

/-- The links and deficits of the units may change, as long as the flows stay where they
are and a user that becomes attached has a flow that waits for it. -/
theorem Acct.of_users {q q' : QueueState} (h : Acct q) (hrest : SameRest q q') (hlinks : Links q')
    (htc : ∀ f d, (q'.unit (.flow f d)).tc = (q.unit (.flow f d)).tc)
    (hoct : ∀ x, (q'.unit x).octets = (q.unit x).octets)
    (hbusy : ∀ r, (q'.unit (.user r)).tc ≠ none → (q.unit (.user r)).tc ≠ none
      ∨ ∃ f, (q.unit (.flow f r.d)).tc = some (.user r)) : Acct q' := by
  refine ⟨⟨hlinks, ?_, ?_, fun f d => ?_, fun f d hf => ?_, fun f d hf => ?_, fun f d hf => ?_,
    fun f d hf => ?_, fun r hr => ?_, fun f d r hr => ?_⟩, h.toTcTotals.congr hrest fun f d => by rw [htc],
    fun f d => ?_, fun r => ?_⟩
  · rw [hrest.flows]; exact h.flowsNodup
  · rw [hrest.users]; exact h.usersNodup
  · rw [hrest.packets, hrest.flow]; exact h.packetOk f d
  · rw [htc, hrest.packets] at hf
    rw [hrest.flows]
    exact h.tracked f d hf
  · rw [htc, hrest.packets] at hf
    rw [hrest.users]
    exact h.userTracked f d hf
  · rw [hoct] at hf
    rw [htc]
    exact h.held f d hf
  · rw [htc] at hf
    rw [hrest.packets]
    exact h.busy f d hf
  · have hex : ∃ f, (q.unit (.flow f r.d)).tc = some (.user r) := by
      rcases hbusy r hr with hold | hex
      · exact h.userBusy r hold
      · exact hex
    obtain ⟨f, hf⟩ := hex
    exact ⟨f, by rw [htc, hf]⟩
  · rw [htc] at hr
    rw [hrest.flow]
    exact h.rule f d r hr
  · rw [hoct, hrest.packets]
    exact h.flowOctets f d
  · rw [hoct, h.userOctets, waitingBytes, waitingBytes, hrest.flows, hrest.packets]
    simp only [htc]

/-- What is in the list of a user entry is a flow that waits for it. -/
theorem Links.mem_user_units {q : QueueState} (h : Links q) {r : UserRef} {x : UnitId}
    (hx : x ∈ (q.bl (.user r)).units) :
    ∃ f, x = .flow f r.d ∧ f.user = r.u ∧ (q.unit (.flow f r.d)).tc = some (.user r) := by
  have htc := (h.units _ _).mp hx
  have hc := h.compat _ _ htc
  cases x with
  | flow f d =>
      obtain ⟨hu, rfl⟩ := hc
      exact ⟨f, rfl, hu.symm, htc⟩
  | user r' => cases hc

/-- Linking a user for which some flow waits to its bucket. -/
theorem Acct.linkUser {q : QueueState} (h : Acct q) {r : UserRef}
    (htc : (q.unit (.user r)).tc = none) (hne : (q.bl (.user r)).units ≠ []) :
    Acct (link q (.user r) r.bucket) := by
  have hunit : ∀ x, x ≠ .user r → (link q (.user r) r.bucket).unit x = q.unit x := by
    intro x hx
    rw [link, setUnit_of_ne _ _ hx, setUnits_unit]
  refine h.of_users (sameRest_link q _ _) (h.links.link_links htc rfl) (fun f d => ?_)
    (fun x => ?_) (fun r' hr' => ?_)
  · rw [hunit _ (by intro e; cases e)]
  · by_cases hx : x = .user r
    · subst hx
      simp [link]
    · rw [hunit x hx]
  · by_cases hx : r' = r
    · subst hx
      obtain ⟨x, hx⟩ := List.exists_mem_of_ne_nil _ hne
      obtain ⟨f, -, -, hf⟩ := h.links.mem_user_units hx
      exact .inr ⟨f, hf⟩
    · rw [hunit _ fun e => hx (UnitId.user.inj e)] at hr'
      exact .inl hr'

/-- Unlinking a user from its bucket. -/
theorem Acct.unlinkUser {q : QueueState} (h : Acct q) (r : UserRef) :
    Acct (unlink q (.user r)) := by
  refine h.of_users (sameRest_unlink q _) (h.links.unlink_links _) (fun f d => ?_)
    (fun x => ?_) (fun r' hr' => ?_)
  · rw [Links.unlink_tc, if_neg (by intro e; cases e)]
  · by_cases hx : x = .user r
    · subst hx
      simp [unlink]
    · rw [unlink, setUnit_of_ne _ _ hx, Links.listDel_unit]
  · left
    rw [Links.unlink_tc] at hr'
    split at hr'
    · exact absurd rfl hr'
    · exact hr'

/-! ## Deficit round robin -/

/-- A turn charges the unit whose turn it is and no other. -/
theorem scheduled_unit (q : QueueState) (x y : UnitId) (n : ℕ) :
    (scheduled q x n).unit y =
      if y = x ∧ (q.unit x).tc ≠ none then (drrCharge (q.unit x) n).1 else q.unit y := by
  unfold scheduled
  cases htc : (q.unit x).tc with
  | none => simp
  | some X =>
      by_cases hy : y = x
      · subst hy
        by_cases hr : (drrCharge (q.unit y) n).2 = true
        · simp [hr]
        · simp [hr]
      · by_cases hr : (drrCharge (q.unit x) n).2 = true
        · simp [hr, hy, setUnit_of_ne]
        · simp [hr, hy, setUnit_of_ne]

/-- A unit whose deficit is used up goes to the end of its list. -/
theorem scheduled_units {q : QueueState} (x : UnitId) (n : ℕ) (X : TcId) :
    ((scheduled q x n).bl X).units =
      if (q.unit x).tc = some X ∧ (drrCharge (q.unit x) n).2 = true
      then (q.bl X).units.erase x ++ [x] else (q.bl X).units := by
  unfold scheduled
  cases htc : (q.unit x).tc with
  | none => simp
  | some Y =>
      by_cases hr : (drrCharge (q.unit x) n).2 = true
      · by_cases hX : X = Y
        · subst hX
          simp [hr]
        · have hX' : Y ≠ X := fun e => hX e.symm
          simp [hr, setUnits_of_ne _ _ hX, hX']
      · simp [hr]

/-- A turn moves no packet and no weight. -/
theorem sameRest_scheduled (q : QueueState) (x : UnitId) (n : ℕ) :
    SameRest q (scheduled q x n) := by
  have hw := (drrCharge_tc (q.unit x) n).2.2.2
  unfold scheduled
  cases (q.unit x).tc with
  | none => exact .refl q
  | some X =>
      by_cases hr : (drrCharge (q.unit x) n).2 = true
      · simp only [hr, if_true]
        exact (sameRest_setUnit hw).trans (sameRest_setUnits _ _ _)
      · simp only [hr]
        exact sameRest_setUnit hw

/-- A turn attaches and detaches nothing. -/
theorem scheduled_tc (q : QueueState) (x y : UnitId) (n : ℕ) :
    ((scheduled q x n).unit y).tc = (q.unit y).tc
      ∧ ((scheduled q x n).unit y).linked = (q.unit y).linked
      ∧ ((scheduled q x n).unit y).octets = (q.unit y).octets := by
  obtain ⟨h₁, h₂, h₃, -⟩ := drrCharge_tc (q.unit x) n
  rw [scheduled_unit]
  split
  · rename_i hy
    rw [hy.1]
    exact ⟨h₁, h₂, h₃⟩
  · exact ⟨rfl, rfl, rfl⟩

/-- A turn keeps the links. -/
theorem Links.scheduled_links {q : QueueState} (h : Links q) (x : UnitId) (n : ℕ) :
    Links (scheduled q x n) := by
  refine ⟨fun y => ?_, fun X y => ?_, fun X => ?_, fun y X hX => ?_⟩
  · rw [(scheduled_tc q x y n).1, (scheduled_tc q x y n).2.1]
    exact h.linked y
  · rw [(scheduled_tc q x y n).1, scheduled_units, ← h.units X y]
    split
    · rename_i hx
      have hmem : x ∈ (q.bl X).units := (h.units X x).mpr hx.1
      rw [List.mem_append, List.mem_singleton, (h.nodup X).mem_erase_iff]
      by_cases hy : y = x
      · simp [hy, hmem]
      · simp [hy]
    · rfl
  · rw [scheduled_units]
    split
    · refine ((h.nodup X).erase x).append (List.nodup_singleton x) ?_
      intro z hz hzx
      rw [List.mem_singleton.mp hzx, (h.nodup X).mem_erase_iff] at hz
      exact hz.1 rfl
    · exact h.nodup X
  · rw [(scheduled_tc q x y n).1] at hX
    exact h.compat y X hX

/-- A turn keeps the accounts. -/
theorem Acct.scheduled {q : QueueState} (h : Acct q) (x : UnitId) (n : ℕ) :
    Acct (Tbq.scheduled q x n) :=
  h.of_users (sameRest_scheduled q x n) (h.links.scheduled_links x n)
    (fun f d => (scheduled_tc q x _ n).1) (fun y => (scheduled_tc q x y n).2.2)
    (fun r hr => .inl (by rwa [(scheduled_tc q x _ n).1] at hr))

/-! ## Units of an attached and of a detached flow -/

/-- An attached flow waits for the user it was attached to, with its octets. -/
theorem attachedFlow_flow (pending : List TcId) (q : QueueState) (f : FlowId) (d : Dir)
    (r : UserRef) :
    ((attachedFlow pending q f d r).unit (.flow f d)).tc = some (.user r)
      ∧ ((attachedFlow pending q f d r).unit (.flow f d)).octets
          = (q.unit (.flow f d)).octets := by
  unfold attachedFlow
  dsimp only
  rw [setUnit_self, link, setUnit_self, backlogEnqueue, setUnit_of_ne _ _ (by intro e; cases e),
    userAttached_flow_unit]
  exact ⟨rfl, rfl⟩

/-- Attaching a flow touches its own unit and its user's. -/
theorem attachedFlow_of_ne (pending : List TcId) (q : QueueState) (f : FlowId) (d : Dir)
    (r : UserRef) {x : UnitId} (hf : x ≠ .flow f d) (hr : x ≠ .user r) :
    (attachedFlow pending q f d r).unit x = q.unit x := by
  unfold attachedFlow
  dsimp only
  rw [setUnit_of_ne _ _ hf, link, setUnit_of_ne _ _ hf, setUnits_unit, backlogEnqueue,
    setUnit_of_ne _ _ hr]
  unfold userAttached
  split
  · rw [link, setUnit_of_ne _ _ hr, setUnits_unit]
  · rfl

/-- The user of an attached flow: linked to its bucket if that is pending. -/
theorem attachedFlow_user (pending : List TcId) (q : QueueState) (f : FlowId) (d : Dir)
    (r : UserRef) :
    ((attachedFlow pending q f d r).unit (.user r)).tc
        = (if r.bucket ∈ pending ∧ (q.unit (.user r)).tc = none then some r.bucket
           else (q.unit (.user r)).tc)
      ∧ ((attachedFlow pending q f d r).unit (.user r)).octets
          = u32 ((q.unit (.user r)).octets + (q.unit (.flow f d)).octets) := by
  have hne : UnitId.user r ≠ .flow f d := fun e => by cases e
  unfold attachedFlow
  dsimp only
  rw [setUnit_of_ne _ _ hne, link, setUnit_of_ne _ _ hne, setUnits_unit, backlogEnqueue,
    setUnit_self]
  unfold userAttached
  split
  · simp [link]
  · simp

/-- Attaching a flow moves no packet and no weight. -/
theorem sameRest_attachedFlow (pending : List TcId) (q : QueueState) (f : FlowId) (d : Dir)
    (r : UserRef) : SameRest q (attachedFlow pending q f d r) := by
  have h := ((sameRest_userAttached pending q r).trans (sameRest_backlogEnqueue _ (.user r)
    (q.unit (.flow f d)).octets)).trans (sameRest_link _ (.flow f d) (.user r))
  refine ⟨h.octets, h.weight, fun r' => ?_, h.packets, h.flow, h.flows, h.users, h.userMask,
    h.backlogPackets, h.dq⟩
  rw [attachedFlow]
  dsimp only
  rw [setUnit_of_ne _ _ (by intro e; cases e)]
  exact h.unitWeight r'

/-- Detaching a flow touches its own unit and its user's. -/
theorem detachedFlow_of_ne (q : QueueState) (r : UserRef) (f : FlowId) (d : Dir) {x : UnitId}
    (hf : x ≠ .flow f d) (hr : x ≠ .user r) : (detachedFlow q r f d).unit x = q.unit x := by
  rw [detachedFlow, unlink, setUnit_of_ne _ _ hf, Links.listDel_unit, drain_unit_of_ne _ _ hr]

/-- A detached flow waits for no user and keeps its octets. -/
theorem detachedFlow_flow (q : QueueState) (r : UserRef) (f : FlowId) (d : Dir) :
    ((detachedFlow q r f d).unit (.flow f d)).tc = none
      ∧ ((detachedFlow q r f d).unit (.flow f d)).octets = (q.unit (.flow f d)).octets := by
  rw [detachedFlow, unlink, setUnit_self, drain_unit_of_ne _ _ (by intro e; cases e)]
  exact ⟨rfl, rfl⟩

/-- Detaching a flow takes its octets off the user. -/
theorem detachedFlow_user (q : QueueState) (r : UserRef) (f : FlowId) (d : Dir) :
    (detachedFlow q r f d).unit (.user r)
      = (drain q (.user r) (q.unit (.flow f d)).octets).unit (.user r) := by
  rw [detachedFlow, unlink, setUnit_of_ne _ _ (by intro e; cases e), Links.listDel_unit]

/-- Detaching a flow moves no packet and no weight. -/
theorem sameRest_detachedFlow (q : QueueState) (r : UserRef) (f : FlowId) (d : Dir) :
    SameRest q (detachedFlow q r f d) :=
  (sameRest_drain q _ _).trans (sameRest_unlink _ _)

/-! ## A packet enters -/

/-- The flow of `p` is ready to take the packet: it waits for the user entry `r`, since
before (`attach = false`) or since just now (`attach = true`). -/
structure Ready (p : Packet) (r : UserRef) (attach : Bool) (q q₁ : QueueState) : Prop where
  rest : SameRest q q₁
  links : Links q₁
  others : ∀ g e, ¬ (g = p.flow ∧ e = p.dir) → q₁.unit (.flow g e) = q.unit (.flow g e)
  tc : (q₁.unit (.flow p.flow p.dir)).tc = some (.user r)
  octets : (q₁.unit (.flow p.flow p.dir)).octets = (q.unit (.flow p.flow p.dir)).octets
  userOctets : ∀ r', (q₁.unit (.user r')).octets = (q.unit (.user r')).octets
  userTc : ∀ r', r' ≠ r → (q₁.unit (.user r')).tc = (q.unit (.user r')).tc
  was : (q.unit (.flow p.flow p.dir)).tc = if attach then none else some (.user r)
  empty : attach = true → q.packets p.flow p.dir = []

/-- A flow that waits already is ready for a packet. -/
theorem Acct.ready_self {q : QueueState} (h : Acct q) {p : Packet} {r : UserRef}
    (htc : (q.unit (.flow p.flow p.dir)).tc = some (.user r)) : Ready p r false q q :=
  ⟨.refl q, h.links, fun _ _ _ => rfl, htc, rfl, fun _ => rfl, fun _ _ => rfl, htc,
    fun e => by cases e⟩

/-- An idle flow is ready for a packet once it is attached. -/
theorem Acct.ready_attach {q : QueueState} (h : Acct q) {p : Packet} {r : UserRef}
    (pending : List TcId) (htc : (q.unit (.flow p.flow p.dir)).tc = none)
    (hpk : q.packets p.flow p.dir = []) (hc : Compat (.flow p.flow p.dir) (.user r)) :
    Ready p r true q (attachedFlow pending q p.flow p.dir r) := by
  obtain ⟨hftc, hfoct⟩ := attachedFlow_flow pending q p.flow p.dir r
  have hoct : (q.unit (.flow p.flow p.dir)).octets = 0 := by
    rw [h.flowOctets, hpk, bytes_nil, Nat.zero_mod]
  refine ⟨sameRest_attachedFlow .., h.links.attachedFlow_links htc hc, fun g e hge => ?_, hftc,
    hfoct, fun r' => ?_, fun r' hr' => ?_, htc, fun _ => hpk⟩
  · exact attachedFlow_of_ne _ _ _ _ _ (by intro he; cases he; exact hge ⟨rfl, rfl⟩)
      (by intro he; cases he)
  · by_cases hr' : r' = r
    · subst hr'
      have hlt := h.userOctets r'
      rw [(attachedFlow_user ..).2, hoct]
      unfold u32
      omega
    · rw [attachedFlow_of_ne _ _ _ _ _ (by intro e; cases e) fun e => hr' (UnitId.user.inj e)]
  · rw [attachedFlow_of_ne _ _ _ _ _ (by intro e; cases e) fun e => hr' (UnitId.user.inj e)]

section Put

variable {p : Packet} {r : UserRef} {attach : Bool} {q q₁ q' : QueueState}

/-- What the flow adds to the weights when the packet is put. -/
def putWeight (q : QueueState) (f : FlowId) (attach : Bool) (i : RuleIdx) : ℤ :=
  if attach then ((q.flow f).weight i : ℤ) else 0

/-- The weight that the update adds is that of a flow newly attached. -/
theorem Ready.updateWeight_eq (hr : Ready p r attach q q₁) :
    updateWeight (added q₁ r p.flow p.dir p) p.pktLen (if attach then some p.flow else none)
      = putWeight q p.flow attach := by
  have hpos := p.len_pos
  have hrest : SameRest q (backlogEnqueue (backlogEnqueue q₁ (.user r) p.pktLen)
      (.flow p.flow p.dir) p.pktLen) :=
    (hr.rest.trans (sameRest_backlogEnqueue _ _ _)).trans (sameRest_backlogEnqueue _ _ _)
  funext i
  have hfl : (added q₁ r p.flow p.dir p).flow = q.flow := hrest.flow
  unfold updateWeight putWeight
  cases attach with
  | true =>
      simp only [if_true, hfl]
      rw [if_neg (by omega)]
  | false => rfl

/-- The flow and its user entry have the octets of the packet more, and no other unit changed. -/
theorem Ready.units (hr : Ready p r attach q q₁)
    (hunit : q'.unit = (added q₁ r p.flow p.dir p).unit) :
    q'.unit (.flow p.flow p.dir) = { q₁.unit (.flow p.flow p.dir) with
        octets := u32 ((q.unit (.flow p.flow p.dir)).octets + p.pktLen) }
      ∧ q'.unit (.user r) = { q₁.unit (.user r) with
        octets := u32 ((q.unit (.user r)).octets + p.pktLen) }
      ∧ ∀ x, x ≠ .flow p.flow p.dir → x ≠ .user r → q'.unit x = q₁.unit x := by
  have hne : UnitId.flow p.flow p.dir ≠ .user r := fun e => by cases e
  refine ⟨?_, ?_, fun x h₁ h₂ => ?_⟩
  · rw [hunit, added, setPackets_unit, backlogEnqueue, setUnit_self, backlogEnqueue,
      setUnit_of_ne _ _ hne, hr.octets]
  · rw [hunit, added, setPackets_unit, backlogEnqueue, setUnit_of_ne _ _ hne.symm, backlogEnqueue,
      setUnit_self, hr.userOctets]
  · rw [hunit, added, setPackets_unit, backlogEnqueue, setUnit_of_ne _ _ h₁, backlogEnqueue,
      setUnit_of_ne _ _ h₂]

/-- Accounting the packet is the move of one flow. -/
theorem Ready.moved (hr : Ready p r attach q q₁)
    (hup : Updated p p.pktLen (putWeight q p.flow attach) p.ruleMask.bits
      (added q₁ r p.flow p.dir p) q') :
    Moved p p.pktLen (putWeight q p.flow attach) (q.packets p.flow p.dir ++ [p]) q q' := by
  have hadd : added q₁ r p.flow p.dir p = (backlogEnqueue (backlogEnqueue q₁ (.user r) p.pktLen)
      (.flow p.flow p.dir) p.pktLen).setPackets p.flow p.dir (q.packets p.flow p.dir ++ [p]) := by
    rw [added, hr.rest.packets]
  rw [hadd] at hup
  refine moved_of_updated
    ((hr.rest.trans (sameRest_backlogEnqueue _ _ _)).trans (sameRest_backlogEnqueue _ _ _))
    (fun g e hge => ?_) hup
  have hge' : UnitId.flow g e ≠ .flow p.flow p.dir := by
    intro he
    cases he
    exact hge ⟨rfl, rfl⟩
  rw [backlogEnqueue, setUnit_of_ne _ _ hge', backlogEnqueue,
    setUnit_of_ne _ _ (by intro e; cases e), hr.others g e hge]

/-- The class totals, when the flow waits for the user entry from now on. -/
theorem Ready.tcTotals (hr : Ready p r attach q q₁) (h : Acct q) (hf : p.flow ∈ q.flows)
    (hu : p.flow.user ∈ q.users) (hmask : p.ruleMask = (q.flow p.flow).ruleMask)
    (hm : Moved p p.pktLen (putWeight q p.flow attach) (q.packets p.flow p.dir ++ [p]) q q')
    (htc : (q'.unit (.flow p.flow p.dir)).tc = some (.user r)) : TcTotals q' := by
  refine hm.tcTotals h.toTcTotals h.flowsNodup h.usersNodup hf hu hmask (fun i => ?_)
    (fun i hi => ?_)
  · have := ruleBytes_perm (List.perm_append_comm : (q.packets p.flow p.dir ++ [p]).Perm ([p] ++ q.packets p.flow p.dir)) i
    rw [List.singleton_append, ruleBytes_cons] at this
    by_cases hi : p.ruleMask.has i = true
    · rw [if_pos hi] at this ⊢
      omega
    · rw [if_neg hi] at this ⊢
      omega
  · have hi' : (q.flow p.flow).ruleMask.has i = true := hmask ▸ hi
    have hnew : weightAt q' (p.userRef i) p.flow = (q.flow p.flow).weight i := by
      unfold weightAt
      rw [hm.change.flow]
      exact if_pos ⟨rfl, by rw [Packet.userRef, htc]; simp, hi'⟩
    rw [hnew]
    have hwas := hr.was
    -- a flow that waited already had its weight counted
    cases attach with
    | true =>
        have hold : weightAt q (p.userRef i) p.flow = 0 := if_neg fun e => e.2.1 hwas
        simp [putWeight, hold]
    | false =>
        have hold : weightAt q (p.userRef i) p.flow = (q.flow p.flow).weight i :=
          if_pos ⟨rfl, by rw [Packet.userRef, hwas]; simp, hi'⟩
        simp [putWeight, hold]

/-- What waited for the user entry in the flow before. -/
theorem Ready.waitAt_was (hr : Ready p r attach q q₁) (hrd : r.d = p.dir) :
    waitAt q r p.flow = bytes (q.packets p.flow p.dir) := by
  have hwas := hr.was
  cases attach with
  | true =>
      rw [hr.empty rfl, bytes_nil]
      apply waitAt_eq_zero
      rw [hrd, hwas]
      simp
  | false => rw [waitAt_waits (hrd ▸ hwas), hrd]

/-- The flow was idle, or waited for the same user. -/
theorem Ready.was_or (hr : Ready p r attach q q₁) :
    (q.unit (.flow p.flow p.dir)).tc = none ∨ (q.unit (.flow p.flow p.dir)).tc = some (.user r) := by
  rw [hr.was]
  cases attach
  · exact .inr rfl
  · exact .inl rfl

/-- The octets of the packet are added to those of its user entry. -/
theorem Ready.userOctets_added (hr : Ready p r attach q q₁) (h : Acct q)
    (hm : Moved p p.pktLen (putWeight q p.flow attach) (q.packets p.flow p.dir ++ [p]) q q')
    (hunit : q'.unit = (added q₁ r p.flow p.dir p).unit)
    (htc : (q'.unit (.flow p.flow p.dir)).tc = some (.user r)) (hrd : r.d = p.dir) (r' : UserRef) :
    (q'.unit (.user r')).octets < 2 ^ 32 ∧
      ((q'.unit (.user r')).octets + waitAt q r' p.flow) % 2 ^ 32 =
        ((q.unit (.user r')).octets + waitAt q' r' p.flow) % 2 ^ 32 := by
  obtain ⟨-, huserU, hother⟩ := hr.units hunit
  have hold := h.userOctets r'
  have hpos := p.len_pos
  have hperm : (q.packets p.flow p.dir ++ [p]).Perm (p :: q.packets p.flow p.dir) :=
    List.perm_append_comm
  by_cases hrr : r' = r
  · subst hrr
    have hat' : waitAt q' r' p.flow = p.pktLen + bytes (q.packets p.flow p.dir) := by
      rw [waitAt_waits (hrd ▸ htc), hrd, hm.packets, bytes_perm hperm, bytes_cons]
    rw [hr.waitAt_was hrd, hat', huserU]
    simp only
    refine ⟨u32_lt _, ?_⟩
    unfold u32
    omega
  · rw [hother _ (by intro e; cases e) (fun e => hrr (UnitId.user.inj e)), hr.userOctets]
    by_cases hd : r'.d = p.dir
    · rw [waitAt_other hr.was_or hrr hd, waitAt_other (.inr htc) hrr hd]
      omega
    · rw [hm.change.waitAt_of_ne fun e => hd e.2]
      omega

/-- A user entry that is linked was linked before, without the flow, or is the one of the packet. -/
theorem Ready.userTc_added (hr : Ready p r attach q q₁)
    (hunit : q'.unit = (added q₁ r p.flow p.dir p).unit)
    (htc : (q'.unit (.flow p.flow p.dir)).tc = some (.user r)) (r' : UserRef)
    (hr' : (q'.unit (.user r')).tc ≠ none) :
    (q'.unit (.user r')).octets ≠ 0 ∨
      ((q.unit (.user r')).tc ≠ none ∧ (q.unit (.flow p.flow p.dir)).tc ≠ some (.user r')) ∨
      (q'.unit (.flow p.flow p.dir)).tc = some (.user r') := by
  obtain ⟨-, -, hother⟩ := hr.units hunit
  by_cases hrr : r' = r
  · subst hrr
    exact .inr (.inr htc)
  · right; left
    rw [hother _ (by intro e; cases e) (fun e => hrr (UnitId.user.inj e)), hr.userTc r' hrr] at hr'
    refine ⟨hr', ?_⟩
    rcases hr.was_or with e | e
    · rw [e]; simp
    · rw [e]
      exact fun e => hrr (TcId.user.inj (Option.some.inj e)).symm

/-- The packet joins its flow and the totals. -/
theorem Acct.put (h : Acct q) (hr : Ready p r attach q q₁) (hf : p.flow ∈ q.flows)
    (hu : p.flow.user ∈ q.users) (hmask : p.ruleMask = (q.flow p.flow).ruleMask)
    (hrule : (q.flow p.flow).ruleMask.has r.i = true)
    (hq : packetCtrlBacklogUpdate (added q₁ r p.flow p.dir p) p p.pktLen
      (if attach then some p.flow else none) = .ok q') :
    Acct q' ∧ Moved p p.pktLen (putWeight q p.flow attach) (q.packets p.flow p.dir ++ [p]) q q'
      ∧ q'.unit = (added q₁ r p.flow p.dir p).unit := by
  obtain ⟨hup, -⟩ := packetCtrlBacklogUpdate_ok hq
  rw [hr.updateWeight_eq] at hup
  have hunit : q'.unit = (added q₁ r p.flow p.dir p).unit := by rw [hup.frame]
  have hm := hr.moved hup
  have hc := hm.change
  have hlinks : Links q' := (hr.links.congr (sameLinks_added ..)).congr hup.sameLinks
  obtain ⟨hflowU, -, -⟩ := hr.units hunit
  obtain ⟨-, hrd⟩ : r.u = p.flow.user ∧ r.d = p.dir := hr.links.compat _ _ hr.tc
  have hpos := p.len_pos
  have hperm : (q.packets p.flow p.dir ++ [p]).Perm (p :: q.packets p.flow p.dir) :=
    List.perm_append_comm
  have hflowTc : (q'.unit (.flow p.flow p.dir)).tc = some (.user r) := by
    rw [hflowU]
    exact hr.tc
  refine ⟨h.of_change hc hlinks (hr.tcTotals h hf hu hmask hm hflowTc) hf hu ?_ ?_ ?_ ?_ ?_
    (hr.userOctets_added h hm hunit hflowTc hrd) (hr.userTc_added hunit hflowTc), hm, hunit⟩
  · rw [hm.packets]
    intro p' hp'
    rcases List.mem_append.mp hp' with hp' | hp'
    · exact h.packetOk _ _ p' hp'
    · rw [List.mem_singleton.mp hp']
      exact ⟨rfl, rfl, hmask⟩
  · rw [hflowU, hm.packets, bytes_perm hperm, bytes_cons, h.flowOctets]
    show u32 ((bytes (q.packets p.flow p.dir) % 2 ^ 32 : ℕ) + p.pktLen) = _
    apply u32_track
    omega
  · intro _
    rw [hflowTc]
    simp
  · intro _ hnil
    rw [hm.packets] at hnil
    simp at hnil
  · intro r' hr'
    rw [hflowTc] at hr'
    obtain rfl := TcId.user.inj (Option.some.inj hr')
    exact hrule

end Put

/-! ## A flow moves to another user entry -/

/-- A flow and its two user entries, when the flow has left `r` for `r'`. -/
structure Switched (q q' : QueueState) (f : FlowId) (d : Dir) (r r' : UserRef) : Prop where
  rest : SameRest q q'
  was : (q.unit (.flow f d)).tc = some (.user r)
  tc : (q'.unit (.flow f d)).tc = some (.user r')
  octets : (q'.unit (.flow f d)).octets = (q.unit (.flow f d)).octets
  flows : ∀ g e, ¬ (g = f ∧ e = d) → q'.unit (.flow g e) = q.unit (.flow g e)
  old : q'.unit (.user r) = (drain q (.user r) (q.unit (.flow f d)).octets).unit (.user r)
  new : (q'.unit (.user r')).octets = u32 ((q.unit (.user r')).octets + (q.unit (.flow f d)).octets)
  others : ∀ r₂, r₂ ≠ r → r₂ ≠ r' → q'.unit (.user r₂) = q.unit (.user r₂)

/-- Detaching and attaching again moves the flow between two users. -/
theorem switched_attachedFlow {q : QueueState} {pending : List TcId} {f : FlowId} {d : Dir}
    {r r' : UserRef}
    (htc : (q.unit (.flow f d)).tc = some (.user r)) (hne : r' ≠ r) :
    Switched q (attachedFlow pending (detachedFlow q r f d) f d r') f d r r' := by
  refine ⟨(sameRest_detachedFlow q r f d).trans (sameRest_attachedFlow pending _ f d r'), htc,
    (attachedFlow_flow ..).1, ?_, fun g e hge => ?_, ?_, ?_, fun r₂ h₁ h₂ => ?_⟩
  · rw [(attachedFlow_flow ..).2, (detachedFlow_flow q r f d).2]
  · have hne₁ : UnitId.flow g e ≠ .flow f d := by
      intro he
      cases he
      exact hge ⟨rfl, rfl⟩
    rw [attachedFlow_of_ne _ _ _ _ _ hne₁ (by intro he; cases he),
      detachedFlow_of_ne _ _ _ _ hne₁ (by intro he; cases he)]
  · rw [attachedFlow_of_ne _ _ _ _ _ (by intro he; cases he) (fun e => hne (UnitId.user.inj e).symm),
      detachedFlow_user]
  · rw [(attachedFlow_user ..).2, detachedFlow_of_ne _ _ _ _ (by intro he; cases he)
      (fun e => hne (UnitId.user.inj e)), (detachedFlow_flow q r f d).2]
  · rw [attachedFlow_of_ne _ _ _ _ _ (by intro he; cases he) (fun e => h₂ (UnitId.user.inj e)),
      detachedFlow_of_ne _ _ _ _ (by intro he; cases he) (fun e => h₁ (UnitId.user.inj e))]

section Switch

variable {q q' : QueueState} {f : FlowId} {d : Dir} {r r' : UserRef}

/-- A switch changes one flow only. -/
theorem Switched.change (hs : Switched q q' f d r r') : FlowChange f d q q' :=
  ⟨hs.rest.flow, hs.rest.flows, hs.rest.users, hs.rest.userMask, fun g e _ => by rw [hs.rest.packets],
    fun g e hge => by rw [hs.flows g e hge], fun g e hge => by rw [hs.flows g e hge], hs.rest.unitWeight⟩

/-- A switch keeps the totals. -/
theorem Switched.tcTotals (hs : Switched q q' f d r r') (h : TcTotals q) : TcTotals q' := by
  refine h.congr hs.rest fun g e => ?_
  by_cases hge : g = f ∧ e = d
  · obtain ⟨rfl, rfl⟩ := hge
    rw [hs.tc, hs.was]
    simp
  · rw [hs.flows g e hge]

/-- What the flow had waiting is taken from `r` and added to `r'`. -/
theorem Switched.userOctets (hs : Switched q q' f d r r') (h : Acct q)
    (hle : (q.unit (.flow f d)).octets ≤ (q.unit (.user r)).octets) (hc' : Compat (.flow f d) (.user r'))
    (hne : r' ≠ r) (r₂ : UserRef) :
    (q'.unit (.user r₂)).octets < 2 ^ 32 ∧
      ((q'.unit (.user r₂)).octets + waitAt q r₂ f) % 2 ^ 32 =
        ((q.unit (.user r₂)).octets + waitAt q' r₂ f) % 2 ^ 32 := by
  obtain ⟨-, hrd⟩ : r.u = f.user ∧ r.d = d := h.links.compat _ _ hs.was
  obtain ⟨-, hrd'⟩ : r'.u = f.user ∧ r'.d = d := hc'
  have hbytes := h.flowOctets f d
  have huo := h.userOctets r₂
  by_cases h₁ : r₂ = r
  · subst h₁
    rw [waitAt_waits (hrd ▸ hs.was), hrd, waitAt_other (.inr hs.tc) (fun e => hne e.symm) hrd, hs.old,
      drain_unit_self]
    simp only
    omega
  · by_cases h₂ : r₂ = r'
    · subst h₂
      rw [waitAt_other (.inr hs.was) h₁ hrd', waitAt_waits (hrd' ▸ hs.tc), hrd', hs.rest.packets, hs.new]
      refine ⟨u32_lt _, ?_⟩
      unfold u32
      omega
    · rw [hs.others r₂ h₁ h₂]
      by_cases hd : r₂.d = d
      · rw [waitAt_other (.inr hs.was) h₁ hd, waitAt_other (.inr hs.tc) h₂ hd]
        omega
      · rw [hs.change.waitAt_of_ne fun e => hd e.2]
        omega

/-- A user entry that is linked has something left, or was linked without the flow, or has it now.
    -/
theorem Switched.userTc (hs : Switched q q' f d r r') (r₂ : UserRef)
    (hr₂ : (q'.unit (.user r₂)).tc ≠ none) :
    (q'.unit (.user r₂)).octets ≠ 0 ∨
      ((q.unit (.user r₂)).tc ≠ none ∧ (q.unit (.flow f d)).tc ≠ some (.user r₂)) ∨
      (q'.unit (.flow f d)).tc = some (.user r₂) := by
  by_cases h₁ : r₂ = r
  · subst h₁
    left
    intro h0
    rw [hs.old, drain_unit_self] at h0 hr₂
    exact hr₂ (if_pos h0)
  · by_cases h₂ : r₂ = r'
    · subst h₂
      exact .inr (.inr hs.tc)
    · right; left
      rw [hs.others r₂ h₁ h₂] at hr₂
      refine ⟨hr₂, ?_⟩
      rw [hs.was]
      exact fun e => h₁ (TcId.user.inj (Option.some.inj e)).symm

end Switch

/-- The flow leaves the user entry `r` and waits for `r'` from now on. -/
theorem Acct.switch {q : QueueState} (h : Acct q) {pending : List TcId} {f : FlowId} {d : Dir}
    {r r' : UserRef} (htc : (q.unit (.flow f d)).tc = some (.user r))
    (hle : (q.unit (.flow f d)).octets ≤ (q.unit (.user r)).octets)
    (hc' : Compat (.flow f d) (.user r')) (hne : r' ≠ r)
    (hrule : (q.flow f).ruleMask.has r'.i = true) :
    Acct (attachedFlow pending (detachedFlow q r f d) f d r') := by
  have hs : Switched q (attachedFlow pending (detachedFlow q r f d) f d r') f d r r' := switched_attachedFlow htc hne
  have hlinks₁ : Links (detachedFlow q r f d) := h.links.detachedFlow_links r f d
  have hlinks : Links (attachedFlow pending (detachedFlow q r f d) f d r') :=
    hlinks₁.attachedFlow_links (detachedFlow_flow q r f d).1 hc'
  have hf : f ∈ q.flows := h.tracked f d (.inl (by rw [htc]; simp))
  have hu : f.user ∈ q.users := h.userTracked f d (.inl (by rw [htc]; simp))
  refine h.of_change hs.change hlinks (hs.tcTotals h.toTcTotals) hf hu ?_ ?_ ?_ ?_ ?_
    (hs.userOctets h hle hc' hne) hs.userTc
  · rw [hs.rest.packets]
    exact h.packetOk f d
  · rw [hs.octets, hs.rest.packets, h.flowOctets f d]
  · intro _
    rw [hs.tc]
    simp
  · intro _
    rw [hs.rest.packets]
    exact h.busy f d (by rw [htc]; simp)
  · intro r₂ hr₂
    rw [hs.tc] at hr₂
    obtain rfl := TcId.user.inj (Option.some.inj hr₂)
    exact hrule

end Tbq
