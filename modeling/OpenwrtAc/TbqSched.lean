/-
# The scheduler

The entry points of `drivers/tbq/src/tbq_core.c` over the whole state: the packet
filter and the queue handler (`tbq_filter_packet`, `tbq_enqueue`), the nested
dequeue loops that a firing token control starts (`tbq_flow_backlog_try_dequeue`,
`tbq_user_dequeue`, `tbq_bucket_dequeue`, `tbq_token_ctrl_activate`), the timer
(`tbq_timer_feed`, `tbq_timer_func`), user and flow removal, and the disabling of
the scheduler (`tbq_disable` in `tbq_config.c`).

All of them run under `tbq.lock`, so a run of the system is a sequence of whole
calls.  A packet that the filter gave the verdict `NF_QUEUE` is in flight until the
queue handler is called with it; it counts as queued from that verdict on.  The
loops take a bound on their rounds, and nothing below depends on its value.
-/
import OpenwrtAc.TbqQueue

open Outcome MachineInt

namespace Tbq

/-- `enum tbq_status`. -/
inductive Status
  | running | stopped | stopping | waitingStop
  deriving DecidableEq, Repr

/-- `struct tbq_global` with everything that hangs off it. -/
structure State where
  cfg : Config
  t : TokenState
  q : QueueState
  timerJiffies : ℕ
  status : Status
  disableDone : Bool
  inflight : List Packet

namespace State

/-- What the ceilings of the backlogs are computed from. -/
def ceiling (s : State) : Ceiling := ⟨fun X => (s.t.tc X).tokensPerJiffy, s.cfg.latencyShift⟩

end State

/-! ## Dequeueing -/

/-- `tbq_flow_backlog_try_dequeue`. -/
def flowBacklogTryDequeue (fuel : ℕ) (s : State) (f : FlowId) (d : Dir) : Except Stop State := do
  let empty ← flowBacklogEmpty s.q f d
  stopIf (empty = true) (.sched .tryDequeueEmpty)
  let q ← flowBacklogDrop s.ceiling fuel s.q f d
  if ← flowBacklogEmpty q f d then
    return { s with q := q }
  else
    match q.packets f d, (q.unit (.flow f d)).tc with
    | p :: rest, some X =>
      stopIf (p.flow ≠ f ∨ p.dir ≠ d) (.sched .tryDequeueFlow)
      stopIf (X ∈ s.t.pending) (.sched .tryDequeueList)
      let (pendingUser, t) ← packetCtrlConsume s.t p
      match pendingUser with
      | some i =>
        let q ← flowBacklogDetach q f d
        let q ← flowBacklogAttach t.pending t.nrRule q f d (p.userRef i)
        stopIf ((q.unit (.flow f d)).tc = some X) (.sched .tryDequeueSameTc)
        return { s with t := t, q := q }
      | none =>
        let q ← flowBacklogDrrSchedule q f d p.pktLen
        let q ← takePacket q f d p rest
        let dq := { q.dq with send := q.dq.send ++ [p], nrSend := u32 (q.dq.nrSend + 1) }
        return { s with t := t, q := { q with dq := dq } }
    | _, _ => throw .badPointer

/-- One round of the loop of `tbq_user_dequeue`. -/
def userDequeueBody (fuel : ℕ) (r : UserRef) (s : State) : Except Stop (Bool × State) := do
  if TcId.user r ∉ s.t.pending ∧ (s.q.bl (.user r)).units ≠ [] then
    if r.bucket ∉ s.t.pending then
      match (s.q.bl (.user r)).units with
      | .flow f d :: _ =>
        stopIf ((s.q.unit (.flow f d)).tc ≠ some (.user r)) (.sched .userDequeueTc)
        let s ← flowBacklogTryDequeue fuel s f d
        return (true, s)
      | _ => throw .badPointer
    else
      let q ← backlogAttach s.q (.user r) r.bucket
      return (false, { s with q := q })
  else
    return (false, s)

/-- `tbq_user_dequeue`. -/
def userDequeue (fuel : ℕ) (s : State) (r : UserRef) : Except Stop State := do
  stopIf (TcId.user r ∈ s.t.pending) (.sched .userDequeueList)
  loopFuel .fuel (userDequeueBody fuel r) fuel s

/-- One round of the loop of `tbq_bucket_dequeue`. -/
def bucketDequeueBody (fuel : ℕ) (d : Dir) (i : RuleIdx) (s : State) :
    Except Stop (Bool × State) := do
  if TcId.bucket d i ∉ s.t.pending ∧ (s.q.bl (.bucket d i)).units ≠ [] then
    match (s.q.bl (.bucket d i)).units with
    | .user r :: _ =>
      stopIf ((s.q.unit (.user r)).tc ≠ some (.bucket d i)) (.sched .bucketDequeueTc)
      let empty ← backlogEmpty s.q (.user r)
      stopIf (empty = true) (.sched .bucketDequeueEmpty)
      if TcId.user r ∉ s.t.pending then
        match (s.q.bl (.user r)).units with
        | .flow f d' :: _ =>
          stopIf ((s.q.unit (.flow f d')).tc ≠ some (.user r)) (.sched .bucketDequeueTc)
          let s ← flowBacklogTryDequeue fuel s f d'
          return (true, s)
        | _ => throw .badPointer
      else
        let q ← backlogDetach s.q (.user r)
        return (true, { s with q := q })
    | _ => throw .badPointer
  else
    return (false, s)

/-- `tbq_bucket_dequeue`. -/
def bucketDequeue (fuel : ℕ) (s : State) (d : Dir) (i : RuleIdx) : Except Stop State := do
  stopIf (TcId.bucket d i ∈ s.t.pending) (.sched .bucketDequeueList)
  loopFuel .fuel (bucketDequeueBody fuel d i) fuel s

/-- A round of `tbq_user_dequeue` serves the first flow, or links the entry at the bucket that it
    has to wait for, or ends the loop. -/
theorem userDequeueBody_cases {fuel : ℕ} {r : UserRef} {s s' : State} {more : Bool}
    (h : userDequeueBody fuel r s = .ok (more, s')) :
    (∃ f d us, TcId.user r ∉ s.t.pending ∧ r.bucket ∉ s.t.pending ∧ (s.q.bl (.user r)).units = .flow f d :: us ∧
      (s.q.unit (.flow f d)).tc = some (.user r) ∧ flowBacklogTryDequeue fuel s f d = .ok s' ∧ more = true) ∨
    (∃ q, TcId.user r ∉ s.t.pending ∧ r.bucket ∈ s.t.pending ∧
      backlogAttach s.q (.user r) r.bucket = .ok q ∧ s' = { s with q := q } ∧ more = false) ∨
    ((TcId.user r ∈ s.t.pending ∨ (s.q.bl (.user r)).units = []) ∧ s' = s ∧ more = false) := by
  unfold userDequeueBody at h
  split at h
  next hgo =>
    split at h
    next hb =>
      left
      split at h
      next f d us hunits =>
        simp only [bind_eq_ok, stopIf_eq_ok, pure_eq_ok, Prod.mk.injEq, not_not] at h
        obtain ⟨-, htc, s₁, hs₁, rfl, rfl⟩ := h
        exact ⟨f, d, us, hgo.1, hb, hunits, htc, hs₁, rfl⟩
      · cases h
    next hb =>
      right; left
      obtain ⟨q, hq, h⟩ := bind_eq_ok.mp h
      cases h
      exact ⟨q, hgo.1, not_not.mp hb, hq, rfl, rfl⟩
  next hgo =>
    right; right
    cases h
    exact ⟨by tauto, rfl, rfl⟩

/-- A round of `tbq_bucket_dequeue` serves the first flow of the first user entry, or unlinks a
    user entry that has to wait itself, or ends the loop. -/
theorem bucketDequeueBody_cases {fuel : ℕ} {d : Dir} {i : RuleIdx} {s s' : State} {more : Bool}
    (h : bucketDequeueBody fuel d i s = .ok (more, s')) :
    (∃ r f d' us us', TcId.bucket d i ∉ s.t.pending ∧ (s.q.bl (.bucket d i)).units = .user r :: us ∧
      TcId.user r ∉ s.t.pending ∧ (s.q.bl (.user r)).units = .flow f d' :: us' ∧
      (s.q.unit (.flow f d')).tc = some (.user r) ∧ flowBacklogTryDequeue fuel s f d' = .ok s' ∧ more = true) ∨
    (∃ r us q, TcId.bucket d i ∉ s.t.pending ∧ (s.q.bl (.bucket d i)).units = .user r :: us ∧
      TcId.user r ∈ s.t.pending ∧ backlogDetach s.q (.user r) = .ok q ∧ s' = { s with q := q } ∧ more = true) ∨
    ((TcId.bucket d i ∈ s.t.pending ∨ (s.q.bl (.bucket d i)).units = []) ∧ s' = s ∧ more = false) := by
  unfold bucketDequeueBody at h
  split at h
  next hgo =>
    split at h
    next r us hr =>
      obtain ⟨_, -, h⟩ := bind_eq_ok.mp h
      obtain ⟨_, -, h⟩ := bind_eq_ok.mp h
      obtain ⟨_, -, h⟩ := bind_eq_ok.mp h
      split at h
      next hp =>
        left
        split at h
        next f d' us' hunits =>
          simp only [bind_eq_ok, stopIf_eq_ok, pure_eq_ok, Prod.mk.injEq, not_not] at h
          obtain ⟨-, htc, s₁, hs₁, rfl, rfl⟩ := h
          exact ⟨r, f, d', us, us', hgo.1, hr, hp, hunits, htc, hs₁, rfl⟩
        · cases h
      next hp =>
        right; left
        obtain ⟨q, hq, h⟩ := bind_eq_ok.mp h
        cases h
        exact ⟨r, us, q, hgo.1, hr, not_not.mp hp, hq, rfl, rfl⟩
    · cases h
  next hgo =>
    right; right
    cases h
    exact ⟨by tauto, rfl, rfl⟩

/-- `tbq_token_ctrl_activate`. -/
def tokenCtrlActivate (fuel : ℕ) (s : State) (X : TcId) : Except Stop State := do
  let t ← fire s.t X
  let s := { s with t := t }
  match X with
  | .user r =>
    if ← backlogAttached s.q (.user r) then
      return s
    else
      userDequeue fuel s r
  | .bucket d i => bucketDequeue fuel s d i

/-! ## The timer -/

/-- One entry of a slot: it is activated when it is due at `vecJiffies` and goes back
to the slot otherwise. -/
def visit (fuel vecJiffies : ℕ) (s : State) (X : TcId) : Except Stop State :=
  if u32 (s.t.tc X).jiffies = u32 vecJiffies then
    tokenCtrlActivate fuel s X
  else
    pure s

/-- The entries of the slot of `vecJiffies`. -/
def slot (s : State) (vecJiffies : ℕ) : List TcId :=
  s.t.pending.filter fun X => (s.t.tc X).jiffies % 256 = vecJiffies % 256

/-- The order in which the timer finds the entries of a slot, for each jiffy that it comes to. -/
abbrev SlotOrder := ℕ → List TcId → List TcId

/-- One round of the loop of `tbq_timer_feed`; `order` is the order in which the slot
lists its entries. -/
def timerFeedBody (fuel : ℕ) (order : SlotOrder) (s : State) :
    Except Stop (Bool × State) := do
  if 0 ≤ i32 ((s.t.jiffies : ℤ) - s.timerJiffies) then
    let vecJiffies := s.timerJiffies
    let s ← (order vecJiffies (slot s vecJiffies)).foldlM (visit fuel vecJiffies)
      { s with timerJiffies := vecJiffies + 1 }
    return (true, s)
  else
    return (false, s)

/-- `tbq_timer_feed`. -/
def timerFeed (fuel : ℕ) (order : SlotOrder) (s : State) : Except Stop State :=
  loopFuel .fuel (timerFeedBody fuel order) fuel s

/-- The packets of a call leave: `tbq.backlog_packets -= dq.nr_send + dq.nr_drop`. -/
def release (s : State) : State :=
  { s with q := { s.q with
      backlogPackets := u32 (s.q.backlogPackets - u32 (s.q.dq.nrSend + s.q.dq.nrDrop))
      dq := .init } }

/-- The end of `tbq_timer_func`: the packets leave, and a waiting `tbq_disable` is
notified. -/
def timerEnd (s : State) : Except Stop State := do
  let s := release s
  if s.status = .waitingStop ∧ s.t.nrPending = 0 then
    stopIf (s.t.pending ≠ []) (.sched .timerUnused)
    return { s with disableDone := true }
  else
    return s

/-- What the end of a call can be. -/
theorem timerEnd_ok {s s' : State} (h : timerEnd s = .ok s') :
    s' = release s ∨ s' = { release s with disableDone := true } := by
  unfold timerEnd at h
  dsimp only at h
  split at h
  · obtain ⟨-, -, h⟩ := bind_eq_ok.mp h
    cases h
    exact .inr rfl
  · cases h
    exact .inl rfl

/-- `tbq_timer_func`. -/
def timerFunc (fuel : ℕ) (order : SlotOrder) (s : State) : Except Stop State := do
  let s ← timerFeed fuel order { s with q := { s.q with dq := .init } }
  timerEnd s

/-! ## The packet path -/

/-- `tbq_rule_match_ip`. -/
def ruleMatchIp (r : Rule) (ip : UserId) : ℕ :=
  if r.ipRules = [] then 1
  else match r.ipRules.find? fun w => w.min ≤ ip ∧ ip ≤ w.max with
    | some w => w.weight
    | none => 0

/-- The weight that `tbq_user_match` stores for rule `i` (a `uint8_t`). -/
def userMatchWeight (c : Config) (ip : UserId) (i : RuleIdx) : ℕ :=
  match c.rules[i.val]? with
  | some r => ruleMatchIp r ip % 2 ^ 8
  | none => 0

/-- `tbq_user_match`: the rules with a weight other than zero. -/
def userMatch (c : Config) (ip : UserId) : RuleMask :=
  (List.finRange 32).foldl
    (fun m i => if userMatchWeight c ip i ≠ 0 then m.set i else m) 0#32

/-- `tbq_rule_match_app`. -/
def ruleMatchApp (r : Rule) (app : ℕ) : ℕ :=
  if r.appRules = [] then 1 else if app ∈ r.appRules then 1 else 0

/-- The weight that `tbq_app_match` stores for rule `i`. -/
def appMatchWeight (c : Config) (app : ℕ) (i : RuleIdx) : ℕ :=
  match c.rules[i.val]? with
  | some r => ruleMatchApp r app
  | none => 0

/-- The mask `tbq_app_match` returns. -/
def appMatch (c : Config) (app : ℕ) (allMask : RuleMask) : RuleMask :=
  allMask.bits.foldl (fun m i => if appMatchWeight c app i ≠ 0 then m.set i else m) 0#32

/-- The token controls and masks of a new user: a zeroed track, with the entries of the
matching rules initialised (`tbq_token_ctrl_init`).  They are new token controls, so
their history starts here. -/
def userTrackTokens (s : State) (u : UserId) : TokenState :=
  { s.t with
    tc := fun X => match X with
      | .user r =>
          if r.u = u then
            if (userMatch s.cfg u).has r.i then ⟨0, s.t.jiffies, s.cfg.rate X⟩ else ⟨0, 0, 0⟩
          else s.t.tc X
      | .bucket _ _ => s.t.tc X
    userInactive := Function.update s.t.userInactive u fun _ => 0#32
    charged := s.t.charged.filter fun c => !c.tc.ofUser u }

/-- The backlogs of a new user (`tbq_user_init`). -/
def userTrackQueue (s : State) (u : UserId) : QueueState :=
  { s.q with
    bl := fun X => match X with
      | .user r => if r.u = u then ⟨[], 0, 0⟩ else s.q.bl X
      | .bucket _ _ => s.q.bl X
    unit := fun x => match x with
      | .user r =>
          if r.u = u then
            backlogInit (if (userMatch s.cfg u).has r.i then userMatchWeight s.cfg u r.i else 0)
          else s.q.unit x
      | .flow _ _ => s.q.unit x
    users := s.q.users ++ [u]
    userMask := Function.update s.q.userMask u (userMatch s.cfg u) }

/-- `tbq_user_track_alloc`, with `tbq_user_sched_init` in both directions. -/
def userTrackAlloc (s : State) (u : UserId) : Except Stop State := do
  stopIf (((userMatch s.cfg u).bits.any fun i => userMatchWeight s.cfg u i = 0) = true)
    (.queue .userInitWeight)
  return { s with t := userTrackTokens s u, q := userTrackQueue s u }

/-- `tbq_flow_track_init`. -/
def flowTrackInit (q : QueueState) (f : FlowId) : QueueState :=
  let unit : UnitId → Backlog := fun x => match x with
    | .flow f' _ => if f' = f then { backlogInit 0 with drrDeficit := (q.unit x).drrDeficit }
        else q.unit x
    | .user _ => q.unit x
  { q with
    unit := unit
    packets := Function.update q.packets f fun _ => []
    flow := Function.update q.flow f ⟨0, 0#32, fun _ => 0⟩
    flows := f :: q.flows }

/-- The part of `tbq_filter_packet` that classifies the flow when the application
changed. -/
def classify (c : Config) (q : QueueState) (f : FlowId) (app : ℕ) : FlowTrack :=
  let tf := q.flow f
  if tf.appId ≠ app then
    let all := q.userMask f.user
    ⟨app, appMatch c app all, fun i => if all.has i then appMatchWeight c app i else tf.weight i⟩
  else tf

/-- The verdicts of `tbq_filter_packet`. -/
inductive Verdict
  | accept | drop | queue
  deriving DecidableEq, Repr

/-- The length of a packet in memory. -/
abbrev SkbLen := { n : ℕ // 0 < n ∧ n < 2 ^ 30 }

theorem SkbLen.pos (len : SkbLen) : 0 < len.1 := len.2.1

theorem SkbLen.lt (len : SkbLen) : len.1 < 2 ^ 30 := len.2.2

/-- The part of `tbq_filter_packet` before the packet itself is looked at: the user
and the flow are tracked and the flow is classified.  `none` when the user track
could not be allocated. -/
def track (s : State) (f : FlowId) (app : ℕ) (allocOk : Bool) : Except Stop (Option State) := do
  if f.user ∉ s.q.users ∧ allocOk = false then
    return none
  else
    let s ← (if f.user ∈ s.q.users then pure s else userTrackAlloc s f.user)
    let q := if f ∈ s.q.flows then s.q else flowTrackInit s.q f
    return some { s with q := { q with
      flow := Function.update q.flow f (classify s.cfg q f app) } }

/-- The control block that `tbq_filter_packet` fills in. -/
def packetCtrl (s : State) (f : FlowId) (d : Dir) (len : SkbLen) : Packet :=
  ⟨f, d, (s.q.flow f).ruleMask, len.1, len.pos, len.lt⟩

/-- `tbq_filter_packet`. -/
def filterPacket (s : State) (f : FlowId) (d : Dir) (app : ℕ) (len : SkbLen) (allocOk : Bool) :
    Except Stop (Verdict × State) := do
  match ← track s f app allocOk with
  | none => return (.accept, s)
  | some s =>
    if (s.q.flow f).ruleMask = 0#32 then
      return (.accept, s)
    else
      let p := packetCtrl s f d len
      let (pendingUser, s) ← (do
        if ← flowBacklogEmpty s.q f d then
          let (o, t) ← packetCtrlConsume s.t p
          return (o.isSome, { s with t := t })
        else
          return (true, s))
      if pendingUser = false then
        return (.accept, s)
      else if s.cfg.maxBacklogPackets ≤ s.q.backlogPackets then
        return (.drop, s)
      else
        return (.queue, { s with inflight := s.inflight ++ [p] })

/-- The two verdicts of `tbq_enqueue` besides `0`: the packet goes back, or the flow
was over its ceiling and the packet is lost with what was dropped. -/
inductive EnqueueResult
  | queued | canceled | invalid
  deriving DecidableEq, Repr

/-- The end of `tbq_enqueue`: the packet joins the flow and the totals. -/
def putPacket (s : State) (p : Packet) (flowAttach : Bool) : Except Stop State := do
  let q ← flowBacklogEnqueue s.q p.flow p.dir p
  let q ← packetCtrlBacklogUpdate q p (i32 p.pktLen) (if flowAttach then some p.flow else none)
  return { s with q := { q with backlogPackets := u32 (q.backlogPackets + 1) } }

/-- `tbq_enqueue`. -/
def enqueue (fuel : ℕ) (s : State) (p : Packet) : Except Stop (EnqueueResult × State) := do
  if s.status ≠ .running then
    return (.canceled, s)
  else
    let s := { s with q := { s.q with dq := .init } }
    if ← flowBacklogEmpty s.q p.flow p.dir then
      let (pendingUser, t) ← packetCtrlConsume s.t p
      match pendingUser with
      | none => return (.canceled, { s with t := t })
      | some i =>
        let q ← flowBacklogAttach t.pending t.nrRule s.q p.flow p.dir (p.userRef i)
        let s ← putPacket { s with t := t, q := q } p true
        return (.queued, s)
    else
      let q ← flowBacklogDrop s.ceiling fuel s.q p.flow p.dir
      let s := { s with q := q }
      if s.q.dq.nrDrop ≠ 0 then
        return (.invalid, release s)
      else
        let s ← putPacket s p false
        return (.queued, s)

/-! ## Removal -/

/-- `tbq_token_ctrl_assert_unused`. -/
def tokenCtrlAssertUnused (s : State) (X : TcId) : Except Stop Unit := do
  stopIf (X ∈ s.t.pending) (.sched .unusedList)
  stopIf ((s.q.bl X).units ≠ []) (.sched .unusedUnits)
  stopIf ((s.q.bl X).octets ≠ 0) (.sched .unusedOctets)
  stopIf ((s.q.bl X).weight ≠ 0) (.sched .unusedWeight)

/-- `tbq_user_cleanup`. -/
def userCleanup (s : State) (r : UserRef) : Except Stop Unit := do
  tokenCtrlAssertUnused s (.user r)
  let empty ← backlogEmpty s.q (.user r)
  stopIf (empty = false) (.sched .userBacklogNotEmpty)

/-- `tbq_user_sched_cleanup`; the walk over `us->inactive_mask` clears the bits it
visits. -/
def userSchedCleanup (s : State) (u : UserId) (d : Dir) (ruleMask : RuleMask) :
    Except Stop State := do
  let t ← (s.t.userInactive u d).bits.foldlM
    (fun t i => do
      let t ← timerDel t (.user ⟨u, d, i⟩)
      return t.clrInactive (.user ⟨u, d, i⟩)) s.t
  stopIf (t.userInactive u d ≠ 0#32) (.sched .inactiveMask)
  let s := { s with t := t }
  ruleMask.bits.forM fun i => userCleanup s ⟨u, d, i⟩
  return s

/-- `tbq_user_track_free`. -/
def userTrackFree (s : State) (u : UserId) : Except Stop State := do
  let s := { s with q := { s.q with users := s.q.users.erase u } }
  let s ← userSchedCleanup s u 0 (s.q.userMask u)
  userSchedCleanup s u 1 (s.q.userMask u)

/-- `tbq_on_user_free`. -/
def onUserFree (s : State) (u : UserId) : Except Stop State :=
  if u ∈ s.q.users then userTrackFree s u else pure s

/-- The queue without the flow `f`, whose track is zeroed. -/
def flowTrackClear (q : QueueState) (f : FlowId) : QueueState :=
  { q with
    unit := fun x => match x with
      | .flow f' _ => if f' = f then backlogInit 0 else q.unit x
      | .user _ => q.unit x
    flow := Function.update q.flow f ⟨0, 0#32, fun _ => 0⟩
    flows := q.flows.erase f }

/-- `tbq_flow_track_cleanup`. -/
def flowTrackCleanup (q : QueueState) (f : FlowId) : Except Stop QueueState := do
  let out ← flowBacklogEmpty q f 0
  stopIf (out = false) (.sched .flowNotEmpty)
  let inn ← flowBacklogEmpty q f 1
  stopIf (inn = false) (.sched .flowNotEmpty)
  return flowTrackClear q f

/-- `tbq_on_flow_free`. -/
def onFlowFree (s : State) (f : FlowId) : Except Stop State := do
  if f ∈ s.q.flows then
    let q ← flowTrackCleanup s.q f
    return { s with q := q }
  else
    return s

/-- The assertions at the head of `tbq_global_set_config`. -/
def globalSetConfigAsserts (s : State) : Except Stop Unit := do
  stopIf (s.status ≠ .stopped) (.sched .setConfigStatus)
  stopIf (s.q.backlogPackets ≠ 0) (.sched .setConfigBacklog)

/-! ## Runs -/

/-- What can happen to the scheduler. -/
inductive Event
  /-- A packet of length `len` of the flow `f`, currently recognised as `app`, reaches
  the filter. -/
  | filter (f : FlowId) (d : Dir) (app : ℕ) (len : SkbLen) (allocOk : Bool)
  /-- The queue handler is called with a packet in flight. -/
  | enqueue (p : Packet)
  /-- The clock advances. -/
  | elapse (n : ℕ)
  /-- The timer runs. -/
  | tick (order : SlotOrder)
  | userFree (u : UserId)
  | flowFree (f : FlowId)
  /-- `tbq_disable`: the handlers are told to stop. -/
  | disableStop
  /-- `tbq_disable`: the timer is told to report an empty queue. -/
  | disableWait
  /-- `tbq_disable`: the wait is over, with or without that report. -/
  | disableEnd
  /-- `tbq_enable`. -/
  | enable

/-- Take one packet out of the packets in flight. -/
def State.land (s : State) (p : Packet) : State := { s with inflight := s.inflight.erase p }

/-- One event. -/
def step (fuel : ℕ) (s : State) : Event → Except Stop State
  | .filter f d app len allocOk =>
      if s.status = .running then do
        let (_, s) ← filterPacket s f d app len allocOk
        return s
      else pure s
  | .enqueue p => do
      let (_, s) ← enqueue fuel (s.land p) p
      return s
  | .elapse n => pure { s with t := { s.t with jiffies := s.t.jiffies + n } }
  | .tick order => timerFunc fuel order s
  | .userFree u => onUserFree s u
  | .flowFree f => onFlowFree s f
  | .disableStop => pure (if s.status = .running then { s with status := .stopping } else s)
  | .disableWait =>
      pure (if s.status = .stopping then
        { s with status := .waitingStop, disableDone := false } else s)
  | .disableEnd =>
      pure (if s.status = .waitingStop then
        { s with status := if s.disableDone then .stopped else .running } else s)
  | .enable => pure (if s.status = .stopped then { s with status := .running } else s)

/-- The flow has a packet queued or on its way to the queue. -/
def State.Holds (s : State) (f : FlowId) : Prop :=
  (∃ d, s.q.packets f d ≠ []) ∨ ∃ p ∈ s.inflight, p.flow = f

/-- What the surroundings of the scheduler promise about an event: only packets in
flight reach the queue handler; a flow that holds packets keeps its rules and
weights; a slot lists each of its entries once; what is freed holds no packets. -/
def Admissible (s : State) : Event → Prop
  | .filter f _ app _ _ => s.Holds f →
      (classify s.cfg s.q f app).ruleMask = (s.q.flow f).ruleMask
        ∧ (classify s.cfg s.q f app).weight = (s.q.flow f).weight
  | .enqueue p => p ∈ s.inflight
  | .tick order => ∀ v l, (order v l).Perm l
  | .userFree u => ∀ f, f.user = u → ¬ s.Holds f
  | .flowFree f => ¬ s.Holds f
  | _ => True

/-- The scheduler after `tbq_global_init` and `tbq_global_set_config`: every bucket
initialised, no user and no flow. -/
def initState (cfg : Config) (now : ℕ) : State where
  cfg := cfg
  t := { HZ := cfg.HZ, nrRule := cfg.rules.length, jiffies := now,
         tc := fun X => match X with
           | .bucket d i => if i.val < cfg.rules.length then ⟨0, now, cfg.rate (.bucket d i)⟩
               else ⟨0, 0, 0⟩
           | .user _ => ⟨0, 0, 0⟩
         bucketInactive := fun _ => 0#32, userInactive := fun _ _ => 0#32
         pending := [], nrPending := 0, charged := [] }
  q := { unit := fun _ => backlogInit 0, bl := fun _ => ⟨[], 0, 0⟩, packets := fun _ _ => []
         flow := fun _ => ⟨0, 0#32, fun _ => 0⟩, flows := [], users := []
         userMask := fun _ => 0#32, backlogPackets := 0, dq := .init }
  timerJiffies := now
  status := .running
  disableDone := false
  inflight := []

/-- The states that a run can reach from `s₀` by admissible events, each of which meets
the condition `P` in the state it happens in. -/
inductive Reachable (P : State → Event → Prop) (s₀ : State) : State → Prop
  | init : Reachable P s₀ s₀
  | step {s s' : State} {fuel : ℕ} {e : Event} :
      Reachable P s₀ s → Admissible s e → P s e → step fuel s e = .ok s' → Reachable P s₀ s'

/-- No condition on the events of a run. -/
def AnyEvent (_ : State) (_ : Event) : Prop := True

/-- A property of the initial state that every event of the run keeps holds in every
reachable state. -/
theorem Reachable.invariant {P : State → Event → Prop} {s₀ : State} {I : State → Prop}
    (hinit : I s₀)
    (hstep : ∀ s fuel e s', I s → Admissible s e → P s e → Tbq.step fuel s e = .ok s' → I s')
    {s : State} (h : Reachable P s₀ s) : I s := by
  induction h with
  | init => exact hinit
  | step _ hadm hP hs ih => exact hstep _ _ _ _ ih hadm hP hs

end Tbq
