/-
# The scheduler on the linked timer

The functions of `drivers/tbq/src/tbq_core.c` that read or write the lists of the timer, over
their links: `list_empty(&tc->list)` reads a link, `tbq_timer_mod` and `tbq_timer_del` write
links, and `tbq_timer_feed` follows them through the slot it walks.  All other functions are
those of the scheduler whose timer is the set of the pending token controls, and the names of
that scheduler's functions are kept for the linked ones.

Of that scheduler's state the list `pending` stays as a record of what was put on the timer and
not taken off: no function here reads it.  A user that is created anew has its nodes where it had
them before, and `work_list` is one node for all calls of `tbq_timer_feed`, whose frame lies at
the same place.
-/
import OpenwrtAc.TbqRuns
import OpenwrtAc.TbqSlots

open Outcome MachineInt KernelList

namespace Tbq.Linked

/-- The token controls and the links of the timer. -/
structure Tokens where
  t : TokenState
  mem : Mem Node

/-- `struct tbq_global` and the links of its timer. -/
structure Sched where
  s : State
  mem : Mem Node

/-- The token controls of the scheduler. -/
def Sched.tokens (L : Sched) : Tokens := ⟨L.s.t, L.mem⟩

/-- Replace the token controls. -/
def Sched.setTokens (L : Sched) (x : Tokens) : Sched := ⟨{ L.s with t := x.t }, x.mem⟩

/-- Replace the backlogs. -/
def Sched.setQueue (L : Sched) (q : QueueState) : Sched := { L with s := { L.s with q := q } }

/-! ## Token controls -/

/-- `tbq_timer_mod`. -/
def timerMod (x : Tokens) (X : TcId) (expireJiffies : ℕ) : Tokens :=
  ⟨Tbq.timerMod x.t X, x.mem.listAddTail (.tc X) (.slot (slotOf expireJiffies))⟩

/-- `tbq_timer_del`. -/
def timerDel (x : Tokens) (X : TcId) : Except Stop Tokens := do
  stopIf ((x.t.tc X).tokens < 0) (.token .timerDelTokens)
  stopIf (x.mem.listEmpty (.tc X) = true) (.token .timerDelList)
  return ⟨{ x.t with pending := x.t.pending.erase X, nrPending := x.t.nrPending - 1 },
    x.mem.listDelInit (.tc X)⟩

/-- `tbq_token_ctrl_deactivate`. -/
def tokenCtrlDeactivate (x : Tokens) (X : TcId) : Except Stop Tokens := do
  let c := x.t.tc X
  stopIf (0 ≤ c.tokens) (.token .deactivateTokens)
  stopIf (x.mem.listEmpty (.tc X) = false) (.token .deactivateList)
  stopIf (c.tokensPerJiffy = 0) (.token .deactivateDivide)
  let expireJiffies := u32 ((i32 (-c.tokens + c.tokensPerJiffy - 1)).tdiv c.tokensPerJiffy)
  let activeJiffies := x.t.jiffies + expireJiffies
  let c' := { c with
    tokens := i32 (c.tokens + expireJiffies * c.tokensPerJiffy)
    jiffies := activeJiffies }
  return timerMod ⟨x.t.setTc X c', x.mem⟩ X activeJiffies

/-- `tbq_token_ctrl_consume`, which reads the link of the token control and writes none. -/
def tokenCtrlConsume (x : Tokens) (X : TcId) (pktLen : ℕ) : Except Stop (Bool × TokenState) := do
  stopIf ((x.t.tc X).tokens < 0) (.token .consumeTokens)
  stopIf (x.mem.listEmpty (.tc X) = false) (.token .consumeList)
  let t := spend x.t X pktLen
  if 0 ≤ (t.tc X).tokens then
    return (true, t)
  else
    tokenCtrlFeed t X

/-- The half of `tbq_user_consume` for one token control. -/
def consumeOrDeactivate (x : Tokens) (X : TcId) (pktLen : ℕ) : Except Stop Tokens := do
  let (active, t) ← tokenCtrlConsume x X pktLen
  if active then
    return ⟨t, x.mem⟩
  else
    tokenCtrlDeactivate ⟨t.setInactive X, x.mem⟩ X

/-- `tbq_user_consume`. -/
def userConsume (x : Tokens) (r : UserRef) (pktLen : ℕ) : Except Stop Tokens := do
  stopIf (x.t.nrRule ≤ r.i.val) (.token .bucketIndex)
  let x ← consumeOrDeactivate x r.bucket pktLen
  consumeOrDeactivate x (.user r) pktLen

/-- `tbq_packet_ctrl_consume`. -/
def packetCtrlConsume (x : Tokens) (p : Packet) : Except Stop (Option RuleIdx × Tokens) := do
  match (x.t.bucketInactive p.dir &&& p.ruleMask).ffs with
  | some i => return (some i, x)
  | none =>
    match (x.t.userInactive p.flow.user p.dir &&& p.ruleMask).ffs with
    | some i => return (some i, x)
    | none =>
      let x ← p.ruleMask.bits.foldlM (fun x i => userConsume x (p.userRef i) p.pktLen) x
      return (none, x)

/-- The token controls that `tbq_flow_backlog_attach` finds in a list, of the two that it
tests. -/
def waiting (m : Mem Node) (r : UserRef) : List TcId :=
  [r.bucket, .user r].filter fun X => !m.listEmpty (.tc X)

/-! ## Dequeueing -/

/-- `tbq_flow_backlog_try_dequeue`. -/
def flowBacklogTryDequeue (fuel : ℕ) (L : Sched) (f : FlowId) (d : Dir) : Except Stop Sched := do
  let empty ← flowBacklogEmpty L.s.q f d
  stopIf (empty = true) (.sched .tryDequeueEmpty)
  let q ← flowBacklogDrop L.s.ceiling fuel L.s.q f d
  if ← flowBacklogEmpty q f d then
    return L.setQueue q
  else
    match q.packets f d, (q.unit (.flow f d)).tc with
    | p :: rest, some X =>
      stopIf (p.flow ≠ f ∨ p.dir ≠ d) (.sched .tryDequeueFlow)
      stopIf (L.mem.listEmpty (.tc X) = false) (.sched .tryDequeueList)
      let (pendingUser, x) ← packetCtrlConsume L.tokens p
      match pendingUser with
      | some i =>
        let q ← flowBacklogDetach q f d
        let q ← flowBacklogAttach (waiting x.mem (p.userRef i)) x.t.nrRule q f d (p.userRef i)
        stopIf ((q.unit (.flow f d)).tc = some X) (.sched .tryDequeueSameTc)
        return (L.setTokens x).setQueue q
      | none =>
        let q ← flowBacklogDrrSchedule q f d p.pktLen
        let q ← takePacket q f d p rest
        let dq := { q.dq with send := q.dq.send ++ [p], nrSend := u32 (q.dq.nrSend + 1) }
        return (L.setTokens x).setQueue { q with dq := dq }
    | _, _ => throw .badPointer

/-- One round of the loop of `tbq_user_dequeue`. -/
def userDequeueBody (fuel : ℕ) (r : UserRef) (L : Sched) : Except Stop (Bool × Sched) := do
  if L.mem.listEmpty (.tc (.user r)) = true ∧ (L.s.q.bl (.user r)).units ≠ [] then
    if L.mem.listEmpty (.tc r.bucket) = true then
      match (L.s.q.bl (.user r)).units with
      | .flow f d :: _ =>
        stopIf ((L.s.q.unit (.flow f d)).tc ≠ some (.user r)) (.sched .userDequeueTc)
        let L ← flowBacklogTryDequeue fuel L f d
        return (true, L)
      | _ => throw .badPointer
    else
      let q ← backlogAttach L.s.q (.user r) r.bucket
      return (false, L.setQueue q)
  else
    return (false, L)

/-- `tbq_user_dequeue`. -/
def userDequeue (fuel : ℕ) (L : Sched) (r : UserRef) : Except Stop Sched := do
  stopIf (L.mem.listEmpty (.tc (.user r)) = false) (.sched .userDequeueList)
  loopFuel .fuel (userDequeueBody fuel r) fuel L

/-- One round of the loop of `tbq_bucket_dequeue`. -/
def bucketDequeueBody (fuel : ℕ) (d : Dir) (i : RuleIdx) (L : Sched) :
    Except Stop (Bool × Sched) := do
  if L.mem.listEmpty (.tc (.bucket d i)) = true ∧ (L.s.q.bl (.bucket d i)).units ≠ [] then
    match (L.s.q.bl (.bucket d i)).units with
    | .user r :: _ =>
      stopIf ((L.s.q.unit (.user r)).tc ≠ some (.bucket d i)) (.sched .bucketDequeueTc)
      let empty ← backlogEmpty L.s.q (.user r)
      stopIf (empty = true) (.sched .bucketDequeueEmpty)
      if L.mem.listEmpty (.tc (.user r)) = true then
        match (L.s.q.bl (.user r)).units with
        | .flow f d' :: _ =>
          stopIf ((L.s.q.unit (.flow f d')).tc ≠ some (.user r)) (.sched .bucketDequeueTc)
          let L ← flowBacklogTryDequeue fuel L f d'
          return (true, L)
        | _ => throw .badPointer
      else
        let q ← backlogDetach L.s.q (.user r)
        return (true, L.setQueue q)
    | _ => throw .badPointer
  else
    return (false, L)

/-- `tbq_bucket_dequeue`. -/
def bucketDequeue (fuel : ℕ) (L : Sched) (d : Dir) (i : RuleIdx) : Except Stop Sched := do
  stopIf (L.mem.listEmpty (.tc (.bucket d i)) = false) (.sched .bucketDequeueList)
  loopFuel .fuel (bucketDequeueBody fuel d i) fuel L

/-- The start of `tbq_token_ctrl_activate`. -/
def fire (x : Tokens) (X : TcId) : Except Stop Tokens := do
  let x ← timerDel x X
  stopIf (x.t.nrRule ≤ X.rule.val) (.token .bucketIndex)
  return ⟨x.t.clrInactive X, x.mem⟩

/-- `tbq_token_ctrl_activate`. -/
def tokenCtrlActivate (fuel : ℕ) (L : Sched) (X : TcId) : Except Stop Sched := do
  let x ← fire L.tokens X
  let L := L.setTokens x
  match X with
  | .user r =>
    if ← backlogAttached L.s.q (.user r) then
      return L
    else
      userDequeue fuel L r
  | .bucket d i => bucketDequeue fuel L d i

/-! ## The timer -/

/-- One round of `list_for_each_entry_safe` over `work_list`: `pos` is the entry, and the
next one is read before the body runs. -/
def walkBody (fuel vecJiffies : ℕ) (x : Node × Sched) : Except Stop (Bool × (Node × Sched)) := do
  match x.1 with
  | .work => return (false, x)
  | .slot _ => throw .badPointer
  | .tc X =>
    let next := x.2.mem.next (.tc X)
    if u32 (x.2.s.t.tc X).jiffies = u32 vecJiffies then
      let L ← tokenCtrlActivate fuel x.2 X
      return (true, next, L)
    else
      return (true, next, { x.2 with
        mem := x.2.mem.listAddTail (.tc X) (.slot (slotOf vecJiffies)) })

/-- The walk over one slot. -/
def walkSlot (fuel vecJiffies : ℕ) (L : Sched) : Except Stop Sched := do
  let vecList := Node.slot (slotOf vecJiffies)
  if L.mem.listEmpty vecList = false then
    let L := { L with mem := L.mem.listReplaceInit vecList .work }
    let x ← loopFuel .fuel (walkBody fuel vecJiffies) fuel (L.mem.next .work, L)
    return x.2
  else
    return L

/-- One round of the loop of `tbq_timer_feed`. -/
def timerFeedBody (fuel : ℕ) (L : Sched) : Except Stop (Bool × Sched) := do
  if 0 ≤ i32 ((L.s.t.jiffies : ℤ) - L.s.timerJiffies) then
    let vecJiffies := L.s.timerJiffies
    let L ← walkSlot fuel vecJiffies { L with s := { L.s with timerJiffies := vecJiffies + 1 } }
    return (true, L)
  else
    return (false, L)

/-- `tbq_timer_feed`. -/
def timerFeed (fuel : ℕ) (L : Sched) : Except Stop Sched :=
  loopFuel .fuel (timerFeedBody fuel) fuel L

/-- `tbq_timer_assert_unused`. -/
def timerAssertUnused (L : Sched) : Except Stop Unit := do
  stopIf (((List.finRange 256).any fun k => !L.mem.listEmpty (.slot k)) = true)
    (.sched .timerUnused)
  stopIf (L.s.t.nrPending ≠ 0) (.sched .timerUnused)

/-- The end of `tbq_timer_func`. -/
def timerEnd (L : Sched) : Except Stop Sched := do
  let L := { L with s := release L.s }
  if L.s.status = .waitingStop ∧ L.s.t.nrPending = 0 then
    timerAssertUnused L
    return { L with s := { L.s with disableDone := true } }
  else
    return L

/-- The lists of a call are set up. -/
def Sched.begin (L : Sched) : Sched := L.setQueue { L.s.q with dq := .init }

/-- `tbq_timer_func`. -/
def timerFunc (fuel : ℕ) (L : Sched) : Except Stop Sched := do
  let L ← timerFeed fuel L.begin
  timerEnd L

/-! ## The packet path -/

/-- The lists that `tbq_user_sched_init` initialises. -/
def userSchedLinks (m : Mem Node) (u : UserId) (d : Dir) (ruleMask : RuleMask) : Mem Node :=
  ruleMask.bits.foldl (fun m i => m.initListHead (.tc (.user ⟨u, d, i⟩))) m

/-- The lists that `tbq_user_track_alloc` initialises. -/
def userTrackLinks (c : Config) (m : Mem Node) (u : UserId) : Mem Node :=
  userSchedLinks (userSchedLinks m u 0 (userMatch c u)) u 1 (userMatch c u)

/-- The part of `tbq_filter_packet` before the packet itself is looked at. -/
def track (L : Sched) (f : FlowId) (app : ℕ) (allocOk : Bool) : Except Stop (Option Sched) := do
  match ← Tbq.track L.s f app allocOk with
  | none => return none
  | some s =>
    return some ⟨s, if f.user ∈ L.s.q.users then L.mem else userTrackLinks L.s.cfg L.mem f.user⟩

/-- `tbq_filter_packet`. -/
def filterPacket (L : Sched) (f : FlowId) (d : Dir) (app : ℕ) (len : SkbLen) (allocOk : Bool) :
    Except Stop (Verdict × Sched) := do
  match ← track L f app allocOk with
  | none => return (.accept, L)
  | some L =>
    if (L.s.q.flow f).ruleMask = 0#32 then
      return (.accept, L)
    else
      let p := packetCtrl L.s f d len
      let (pendingUser, L) ← (do
        if ← flowBacklogEmpty L.s.q f d then
          let (o, x) ← packetCtrlConsume L.tokens p
          return (o.isSome, L.setTokens x)
        else
          return (true, L))
      if pendingUser = false then
        return (.accept, L)
      else if L.s.cfg.maxBacklogPackets ≤ L.s.q.backlogPackets then
        return (.drop, L)
      else
        return (.queue, { L with s := { L.s with inflight := L.s.inflight ++ [p] } })

/-- `tbq_enqueue`. -/
def enqueue (fuel : ℕ) (L : Sched) (p : Packet) : Except Stop (EnqueueResult × Sched) := do
  if L.s.status ≠ .running then
    return (.canceled, L)
  else
    let L := L.begin
    if ← flowBacklogEmpty L.s.q p.flow p.dir then
      let (pendingUser, x) ← packetCtrlConsume L.tokens p
      match pendingUser with
      | none => return (.canceled, L.setTokens x)
      | some i =>
        let q ← flowBacklogAttach (waiting x.mem (p.userRef i)) x.t.nrRule L.s.q p.flow p.dir
          (p.userRef i)
        let s ← putPacket ((L.setTokens x).setQueue q).s p true
        return (.queued, ⟨s, x.mem⟩)
    else
      let q ← flowBacklogDrop L.s.ceiling fuel L.s.q p.flow p.dir
      let L := L.setQueue q
      if L.s.q.dq.nrDrop ≠ 0 then
        return (.invalid, ⟨release L.s, L.mem⟩)
      else
        let s ← putPacket L.s p false
        return (.queued, ⟨s, L.mem⟩)

/-! ## Removal -/

/-- `tbq_token_ctrl_assert_unused`. -/
def tokenCtrlAssertUnused (L : Sched) (X : TcId) : Except Stop Unit := do
  stopIf (L.mem.listEmpty (.tc X) = false) (.sched .unusedList)
  stopIf ((L.s.q.bl X).units ≠ []) (.sched .unusedUnits)
  stopIf ((L.s.q.bl X).octets ≠ 0) (.sched .unusedOctets)
  stopIf ((L.s.q.bl X).weight ≠ 0) (.sched .unusedWeight)

/-- `tbq_user_cleanup`. -/
def userCleanup (L : Sched) (r : UserRef) : Except Stop Unit := do
  tokenCtrlAssertUnused L (.user r)
  let empty ← backlogEmpty L.s.q (.user r)
  stopIf (empty = false) (.sched .userBacklogNotEmpty)

/-- `tbq_user_sched_cleanup`. -/
def userSchedCleanup (L : Sched) (u : UserId) (d : Dir) (ruleMask : RuleMask) :
    Except Stop Sched := do
  let x ← (L.s.t.userInactive u d).bits.foldlM
    (fun x i => do
      let x ← timerDel x (.user ⟨u, d, i⟩)
      return ⟨x.t.clrInactive (.user ⟨u, d, i⟩), x.mem⟩) L.tokens
  stopIf (x.t.userInactive u d ≠ 0#32) (.sched .inactiveMask)
  let L := L.setTokens x
  ruleMask.bits.forM fun i => userCleanup L ⟨u, d, i⟩
  return L

/-- `tbq_user_track_free`. -/
def userTrackFree (L : Sched) (u : UserId) : Except Stop Sched := do
  let L := L.setQueue { L.s.q with users := L.s.q.users.erase u }
  let L ← userSchedCleanup L u 0 (L.s.q.userMask u)
  userSchedCleanup L u 1 (L.s.q.userMask u)

/-- `tbq_on_user_free`. -/
def onUserFree (L : Sched) (u : UserId) : Except Stop Sched :=
  if u ∈ L.s.q.users then userTrackFree L u else pure L

/-! ## Runs -/

/-- One event.  The order in which a tick finds the entries of a slot is that of their links, and
what neither reads nor writes them is the step of the scheduler without links. -/
def step (fuel : ℕ) (L : Sched) : Event → Except Stop Sched
  | .filter f d app len allocOk =>
      if L.s.status = .running then do
        let (_, L) ← filterPacket L f d app len allocOk
        return L
      else pure L
  | .enqueue p => do
      let (_, L) ← enqueue fuel { L with s := L.s.land p } p
      return L
  | .tick _ => timerFunc fuel L
  | .userFree u => onUserFree L u
  | e => do
      let s ← Tbq.step fuel L.s e
      return ⟨s, L.mem⟩

/-- The scheduler after `tbq_global_init`, whose slots are empty, and `tbq_global_set_config`. -/
def initSched (cfg : Config) (now : ℕ) : Sched := ⟨initState cfg now, ⟨id, id⟩⟩

/-- In the slot that is walked next, no token control that is due stands behind one that is
not. -/
def Orderly (L : Sched) : Prop :=
  ∀ l : List TcId, Ring L.mem (.slot (slotOf L.s.timerJiffies)) (l.map .tc) →
    l.Pairwise fun X Y => u32 (L.s.t.tc Y).jiffies = u32 L.s.timerJiffies →
      u32 (L.s.t.tc X).jiffies = u32 L.s.timerJiffies

/-- Every slot that the next `n` rounds of `tbq_timer_feed` walk is in order. -/
def FeedsOrderly (fuel : ℕ) : ℕ → Sched → Prop
  | 0, _ => True
  | n + 1, L => (0 ≤ i32 ((L.s.t.jiffies : ℤ) - L.s.timerJiffies) → Orderly L)
      ∧ ∀ L', timerFeedBody fuel L = .ok (true, L') → FeedsOrderly fuel n L'

/-- A tick finds every slot that it walks in order. -/
def InOrder (fuel : ℕ) (L : Sched) : Event → Prop
  | .tick _ => FeedsOrderly fuel fuel L.begin
  | _ => True

/-- The states that a run can reach from `L₀` by admissible events that meet `P`. -/
inductive Reachable (P : ℕ → Sched → Event → Prop) (L₀ : Sched) : Sched → Prop
  | init : Reachable P L₀ L₀
  | step {L L' : Sched} {fuel : ℕ} {e : Event} : Reachable P L₀ L → Admissible L.s e →
      P fuel L e → step fuel L e = .ok L' → Reachable P L₀ L'

/-- The token control is in the list of the slot of its expiry. -/
def Sched.OnTimer (L : Sched) (X : TcId) : Prop :=
  ∃ l : List TcId, Ring L.mem (.slot (slotOf (L.s.t.tc X).jiffies)) (l.map .tc) ∧ X ∈ l

end Tbq.Linked
