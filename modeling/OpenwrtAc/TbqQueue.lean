/-
# Backlogs

The queue side of `drivers/tbq/src/tbq_core.c`: backlog units linked to the token
control they wait for (`tbq_backlog_attach`, `tbq_backlog_detach`), the packet
lists of the flows, the octet and weight totals kept at the users and the buckets
(`tbq_user_backlog_update`), the ceilings on a flow's backlog and the drop from
its tail, and the deficit round robin of the units of one token control.

Octet counters are `uint32_t` and wrap.  The weight totals are kept in `ℕ`: every
unit contributes at most 255 and is backed by an allocated structure.
-/
import OpenwrtAc.TbqTokens

open Outcome MachineInt

namespace Tbq

/-- `struct tbq_backlog`; `linked` says that its `list` node is in a list. -/
structure Backlog where
  tc : Option TcId
  linked : Bool
  octets : ℕ
  weight : ℕ
  drrDeficit : ℤ
  deriving DecidableEq, Repr

/-- The `backlog` of a `struct tbq_token_ctrl`. -/
structure TcBacklog where
  units : List UnitId
  octets : ℕ
  weight : ℕ
  deriving DecidableEq, Repr

/-- `struct tbq_flow_track`, without its two backlogs. -/
structure FlowTrack where
  appId : ℕ
  ruleMask : RuleMask
  weight : RuleIdx → ℕ

/-- `struct tbq_dequeue_info`. -/
structure DequeueInfo where
  send : List Packet
  drop : List Packet
  nrSend : ℕ
  nrDrop : ℕ

/-- `struct tbq_dequeue_info` as its users initialise it. -/
def DequeueInfo.init : DequeueInfo := ⟨[], [], 0, 0⟩

/-- The backlogs of all flows, users and buckets, the lists `tbq.flows` and
`tbq.users`, the packet count, and the dequeue information of the running call. -/
structure QueueState where
  unit : UnitId → Backlog
  bl : TcId → TcBacklog
  packets : FlowId → Dir → List Packet
  flow : FlowId → FlowTrack
  flows : List FlowId
  users : List UserId
  userMask : UserId → RuleMask
  backlogPackets : ℕ
  dq : DequeueInfo

namespace QueueState

/-- Replace one backlog unit. -/
def setUnit (q : QueueState) (x : UnitId) (b : Backlog) : QueueState :=
  { q with unit := Function.update q.unit x b }

/-- Replace the backlog of one token control. -/
def setBl (q : QueueState) (X : TcId) (b : TcBacklog) : QueueState :=
  { q with bl := Function.update q.bl X b }

/-- Replace the list of units of one token control. -/
def setUnits (q : QueueState) (X : TcId) (l : List UnitId) : QueueState :=
  q.setBl X { q.bl X with units := l }

/-- Replace the packet list of a flow in one direction. -/
def setPackets (q : QueueState) (f : FlowId) (d : Dir) (l : List Packet) : QueueState :=
  { q with packets := Function.update q.packets f (Function.update (q.packets f) d l) }

end QueueState

/-! ## One backlog unit -/

/-- `tbq_backlog_init`. -/
def backlogInit (weight : ℕ) : Backlog := ⟨none, false, 0, weight, 0⟩

/-- `tbq_backlog_empty`. -/
def backlogEmpty (q : QueueState) (x : UnitId) : Except Stop Bool := do
  let b := q.unit x
  if b.linked = false then
    stopIf (b.tc ≠ none) (.queue .backlogEmptyTc)
    stopIf (b.octets ≠ 0) (.queue .backlogEmptyOctets)
    return true
  else
    stopIf (b.tc = none) (.queue .backlogFullTc)
    stopIf (b.octets = 0) (.queue .backlogFullOctets)
    return false

/-- `tbq_flow_backlog_empty`. -/
def flowBacklogEmpty (q : QueueState) (f : FlowId) (d : Dir) : Except Stop Bool := do
  if ← backlogEmpty q (.flow f d) then
    stopIf ((q.packets f d).isEmpty = false) (.queue .flowEmptyPackets)
    return true
  else
    stopIf ((q.packets f d).isEmpty = true) (.queue .flowFullPackets)
    return false

/-- `tbq_backlog_attached`. -/
def backlogAttached (q : QueueState) (x : UnitId) : Except Stop Bool := do
  let b := q.unit x
  if b.tc ≠ none then
    stopIf (b.linked = false) (.queue .attachedList)
    return true
  else
    stopIf (b.linked = true) (.queue .detachedList)
    return false

/-- Link a unit at the tail of the units of a token control. -/
def link (q : QueueState) (x : UnitId) (X : TcId) : QueueState :=
  (q.setUnits X ((q.bl X).units ++ [x])).setUnit x
    { q.unit x with
      tc := some X, linked := true
      drrDeficit := i32 ((q.unit x).weight * 2 ^ tbqDrrQuantumShift) }

/-- `tbq_backlog_attach`. -/
def backlogAttach (q : QueueState) (x : UnitId) (X : TcId) : Except Stop QueueState := do
  if ← backlogAttached q x then
    return q
  else
    return link q x X

/-- Take a unit out of the list of the token control it is linked to. -/
def listDel (q : QueueState) (x : UnitId) : QueueState :=
  match (q.unit x).tc with
  | some X => q.setUnits X ((q.bl X).units.erase x)
  | none => q

/-- Unlink a unit from the token control it is linked to. -/
def unlink (q : QueueState) (x : UnitId) : QueueState :=
  (listDel q x).setUnit x { q.unit x with tc := none, linked := false }

/-- `tbq_backlog_detach`. -/
def backlogDetach (q : QueueState) (x : UnitId) : Except Stop QueueState := do
  if ← backlogAttached q x then
    return unlink q x
  else
    return q

/-- `tbq_backlog_enqueue`. -/
def backlogEnqueue (q : QueueState) (x : UnitId) (octets : ℕ) : QueueState :=
  let b := q.unit x
  q.setUnit x { b with octets := u32 (b.octets + octets) }

/-- `tbq_backlog_dequeue`. -/
def backlogDequeue (q : QueueState) (x : UnitId) (octets : ℕ) : Except Stop QueueState := do
  let b := q.unit x
  stopIf (b.octets < octets) (.queue .backlogDequeue)
  let q := q.setUnit x { b with octets := b.octets - octets }
  if (q.unit x).octets = 0 then
    backlogDetach q x
  else
    return q

/-- The new deficit of a unit that is charged `pktLen`, and whether it goes to the
tail of its list. -/
def drrCharge (b : Backlog) (pktLen : ℕ) : Backlog × Bool :=
  let deficit := i32 (b.drrDeficit - pktLen)
  if deficit < 0 then
    ({ b with drrDeficit := i32 (deficit + b.weight * 2 ^ tbqDrrQuantumShift) }, true)
  else
    ({ b with drrDeficit := deficit }, false)

/-- `tbq_backlog_drr_schedule`. -/
def backlogDrrSchedule (q : QueueState) (x : UnitId) (pktLen : ℕ) : Except Stop QueueState := do
  if ← backlogAttached q x then
    let (b, rotate) := drrCharge (q.unit x) pktLen
    let q := q.setUnit x b
    match rotate, b.tc with
    | true, some X => return q.setUnits X ((q.bl X).units.erase x ++ [x])
    | _, _ => return q
  else
    return q

/-! ## Ceilings -/

/-- The rates and the latency shift that the ceilings are computed from. -/
structure Ceiling where
  rate : TcId → ℤ
  latencyShift : ℕ

/-- `tbq_backlog_max_octets`. -/
def backlogMaxOctets (k : Ceiling) (q : QueueState) (x : UnitId) (parentCeiling : ℕ) :
    Except Stop ℕ := do
  let attached ← backlogAttached q x
  stopIf (attached = false) (.queue .maxOctetsDetached)
  match (q.unit x).tc with
  | none => throw .badPointer
  | some X =>
    let latencyCeiling := u32 (k.rate X * 2 ^ k.latencyShift)
    let totalCeiling := min parentCeiling latencyCeiling
    let total := (q.bl X).weight
    let weight := (q.unit x).weight
    stopIf (total = 0) (.queue .maxOctetsDivide)
    return u32 ((u32 (totalCeiling / total * weight) : ℕ)
      + (u32 (totalCeiling % total * weight) / total : ℕ))

/-- `tbq_flow_backlog_max_octets`. -/
def flowBacklogMaxOctets (k : Ceiling) (q : QueueState) (f : FlowId) (d : Dir) :
    Except Stop ℕ := do
  match (q.unit (.flow f d)).tc with
  | some (.user r) =>
    let bucketCeiling := 2 ^ 32 - 1
    let userCeiling ← (do
      if ← backlogAttached q (.user r) then
        backlogMaxOctets k q (.user r) bucketCeiling
      else
        return bucketCeiling)
    backlogMaxOctets k q (.flow f d) userCeiling
  | _ => throw .badPointer

/-! ## The totals at users and buckets -/

/-- `tbq_user_backlog_update`. -/
def userBacklogUpdate (q : QueueState) (r : UserRef) (pktLen weight : ℤ) :
    Except Stop QueueState := do
  let bucket := q.bl r.bucket
  let user := q.bl (.user r)
  let bucket := { bucket with octets := u32 (bucket.octets + pktLen) }
  let bucket ← (do
    if user.octets = 0 then
      stopIf (user.weight ≠ 0 ∨ weight ≤ 0 ∨ pktLen ≤ 0) (.queue .userBacklogFirst)
      return { bucket with weight := bucket.weight + (q.unit (.user r)).weight }
    else
      return bucket)
  let user := { user with
    octets := u32 (user.octets + pktLen), weight := (user.weight + weight).toNat }
  let bucket ← (do
    if user.octets = 0 then
      stopIf (user.weight ≠ 0 ∨ 0 ≤ weight ∨ 0 ≤ pktLen) (.queue .userBacklogLast)
      return { bucket with weight := bucket.weight - (q.unit (.user r)).weight }
    else
      return bucket)
  return (q.setBl r.bucket bucket).setBl (.user r) user

/-- The weight that `tbq_packet_ctrl_backlog_update` passes on for rule `i`: that of
the flow when it attaches or detaches, negated with the length. -/
def updateWeight (q : QueueState) (pktLen : ℤ) (fb : Option FlowId) (i : RuleIdx) : ℤ :=
  match fb with
  | some f => if pktLen < 0 then -((q.flow f).weight i : ℤ) else (q.flow f).weight i
  | none => 0

/-- `tbq_packet_ctrl_backlog_update`. -/
def packetCtrlBacklogUpdate (q : QueueState) (p : Packet) (pktLen : ℤ) (fb : Option FlowId) :
    Except Stop QueueState :=
  p.ruleMask.bits.foldlM
    (fun q i => userBacklogUpdate q (p.userRef i) pktLen (updateWeight q pktLen fb i)) q

/-! ## Flow backlogs -/

/-- `tbq_flow_backlog_drr_schedule`. -/
def flowBacklogDrrSchedule (q : QueueState) (f : FlowId) (d : Dir) (pktLen : ℕ) :
    Except Stop QueueState := do
  match (q.unit (.flow f d)).tc with
  | some (.user r) =>
    let q ← backlogDrrSchedule q (.user r) pktLen
    backlogDrrSchedule q (.flow f d) pktLen
  | _ => throw .badPointer

/-- `tbq_flow_backlog_attach`: `pending` tells which token controls are on the
timer. -/
def flowBacklogAttach (pending : List TcId) (nrRule : ℕ) (q : QueueState) (f : FlowId)
    (d : Dir) (r : UserRef) : Except Stop QueueState := do
  let attached ← backlogAttached q (.flow f d)
  stopIf (attached = true) (.queue .flowAttachTwice)
  let q ← (do
    if r.bucket ∈ pending then
      backlogAttach q (.user r) r.bucket
    else
      stopIf (TcId.user r ∉ pending) (.queue .flowAttachActive)
      return q)
  let q := backlogEnqueue q (.user r) (q.unit (.flow f d)).octets
  let q ← backlogAttach q (.flow f d) (.user r)
  stopIf (nrRule ≤ r.i.val) (.token .bucketIndex)
  return q.setUnit (.flow f d) { q.unit (.flow f d) with weight := (q.flow f).weight r.i }

/-- `tbq_flow_backlog_detach`. -/
def flowBacklogDetach (q : QueueState) (f : FlowId) (d : Dir) : Except Stop QueueState := do
  let attached ← backlogAttached q (.flow f d)
  stopIf (attached = false) (.queue .flowDetach)
  match (q.unit (.flow f d)).tc with
  | some (.user r) =>
    let q ← backlogDequeue q (.user r) (q.unit (.flow f d)).octets
    let _ ← backlogAttached q (.user r)
    backlogDetach q (.flow f d)
  | _ => throw .badPointer

/-- `tbq_flow_backlog_enqueue`. -/
def flowBacklogEnqueue (q : QueueState) (f : FlowId) (d : Dir) (p : Packet) :
    Except Stop QueueState := do
  let attached ← backlogAttached q (.flow f d)
  stopIf (attached = false) (.queue .flowEnqueue)
  match (q.unit (.flow f d)).tc with
  | some (.user r) =>
    let q := backlogEnqueue q (.user r) p.pktLen
    let q := backlogEnqueue q (.flow f d) p.pktLen
    return q.setPackets f d (q.packets f d ++ [p])
  | _ => throw .badPointer

/-- `tbq_flow_backlog_dequeue`; `rest` is `fb->packets` without the packet. -/
def flowBacklogDequeue (q : QueueState) (f : FlowId) (d : Dir) (rest : List Packet)
    (pktLen : ℕ) : Except Stop QueueState := do
  let attached ← backlogAttached q (.flow f d)
  stopIf (attached = false) (.queue .flowDequeue)
  match (q.unit (.flow f d)).tc with
  | some (.user r) =>
    let q ← backlogDequeue q (.user r) pktLen
    let q ← backlogDequeue q (.flow f d) pktLen
    return q.setPackets f d rest
  | _ => throw .badPointer

/-- The steps that `tbq_flow_backlog_drop` and `tbq_flow_backlog_try_dequeue` share:
take the packet `p` out of the flow and out of the totals. -/
def takePacket (q : QueueState) (f : FlowId) (d : Dir) (p : Packet) (rest : List Packet) :
    Except Stop QueueState := do
  let q ← flowBacklogDequeue q f d rest p.pktLen
  let flowDetach := (q.unit (.flow f d)).octets = 0
  packetCtrlBacklogUpdate q p (-(i32 p.pktLen)) (if flowDetach then some f else none)

/-- One round of the loop of `tbq_flow_backlog_drop`. -/
def dropBody (f : FlowId) (d : Dir) (maxOctets : ℕ) (q : QueueState) :
    Except Stop (Bool × QueueState) := do
  if (q.unit (.flow f d)).octets > maxOctets then
    match (q.packets f d).getLast? with
    | none => throw .badPointer
    | some p =>
      let q ← takePacket q f d p (q.packets f d).dropLast
      return (true, { q with dq := { q.dq with
        drop := q.dq.drop ++ [p], nrDrop := u32 (q.dq.nrDrop + 1) } })
  else
    return (false, q)

/-- `tbq_flow_backlog_drop`. -/
def flowBacklogDrop (k : Ceiling) (fuel : ℕ) (q : QueueState) (f : FlowId) (d : Dir) :
    Except Stop QueueState := do
  let maxOctets ← flowBacklogMaxOctets k q f d
  loopFuel .fuel (dropBody f d maxOctets) fuel q

end Tbq
