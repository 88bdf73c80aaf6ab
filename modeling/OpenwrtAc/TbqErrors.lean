/-
# Where the queue operations can stop

The reasons to stop fall into two groups.  The sign of the tokens, the timer lists and
the choice of the user entry that a flow waits for are guarded by assertions that hold
whatever the counters say.  All other assertions are `Benign`: they depend on counters
that wrap, and the operations on backlogs run into no others, and never go round for ever.
-/
import OpenwrtAc.TbqBound

open Outcome MachineInt

namespace Tbq

/-- Not an assertion on tokens, on the timer, or on where a flow is attached. -/
def Benign : Stop → Prop
  | .token _ => False
  | .queue .flowAttachActive => False
  | .sched .tryDequeueList => False
  | .sched .tryDequeueSameTc => False
  | _ => True

/-- Stops for benign reasons only. -/
def BenignRun {α : Type} (x : Except Stop α) : Prop := Sat x (fun _ => True) Benign

/-- The reasons for which an operation on backlogs stops: its assertions and bad pointers. -/
def QueueStop : Stop → Prop
  | .queue .flowAttachActive => False
  | .queue _ => True
  | .badPointer => True
  | _ => False

/-- Stops where operations on backlogs do. -/
def QueueRun {α : Type} (x : Except Stop α) : Prop := Sat x (fun _ => True) QueueStop

/-- What only the queue can stop is stopped by nothing worse than a `BUG_ON` of the queue. -/
theorem QueueRun.benign {α : Type} {x : Except Stop α} (h : QueueRun x) : BenignRun x := by
  refine h.mono (fun _ ha => ha) fun e he => ?_
  unfold QueueStop at he
  unfold Benign
  split
  · exact he
  · exact he
  · exact he
  · exact he
  · trivial

section Rules

variable {α β : Type}

/-- A computation that only returns a value is stopped by nothing. -/
theorem queueRun_pure (a : α) : QueueRun (pure a) := trivial

/-- Two queue steps in sequence are a queue step. -/
theorem QueueRun.bind {x : Except Stop α} {f : α → Except Stop β} (hx : QueueRun x)
    (hf : ∀ a, QueueRun (f a)) : QueueRun (x >>= f) := Sat.bind hx fun a _ => hf a

/-- An assertion of the queue in front of a queue step. -/
theorem queueRun_stopIf {c : Prop} [Decidable c] {e : Stop} {f : Unit → Except Stop β}
    (he : QueueStop e) (hf : QueueRun (f ())) : QueueRun (stopIf c e >>= f) :=
  QueueRun.bind (sat_stopIf (fun _ => trivial) fun _ => he) fun _ => hf

/-- Both branches of a test are queue steps, so the test is. -/
theorem queueRun_ite {c : Prop} [Decidable c] {x y : Except Stop α} (hx : QueueRun x)
    (hy : QueueRun y) : QueueRun (if c then x else y) := by
  split
  · exact hx
  · exact hy

/-- The stop that a benign run ends in is benign. -/
theorem BenignRun.of_error {x : Except Stop α} (h : BenignRun x) {e : Stop} (hx : x = .error e) :
    Benign e := Sat.of_error h hx

end Rules

/-- The test for membership only reads the unit. -/
theorem queueRun_backlogAttached (q : QueueState) (x : UnitId) : QueueRun (backlogAttached q x) :=
  queueRun_ite (queueRun_stopIf trivial <| queueRun_pure _) (queueRun_stopIf trivial <| queueRun_pure _)

/-- Detaching a unit stops on assertions of the queue only. -/
theorem queueRun_backlogDetach (q : QueueState) (x : UnitId) : QueueRun (backlogDetach q x) :=
  (queueRun_backlogAttached q x).bind fun _ => queueRun_ite (queueRun_pure _) (queueRun_pure _)

/-- Taking octets off a unit stops on assertions of the queue only. -/
theorem queueRun_backlogDequeue (q : QueueState) (x : UnitId) (n : ℕ) :
    QueueRun (backlogDequeue q x n) :=
  queueRun_stopIf trivial <| queueRun_ite (queueRun_backlogDetach _ x) (queueRun_pure _)

/-- The test for emptiness only reads the unit. -/
theorem queueRun_backlogEmpty (q : QueueState) (x : UnitId) : QueueRun (backlogEmpty q x) :=
  queueRun_ite (queueRun_stopIf trivial <| queueRun_stopIf trivial <| queueRun_pure _)
    (queueRun_stopIf trivial <| queueRun_stopIf trivial <| queueRun_pure _)

/-- The test for emptiness of a flow only reads its unit. -/
theorem queueRun_flowBacklogEmpty (q : QueueState) (f : FlowId) (d : Dir) :
    QueueRun (flowBacklogEmpty q f d) :=
  (queueRun_backlogEmpty q _).bind fun _ => queueRun_ite (queueRun_stopIf trivial <| queueRun_pure _)
    (queueRun_stopIf trivial <| queueRun_pure _)

/-- Reading the ceiling of a unit stops on assertions of the queue only. -/
theorem queueRun_backlogMaxOctets (k : Ceiling) (q : QueueState) (x : UnitId) (n : ℕ) :
    QueueRun (backlogMaxOctets k q x n) := by
  refine (queueRun_backlogAttached q x).bind fun _ => queueRun_stopIf trivial ?_
  split
  · trivial
  · exact queueRun_stopIf trivial <| queueRun_pure _

/-- The ceiling of a flow is read off its unit. -/
theorem queueRun_flowBacklogMaxOctets (k : Ceiling) (q : QueueState) (f : FlowId) (d : Dir) :
    QueueRun (flowBacklogMaxOctets k q f d) := by
  unfold flowBacklogMaxOctets
  split
  · refine ((queueRun_backlogAttached q _).bind fun _ => ?_).bind fun m =>
      queueRun_backlogMaxOctets k q _ m
    exact queueRun_ite (queueRun_backlogMaxOctets k q _ _) (queueRun_pure _)
  · trivial

/-- Accounting a packet with its user stops on assertions of the queue only. -/
theorem queueRun_userBacklogUpdate (q : QueueState) (r : UserRef) (len w : ℤ) :
    QueueRun (userBacklogUpdate q r len w) := by
  unfold userBacklogUpdate
  refine QueueRun.bind ?_ fun _ => QueueRun.bind ?_ fun _ => queueRun_pure _
  · exact queueRun_ite (queueRun_stopIf trivial <| queueRun_pure _) (queueRun_pure _)
  · exact queueRun_ite (queueRun_stopIf trivial <| queueRun_pure _) (queueRun_pure _)

/-- Accounting a packet with its three units stops on assertions of the queue only. -/
theorem queueRun_packetCtrlBacklogUpdate (q : QueueState) (p : Packet) (len : ℤ)
    (fb : Option FlowId) : QueueRun (packetCtrlBacklogUpdate q p len fb) :=
  sat_foldlM (fun _ _ => True) _ q trivial fun _ _ _ _ => queueRun_userBacklogUpdate _ _ _ _

/-- Unlinking the head of a flow stops on assertions of the queue only. -/
theorem queueRun_takePacket (q : QueueState) (f : FlowId) (d : Dir) (p : Packet)
    (rest : List Packet) : QueueRun (takePacket q f d p rest) := by
  unfold takePacket flowBacklogDequeue
  refine QueueRun.bind ?_ fun _ => queueRun_packetCtrlBacklogUpdate _ _ _ _
  refine (queueRun_backlogAttached q _).bind fun _ => queueRun_stopIf trivial ?_
  split
  · exact (queueRun_backlogDequeue _ _ _).bind fun _ => (queueRun_backlogDequeue _ _ _).bind
      fun _ => queueRun_pure _
  · trivial

/-- Detaching a flow stops on assertions of the queue only. -/
theorem queueRun_flowBacklogDetach (q : QueueState) (f : FlowId) (d : Dir) :
    QueueRun (flowBacklogDetach q f d) := by
  unfold flowBacklogDetach
  refine (queueRun_backlogAttached q _).bind fun _ => queueRun_stopIf trivial ?_
  split
  · exact (queueRun_backlogDequeue _ _ _).bind fun _ => (queueRun_backlogAttached _ _).bind
      fun _ => queueRun_backlogDetach _ _
  · trivial

/-- Putting a packet behind its flow stops on assertions of the queue only. -/
theorem queueRun_flowBacklogEnqueue (q : QueueState) (f : FlowId) (d : Dir) (p : Packet) :
    QueueRun (flowBacklogEnqueue q f d p) := by
  unfold flowBacklogEnqueue
  refine (queueRun_backlogAttached q _).bind fun _ => queueRun_stopIf trivial ?_
  split
  · exact queueRun_pure _
  · trivial

end Tbq
