/-
# The token bucket queue: data model

The types of `drivers/tbq/src/tbq.h`.  The kernel structures point at one
another; here every structure has an identifier and the pointers are
identifiers:

* a *token control* (`struct tbq_token_ctrl`) belongs to a bucket (one for each
  direction and rule) or to a user (one for each user, direction and rule);
* a *backlog unit* (`struct tbq_backlog`) belongs to a user of a rule or to a
  flow in one direction;
* a user is known by its address `ut->ip`, a flow by its user and a key.

`Stop` lists the places where a function does not return.
-/
import Mathlib.Algebra.GroupWithZero.Nat
import OpenwrtAc.Outcome
import OpenwrtAc.MachineInt
import OpenwrtAc.RuleMask

namespace Tbq

/-- `pkt_dir`: `0` is LAN to WAN, `1` is WAN to LAN. -/
abbrev Dir := Fin 2

scoped instance instNeZeroDir : NeZero 2 := ⟨by decide⟩

scoped instance instNeZeroRuleIdx : NeZero 32 := ⟨by decide⟩

theorem dir_cases (d : Dir) : d = 0 ∨ d = 1 := by
  revert d
  decide

/-- The address of a user, `ut->ip`. -/
abbrev UserId := ℕ

/-- A flow: the connection `key` of the user `user` (`nos_get_user_track`). -/
structure FlowId where
  user : UserId
  key : ℕ
  deriving DecidableEq, Repr

/-- `struct tbq_user *`: the entry of rule `i` in the direction `d` scheduler of
user `u`. -/
structure UserRef where
  u : UserId
  d : Dir
  i : RuleIdx
  deriving DecidableEq, Repr

/-- `struct tbq_token_ctrl *`. -/
inductive TcId
  | bucket (d : Dir) (i : RuleIdx)
  | user (r : UserRef)
  deriving DecidableEq, Repr

/-- The rule number of a token control, `tbq_bucket_index(tc->bucket)`. -/
def TcId.rule : TcId → RuleIdx
  | .bucket _ i => i
  | .user r => r.i

/-- The token control is an entry of user `u`. -/
def TcId.ofUser (u : UserId) : TcId → Bool
  | .user r => decide (r.u = u)
  | .bucket _ _ => false

/-- `struct tbq_backlog *`. -/
inductive UnitId
  | flow (f : FlowId) (d : Dir)
  | user (r : UserRef)
  deriving DecidableEq, Repr

/-- The bucket's token control that `user->tc.bucket` leads to. -/
def UserRef.bucket (r : UserRef) : TcId := .bucket r.d r.i

/-- `struct tbq_packet_ctrl` of a packet, and the flow the packet is tracked by.
`bucket_sched` and `user_sched` are given by the direction and the user.  The
length is that of an IPv4 packet in memory: positive, and far from the `int32_t`
range. -/
structure Packet where
  flow : FlowId
  dir : Dir
  ruleMask : RuleMask
  pktLen : ℕ
  len_pos : 0 < pktLen
  len_lt : pktLen < 2 ^ 30
  deriving DecidableEq

/-- The entry of rule `i` in the scheduler `pc->user_sched`. -/
def Packet.userRef (p : Packet) (i : RuleIdx) : UserRef := ⟨p.flow.user, p.dir, i⟩

/-! ## Configuration -/

/-- `TBQ_BYTES_PER_SEC_MAX`. -/
def tbqBytesPerSecMax : ℤ := 2 * 1000 * 1000 * 1000

/-- `TBQ_DRR_QUANTUM_SHIFT`. -/
def tbqDrrQuantumShift : ℕ := 11

/-- `struct tbq_token_rule`: the two `tokens_per_jiffy` of one direction. -/
structure TokenRule where
  global : ℤ
  user : ℤ
  deriving DecidableEq, Repr

/-- `struct tbq_ip_rule`. -/
structure IpRule where
  min : ℕ
  max : ℕ
  weight : ℕ
  deriving DecidableEq, Repr

/-- `struct tbq_rule`, without the name and the wan rules, which the scheduler
does not read. -/
structure Rule where
  ipRules : List IpRule
  appRules : List ℕ
  tokenRules : Dir → TokenRule

/-- A rate that `tbq_token_config_init` can produce: a number of bytes per second
of at most `TBQ_BYTES_PER_SEC_MAX`, divided by the tick rate. -/
def RateOk (HZ : ℕ) (rate : ℤ) : Prop := 0 ≤ rate ∧ rate * HZ ≤ tbqBytesPerSecMax

/-- `struct tbq_config`, with the bounds its parser enforces and the tick rate of
the kernel (which refuses to build with `HZ` below 12). -/
structure Config where
  HZ : ℕ
  rules : List Rule
  maxBacklogPackets : ℕ
  latencyShift : ℕ
  hz_ge : 12 ≤ HZ
  nr_rule_le : rules.length ≤ 32
  rate_ok : ∀ r ∈ rules, ∀ d, RateOk HZ (r.tokenRules d).global ∧ RateOk HZ (r.tokenRules d).user
  weight_ok : ∀ r ∈ rules, ∀ w ∈ r.ipRules, 1 ≤ w.weight ∧ w.weight ≤ 255
  latency_le : latencyShift ≤ 10

/-- The token rule of rule `i`; the entries past `nr_rule` are zeroed memory. -/
def Config.tokenRule (c : Config) (d : Dir) (i : RuleIdx) : TokenRule :=
  match c.rules[i.val]? with
  | some r => r.tokenRules d
  | none => ⟨0, 0⟩

/-- `tokens_per_jiffy` of a token control. -/
def Config.rate (c : Config) : TcId → ℤ
  | .bucket d i => (c.tokenRule d i).global
  | .user r => (c.tokenRule r.d r.i).user

theorem Config.rateOk (c : Config) (X : TcId) : RateOk c.HZ (c.rate X) := by
  have hzero : RateOk c.HZ 0 := ⟨le_refl 0, by simp [tbqBytesPerSecMax]⟩
  have hrule : ∀ d i, RateOk c.HZ (c.tokenRule d i).global
      ∧ RateOk c.HZ (c.tokenRule d i).user := by
    intro d i
    unfold Config.tokenRule
    cases h : c.rules[i.val]? with
    | none => exact ⟨hzero, hzero⟩
    | some r => exact c.rate_ok r (List.mem_of_getElem? h) d
  cases X with
  | bucket d i => exact (hrule d i).1
  | user r => exact (hrule r.d r.i).2

/-- Every configured rate is positive. -/
def Config.RatesPositive (c : Config) : Prop :=
  ∀ r ∈ c.rules, ∀ d, 0 < (r.tokenRules d).global ∧ 0 < (r.tokenRules d).user

theorem Config.RatesPositive.rate_pos {c : Config} (h : c.RatesPositive) {d : Dir}
    {i : RuleIdx} (hi : i.val < c.rules.length) :
    0 < (c.tokenRule d i).global ∧ 0 < (c.tokenRule d i).user := by
  unfold Config.tokenRule
  rw [List.getElem?_eq_getElem hi]
  exact h _ (List.getElem_mem hi) d

/-! ## Reasons to stop -/

/-- Assertions on token controls and on the timer, and the division in
`tbq_token_ctrl_deactivate`. -/
inductive TokenBug
  | bucketIndex
  | consumeTokens | consumeList
  | feedTokens | feedNotPositive
  | deactivateTokens | deactivateList | deactivateDivide
  | timerDelTokens | timerDelList
  deriving DecidableEq, Repr

/-- Assertions on backlogs, and the divisions in `tbq_backlog_max_octets`. -/
inductive QueueBug
  | backlogEmptyTc | backlogEmptyOctets | backlogFullTc | backlogFullOctets
  | flowEmptyPackets | flowFullPackets
  | attachedList | detachedList
  | maxOctetsDetached | maxOctetsDivide
  | backlogDequeue
  | userBacklogFirst | userBacklogLast
  | flowAttachTwice | flowAttachActive
  | flowDetach | flowEnqueue | flowDequeue
  | userInitWeight
  deriving DecidableEq, Repr

/-- Assertions of the dequeue loops and of the functions around them. -/
inductive SchedBug
  | tryDequeueEmpty | tryDequeueFlow | tryDequeueList | tryDequeueSameTc
  | userDequeueList | userDequeueTc
  | bucketDequeueList | bucketDequeueTc | bucketDequeueEmpty
  | unusedList | unusedUnits | unusedOctets | unusedWeight | userBacklogNotEmpty
  | inactiveMask | flowNotEmpty | timerUnused
  | setConfigStatus | setConfigBacklog
  deriving DecidableEq, Repr

/-- Why a function did not return: an assertion, a pointer that does not lead to
what the code takes it for, or a loop that used up the rounds it was given. -/
inductive Stop
  | token (b : TokenBug)
  | queue (b : QueueBug)
  | sched (b : SchedBug)
  | badPointer
  | fuel
  deriving DecidableEq, Repr

end Tbq
