/-
# The verdict on a flow

The query half of `nacs_table.c`: the sets and then the rules of each rule type
are tried on a flow, and the result is stored in the flow's flags.  A flow is
evaluated from two places, from the forward hook when the tables have changed
(`do_ac_table_hk`) and from nproto when it recognises the flow's protocol
(`do_ac_table_cb`).  The ipset tests are an oracle; the log message of a rule
that matched is left out.
-/
import OpenwrtAc.NacsSets
import OpenwrtAc.NacsTable

open RuleTable

namespace Nacs

/-- What is installed: the entries of the sets and of the table of each rule type. -/
structure Policy where
  sets : RuleType → List HybridEntry
  table : RuleType → List UInt8

/-- What a flow is evaluated by besides its protocol: the zones and groups of its two users,
    and the ipsets its packet tests positive for. -/
structure FlowReq where
  srcZone : UInt8
  dstZone : UInt8
  srcIpgrpBits : BitVec 64
  dstIpgrpBits : BitVec 64
  inMacSet : ℕ → Bool
  inIpSet : ℕ → Bool

/-- `rule_sub_type`. -/
inductive SubType where
  | set
  | rule
deriving DecidableEq, Repr

/-- The fields of `nacs_msg_t` that decide about the flow. -/
structure CheckResult where
  subType : SubType
  actions : ℕ
deriving DecidableEq, Repr

/-- The test of the `i`-th kind of set. -/
def setTest (req : FlowReq) (i ipsetId : ℕ) : Bool :=
  match i with
  | 0 => req.inMacSet ipsetId
  | 1 => req.inIpSet ipsetId
  | 2 => req.inMacSet ipsetId
  | 3 => req.inIpSet ipsetId
  | _ => false

/-- `__do_set` from the `i`-th entry on: the flags of the first set that has the flow. -/
def doSet (req : FlowReq) : ℕ → List HybridEntry → Option ℕ
  | _, [] => none
  | i, e :: entries =>
    if e.ipsetId ≠ ipsetInvalidId ∧ setTest req i e.ipsetId = true then some e.flags
    else doSet req (i + 1) entries

/-- A 32-bit protocol value. -/
@[ext] structure Proto where
  val : ℕ
  lt : val < 2 ^ 32

instance : DecidableEq Proto := fun a b => decidable_of_iff (a.val = b.val) Proto.ext_iff.symm

/-- The request for the table. -/
def FlowReq.tableReq (req : FlowReq) (proto : Proto) : TableReq :=
  ⟨req.srcZone, req.dstZone, req.srcIpgrpBits, req.dstIpgrpBits, proto.val, proto.lt⟩

/-- `__do_ac_table`: sets first, then rules.  The inner `none` is the `-1` of no match. -/
def evaluate (p : Policy) (req : FlowReq) (proto : Proto) (c : RuleType) :
    Option (Option CheckResult) :=
  match doSet req 0 (p.sets c) with
  | some flags => some (some ⟨.set, flags⟩)
  | none => (doTable (req.tableReq proto) (p.table c)).map fun hit =>
      hit.map fun hit => ⟨.rule, hit.flags⟩

/-! ## The flow's flags -/

/-- The flags of a flow that this module clears or sets. -/
structure FlowFlags where
  controlFin : Bool
  auditFin : Bool
  audit : Bool
  dropL4 : Bool
  dropL7 : Bool
  acceptL4 : Bool
  acceptL7 : Bool
deriving DecidableEq, Repr

/-- `flow_flags_clr`: the audit flag stays. -/
def flowFlagsClr (f : FlowFlags) : FlowFlags := ⟨false, false, f.audit, false, false, false, false⟩

/-- `actions & flag`. -/
def hasAction (actions flag : ℕ) : Bool := actions &&& flag != 0

/-- Whether the actions reject; an accept among them goes first. -/
def rejected (actions : ℕ) : Bool := hasAction actions acReject && !hasAction actions acAccept

/-- `process_check_result` for a control result. -/
def processControl (f : FlowFlags) (r : CheckResult) : FlowFlags :=
  let f := { f with controlFin := true }
  match r.subType, rejected r.actions with
  | .set, true => { f with dropL4 := true }
  | .set, false => { f with acceptL4 := true }
  | .rule, true => { f with dropL7 := true }
  | .rule, false => { f with acceptL7 := true }

/-- `process_check_result` for an audit result. -/
def processAudit (f : FlowFlags) (r : CheckResult) : FlowFlags :=
  let f := { f with auditFin := true }
  if hasAction r.actions acAudit then { f with audit := true } else f

/-- `process_check_result`, where there is a result. -/
def process (c : RuleType) (f : FlowFlags) (r : Option CheckResult) : FlowFlags :=
  match c, r with
  | _, none => f
  | .control, some r => processControl f r
  | .audit, some r => processAudit f r

/-- `do_ac_table`: both rule types, one after the other. -/
def doAcTable (p : Policy) (req : FlowReq) (proto : Proto) (f : FlowFlags) : Option FlowFlags := do
  let control ← evaluate p req proto .control
  let audit ← evaluate p req proto .audit
  return process .audit (process .control f control) audit

/-! ## The two entry points -/

/-- The part of a flow that the entry points read and write. -/
structure Flow where
  proto : ℕ
  magic : ℕ
  flags : FlowFlags
deriving DecidableEq, Repr

theorem Flow.proto_lt (fi : Flow) (h : fi.proto < 2 ^ 16) : fi.proto < 2 ^ 32 := by omega

/-- `do_ac_table_hk`.  The flow's protocol has 16 bits. -/
def doAcTableHk (p : Policy) (magic : ℕ) (req : FlowReq) (fi : Flow) (h : fi.proto < 2 ^ 16) :
    Option Flow :=
  if fi.proto = 0 then some fi
  else if magic = fi.magic then some fi
  else (doAcTable p req ⟨fi.proto, fi.proto_lt h⟩ (flowFlagsClr fi.flags)).map fun flags =>
    { fi with flags := flags, magic := magic }

/-- `do_ac_table_cb`; `none` also for the `BUG_ON` when the protocol does not change. -/
def doAcTableCb (p : Policy) (magic : ℕ) (req : FlowReq) (fi : Flow) (protoNew : Proto) :
    Option Flow :=
  if fi.proto = protoNew.val then none
  else (doAcTable p req protoNew (flowFlagsClr fi.flags)).map fun flags =>
    { fi with flags := flags, magic := magic }

/-- What nproto knows a rule by: its number, and the crc of its application's name. -/
@[ext] structure NpRule where
  ID : ℕ
  crc : Proto
  ID_lt : ID < 2 ^ 16

instance : DecidableEq NpRule := fun a b =>
  decidable_of_iff (a.ID = b.ID ∧ a.crc = b.crc) NpRule.ext_iff.symm

/-- `nproto_update` with the callback of this module. -/
def nprotoUpdate (p : Policy) (magic : ℕ) (req : FlowReq) (fi : Flow) (rule : NpRule) :
    Option Flow :=
  if fi.proto ≠ rule.ID then
    (doAcTableCb p magic req fi rule.crc).map fun fi => { fi with proto := rule.ID }
  else some fi

/-- The four firewall flags. -/
def FlowFlags.verdict (f : FlowFlags) : Bool × Bool × Bool × Bool :=
  (f.dropL4, f.dropL7, f.acceptL4, f.acceptL7)

/-- On the same tables a flow gets the same verdict when nproto recognises the rule in it and
    when the hook evaluates it again later. -/
def EntryPointsAgree (rule : NpRule) : Prop :=
  ∀ (p : Policy) (req : FlowReq) (magic : ℕ) (fi fi' : Flow) (h : fi'.proto = rule.ID),
    fi.proto ≠ rule.ID → fi'.magic ≠ magic →
    (nprotoUpdate p magic req fi rule).map (fun fi => fi.flags.verdict) =
      (doAcTableHk p magic req fi' (h ▸ rule.ID_lt)).map fun fi => fi.flags.verdict

/-! ## When they agree -/

@[simp]
theorem process_audit_verdict (f : FlowFlags) (r : Option CheckResult) :
    (process .audit f r).verdict = f.verdict := by
  rcases r with _ | r
  · rfl
  · simp only [process, processAudit]
    split <;> rfl

/-- The firewall flags of a result on a flow that was cleared. -/
def CheckResult.verdict (r : CheckResult) : Bool × Bool × Bool × Bool :=
  match r.subType, rejected r.actions with
  | .set, true => (true, false, false, false)
  | .set, false => (false, false, true, false)
  | .rule, true => (false, true, false, false)
  | .rule, false => (false, false, false, true)

/-- The firewall flags of an evaluation; without a result none is set. -/
def verdictOf : Option CheckResult → Bool × Bool × Bool × Bool
  | none => (false, false, false, false)
  | some r => r.verdict

theorem process_control_verdict (f : FlowFlags) (r : Option CheckResult) :
    (process .control (flowFlagsClr f) r).verdict = verdictOf r := by
  rcases r with _ | ⟨subType, actions⟩
  · rfl
  · cases subType <;> cases h : rejected actions <;>
      simp [process, processControl, FlowFlags.verdict, verdictOf, CheckResult.verdict,
        flowFlagsClr, h]

/-- The firewall flags are those of the control result, whatever the flow had before. -/
theorem doAcTable_verdict (p : Policy) (req : FlowReq) (proto : Proto) (f : FlowFlags) :
    (doAcTable p req proto (flowFlagsClr f)).map FlowFlags.verdict =
      (evaluate p req proto .control).bind fun r =>
        (evaluate p req proto .audit).map fun _ => verdictOf r := by
  unfold doAcTable
  cases evaluate p req proto .control with
  | none => rfl
  | some r =>
    cases evaluate p req proto .audit with
    | none => rfl
    | some a => simp [process_control_verdict]

/-- The tables with one control rule, which rejects one protocol, and no sets. -/
def rejectOnly (protoId : ℕ) (h : protoId ≤ acProtoMaxid) : Policy where
  sets _ := []
  table
    | .control => tableBytes [anyFlow 0 protoId [rejectName] (by decide) h rejectName_le]
    | .audit => []

/-- No user, no zone and no ipset. -/
def plainReq : FlowReq := ⟨0, 0, 0, 0, fun _ => false, fun _ => false⟩

theorem evaluate_rejectOnly {protoId : ℕ} (h : protoId ≤ acProtoMaxid) (proto : Proto) :
    evaluate (rejectOnly protoId h) plainReq proto .control =
      some (if proto.val = protoId then some ⟨.rule, acReject⟩ else none) := by
  have hsort : ∀ r ∈ [anyFlow 0 protoId [rejectName] (by decide) h (by decide)],
      r.protoIds.ids.Pairwise (· ≤ ·) := by
    simp [anyFlow, oneId]
  have hfor : isFor (anyFlow 0 protoId [rejectName] (by decide) h (by decide))
      (plainReq.tableReq proto) = decide (proto.val = protoId) := by
    simp [isFor, anyFlow, oneId, hasZone, hasIpgrp, FlowReq.tableReq]
  have hflags : actionFlags [rejectName] = acReject := by decide
  have htarget : (anyFlow 0 protoId [rejectName] (by decide) h (by decide)).action = [rejectName] :=
    rfl
  change (doTable (plainReq.tableReq proto) (tableBytes _)).map _ = _
  rw [doTable_tableBytes hsort]
  by_cases hp : proto.val = protoId
  · simp [firstMatch, hfor, hp, htarget, hflags]
  · simp [firstMatch, hfor, hp]

theorem evaluate_audit_rejectOnly {protoId : ℕ} (h : protoId ≤ acProtoMaxid) (req : FlowReq)
    (proto : Proto) : evaluate (rejectOnly protoId h) req proto .audit = some none := rfl

/-- The flags of a flow that a set lets pass. -/
def acceptedFlags : FlowFlags := ⟨true, false, false, false, false, true, false⟩

/-- The verdict of the callback on these tables. -/
theorem nprotoUpdate_rejectOnly {rule : NpRule} {protoId : ℕ} (h : protoId ≤ acProtoMaxid)
    {fi : Flow} (hne : fi.proto ≠ rule.ID) (hcrc : fi.proto ≠ rule.crc.val) (magic : ℕ) :
    (nprotoUpdate (rejectOnly protoId h) magic plainReq fi rule).map (fun fi => fi.flags.verdict) =
      some (false, decide (rule.crc.val = protoId), false, false) := by
  have hv := doAcTable_verdict (rejectOnly protoId h) plainReq rule.crc fi.flags
  rw [evaluate_rejectOnly, evaluate_audit_rejectOnly] at hv
  rw [nprotoUpdate, if_pos hne, doAcTableCb, if_neg hcrc]
  simp only [Option.map_map] at *
  refine hv.trans ?_
  by_cases hp : rule.crc.val = protoId
  · simp [hp, verdictOf, CheckResult.verdict, rejected, hasAction, acReject, acAccept]
  · simp [hp, verdictOf]

/-- The two entry points agree on a rule exactly when nproto's number for it is not 0 and is
    also the crc that the tables' protocols are compared with: the callback is given the crc,
    the hook reads the number back from the flow. -/
theorem entryPoints_agree_iff (rule : NpRule) :
    EntryPointsAgree rule ↔ rule.ID ≠ 0 ∧ rule.crc.val = rule.ID := by
  have hlt := rule.ID_lt
  constructor
  · intro hagree
    have hle : rule.ID ≤ acProtoMaxid := by
      unfold acProtoMaxid
      omega
    -- a flow of a third protocol, and one that was let pass before
    obtain ⟨other, hother, hcrc⟩ : ∃ n, n ≠ rule.ID ∧ n ≠ rule.crc.val :=
      ⟨rule.ID + rule.crc.val + 1, by omega, by omega⟩
    have h := hagree (rejectOnly rule.ID hle) plainReq 1 ⟨other, 0, acceptedFlags⟩
      ⟨rule.ID, 0, acceptedFlags⟩ rfl hother Nat.zero_ne_one
    rw [nprotoUpdate_rejectOnly hle hother hcrc] at h
    by_cases hzero : rule.ID = 0
    · rw [doAcTableHk, if_pos hzero] at h
      simp [acceptedFlags, FlowFlags.verdict] at h
    · refine ⟨hzero, ?_⟩
      rw [doAcTableHk, if_neg hzero, if_neg Nat.one_ne_zero] at h
      have hv := doAcTable_verdict (rejectOnly rule.ID hle) plainReq ⟨rule.ID, by omega⟩ acceptedFlags
      rw [evaluate_rejectOnly, evaluate_audit_rejectOnly] at hv
      simp only [Option.map_map] at *
      have hdrop := h.trans hv
      simpa [verdictOf, CheckResult.verdict, rejected, hasAction, acReject, acAccept] using hdrop
  · rintro ⟨hzero, hcrc⟩ p req magic fi fi' hproto hne hmagic
    have hcb : fi.proto ≠ rule.crc.val := by rwa [hcrc]
    have hhk : fi'.proto ≠ 0 := by rwa [hproto]
    have heq : (⟨fi'.proto, by omega⟩ : Proto) = rule.crc := by
      cases hc : rule.crc
      simp only [Proto.mk.injEq]
      rw [hproto, ← hcrc, hc]
    rw [nprotoUpdate, if_pos hne, doAcTableCb, if_neg hcb, doAcTableHk, if_neg hhk,
      if_neg hmagic.symm, heq]
    have h := doAcTable_verdict p req rule.crc
    simp only [Option.map_map] at *
    exact (h fi.flags).trans (h fi'.flags).symm

theorem seven_lt : 7 < 2 ^ 32 := by decide

/-- A rule with number 5 and another crc. -/
def ruleFive : NpRule := ⟨5, ⟨7, seven_lt⟩, by decide⟩

/-- The tables reject protocol 7: a flow in which rule 5 is recognised is dropped, and is let
    pass when the hook looks at it again. -/
theorem ruleFive_disagrees : ¬ EntryPointsAgree ruleFive := by
  intro h
  have hdiff := h (rejectOnly 7 (by decide)) plainReq 1 ⟨0, 0, acceptedFlags⟩ ⟨5, 0, acceptedFlags⟩
    rfl (by decide) (by decide)
  have hcb : (nprotoUpdate (rejectOnly 7 (by decide)) 1 plainReq ⟨0, 0, acceptedFlags⟩ ruleFive).map
      (fun fi => fi.flags.verdict) = some (false, true, false, false) := by decide
  have hhk : (doAcTableHk (rejectOnly 7 (by decide)) 1 plainReq ⟨5, 0, acceptedFlags⟩
      (by decide)).map (fun fi => fi.flags.verdict) = some (false, false, false, false) := by decide
  rw [hcb, hhk] at hdiff
  exact absurd hdiff (by decide)

end Nacs
