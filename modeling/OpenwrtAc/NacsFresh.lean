/-
# Freshness of a flow's verdict

Replacements of tables and sets run beside the evaluations of a flow.  A
replacement swaps a pointer under the write lock and increments the magic of the
table afterwards; an evaluation reads the magic, compares it with the flow's, and
works on the flow's flags in steps of its own, each of the two rule types under
the read lock.  A step of the model is one of these, of one party.
-/
import OpenwrtAc.NacsVerdict

namespace Nacs

/-! ## One evaluation, step by step -/

/-- The two entry points. -/
inductive Entry where
  | hk
  | cb
deriving DecidableEq, Repr

/-- What an evaluation does next. -/
inductive Stage where
  | compare
  | clear
  | control
  | processControl (r : Option CheckResult)
  | audit
  | processAudit (r : Option CheckResult)
  | store
deriving DecidableEq, Repr

/-- An evaluation in progress: its request and the magic it has read. -/
structure Hook where
  entry : Entry
  req : FlowReq
  proto : Proto
  magic : ℕ
  stage : Stage

/-- The part of the flow that evaluations write. -/
structure FlowNacs where
  magic : ℕ
  flags : FlowFlags
deriving DecidableEq, Repr

/-- The next step of an evaluation.  The outer `none` is a failure of the model, the inner one
    the return of the entry point. -/
def hookStep (p : Policy) (f : FlowNacs) (h : Hook) : Option (FlowNacs × Option Hook) :=
  match h.stage with
  | .compare =>
    match h.entry with
    | .hk =>
      if h.proto.val = 0 ∨ h.magic = f.magic then some (f, none)
      else some (f, some { h with stage := .clear })
    -- the callback stores the magic before it evaluates
    | .cb => some ({ f with magic := h.magic }, some { h with stage := .clear })
  | .clear => some ({ f with flags := flowFlagsClr f.flags }, some { h with stage := .control })
  | .control =>
    (evaluate p h.req h.proto .control).map fun r => (f, some { h with stage := .processControl r })
  | .processControl r =>
    some ({ f with flags := process .control f.flags r }, some { h with stage := .audit })
  | .audit =>
    (evaluate p h.req h.proto .audit).map fun r => (f, some { h with stage := .processAudit r })
  | .processAudit r =>
    some ({ f with flags := process .audit f.flags r },
      match h.entry with
      | .hk => some { h with stage := .store }
      | .cb => none)
  | .store => some ({ f with magic := h.magic }, none)

/-- An evaluation alone, for at most `fuel` steps. -/
def hookRun (p : Policy) : ℕ → FlowNacs → Hook → Option FlowNacs
  | 0, _, _ => none
  | fuel + 1, f, h =>
    match hookStep p f h with
    | none => none
    | some (f, none) => some f
    | some (f, some h) => hookRun p fuel f h

/-- The hook's steps without another party between them are `do_ac_table_hk`. -/
theorem hookRun_hk (p : Policy) (req : FlowReq) (magic : ℕ) (fi : Flow) (hlt : fi.proto < 2 ^ 16) :
    hookRun p 7 ⟨fi.magic, fi.flags⟩ ⟨.hk, req, ⟨fi.proto, fi.proto_lt hlt⟩, magic, .compare⟩ =
      (doAcTableHk p magic req fi hlt).map fun fi => ⟨fi.magic, fi.flags⟩ := by
  unfold doAcTableHk doAcTable
  by_cases hzero : fi.proto = 0
  · simp [hookRun, hookStep, hzero]
  · by_cases hmagic : magic = fi.magic
    · simp [hookRun, hookStep, hzero, hmagic]
    · cases hc : evaluate p req ⟨fi.proto, by omega⟩ .control with
      | none => simp [hookRun, hookStep, hzero, hmagic, hc]
      | some r =>
        cases ha : evaluate p req ⟨fi.proto, by omega⟩ .audit with
        | none => simp [hookRun, hookStep, hzero, hmagic, hc, ha]
        | some a => simp [hookRun, hookStep, hzero, hmagic, hc, ha]

/-- The callback's steps without another party between them are `do_ac_table_cb`. -/
theorem hookRun_cb (p : Policy) (req : FlowReq) (magic : ℕ) (fi : Flow) (protoNew : Proto)
    (hne : fi.proto ≠ protoNew.val) :
    hookRun p 7 ⟨fi.magic, fi.flags⟩ ⟨.cb, req, protoNew, magic, .compare⟩ =
      (doAcTableCb p magic req fi protoNew).map fun fi => ⟨fi.magic, fi.flags⟩ := by
  unfold doAcTableCb doAcTable
  cases hc : evaluate p req protoNew .control with
  | none => simp [hookRun, hookStep, hne, hc]
  | some r =>
    cases ha : evaluate p req protoNew .audit with
    | none => simp [hookRun, hookStep, hne, hc, ha]
    | some a => simp [hookRun, hookStep, hne, hc, ha]

/-! ## Replacements and evaluations together -/

/-- What a replacement puts in place. -/
inductive Replacement where
  | table (c : RuleType) (entries : List UInt8)
  | sets (c : RuleType) (entries : List HybridEntry)

/-- The swap of one pointer. -/
def Policy.install (p : Policy) : Replacement → Policy
  | .table c entries => { p with table := Function.update p.table c entries }
  | .sets c entries => { p with sets := Function.update p.sets c entries }

/-- The tables and sets with their magic, one flow, and the evaluations of that flow.  Counted
    are the replacements between their swap and their increment, and all swaps; `last` is the
    request of the evaluation that cleared the flow last. -/
structure Sys where
  policy : Policy
  magic : ℕ
  flow : FlowNacs
  pending : ℕ
  hooks : ℕ → Option Hook
  swaps : ℕ
  last : Option (FlowReq × Proto)

/-- A step of one of the parties. -/
inductive Act where
  | swap (r : Replacement)
  | incMagic
  | enter (i : ℕ) (entry : Entry) (req : FlowReq) (proto : Proto)
  | hook (i : ℕ)

/-- The magic after `count` replacements; a table starts with 999. -/
def magicAfter (count : ℕ) : ℕ := (999 + count) % 2 ^ 32

/-- One step, where the party can make it. -/
def Sys.step (s : Sys) : Act → Option Sys
  | .swap r => some { s with
      policy := s.policy.install r, pending := s.pending + 1, swaps := s.swaps + 1 }
  | .incMagic =>
    if s.pending = 0 then none
    else some { s with magic := (s.magic + 1) % 2 ^ 32, pending := s.pending - 1 }
  | .enter i entry req proto =>
    if (s.hooks i).isSome then none
    else some { s with
      hooks := Function.update s.hooks i (some ⟨entry, req, proto, s.magic, .compare⟩) }
  | .hook i =>
    match s.hooks i with
    | none => none
    | some h => (hookStep s.policy s.flow h).map fun r => { s with
        flow := r.1
        hooks := Function.update s.hooks i r.2
        last := if h.stage = .clear then some (h.req, h.proto) else s.last }

/-- The flags of a new flow. -/
def noFlags : FlowFlags := ⟨false, false, false, false, false, false, false⟩

/-- A new flow, and no one at work. -/
def Sys.init (p : Policy) : Sys := ⟨p, magicAfter 0, ⟨0, noFlags⟩, 0, fun _ => none, 0, none⟩

/-- The states that runs reach whose steps are all allowed. -/
inductive Reaches (allowed : Sys → Act → Prop) : Sys → Prop where
  | init (p : Policy) : Reaches allowed (Sys.init p)
  | step {s s' : Sys} {a : Act} : Reaches allowed s → allowed s a → s.step a = some s' →
      Reaches allowed s'

/-- No evaluation of the flow is in progress. -/
def Sys.Idle (s : Sys) : Prop := ∀ i, s.hooks i = none

/-- An evaluation of the flow starts only while no other is in progress. -/
def OneAtATime (s : Sys) : Act → Prop
  | .enter _ _ _ _ => s.Idle
  | _ => True

/-- At most one of the four firewall flags is set. -/
def FlowFlags.AtMostOne (f : FlowFlags) : Prop :=
  [f.dropL4, f.dropL7, f.acceptL4, f.acceptL7].count true ≤ 1

/-- With no one at work, a flow that has the magic of the table has the verdict of the tables
    and sets in place on the flow's last request, and at most one of its flags. -/
def Sys.Fresh (s : Sys) : Prop :=
  s.pending = 0 → s.Idle → s.flow.magic = s.magic →
    (∀ req proto, s.last = some (req, proto) →
      ∃ r, evaluate s.policy req proto .control = some r ∧ s.flow.flags.verdict = verdictOf r)
    ∧ s.flow.flags.AtMostOne

/-! ## The invariant -/

/-- The replacements whose increment is done. -/
def Sys.count (s : Sys) : ℕ := s.swaps - s.pending

/-- The result was obtained at a time when at least `stamp` swaps were done: it is that of the
    tables and sets in place if no swap came after the `stamp`-th. -/
def Sys.Since (s : Sys) (stamp : ℕ) (req : FlowReq) (proto : Proto) (r : Option CheckResult) : Prop :=
  stamp = s.swaps → evaluate s.policy req proto .control = some r

/-- The flow has the verdict on its last request, from a time after the magic with the number
    `stamp` was read. -/
structure Sys.Decided (s : Sys) (stamp : ℕ) (req : FlowReq) (proto : Proto) : Prop where
  last : s.last = some (req, proto)
  result : ∃ r, s.flow.flags.verdict = verdictOf r ∧ s.Since stamp req proto r

/-- Between two evaluations. -/
def Sys.Rested (s : Sys) : Prop :=
  (s.last = none ∧ s.flow.flags.verdict = verdictOf none) ∨
    ∃ stamp req proto, stamp ≤ s.count ∧ s.flow.magic = magicAfter stamp ∧ s.Decided stamp req proto

/-- What an evaluation has done before each of its steps. -/
def Sys.Doing (s : Sys) (stamp : ℕ) (h : Hook) : Prop :=
  match h.stage with
  | .compare => s.Rested
  | .clear => True
  | .control => s.last = some (h.req, h.proto) ∧ ∃ f, s.flow.flags = flowFlagsClr f
  | .processControl r => s.last = some (h.req, h.proto) ∧ (∃ f, s.flow.flags = flowFlagsClr f)
      ∧ s.Since stamp h.req h.proto r
  | .audit => s.Decided stamp h.req h.proto
  | .processAudit _ => s.Decided stamp h.req h.proto
  | .store => s.Decided stamp h.req h.proto

/-- An evaluation in progress has read a magic of the past, and the callback has stored it. -/
structure Sys.Running (s : Sys) (stamp : ℕ) (h : Hook) : Prop where
  stamp_le : stamp ≤ s.count
  magic : h.magic = magicAfter stamp
  stored : h.entry = .cb → h.stage ≠ .compare → s.flow.magic = h.magic
  doing : s.Doing stamp h

/-- The invariant of runs in which evaluations do not overlap. -/
structure Sys.Inv (s : Sys) : Prop where
  pending_le : s.pending ≤ s.swaps
  magic : s.magic = magicAfter s.count
  work : (s.Idle ∧ s.Rested) ∨
    ∃ i h stamp, s.hooks = Function.update (fun _ => none) i (some h) ∧ s.Running stamp h

/-- Between two evaluations nothing is half done. -/
theorem Sys.Inv.rested {s : Sys} (hinv : s.Inv) (hidle : s.Idle) : s.Rested := by
  rcases hinv.work with ⟨-, hrest⟩ | ⟨j, h, stamp, hj, -⟩
  · exact hrest
  · have hnone := hidle j
    rw [hj, Function.update_self] at hnone
    cases hnone

/-! ## What a step keeps -/

/-- A verdict sets one flag at most. -/
theorem verdictOf_atMostOne {f : FlowFlags} {r : Option CheckResult}
    (h : f.verdict = verdictOf r) : f.AtMostOne := by
  obtain ⟨c, a, au, d4, d7, a4, a7⟩ := f
  rcases r with _ | ⟨subType, actions⟩
  · simp only [FlowFlags.verdict, verdictOf, Prod.mk.injEq] at h
    obtain ⟨rfl, rfl, rfl, rfl⟩ := h
    simp [FlowFlags.AtMostOne]
  · cases subType <;> cases hr : rejected actions <;>
      simp only [FlowFlags.verdict, verdictOf, CheckResult.verdict, hr, Prod.mk.injEq] at h <;>
      obtain ⟨rfl, rfl, rfl, rfl⟩ := h <;> simp [FlowFlags.AtMostOne]

/-- The flow is as before, and after a swap no result counts as one of the tables and sets in
    place. -/
structure Sys.FlowKept (s s' : Sys) : Prop where
  flow : s'.flow = s.flow
  last : s'.last = s.last
  count_le : s.count ≤ s'.count
  policy : ∀ stamp ≤ s.count, stamp = s'.swaps → stamp = s.swaps ∧ s'.policy = s.policy

section FlowKept

variable {s s' : Sys} (hrep : s.FlowKept s')

include hrep

/-- A step that keeps the flow keeps what was found since. -/
theorem Since.of_flowKept {stamp : ℕ} {req : FlowReq} {proto : Proto} {r : Option CheckResult}
    (hle : stamp ≤ s.count) (h : s.Since stamp req proto r) : s'.Since stamp req proto r := by
  intro heq
  obtain ⟨hswaps, hpol⟩ := hrep.policy stamp hle heq
  rw [hpol]
  exact h hswaps

/-- A step that keeps the flow keeps what was decided. -/
theorem Decided.of_flowKept {stamp : ℕ} {req : FlowReq} {proto : Proto} (hle : stamp ≤ s.count)
    (h : s.Decided stamp req proto) : s'.Decided stamp req proto := by
  obtain ⟨r, hr, hsince⟩ := h.result
  exact ⟨hrep.last.trans h.last, r, hrep.flow ▸ hr, Since.of_flowKept hrep hle hsince⟩

/-- A step that keeps the flow keeps it at rest. -/
theorem Rested.of_flowKept (h : s.Rested) : s'.Rested := by
  rcases h with ⟨hnone, hv⟩ | ⟨stamp, req, proto, hle, hmagic, hdec⟩
  · exact .inl ⟨hrep.last.trans hnone, hrep.flow ▸ hv⟩
  · exact .inr ⟨stamp, req, proto, hle.trans hrep.count_le, hrep.flow ▸ hmagic,
      Decided.of_flowKept hrep hle hdec⟩

/-- A step that keeps the flow keeps a running evaluation. -/
theorem Running.of_flowKept {stamp : ℕ} {h : Hook} (hrun : s.Running stamp h) :
    s'.Running stamp h := by
  have hle := hrun.stamp_le
  have hdoing := hrun.doing
  refine ⟨hle.trans hrep.count_le, hrun.magic, hrep.flow ▸ hrun.stored, ?_⟩
  unfold Sys.Doing at hdoing ⊢
  cases hs : h.stage with
  | compare =>
    simp only [hs] at hdoing
    exact Rested.of_flowKept hrep hdoing
  | clear => trivial
  | control =>
    simp only [hs] at hdoing ⊢
    rwa [hrep.last, hrep.flow]
  | processControl r =>
    simp only [hs] at hdoing ⊢
    obtain ⟨hl, hf, hsince⟩ := hdoing
    exact ⟨hrep.last.trans hl, hrep.flow ▸ hf, Since.of_flowKept hrep hle hsince⟩
  | audit | processAudit r | store =>
    simp only [hs] at hdoing
    exact Decided.of_flowKept hrep hle hdoing

/-- A step that keeps the flow keeps the invariant. -/
theorem Inv.of_flowKept (hinv : s.Inv) (hhooks : s'.hooks = s.hooks)
    (hpending : s'.pending ≤ s'.swaps) (hmagic : s'.magic = magicAfter s'.count) : s'.Inv := by
  refine ⟨hpending, hmagic, ?_⟩
  rcases hinv.work with ⟨hidle, hrest⟩ | ⟨i, h, stamp, hi, hrun⟩
  · exact .inl ⟨fun i => by rw [hhooks]; exact hidle i, Rested.of_flowKept hrep hrest⟩
  · exact .inr ⟨i, h, stamp, hhooks.trans hi, Running.of_flowKept hrep hrun⟩

end FlowKept

/-- One more replacement raises the magic by one, within its bits. -/
theorem magicAfter_succ (count : ℕ) : magicAfter (count + 1) = (magicAfter count + 1) % 2 ^ 32 := by
  unfold magicAfter
  omega

/-- The invariant at the start. -/
theorem inv_init (p : Policy) : (Sys.init p).Inv :=
  ⟨le_refl _, rfl, .inl ⟨fun _ => rfl, .inl ⟨rfl, rfl⟩⟩⟩

/-- A replacement of the policy keeps the invariant. -/
theorem inv_swap {s s' : Sys} {r : Replacement} (hinv : s.Inv) (h : s.step (.swap r) = some s') :
    s'.Inv := by
  obtain rfl : _ = s' := Option.some.inj h
  have hle := hinv.pending_le
  have hcount : s.count = s.swaps + 1 - (s.pending + 1) := by
    unfold Sys.count
    omega
  have hrep : s.FlowKept { s with
      policy := s.policy.install r, pending := s.pending + 1, swaps := s.swaps + 1 } := by
    refine ⟨rfl, rfl, le_of_eq hcount, fun stamp hstamp heq => ?_⟩
    -- the stamp is not behind the swaps before this one
    exfalso
    change stamp = s.swaps + 1 at heq
    unfold Sys.count at hstamp
    omega
  exact Inv.of_flowKept hrep hinv rfl (Nat.succ_le_succ hle)
    (hinv.magic.trans (congrArg magicAfter hcount))

/-- Raising the magic keeps the invariant. -/
theorem inv_incMagic {s s' : Sys} (hinv : s.Inv) (h : s.step .incMagic = some s') : s'.Inv := by
  have hle := hinv.pending_le
  simp only [Sys.step] at h
  by_cases hpos : s.pending = 0
  · rw [if_pos hpos] at h
    cases h
  · rw [if_neg hpos] at h
    obtain rfl : _ = s' := Option.some.inj h
    have hcount : s.swaps - (s.pending - 1) = s.count + 1 := by
      unfold Sys.count
      omega
    have hrep : s.FlowKept
        { s with magic := (s.magic + 1) % 2 ^ 32, pending := s.pending - 1 } := by
      refine ⟨rfl, rfl, ?_, fun stamp _ heq => ⟨heq, rfl⟩⟩
      change s.count ≤ s.swaps - (s.pending - 1)
      omega
    refine Inv.of_flowKept hrep hinv rfl ((Nat.sub_le _ _).trans hle) ?_
    change (s.magic + 1) % 2 ^ 32 = magicAfter (s.swaps - (s.pending - 1))
    rw [hcount, magicAfter_succ, hinv.magic]

/-- An evaluation that starts alone has read the magic of all replacements that are done. -/
theorem inv_enter {s s' : Sys} {i : ℕ} {entry : Entry} {req : FlowReq} {proto : Proto}
    (hinv : s.Inv) (hidle : s.Idle) (h : s.step (.enter i entry req proto) = some s') : s'.Inv := by
  simp only [Sys.step, hidle i, Option.isSome_none, Bool.false_eq_true, if_false] at h
  obtain rfl : _ = s' := Option.some.inj h
  have hnone : s.hooks = fun _ => none := funext hidle
  refine ⟨hinv.pending_le, hinv.magic, .inr ⟨i, _, s.count, by rw [hnone], ?_⟩⟩
  exact ⟨le_refl _, hinv.magic, fun _ hne => absurd rfl hne, Rested.of_flowKept (s := s)
    ⟨rfl, rfl, le_refl _, fun _ _ heq => ⟨heq, rfl⟩⟩ (hinv.rested hidle)⟩

/-- The state after a step of the evaluation `i`. -/
def Sys.afterHook (s : Sys) (i : ℕ) (h : Hook) (f : FlowNacs) (h' : Option Hook) : Sys :=
  { s with
    flow := f
    hooks := Function.update s.hooks i h'
    last := if h.stage = .clear then some (h.req, h.proto) else s.last }

/-- After a step an evaluation has returned or is still running. -/
def Sys.GoesOn (s : Sys) (stamp : ℕ) : Option Hook → Prop
  | none => s.Rested
  | some h => s.Running stamp h

/-- A step of the one evaluation in progress. -/
theorem running_hookStep {s : Sys} {i stamp : ℕ} {h : Hook} {f : FlowNacs} {h' : Option Hook}
    (hrun : s.Running stamp h) (hstep : hookStep s.policy s.flow h = some (f, h')) :
    (s.afterHook i h f h').GoesOn stamp h' := by
  obtain ⟨hle, hmagic, hstored, hdoing⟩ := hrun
  obtain ⟨entry, req, proto, magic, stage⟩ := h
  cases stage with
  | compare =>
    cases entry with
    | hk =>
      simp only [hookStep] at hstep
      -- the hook is over at once if the flow has its magic, and no protocol to match
      split at hstep
      · cases hstep
        exact Rested.of_flowKept (s := s) ⟨rfl, rfl, le_refl _, fun _ _ heq => ⟨heq, rfl⟩⟩ hdoing
      · cases hstep
        exact ⟨hle, hmagic, fun hcb => (by cases hcb), trivial⟩
    | cb =>
      cases hstep
      exact ⟨hle, hmagic, fun _ _ => rfl, trivial⟩
  | clear =>
    cases hstep
    exact ⟨hle, hmagic, fun hcb _ => hstored hcb (by simp), rfl, _, rfl⟩
  | control =>
    simp only [hookStep, Option.map_eq_some_iff] at hstep
    obtain ⟨r, hr, heq⟩ := hstep
    cases heq
    exact ⟨hle, hmagic, fun hcb _ => hstored hcb (by simp), hdoing.1, hdoing.2, fun _ => hr⟩
  | processControl r =>
    cases hstep
    obtain ⟨hlast, ⟨g, hg⟩, hsince⟩ := hdoing
    refine ⟨hle, hmagic, fun hcb _ => hstored hcb (by simp), hlast, r, ?_, hsince⟩
    change (process .control s.flow.flags r).verdict = verdictOf r
    rw [hg, process_control_verdict]
  | audit =>
    simp only [hookStep, Option.map_eq_some_iff] at hstep
    obtain ⟨a, -, heq⟩ := hstep
    cases heq
    exact ⟨hle, hmagic, fun hcb _ => hstored hcb (by simp), hdoing.last, hdoing.result⟩
  | processAudit a =>
    obtain ⟨hlast, r, hr, hsince⟩ := hdoing
    cases entry with
    | hk =>
      cases hstep
      refine ⟨hle, hmagic, fun hcb => (by cases hcb), hlast, r, ?_, hsince⟩
      exact (process_audit_verdict _ _).trans hr
    | cb =>
      cases hstep
      -- the callback has stored its magic before it began to match
      refine .inr ⟨stamp, req, proto, hle, ?_, hlast, r, ?_, hsince⟩
      · exact (hstored rfl (by simp)).trans hmagic
      · exact (process_audit_verdict _ _).trans hr
  | store =>
    cases hstep
    exact .inr ⟨stamp, req, proto, hle, hmagic, hdoing.last, hdoing.result⟩

/-- A step of an evaluation keeps the invariant. -/
theorem inv_hook {s s' : Sys} {j : ℕ} (hinv : s.Inv) (hstep : s.step (.hook j) = some s') :
    s'.Inv := by
  rcases hinv.work with ⟨hidle, -⟩ | ⟨i, h, stamp, hi, hrun⟩
  · simp only [Sys.step, hidle j] at hstep
    cases hstep
  · by_cases hij : j = i
    · subst hij
      have hj : s.hooks j = some h := by rw [hi, Function.update_self]
      simp only [Sys.step, hj, Option.map_eq_some_iff] at hstep
      obtain ⟨⟨f, h'⟩, hhook, rfl⟩ := hstep
      have hafter := running_hookStep (i := j) hrun hhook
      have hhooks : ∀ h', (s.afterHook j h f h').hooks = Function.update (fun _ => none) j h' := by
        intro h'
        change Function.update s.hooks j h' = _
        rw [hi, Function.update_idem]
      cases h' with
      | none =>
        refine ⟨hinv.pending_le, hinv.magic, .inl ⟨fun k => ?_, hafter⟩⟩
        change (s.afterHook j h f none).hooks k = none
        rw [hhooks, Function.update_eq_self_iff.2 rfl]
      | some h' => exact ⟨hinv.pending_le, hinv.magic, .inr ⟨j, h', stamp, hhooks _, hafter⟩⟩
    · have hj : s.hooks j = none := by rw [hi, Function.update_of_ne hij]
      simp only [Sys.step, hj] at hstep
      cases hstep

/-- Every step keeps the invariant, as long as evaluations do not overlap. -/
theorem inv_step {s s' : Sys} {a : Act} (hinv : s.Inv) (hone : OneAtATime s a)
    (h : s.step a = some s') : s'.Inv := by
  cases a with
  | swap r => exact inv_swap hinv h
  | incMagic => exact inv_incMagic hinv h
  | enter i entry req proto => exact inv_enter hinv hone h
  | hook i => exact inv_hook hinv h

/-- The invariant of every state reached so. -/
theorem reaches_inv {s : Sys} (h : Reaches OneAtATime s) : s.Inv := by
  induction h with
  | init p => exact inv_init p
  | step _ hone hstep ih => exact inv_step ih hone hstep

/-! ## Freshness -/

/-- Below the wrap, equal magics mean equal counts. -/
theorem magicAfter_inj {m n : ℕ}
    (hle : m ≤ n) (hlt : n < 2 ^ 32) (h : magicAfter m = magicAfter n) :
    m = n := by
  unfold magicAfter at h
  omega

/-- In every run whose evaluations of the flow do not overlap, with any replacements between
    their steps but fewer than the magic can count, the verdict is fresh. -/
theorem verdict_fresh {s : Sys} (hreach : Reaches OneAtATime s) (hswaps : s.swaps < 2 ^ 32) :
    s.Fresh := by
  intro hpending hidle hmagic
  have hinv := reaches_inv hreach
  have hcount : s.count = s.swaps := by
    unfold Sys.count
    omega
  rcases hinv.rested hidle with ⟨hlast, hv⟩ | ⟨stamp, req, proto, hle, hflow, hlast, r, hr, hsince⟩
  · refine ⟨fun req proto h => ?_, verdictOf_atMostOne hv⟩
    rw [hlast] at h
    cases h
  · have hstamp : stamp = s.swaps := by
      rw [hcount] at hle
      refine magicAfter_inj hle hswaps ?_
      rw [← hflow, hmagic, hinv.magic, hcount]
    refine ⟨fun req' proto' h => ?_, verdictOf_atMostOne hr⟩
    rw [hlast] at h
    cases h
    exact ⟨r, hsince hstamp, hr⟩

/-- A run, step after step. -/
def Sys.play (s : Sys) : List Act → Option Sys
  | [] => some s
  | a :: acts => (s.step a).bind fun s => s.play acts

/-- Acts that are all allowed reach what they lead to. -/
theorem reaches_play {allowed : Sys → Act → Prop} {s s' : Sys} {acts : List Act}
    (hs : Reaches allowed s) (hall : ∀ a ∈ acts, ∀ s, allowed s a) (h : s.play acts = some s') :
    Reaches allowed s' := by
  induction acts generalizing s with
  | nil =>
    cases h
    exact hs
  | cons a acts ih =>
    simp only [Sys.play, Option.bind_eq_some_iff] at h
    obtain ⟨s₁, hstep, hplay⟩ := h
    exact ih (hs.step (hall a List.mem_cons_self s) hstep)
      (fun b hb => hall b (List.mem_cons_of_mem a hb)) hplay

/-- A flow of protocol 7 on tables that reject this protocol. -/
def enterSeven (i : ℕ) : Act := .enter i .hk plainReq ⟨7, seven_lt⟩

/-- The tables that reject protocol 7, and a hook that has just read their magic. -/
def oneHook : Sys := { Sys.init (rejectOnly 7 (by decide)) with
  hooks := Function.update (fun _ => none) 0
    (some ⟨.hk, plainReq, ⟨7, seven_lt⟩, 999, .compare⟩) }

/-- The hook takes its result, the tables are emptied, and the hook goes on to its end. -/
def emptiedMidway : List Act :=
  [.hook 0, .hook 0, .hook 0, .swap (.table .control []), .incMagic, .hook 0, .hook 0, .hook 0,
    .hook 0]

/-- The hook that was overtaken by a replacement leaves the old verdict with the old magic; the next
    one sees that and leaves that of the new tables. -/
theorem verdict_fresh_emptied :
    ∃ s s', oneHook.play emptiedMidway = some s ∧ s.flow.magic ≠ s.magic
      ∧ s.flow.flags.verdict = (false, true, false, false) ∧ s.Fresh
      ∧ s.play (enterSeven 1 :: List.replicate 7 (.hook 1)) = some s' ∧ s'.flow.magic = s'.magic
      ∧ s'.flow.flags.verdict = (false, false, false, false) ∧ s'.Fresh := by
  obtain ⟨s, hs⟩ : ∃ s, oneHook.play emptiedMidway = some s :=
    Option.isSome_iff_exists.1 (by decide)
  have hnums : (oneHook.play emptiedMidway).map (fun s => (s.swaps, s.flow.magic, s.magic))
      = some (1, 999, 1000) := by decide
  have hv : (oneHook.play emptiedMidway).map (fun s => s.flow.flags.verdict)
      = some (false, true, false, false) := by decide
  have hidle : ∀ i, (oneHook.play emptiedMidway).map (fun s => s.hooks i) = some none
    | 0 => rfl
    | _ + 1 => rfl
  have hagain : ((oneHook.play emptiedMidway).bind fun s =>
      s.play (enterSeven 1 :: List.replicate 7 (.hook 1))).map
      (fun s => (s.swaps, s.flow.magic, s.magic)) = some (1, 1000, 1000) := by decide
  have hv' : ((oneHook.play emptiedMidway).bind fun s =>
      s.play (enterSeven 1 :: List.replicate 7 (.hook 1))).map
      (fun s => s.flow.flags.verdict) = some (false, false, false, false) := by decide
  simp only [hs, Option.map_some, Option.some.injEq, Prod.mk.injEq] at hnums hv hidle
  rw [hs, Option.bind_some] at hagain hv'
  obtain ⟨s', hs', hlast⟩ := Option.map_eq_some_iff.1 hagain
  rw [hs', Option.map_some, Option.some.injEq] at hv'
  simp only [Prod.mk.injEq] at hlast
  have henter : Reaches OneAtATime oneHook :=
    (Reaches.init (rejectOnly 7 (by decide))).step (a := enterSeven 0) (fun _ => rfl) rfl
  have hreach : Reaches OneAtATime s :=
    reaches_play henter (by simp [emptiedMidway, OneAtATime]) hs
  obtain ⟨s₁, hs₁, hplay⟩ := Option.bind_eq_some_iff.1 hs'
  have hreach' : Reaches OneAtATime s' := by
    refine reaches_play (hreach.step (a := enterSeven 1) hidle hs₁) (fun a ha t => ?_) hplay
    rw [List.eq_of_mem_replicate ha]
    trivial
  exact ⟨s, s', hs, by omega, hv, verdict_fresh hreach (by omega), hs', by omega, hv',
    verdict_fresh hreach' (by omega)⟩

/-- The first hook takes its result from tables that reject the flow.  Before it stores it, the
    tables are emptied and a second hook, with the new magic, clears and evaluates the flow; it
    is also the last to store its magic. -/
def overlap : List Act :=
  [enterSeven 0, .hook 0, .hook 0, .hook 0, .swap (.table .control []), .incMagic,
    enterSeven 1, .hook 1, .hook 1, .hook 1, .hook 1, .hook 1, .hook 1,
    .hook 0, .hook 0, .hook 0, .hook 0, .hook 1]

/-- After two hooks that overlap, the flow has the current magic and is dropped, though the
    tables in place have no rule. -/
theorem overlapping_hooks_stale :
    ∃ s, Reaches (fun _ _ => True) s ∧ s.swaps < 2 ^ 32 ∧ ¬ s.Fresh := by
  have hsome : ((Sys.init (rejectOnly 7 (by decide))).play overlap).isSome = true := by decide
  obtain ⟨s, hs⟩ := Option.isSome_iff_exists.1 hsome
  have hreach : Reaches (fun _ _ => True) s :=
    reaches_play (Reaches.init _) (fun _ _ _ => trivial) hs
  have hnums : ((Sys.init (rejectOnly 7 (by decide))).play overlap).map
      (fun s => (s.swaps, s.pending, s.flow.magic, s.magic)) = some (1, 0, 1000, 1000) := by decide
  have hv : ((Sys.init (rejectOnly 7 (by decide))).play overlap).map (fun s => s.flow.flags.verdict)
      = some (false, true, false, false) := by decide
  have hidle : ∀ i, ((Sys.init (rejectOnly 7 (by decide))).play overlap).map (fun s => s.hooks i)
      = some none
    | 0 => rfl
    | 1 => rfl
    | _ + 2 => rfl
  have hlast : ((Sys.init (rejectOnly 7 (by decide))).play overlap).map (fun s => s.last)
      = some (some (plainReq, ⟨7, by decide⟩)) := rfl
  have heval : ((Sys.init (rejectOnly 7 (by decide))).play overlap).map
      (fun s => evaluate s.policy plainReq ⟨7, by decide⟩ .control) = some (some none) := by decide
  rw [hs] at hv
  simp only [hs, Option.map_some, Option.some.injEq, Prod.mk.injEq] at hnums hidle hlast heval
  obtain ⟨hswaps, hpending, hflow, hmagic⟩ := hnums
  refine ⟨s, hreach, by omega, fun hfresh => ?_⟩
  obtain ⟨r, hr, hverdict⟩ := (hfresh hpending hidle (hflow.trans hmagic.symm)).1 _ _ hlast
  rw [heval] at hr
  cases hr
  rw [Option.map_some, hverdict] at hv
  exact absurd hv (by decide)

end Nacs
