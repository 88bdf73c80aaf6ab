/-
# The control file of the token bucket queue

`tbq_config_init` fills a scratch `struct tbq_config` from a document, member by member:
what the document does not name is copied from the running configuration, the rules with
their pointer.  `tbq_sysfs_attr_store` installs the scratch configuration when its rules
are another array than the running ones.  The three numbers are written to the running
configuration as soon as they are read.
-/
import Mathlib.Data.List.TakeWhile
import OpenwrtAc.TbqIface
import OpenwrtAc.TbqRuns

open Outcome CString

namespace Tbq

/-! ## The running configuration -/

/-- `struct tbq_config`: the address of the rules (`0` is `NULL`), the rules that stand
there, the three numbers and the two interface lists. -/
structure SysConfig where
  rules : ℕ
  rule : List ConfRule
  null_iff : rules = 0 ↔ rule = []
  maxBacklogPackets : ℕ
  latencyShift : ℕ
  disableTimeout : ℕ
  lan : Iface
  wan : Iface

/-- The parameters of `INIT_UINT_PARAM`. -/
inductive UintParam
  | maxBacklogPackets | latencyShift | disableTimeout
  deriving DecidableEq, Repr

namespace UintParam

def name : UintParam → String
  | maxBacklogPackets => "MaxBacklogPackets"
  | latencyShift => "LatencyShift"
  | disableTimeout => "DisableTimeout"

def max : UintParam → ℤ
  | maxBacklogPackets => 1000000
  | latencyShift => 10
  | disableTimeout => 60

/-- `config->field`. -/
def get (c : SysConfig) : UintParam → ℕ
  | maxBacklogPackets => c.maxBacklogPackets
  | latencyShift => c.latencyShift
  | disableTimeout => c.disableTimeout

/-- `config->field = value`. -/
def set (c : SysConfig) (value : ℕ) : UintParam → SysConfig
  | maxBacklogPackets => { c with maxBacklogPackets := value }
  | latencyShift => { c with latencyShift := value }
  | disableTimeout => { c with disableTimeout := value }

/-- What the document says about the parameter. -/
def value (js : NxJson) (p : UintParam) : Except ConfigStop ℤ :=
  tbqJsonIntegerMap ("config." ++ p.name) 0 p.max (nxJsonGet js p.name)

end UintParam

/-- The order of the three parameters. -/
def uintParams : List UintParam := [.maxBacklogPackets, .latencyShift, .disableTimeout]

/-! ## Reading a document -/

/-- The member `LAN` or `WAN`. -/
def ifaceOf (name : String) (running : Iface) : NxJson → Except ConfigStop Iface
  | .null => pure running
  | .string text => initIface text
  | _ => throw (.error (.notString name))

/-- `kzalloc`: an array that is not in use.  No array is allocated for no rule. -/
def rulesAt (running : SysConfig) (rule : List ConfRule) : ℕ :=
  if rule = [] then 0 else running.rules + 1

/-- A configuration without rules has the null pointer for them. -/
theorem rulesAt_null_iff (running : SysConfig) (rule : List ConfRule) :
    rulesAt running rule = 0 ↔ rule = [] := by
  unfold rulesAt
  split
  · rename_i h
    exact ⟨fun _ => h, fun _ => rfl⟩
  · rename_i h
    exact ⟨fun h0 => by omega, fun h' => absurd h' h⟩

/-- The part of `tbq_config_init` that reads the interfaces and the rules. -/
def configHead (HZ : ℕ) (running : SysConfig) (js : NxJson) : Except ConfigStop SysConfig :=
  match js with
  | .object _ => do
      let lan ← ifaceOf "LAN" running.lan (nxJsonGet js "LAN")
      let wan ← ifaceOf "WAN" running.wan (nxJsonGet js "WAN")
      match nxJsonGet js "Rules" with
      | .null => return ⟨running.rules, running.rule, running.null_iff, 0, 0, 0, lan, wan⟩
      | j =>
          let rule ← rulesInit HZ j
          return ⟨rulesAt running rule, rule, rulesAt_null_iff running rule, 0, 0, 0, lan, wan⟩
  | _ => throw (.error .configNotObject)

/-- `INIT_UINT_PARAM`: the running configuration, and the scratch configuration. -/
def initUintParam (js : NxJson) (running config : SysConfig) (p : UintParam) :
    SysConfig × Except ConfigStop SysConfig :=
  if (nxJsonGet js p.name).isNull then (running, .ok (p.set config (p.get running)))
  else match p.value js with
    | .error e => (running, .error e)
    | .ok value => (p.set running value.toNat, .ok (p.set config value.toNat))

/-- The three parameters, one after the other. -/
def initUintParams (js : NxJson) (running config : SysConfig) :
    List UintParam → SysConfig × Except ConfigStop SysConfig
  | [] => (running, .ok config)
  | p :: ps =>
      match initUintParam js running config p with
      | (running, .ok config) => initUintParams js running config ps
      | (running, .error e) => (running, .error e)

/-- `tbq_config_init`: the running configuration afterwards, and the scratch configuration.
On a failure the scratch configuration is cleared. -/
def tbqConfigInit (HZ : ℕ) (running : SysConfig) (js : NxJson) :
    SysConfig × Except ConfigStop SysConfig :=
  match configHead HZ running js with
  | .error e => (running, .error e)
  | .ok config => initUintParams js running config uintParams

/-- What `tbq_parse_config` finds in a document. -/
inductive Parsed
  | command (enable : Bool)
  | config (c : SysConfig)

/-- `tbq_parse_config`, with `nx_json_parse_utf8` as a parameter. -/
def tbqParseConfig (HZ : ℕ) (parse : List UInt8 → Option NxJson) (running : SysConfig)
    (json : List UInt8) : SysConfig × Except ConfigStop Parsed :=
  match parse json with
  | none => (running, .error (.error .parseFailed))
  | some (.bool v) => (running, .ok (.command (decide (v ≠ 0))))
  | some (.integer v) => (running, .ok (.command (decide (v ≠ 0))))
  | some js =>
      let (running, config) := tbqConfigInit HZ running js
      (running, config.map .config)

/-! ## Storing -/

/-- The configuration and the status of `tbq`. -/
structure SysState where
  config : SysConfig
  status : Status

/-- What the rest of the kernel answers while a document is stored: the result of
`wait_for_completion_interruptible_timeout`, and the packets that are queued then. -/
structure Drain where
  wait : ℤ
  backlogPackets : ℕ

/-- How `tbq_sysfs_attr_store` ends without returning `count`. -/
inductive StoreStop
  | config (e : ConfigStop)
  /-- `tbq_disable` timed out. -/
  | timeout
  /-- `tbq_disable` was left with another result. -/
  | disable (ret : ℤ)
  /-- An assertion on the status, and `BUG_ON(tbq.backlog_packets != 0)`. -/
  | status
  | setConfigBacklog

/-- `tbq_disable`. -/
def tbqDisable (drain : Drain) (s : SysState) : SysState × Except StoreStop Unit :=
  if drain.wait ≤ 0 then
    ({ s with status := .running },
      .error (if drain.wait = 0 then .timeout else .disable drain.wait))
  else ({ s with status := .stopped }, .ok ())

/-- `tbq_global_set_config`. -/
def tbqGlobalSetConfig (drain : Drain) (s : SysState) (config : SysConfig) :
    SysState × Except StoreStop Unit :=
  if s.status ≠ .stopped then (s, .error .status)
  else if drain.backlogPackets ≠ 0 then (s, .error .setConfigBacklog)
  else ({ s with config := config }, .ok ())

/-- `tbq_reload_config`. -/
def tbqReloadConfig (drain : Drain) (s : SysState) (config : SysConfig) :
    SysState × Except StoreStop Unit :=
  match s.status with
  | .running =>
      match tbqDisable drain s with
      | (s, .error e) => (s, .error e)
      | (s, .ok _) =>
          match tbqGlobalSetConfig drain s config with
          | (s, .error e) => (s, .error e)
          | (s, .ok _) => ({ s with status := .running }, .ok ())
  | .stopped => tbqGlobalSetConfig drain s config
  | _ => (s, .error .status)

/-- `tbq_handle_command`. -/
def tbqHandleCommand (drain : Drain) (s : SysState) (enable : Bool) :
    SysState × Except StoreStop Unit :=
  match s.status, enable with
  | .running, true => (s, .ok ())
  | .stopped, true => ({ s with status := .running }, .ok ())
  | .running, false => tbqDisable drain s
  | .stopped, false => (s, .ok ())
  | _, _ => (s, .error .status)

/-- `tbq_sysfs_attr_store`. -/
def tbqSysfsAttrStore (HZ : ℕ) (parse : List UInt8 → Option NxJson) (drain : Drain) (s : SysState)
    (json : List UInt8) : SysState × Except StoreStop Unit :=
  match tbqParseConfig HZ parse s.config json with
  | (running, .error e) => ({ s with config := running }, .error (.config e))
  | (running, .ok (.command enable)) => tbqHandleCommand drain { s with config := running } enable
  | (running, .ok (.config config)) =>
      let s := { s with config := running }
      if config.rules ≠ s.config.rules then tbqReloadConfig drain s config else (s, .ok ())

/-! ## The three numbers -/

namespace UintParam

variable (p q : UintParam) (c : SysConfig) (v w : ℕ)

@[simp] theorem get_set_self : p.get (p.set c v) = v := by
  cases p <;> rfl

/-- Writing one parameter leaves the others. -/
theorem get_set_of_ne (h : q ≠ p) : q.get (p.set c v) = q.get c := by
  cases p <;> cases q <;> first | rfl | exact absurd rfl h

@[simp] theorem set_get : p.set c (p.get c) = c := by
  cases p <;> rfl

@[simp] theorem rules_set : (p.set c v).rules = c.rules := by
  cases p <;> rfl

@[simp] theorem rule_set : (p.set c v).rule = c.rule := by
  cases p <;> rfl

@[simp] theorem lan_set : (p.set c v).lan = c.lan := by
  cases p <;> rfl

@[simp] theorem wan_set : (p.set c v).wan = c.wan := by
  cases p <;> rfl

/-- The document does not name the parameter, or names a value that it can have. -/
def accepted (js : NxJson) (p : UintParam) : Bool := (p.value js).isOk

/-- The value that the document gives to the parameter. -/
def named (js : NxJson) (p : UintParam) : Option ℕ :=
  if (nxJsonGet js p.name).isNull then none
  else match p.value js with
    | .error _ => none
    | .ok v => some v.toNat

/-- The document gives the parameter no other value than it has. -/
def Keeps (js : NxJson) (c : SysConfig) (p : UintParam) : Prop :=
  ∀ v, p.named js = some v → v = p.get c

/-- The configuration with the value that the document gives. -/
def write (js : NxJson) (c : SysConfig) (p : UintParam) : SysConfig :=
  (p.named js).elim c (p.set c)

variable {js : NxJson} {p q c}

/-- What a parameter is after one of them is written from the document. -/
theorem get_write : q.get (p.write js c) = if q = p then (p.named js).getD (p.get c) else q.get c := by
  unfold write
  split
  · rename_i h
    subst h
    cases q.named js <;> simp
  · rename_i h
    cases p.named js with
    | none => rfl
    | some v => exact get_set_of_ne p q c v h

/-- A write changes nothing exactly when the value is the running one. -/
theorem write_eq_iff : p.write js c = c ↔ p.Keeps js c := by
  constructor
  · intro h v hv
    have hget := congrArg p.get h
    rw [get_write, if_pos rfl, hv] at hget
    exact hget
  · intro h
    unfold write
    cases hv : p.named js with
    | none => rfl
    | some v =>
        rw [h v hv]
        exact set_get p c

/-- The head of the configuration is not written. -/
structure SameHead (c c' : SysConfig) : Prop where
  rules : c'.rules = c.rules
  rule : c'.rule = c.rule
  lan : c'.lan = c.lan
  wan : c'.wan = c.wan

/-- Having the same head is transitive. -/
theorem SameHead.trans {c c' c'' : SysConfig} (h : SameHead c c') (h' : SameHead c' c'') :
    SameHead c c'' :=
  ⟨h'.rules.trans h.rules, h'.rule.trans h.rule, h'.lan.trans h.lan, h'.wan.trans h.wan⟩

/-- Writing a parameter leaves the rest of the configuration. -/
theorem sameHead_set (v : ℕ) : SameHead c (p.set c v) :=
  ⟨rules_set p c v, rule_set p c v, lan_set p c v, wan_set p c v⟩

/-- Writing a parameter from the document leaves the rest. -/
theorem sameHead_write : SameHead c (p.write js c) := by
  unfold write
  cases p.named js with
  | none => exact ⟨rfl, rfl, rfl, rfl⟩
  | some v => exact sameHead_set v

end UintParam

open UintParam (SameHead)

/-- One parameter is refused, or it is written and the scratch configuration has the value
that the running one has then. -/
theorem initUintParam_eq (js : NxJson) (running config : SysConfig) (p : UintParam) :
    (p.accepted js = false ∧ ∃ e, initUintParam js running config p = (running, .error e))
      ∨ (p.accepted js = true ∧ initUintParam js running config p
        = (p.write js running, .ok (p.set config (p.get (p.write js running))))) := by
  rw [UintParam.get_write, if_pos rfl]
  unfold initUintParam UintParam.accepted UintParam.write UintParam.named
  cases hn : nxJsonGet js p.name with
  | null =>
      refine .inr ⟨?_, rfl⟩
      rw [UintParam.value, hn]
      rfl
  | _ =>
      cases hv : p.value js with
      | error e => exact .inl ⟨rfl, e, rfl⟩
      | ok v => exact .inr ⟨rfl, rfl⟩

/-- All values that the document gives. -/
def writeAll (js : NxJson) (c : SysConfig) (ps : List UintParam) : SysConfig :=
  ps.foldl (fun c p => p.write js c) c

/-- What a parameter is after a list of them is written. -/
theorem get_writeAll (js : NxJson) (q : UintParam) : ∀ (ps : List UintParam) (c : SysConfig),
    q.get (writeAll js c ps) = if q ∈ ps then (q.named js).getD (q.get c) else q.get c := by
  intro ps
  induction ps with
  | nil =>
      intro c
      rfl
  | cons p ps ih =>
      intro c
      change q.get (writeAll js (p.write js c) ps) = _
      rw [ih, UintParam.get_write]
      by_cases hqp : q = p
      · subst hqp
        simp only [if_true, List.mem_cons_self]
        cases q.named js <;> simp
      · simp [hqp]

/-- Writing a list of parameters leaves the rest. -/
theorem sameHead_writeAll (js : NxJson) : ∀ (ps : List UintParam) (c : SysConfig),
    SameHead c (writeAll js c ps) := by
  intro ps
  induction ps with
  | nil => exact fun c => ⟨rfl, rfl, rfl, rfl⟩
  | cons p ps ih => exact fun c => UintParam.sameHead_write.trans (ih _)

/-- The writes change nothing exactly when each value is the running one. -/
theorem writeAll_eq_iff {js : NxJson} {ps : List UintParam} {c : SysConfig} :
    writeAll js c ps = c ↔ ∀ p ∈ ps, p.Keeps js c := by
  constructor
  · intro h p hp v hv
    have hget := congrArg p.get h
    rw [get_writeAll, if_pos hp, hv] at hget
    exact hget
  · intro h
    induction ps with
    | nil => rfl
    | cons p ps ih =>
        obtain ⟨hp, hps⟩ := List.forall_mem_cons.mp h
        change writeAll js (p.write js c) ps = c
        rw [UintParam.write_eq_iff.mpr hp]
        exact ih hps

/-- The loop over the parameters writes those before the first one that is refused. -/
theorem initUintParams_fst (js : NxJson) : ∀ (ps : List UintParam) (running config : SysConfig),
    (initUintParams js running config ps).1
      = writeAll js running (ps.takeWhile fun p => p.accepted js) := by
  intro ps
  induction ps with
  | nil => exact fun _ _ => rfl
  | cons p ps ih =>
      intro running config
      rw [initUintParams]
      rcases initUintParam_eq js running config p with ⟨hp, e, h⟩ | ⟨hp, h⟩
      · rw [h, List.takeWhile_cons_of_neg (by simp [hp])]
        rfl
      · rw [h, List.takeWhile_cons_of_pos hp]
        exact ih _ _

/-- The parameters are refused exactly where one of them is. -/
theorem initUintParams_error (js : NxJson) : ∀ (ps : List UintParam) (running config : SysConfig),
    (∃ e, (initUintParams js running config ps).2 = .error e)
      ↔ ∃ p ∈ ps, p.accepted js = false := by
  intro ps
  induction ps with
  | nil =>
      intro running config
      exact ⟨fun ⟨_, h⟩ => (by cases h), fun ⟨_, h, _⟩ => (by cases h)⟩
  | cons p ps ih =>
      intro running config
      rw [initUintParams, List.exists_mem_cons_iff]
      rcases initUintParam_eq js running config p with ⟨hp, e, h⟩ | ⟨hp, h⟩
      · rw [h]
        exact ⟨fun _ => .inl hp, fun _ => ⟨e, rfl⟩⟩
      · rw [h]
        refine (ih _ _).trans ⟨.inr, fun h' => h'.resolve_left ?_⟩
        rw [hp]
        exact Bool.noConfusion

/-- After the loop the scratch configuration has the numbers of the running one. -/
theorem initUintParams_ok {js : NxJson} {ps : List UintParam}
    {running config running' config' : SysConfig}
    (h : initUintParams js running config ps = (running', .ok config'))
    (hrest : ∀ q ∉ ps, q.get config = q.get running) :
    SameHead config config' ∧ ∀ q : UintParam, q.get config' = q.get running' := by
  induction ps generalizing running config with
  | nil =>
      cases h
      exact ⟨⟨rfl, rfl, rfl, rfl⟩, fun q => hrest q List.not_mem_nil⟩
  | cons p ps ih =>
      rw [initUintParams] at h
      rcases initUintParam_eq js running config p with ⟨-, e, hp⟩ | ⟨-, hp⟩
      · rw [hp] at h
        cases h
      · rw [hp] at h
        have hnext : ∀ q ∉ ps, q.get (p.set config (p.get (p.write js running)))
            = q.get (p.write js running) := by
          intro q hq
          by_cases hqp : q = p
          · subst hqp
            exact UintParam.get_set_self q _ _
          · rw [UintParam.get_set_of_ne p q _ _ hqp, UintParam.get_write, if_neg hqp]
            exact hrest q (by simp [hqp, hq])
        obtain ⟨hhead, hget⟩ := ih h hnext
        exact ⟨(UintParam.sameHead_set _).trans hhead, hget⟩

/-- The numbers that the document gives are those that the running configuration has
afterwards, and so has the scratch configuration. -/
theorem tbqConfigInit_ok {HZ : ℕ} {js : NxJson} {running running' config' : SysConfig}
    (h : tbqConfigInit HZ running js = (running', .ok config')) :
    ∃ config, configHead HZ running js = .ok config ∧ SameHead config config'
      ∧ running' = writeAll js running uintParams ∧ ∀ q : UintParam, q.get config' = q.get running' := by
  unfold tbqConfigInit at h
  cases hc : configHead HZ running js with
  | error e =>
      rw [hc] at h
      cases h
  | ok config =>
      rw [hc] at h
      dsimp only at h
      obtain ⟨hhead, hget⟩ := initUintParams_ok h fun q hq => absurd (by cases q <;> decide) hq
      refine ⟨config, rfl, hhead, ?_, hget⟩
      have hall : ∀ p ∈ uintParams, p.accepted js = true := by
        intro p hp
        by_contra hne
        obtain ⟨e, he⟩ := (initUintParams_error js uintParams running config).mpr
          ⟨p, hp, Bool.eq_false_of_not_eq_true hne⟩
        rw [h] at he
        cases he
      have hfst := initUintParams_fst js uintParams running config
      rw [h, List.takeWhile_eq_self_iff.mpr hall] at hfst
      exact hfst

/-! ## A document that is refused -/

/-- If a number is refused, none of those before it has another value than the running
configuration. -/
def KeptUntilRefused (js : NxJson) (running : SysConfig) : Prop :=
  (∃ p ∈ uintParams, p.accepted js = false) →
    ∀ p ∈ uintParams.takeWhile fun p => p.accepted js, p.Keeps js running

/-- A refusal leaves what runs exactly where no parameter was written before it. -/
theorem tbqConfigInit_unchanged_iff (HZ : ℕ) (running : SysConfig) (js : NxJson) :
    (∀ running' e, tbqConfigInit HZ running js = (running', .error e) → running' = running)
      ↔ ∀ config, configHead HZ running js = .ok config → KeptUntilRefused js running := by
  unfold tbqConfigInit
  cases hc : configHead HZ running js with
  | error e =>
      refine ⟨fun _ config h => (by cases h), fun _ running' e h => ?_⟩
      cases h
      rfl
  | ok config =>
      have herr := initUintParams_error js uintParams running config
      have hfst := initUintParams_fst js uintParams running config
      constructor
      · intro h config' _ hbad
        obtain ⟨e, he⟩ := herr.mpr hbad
        have hsame : (initUintParams js running config uintParams).1 = running :=
          h _ e (Prod.ext rfl he)
        rw [hfst] at hsame
        exact writeAll_eq_iff.mp hsame
      · intro h running' e he
        dsimp only at he
        rw [he] at hfst herr
        exact hfst.trans (writeAll_eq_iff.mpr (h config rfl (herr.mp ⟨e, rfl⟩)))

/-- A document that is not a command is a configuration. -/
theorem tbqParseConfig_config {HZ : ℕ} {parse : List UInt8 → Option NxJson} {json : List UInt8}
    {js : NxJson} (hjs : parse json = some js) (hb : ∀ v, js ≠ .bool v) (hi : ∀ v, js ≠ .integer v)
    (running : SysConfig) :
    tbqParseConfig HZ parse running json = ((tbqConfigInit HZ running js).1,
      (tbqConfigInit HZ running js).2.map .config) := by
  unfold tbqParseConfig
  rw [hjs]
  cases js with
  | bool v => exact absurd rfl (hb v)
  | integer v => exact absurd rfl (hi v)
  | _ => rfl

/-- A refused document leaves the running configuration as it was exactly when its
interfaces or its rules are refused, or no number before the one that is refused has
another value than the running configuration. -/
theorem refused_unchanged_iff (HZ : ℕ) (parse : List UInt8 → Option NxJson) (running : SysConfig)
    (json : List UInt8) :
    (∀ running' e, tbqParseConfig HZ parse running json = (running', .error e) → running' = running)
      ↔ ∀ js config, parse json = some js → configHead HZ running js = .ok config →
        KeptUntilRefused js running := by
  cases hjs : parse json with
  | none =>
      refine ⟨fun _ js config h => (by cases h), fun _ running' e h => ?_⟩
      unfold tbqParseConfig at h
      rw [hjs] at h
      cases h
      rfl
  | some js =>
      have hsome : (∀ js' config, some js = some js' → configHead HZ running js' = .ok config →
          KeptUntilRefused js' running)
            ↔ ∀ config, configHead HZ running js = .ok config → KeptUntilRefused js running := by
        refine ⟨fun h config => h js config rfl, fun h js' config hjs => ?_⟩
        cases hjs
        exact h config
      rw [hsome]
      by_cases hcommand : (∃ v, js = .bool v) ∨ ∃ v, js = .integer v
      · have hhead : ∀ config, configHead HZ running js ≠ .ok config := by
          intro config h
          rcases hcommand with ⟨v, rfl⟩ | ⟨v, rfl⟩ <;> cases h
        have hok : ∀ running' e, tbqParseConfig HZ parse running json ≠ (running', .error e) := by
          intro running' e h
          unfold tbqParseConfig at h
          rw [hjs] at h
          rcases hcommand with ⟨v, rfl⟩ | ⟨v, rfl⟩ <;> cases h
        exact ⟨fun _ config h => absurd h (hhead config),
          fun _ running' e h => absurd h (hok running' e)⟩
      · rw [not_or, not_exists, not_exists] at hcommand
        rw [tbqParseConfig_config hjs hcommand.1 hcommand.2, ← tbqConfigInit_unchanged_iff]
        refine forall_congr' fun running' => forall_congr' fun e => imp_congr_left ?_
        obtain ⟨c, r⟩ := tbqConfigInit HZ running js
        cases r <;> simp [Except.map]

/-- The configuration of `tbq_global_init`. -/
def bootConfig : SysConfig := ⟨0, [], by simp, 10000, 7, 2, .zero, .zero⟩

/-- `nx_json_parse_utf8` on one text. -/
def parseOnly (text : String) (js : NxJson) (json : List UInt8) : Option NxJson :=
  if json = asciiBytes text then some js else none

/-- The second number is out of range, and the first one is in force all the same. -/
theorem refused_changes :
    ¬ ∀ HZ parse running json running' e,
      tbqParseConfig HZ parse running json = (running', .error e) → running' = running := by
  intro hall
  let text := "\x7b\"MaxBacklogPackets\":5,\"LatencyShift\":11\x7d"
  let js := NxJson.object [(asciiBytes "MaxBacklogPackets", .integer 5),
    (asciiBytes "LatencyShift", .integer 11)]
  have hfive : (tbqParseConfig 100 (parseOnly text js) bootConfig (asciiBytes text)).1.maxBacklogPackets
      = 5 := by decide +kernel
  have hbad : (tbqParseConfig 100 (parseOnly text js) bootConfig (asciiBytes text)).2.isOk = false := by
    decide +kernel
  cases hr : tbqParseConfig 100 (parseOnly text js) bootConfig (asciiBytes text) with
  | mk running' r =>
      rw [hr] at hfive hbad
      cases r with
      | ok c => cases hbad
      | error e =>
          rw [hall _ _ _ _ _ _ hr] at hfive
          cases hfive

/-! ## A configuration that is accepted -/

/-- Where the interfaces and the rules of the scratch configuration come from. -/
theorem configHead_ok {HZ : ℕ} {running config : SysConfig} {js : NxJson}
    (h : configHead HZ running js = .ok config) :
    ifaceOf "LAN" running.lan (nxJsonGet js "LAN") = .ok config.lan
      ∧ ifaceOf "WAN" running.wan (nxJsonGet js "WAN") = .ok config.wan
      ∧ ((nxJsonGet js "Rules").isNull = true ∧ config.rules = running.rules
          ∧ config.rule = running.rule
        ∨ (nxJsonGet js "Rules").isNull = false ∧ rulesInit HZ (nxJsonGet js "Rules") = .ok config.rule
          ∧ config.rules = rulesAt running config.rule) := by
  cases js with
  | object members =>
      unfold configHead at h
      dsimp only at h
      obtain ⟨lan, hlan, h⟩ := bind_eq_ok.mp h
      obtain ⟨wan, hwan, h⟩ := bind_eq_ok.mp h
      split at h
      · rename_i hnull
        cases h
        exact ⟨hlan, hwan, .inl ⟨by rw [hnull]; rfl, rfl, rfl⟩⟩
      · rename_i hnull
        obtain ⟨rule, hrule, h⟩ := bind_eq_ok.mp h
        cases h
        refine ⟨hlan, hwan, .inr ⟨?_, hrule, rfl⟩⟩
        cases hj : nxJsonGet (.object members) "Rules" with
        | null => exact absurd hj hnull
        | _ => rfl
  | _ => cases h

/-- The rules of an accepted configuration are those of the document. -/
theorem accepted_rules {HZ : ℕ} {running running' config : SysConfig} {js : NxJson}
    {items : List NxJson} (h : tbqConfigInit HZ running js = (running', .ok config))
    (hrules : nxJsonGet js "Rules" = .array items) :
    rulesInit HZ (.array items) = .ok config.rule := by
  obtain ⟨head, hhead, hsame, -⟩ := tbqConfigInit_ok h
  rw [hsame.rule]
  rcases (configHead_ok hhead).2.2 with ⟨hnull, -⟩ | ⟨-, hok, -⟩
  · rw [hrules] at hnull
    cases hnull
  · rwa [hrules] at hok

/-- The rules of an accepted document are safe to run exactly when each of its rules gives
the limits of both directions, with rates of at least one byte for each tick. -/
theorem accepted_rates_iff {HZ : TickRate} {running running' config : SysConfig} {js : NxJson}
    {items : List NxJson} (h : tbqConfigInit HZ running js = (running', .ok config))
    (hrules : nxJsonGet js "Rules" = .array items) :
    (∀ r ∈ config.rule, ∀ d,
        (0 < (r.tokenRules d).global ∧ (r.tokenRules d).global * HZ ≤ 2 ^ 31 - 1)
          ∧ 0 < (r.tokenRules d).user ∧ (r.tokenRules d).user * HZ ≤ 2 ^ 31 - 1)
      ↔ ∀ item ∈ items, ∀ d, LimitNamed HZ (nxJsonGet item (limitKey d)) := by
  have hrule := accepted_rules h hrules
  have hbound := (rulesInit_rateOk hrule).2
  rw [← rulesInit_pos hrule]
  refine forall₂_congr fun r hr => forall_congr' fun d => ?_
  obtain ⟨hglobal, huser⟩ := (hbound r hr).2 d
  have hmax : tbqBytesPerSecMax ≤ 2 ^ 31 - 1 := by decide
  exact ⟨fun hpos => ⟨hpos.1.1, hpos.2.1⟩, fun hpos =>
    ⟨⟨hpos.1, hglobal.2.trans hmax⟩, hpos.2, huser.2.trans hmax⟩⟩

/-- `{"Shared":"8M","PerIp":"1M"}`. -/
def someLimit : NxJson :=
  .object [(asciiBytes "Shared", .string (asciiBytes "8M")), (asciiBytes "PerIp", .string (asciiBytes "1M"))]

/-- `{"Rules":[{"UploadLimit":…,"DownloadLimit":…}]}`. -/
def limitedRule : NxJson :=
  .object [(asciiBytes "Rules", .array [.object [(asciiBytes "UploadLimit", someLimit),
    (asciiBytes "DownloadLimit", someLimit)]])]

/-- A tick rate of 100. -/
def hz100 : TickRate := ⟨100, by decide, by decide⟩

/-- The sample names a limit. -/
theorem limitNamed_someLimit : LimitNamed hz100 someLimit := by
  refine ⟨rfl, fun desc r hdesc hr => ?_, fun desc r hdesc hr => ?_⟩
  · obtain rfl : asciiBytes "8M" = desc := NxJson.string.inj hdesc
    obtain rfl : 8000000 = r := Option.some.inj ((by decide : _ = some 8000000).symm.trans hr)
    exact .inr (by decide)
  · obtain rfl : asciiBytes "1M" = desc := NxJson.string.inj hdesc
    obtain rfl : 1000000 = r := Option.some.inj ((by decide : _ = some 1000000).symm.trans hr)
    exact .inr (by decide)

theorem accepted_rates_limitedRule :
    ∃ running' config, tbqConfigInit hz100 bootConfig limitedRule = (running', .ok config)
      ∧ ∀ r ∈ config.rule, ∀ d,
        (0 < (r.tokenRules d).global ∧ (r.tokenRules d).global * hz100 ≤ 2 ^ 31 - 1)
          ∧ 0 < (r.tokenRules d).user ∧ (r.tokenRules d).user * hz100 ≤ 2 ^ 31 - 1 := by
  have hok : (tbqConfigInit hz100 bootConfig limitedRule).2.isOk = true := by
    decide +kernel
  rcases hr : tbqConfigInit hz100 bootConfig limitedRule with ⟨running', r⟩
  rw [hr] at hok
  cases r with
  | error e => cases hok
  | ok config =>
      refine ⟨running', config, rfl, (accepted_rates_iff hr rfl).mpr ?_⟩
      intro item hitem d
      obtain rfl := List.mem_singleton.mp hitem
      rcases dir_cases d with rfl | rfl
      · exact limitNamed_someLimit
      · exact limitNamed_someLimit

/-- A rule without limits is accepted, and its rates are 0. -/
theorem accepted_rates_zero :
    ¬ ∀ (HZ : TickRate) (running running' config : SysConfig) (js : NxJson) (items : List NxJson),
      tbqConfigInit HZ running js = (running', .ok config) → nxJsonGet js "Rules" = .array items →
      ∀ r ∈ config.rule, ∀ d,
        (0 < (r.tokenRules d).global ∧ (r.tokenRules d).global * HZ ≤ 2 ^ 31 - 1)
          ∧ 0 < (r.tokenRules d).user ∧ (r.tokenRules d).user * HZ ≤ 2 ^ 31 - 1 := by
  intro hall
  let js := NxJson.object [(asciiBytes "Rules", .array [.object []])]
  have hzero : ((tbqConfigInit hz100 bootConfig js).2.toOption.any fun c =>
      c.rule.any fun r => decide ((r.tokenRules 0).global = 0)) = true := by
    decide +kernel
  rcases hr : tbqConfigInit hz100 bootConfig js with ⟨running', r⟩
  rw [hr] at hzero
  cases r with
  | error e => cases hzero
  | ok config =>
      obtain ⟨rule, hrule, h0⟩ := List.any_eq_true.mp hzero
      have hpos := (hall hz100 _ _ _ _ _ hr rfl rule hrule 0).1.1
      rw [of_decide_eq_true h0] at hpos
      exact lt_irrefl 0 hpos

/-! ## A document that is stored -/

/-- A configuration that is set is the one that runs. -/
theorem tbqGlobalSetConfig_ok {drain : Drain} {s s' : SysState} {config : SysConfig}
    (h : tbqGlobalSetConfig drain s config = (s', .ok ())) : s'.config = config := by
  unfold tbqGlobalSetConfig at h
  split at h
  · cases h
  · split at h
    · cases h
    · cases h
      rfl

/-- A reload that succeeds installs the scratch configuration. -/
theorem tbqReloadConfig_ok {drain : Drain} {s s' : SysState} {config : SysConfig}
    (h : tbqReloadConfig drain s config = (s', .ok ())) : s'.config = config := by
  unfold tbqReloadConfig at h
  split at h
  · split at h
    · cases h
    · split at h
      · cases h
      · rename_i hset
        cases h
        have hconfig := tbqGlobalSetConfig_ok hset
        exact hconfig
  · exact tbqGlobalSetConfig_ok h
  · cases h

/-- A stored object leaves either the running configuration with the three numbers or, if
the rules are another array, the scratch configuration. -/
theorem tbqSysfsAttrStore_ok {HZ : ℕ} {parse : List UInt8 → Option NxJson} {drain : Drain}
    {s s' : SysState} {json : List UInt8} {members : List (List UInt8 × NxJson)}
    (hjs : parse json = some (.object members))
    (h : tbqSysfsAttrStore HZ parse drain s json = (s', .ok ())) :
    ∃ running config, tbqConfigInit HZ s.config (.object members) = (running, .ok config)
      ∧ (config.rules = running.rules ∧ s'.config = running
        ∨ config.rules ≠ running.rules ∧ s'.config = config) := by
  unfold tbqSysfsAttrStore at h
  rw [tbqParseConfig_config hjs (fun v hv => by cases hv) fun v hv => by cases hv] at h
  rcases hr : tbqConfigInit HZ s.config (.object members) with ⟨running, r⟩
  rw [hr] at h
  cases r with
  | error e => cases h
  | ok config =>
      refine ⟨running, config, rfl, ?_⟩
      change (if config.rules ≠ running.rules then _ else _) = _ at h
      split at h
      · rename_i hne
        exact .inr ⟨hne, tbqReloadConfig_ok h⟩
      · rename_i heq
        cases h
        exact .inl ⟨not_not.mp heq, rfl⟩

/-- Every member that the document names is in force, every other one is as before. -/
structure Applied (HZ : ℕ) (js : NxJson) (before after : SysConfig) : Prop where
  lan : ifaceOf "LAN" before.lan (nxJsonGet js "LAN") = .ok after.lan
  wan : ifaceOf "WAN" before.wan (nxJsonGet js "WAN") = .ok after.wan
  rules : if (nxJsonGet js "Rules").isNull then after.rule = before.rule
    else rulesInit HZ (nxJsonGet js "Rules") = .ok after.rule
  uint : ∀ p : UintParam, p.get after = (p.named js).getD (p.get before)

/-- The document names the rules, and not an empty list for an empty list. -/
def Reloads (js : NxJson) (running : SysConfig) : Prop :=
  ∃ items, nxJsonGet js "Rules" = .array items ∧ (items ≠ [] ∨ running.rule ≠ [])

/-- The interfaces that the document names are the running ones. -/
def SameIfaces (js : NxJson) (running : SysConfig) : Prop :=
  ifaceOf "LAN" running.lan (nxJsonGet js "LAN") = .ok running.lan
    ∧ ifaceOf "WAN" running.wan (nxJsonGet js "WAN") = .ok running.wan

/-- Rules come from an array of the document. -/
theorem rulesInit_array {HZ : ℕ} {js : NxJson} {rules : List ConfRule} (hnull : js.isNull = false)
    (h : rulesInit HZ js = .ok rules) : ∃ items, js = .array items ∧ (items = [] ↔ rules = []) := by
  cases js with
  | null => cases hnull
  | array items =>
      refine ⟨items, rfl, ?_⟩
      simp only [rulesInit, tbqJsonArrayMap] at h
      split at h
      · cases h
      · have hlen := (mapM_eq_ok.mp h).length_eq
        rw [← List.length_eq_zero_iff, hlen, List.length_eq_zero_iff]
  | _ => cases h

/-- The comparison of the two pointers. -/
theorem rules_ne_iff {HZ : ℕ} {running running' config : SysConfig} {js : NxJson}
    (h : tbqConfigInit HZ running js = (running', .ok config)) :
    config.rules ≠ running'.rules ↔ Reloads js running := by
  obtain ⟨head, hhead, hsame, hrun, -⟩ := tbqConfigInit_ok h
  have hrunning : running'.rules = running.rules := hrun ▸ (sameHead_writeAll js _ _).rules
  rw [hrunning, hsame.rules]
  rcases (configHead_ok hhead).2.2 with ⟨hnull, hrules, -⟩ | ⟨hnull, hok, hrules⟩
  · refine ⟨fun hne => absurd hrules hne, fun ⟨items, hitems, _⟩ => ?_⟩
    rw [hitems] at hnull
    cases hnull
  · obtain ⟨items, hitems, hempty⟩ := rulesInit_array hnull hok
    have hreloads : Reloads js running ↔ head.rule ≠ [] ∨ running.rule ≠ [] := by
      constructor
      · rintro ⟨items', hitems', hor⟩
        obtain rfl := NxJson.array.inj (hitems.symm.trans hitems')
        exact hor.imp_left (mt hempty.mpr)
      · intro hor
        exact ⟨items, hitems, hor.imp_left (mt hempty.mp)⟩
    rw [hreloads, hrules, ← not_and_or]
    refine not_congr ?_
    unfold rulesAt
    split
    · rename_i hnil
      rw [eq_comm, running.null_iff]
      exact ⟨fun h0 => ⟨hnil, h0⟩, fun h0 => h0.2⟩
    · rename_i hne
      exact ⟨fun h0 => by omega, fun h0 => absurd h0.1 hne⟩

/-- A document that is stored is in force exactly when it makes the rules another array,
or names no interfaces but the running ones. -/
theorem stored_applied_iff {HZ : ℕ} {parse : List UInt8 → Option NxJson} {drain : Drain}
    {s s' : SysState} {json : List UInt8} {members : List (List UInt8 × NxJson)}
    (hjs : parse json = some (.object members))
    (h : tbqSysfsAttrStore HZ parse drain s json = (s', .ok ())) :
    Applied HZ (.object members) s.config s'.config
      ↔ Reloads (.object members) s.config ∨ SameIfaces (.object members) s.config := by
  obtain ⟨running, config, hinit, hcases⟩ := tbqSysfsAttrStore_ok hjs h
  obtain ⟨head, hhead, hsame, hrun, hget⟩ := tbqConfigInit_ok hinit
  obtain ⟨hlan, hwan, hrules⟩ := configHead_ok hhead
  have hrunning : SameHead s.config running := hrun ▸ sameHead_writeAll _ _ _
  have huint : ∀ p : UintParam, p.get running = (p.named (.object members)).getD (p.get s.config) := by
    intro p
    rw [hrun, get_writeAll, if_pos (by cases p <;> decide)]
  rcases hcases with ⟨heq, hafter⟩ | ⟨hne, hafter⟩
  · -- The scratch configuration is dropped.
    have hno : ¬ Reloads (.object members) s.config := by
      rw [← rules_ne_iff hinit]
      exact not_not.mpr heq
    rw [or_iff_right hno, hafter]
    constructor
    · intro happlied
      exact ⟨happlied.lan.trans (by rw [hrunning.lan]), happlied.wan.trans (by rw [hrunning.wan])⟩
    · rintro ⟨hl, hw⟩
      refine ⟨hl.trans (by rw [hrunning.lan]), hw.trans (by rw [hrunning.wan]), ?_, huint⟩
      rcases hrules with ⟨hnull, -⟩ | ⟨hnull, hok, -⟩
      · rw [if_pos hnull, hrunning.rule]
      · obtain ⟨items, hitems, hempty⟩ := rulesInit_array hnull hok
        have hnil : items = [] ∧ s.config.rule = [] := by
          by_contra hor
          exact hno ⟨items, hitems, not_and_or.mp hor⟩
        rw [if_neg (by simp [hnull]), hok, hempty.mp hnil.1, hrunning.rule, hnil.2]
  · have hyes := (rules_ne_iff hinit).mp hne
    refine ⟨fun _ => .inl hyes, fun _ => ?_⟩
    rw [hafter]
    refine ⟨hlan.trans (by rw [hsame.lan]), hwan.trans (by rw [hsame.wan]), ?_, fun p => ?_⟩
    · rcases hrules with ⟨hnull, -, hrule⟩ | ⟨hnull, hok, -⟩
      · rw [if_pos hnull, hsame.rule, hrule]
      · rw [if_neg (by simp [hnull]), hok, hsame.rule]
    · rw [hget, huint]

/-- An interface list. -/
def lanText : String := "\x7b\"LAN\":\"br-lan\\t\"\x7d"

def lanOnly : NxJson := .object [(asciiBytes "LAN", .string (tabbed [asciiBytes "br-lan"]))]

/-- An interface list and a rule. -/
def lanAndRuleText : String :=
  "\x7b\"LAN\":\"br-lan\\t\",\"Rules\":[\x7b\"UploadLimit\":\x7b\"Shared\":\"8M\",\"PerIp\":\"1M\"\x7d,\"DownloadLimit\":\x7b\"Shared\":\"8M\",\"PerIp\":\"1M\"\x7d\x7d]\x7d"

def lanAndRule : NxJson :=
  .object [(asciiBytes "LAN", .string (tabbed [asciiBytes "br-lan"])),
    (asciiBytes "Rules", .array [.object [(asciiBytes "UploadLimit", someLimit),
      (asciiBytes "DownloadLimit", someLimit)]])]

/-- A document is stored while the scheduler runs; it drains in time. -/
def storeRunning (text : String) (js : NxJson) : SysState × Except StoreStop Unit :=
  tbqSysfsAttrStore 100 (parseOnly text js) ⟨1, 0⟩ ⟨bootConfig, .running⟩ (asciiBytes text)

/-- With a rule beside it the interface list is in force. -/
theorem stored_applied_lanAndRule :
    ∃ s', storeRunning lanAndRuleText lanAndRule = (s', .ok ())
      ∧ Applied 100 lanAndRule bootConfig s'.config := by
  have hok : (storeRunning lanAndRuleText lanAndRule).2.isOk = true := by
    decide +kernel
  rcases hr : storeRunning lanAndRuleText lanAndRule with ⟨s', r⟩
  rw [hr] at hok
  cases r with
  | error e => cases hok
  | ok u =>
      have hreloads : Reloads lanAndRule bootConfig := ⟨_, rfl, .inl (List.cons_ne_nil _ _)⟩
      exact ⟨s', rfl, (stored_applied_iff (if_pos rfl) hr).mpr (.inl hreloads)⟩

/-- An interface list alone is accepted and dropped. -/
theorem stored_not_applied :
    ¬ ∀ HZ parse drain s s' json members, parse json = some (.object members) →
      tbqSysfsAttrStore HZ parse drain s json = (s', .ok ()) →
      Applied HZ (.object members) s.config s'.config := by
  intro hall
  have hok : (storeRunning lanText lanOnly).2.isOk = true := by
    decide +kernel
  have hlan : (storeRunning lanText lanOnly).1.config.lan.cur = 0 := by
    decide +kernel
  have hone : ((ifaceOf "LAN" bootConfig.lan (nxJsonGet lanOnly "LAN")).toOption.any
      fun iface => decide (iface.cur = 1)) = true := by
    decide +kernel
  rcases hr : storeRunning lanText lanOnly with ⟨s', r⟩
  rw [hr] at hok hlan
  cases r with
  | error e => cases hok
  | ok u =>
      have happlied : ifaceOf "LAN" bootConfig.lan (nxJsonGet lanOnly "LAN") = .ok s'.config.lan :=
        (hall _ _ _ _ _ _ _ (if_pos rfl) hr).lan
      rw [happlied] at hone
      have hcur : s'.config.lan.cur = 1 := of_decide_eq_true hone
      rw [hcur] at hlan
      cases hlan

/-! ## The scheduler under an accepted configuration -/

/-- The bounds that the parser checks. -/
structure SysConfig.Fits (HZ : ℕ) (c : SysConfig) : Prop where
  nr_rule_le : c.rule.length ≤ 32
  weight_ok : ∀ r ∈ c.rule, ∀ w ∈ r.ipRules, 1 ≤ w.weight ∧ w.weight ≤ 255
  rate_ok : ∀ r ∈ c.rule, ∀ d, RateOk HZ (r.tokenRules d).global ∧ RateOk HZ (r.tokenRules d).user
  latency_le : c.latencyShift ≤ 10

/-- The configuration as the scheduler sees it. -/
def SysConfig.toConfig {HZ : TickRate} (c : SysConfig) (h : c.Fits HZ) : Config where
  HZ := HZ
  rules := c.rule.map ConfRule.toRule
  maxBacklogPackets := c.maxBacklogPackets
  latencyShift := c.latencyShift
  hz_ge := HZ.2.1
  nr_rule_le := by
    rw [List.length_map]
    exact h.nr_rule_le
  rate_ok := List.forall_mem_map.mpr h.rate_ok
  weight_ok := List.forall_mem_map.mpr h.weight_ok
  latency_le := h.latency_le

/-- A parameter that is named lies below its maximum. -/
theorem UintParam.named_le {js : NxJson} {p : UintParam} {v : ℕ} (h : p.named js = some v) :
    (v : ℤ) ≤ p.max := by
  unfold UintParam.named at h
  split at h
  · cases h
  · split at h
    · cases h
    · rename_i value hvalue
      cases h
      have hmax : 0 ≤ p.max := by cases p <;> decide
      rcases tbqJsonIntegerMap_range hvalue with rfl | ⟨h₀, h₁⟩
      · exact hmax
      · rwa [Int.toNat_of_nonneg h₀]

/-- What is accepted keeps the bounds. -/
theorem tbqConfigInit_fits {HZ : ℕ} {running running' config : SysConfig} {js : NxJson}
    (hfits : running.Fits HZ) (h : tbqConfigInit HZ running js = (running', .ok config)) :
    config.Fits HZ := by
  obtain ⟨head, hhead, hsame, hrun, hget⟩ := tbqConfigInit_ok h
  have hlatency : config.latencyShift ≤ 10 := by
    have hval := hget .latencyShift
    rw [hrun, get_writeAll, if_pos (by decide)] at hval
    change config.latencyShift = _ at hval
    cases hn : UintParam.latencyShift.named js with
    | none =>
        rw [hn] at hval
        exact hval.trans_le hfits.latency_le
    | some v =>
        rw [hn] at hval
        have hle : (v : ℤ) ≤ 10 := UintParam.named_le hn
        rw [hval]
        exact_mod_cast hle
  rcases (configHead_ok hhead).2.2 with ⟨-, -, hrule⟩ | ⟨-, hok, -⟩
  · have hsame' : config.rule = running.rule := hsame.rule.trans hrule
    exact ⟨hsame' ▸ hfits.nr_rule_le, hsame' ▸ hfits.weight_ok, hsame' ▸ hfits.rate_ok, hlatency⟩
  · rw [← hsame.rule] at hok
    obtain ⟨hlen, hall⟩ := rulesInit_rateOk hok
    exact ⟨hlen, fun r hr => (hall r hr).1, fun r hr => (hall r hr).2, hlatency⟩

/-- With the limits of every rule given, the scheduler never feeds a token control that
gets nothing and never divides by a rate of 0, in any run. -/
theorem limits_run_safely {HZ : TickRate} {running running' config : SysConfig} {js : NxJson}
    {items : List NxJson} (hfits : running.Fits HZ)
    (h : tbqConfigInit HZ running js = (running', .ok config))
    (hrules : nxJsonGet js "Rules" = .array items)
    (hlimits : ∀ item ∈ items, ∀ d, LimitNamed HZ (nxJsonGet item (limitKey d))) {now : ℕ}
    {s : State}
    (hs : Reachable AnyEvent (initState (config.toConfig (tbqConfigInit_fits hfits h)) now) s)
    (fuel : ℕ) {e : Event} (hadm : Admissible s e) (bug : TokenBug) :
    step fuel s e ≠ .error (.token bug) := by
  have hpos : (config.toConfig (tbqConfigInit_fits hfits h)).RatesPositive :=
    List.forall_mem_map.mpr ((rulesInit_pos (accepted_rules h hrules)).mpr hlimits)
  intro herr
  have hidle := hs.idle (b := False) fun _ _ _ hb => hb.elim
  rcases (hidle.step_sat fuel hadm fun hb => hb.elim).of_error herr with hfuel | ⟨hno, -⟩ | ⟨-, hb⟩
  · cases hfuel
  · exact hno hpos
  · exact hb

end Tbq
