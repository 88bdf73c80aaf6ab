/-
# Parsing a configuration

`audit_control.c` and the part of `json_utility.c` and `rule_core.c` it is used by:
the tree that nxjson makes of a configuration becomes two lists of rules and two
lists of set names.  A text of the tree is the list of its bytes; the value of a
number has 32 bits; allocations succeed.
-/
import OpenwrtAc.RuleTable
import OpenwrtAc.NacsSets

open Nacs

namespace RuleTable

/-! ## The tree -/

/-- `struct nx_json`.  The value of a double is what `strtoul` read of it. -/
inductive NxJson where
  | null
  | object (fields : List (String × NxJson))
  | array (items : List NxJson)
  | string (text : List Char)
  | integer (value : UInt32)
  | double (value : UInt32)
  | bool (value : Bool)

/-- The field `int_value`, 0 in a node that has no number. -/
def NxJson.intValue : NxJson → ℕ
  | .integer value => value.toNat
  | .double value => value.toNat
  | .bool value => value.toNat
  | _ => 0

/-- `type == NX_JSON_NULL`. -/
def NxJson.isNull : NxJson → Bool
  | .null => true
  | _ => false

/-- `nx_json_get`: the first property with the key, or the dummy node of the type null. -/
def nxJsonGet : NxJson → String → NxJson
  | .object fields, key => ((fields.find? fun f => f.1 == key).map Prod.snd).getD .null
  | _, _ => .null

/-- `nx_json_integer_map` with the minimum 0. -/
def nxJsonIntegerMap (max : ℕ) : NxJson → Option { n : ℕ // n ≤ max }
  | .null => some ⟨0, Nat.zero_le _⟩
  | .integer value => if h : value.toNat ≤ max then some ⟨value.toNat, h⟩ else none
  | _ => none

/-- `nx_json_string_map`. -/
def nxJsonStringMap (maxLength : ℕ) : NxJson → Option (List Char)
  | .null => some []
  | .string text => if text.length ≤ maxLength then some text else none
  | _ => none

/-! ## Rules -/

/-- `check_list_valid`: the items of an array that is not too long. -/
def checkListValid (maxnum : ℕ) : NxJson → Option { items : List NxJson // items.length ≤ maxnum }
  | .array items => if h : items.length ≤ maxnum then some ⟨items, h⟩ else none
  | _ => none

/-- The list of a part that is missing. -/
def IdList.empty (maxid : ℕ) : IdList maxid := ⟨[], Nat.zero_le _, fun _ h => nomatch h⟩

/-- `id_list_init` with the minimum 0: the type of an item is not looked at. -/
def idListInit (maxid : ℕ) (items : { items : List NxJson // items.length ≤ acIdMaxnumPermatch }) :
    Option (IdList maxid) :=
  if h : ∀ x ∈ items.val.map NxJson.intValue, x ≤ maxid then
    some ⟨items.val.map NxJson.intValue, by rw [List.length_map]; exact items.property, h⟩
  else none

/-- `AC_ACTION_MAXNAMELEN`. -/
def acActionMaxnamelen : ℕ := 15

/-- `str_list_init`. -/
def strListInit (items : { items : List NxJson // items.length ≤ acActionMaxnum }) :
    Option { action : List (List Char) // action.length ≤ acActionMaxnum } :=
  if items.val.all fun e => (nxJsonStringMap acActionMaxnamelen e).isSome then
    some ⟨items.val.map fun e => (nxJsonStringMap acActionMaxnamelen e).getD [],
      by rw [List.length_map]; exact items.property⟩
  else none

/-- One list of ids of a rule: without a valid list it stays empty. -/
def parseIds (maxid : ℕ) (js : NxJson) (key : String) : Option (IdList maxid) :=
  match checkListValid acIdMaxnumPermatch (nxJsonGet js key) with
  | some items => idListInit maxid items
  | none => some (IdList.empty maxid)

/-- The actions of a rule: without a valid list there are none. -/
def parseActions (js : NxJson) :
    Option { action : List (List Char) // action.length ≤ acActionMaxnum } :=
  match checkListValid acActionMaxnum (nxJsonGet js "Actions") with
  | some items => strListInit items
  | none => some ⟨[], Nat.zero_le _⟩

/-- `ac_rule_item_init`. -/
def acRuleItemInit (js : NxJson) : Option RuleItem := do
  let id ← nxJsonIntegerMap acRuleMaxid (nxJsonGet js "Id")
  let srcZoneIds ← parseIds acZoneMaxid js "SrcZoneIds"
  let srcIpgrpIds ← parseIds acIpgrpMaxid js "SrcIpgrpIds"
  let dstZoneIds ← parseIds acZoneMaxid js "DstZoneIds"
  let dstIpgrpIds ← parseIds acIpgrpMaxid js "DstIpgrpIds"
  let protoIds ← parseIds acProtoMaxid js "ProtoIds"
  let action ← parseActions js
  return ⟨id.val, srcZoneIds, srcIpgrpIds, dstZoneIds, dstIpgrpIds, protoIds, action.val,
    id.property, action.property⟩

/-- `RULE_MAXNUM`. -/
def ruleMaxnum : ℕ := acRuleMaxid

/-- `do_parse_ac_rule`, which is also `do_parse_control_rule` and `do_parse_audit_rule`:
    `nx_json_array_map` with the constructor of a rule. -/
def doParseAcRule : NxJson → Option (List RuleItem)
  | .null => some []
  | .array items => if items.length ≤ ruleMaxnum then items.mapM acRuleItemInit else none
  | _ => none

/-! ## Sets -/

/-- `ipset_key_map`. -/
def ipsetKeyMap : List String :=
  ["MacWhiteListSetName", "IpWhiteListSetName", "MacBlackListSetName", "IpBlackListSetName"]

/-- The number of sets of a rule type: `CONTROL_IPSET_TYPE_MAX` or `AUDIT_IPSET_TYPE_MAX`. -/
def ipsetTypeMax : RuleType → ℕ
  | .control => 4
  | .audit => 2

/-- `AC_IPSET_MAXNAMELEN`. -/
def acIpsetMaxnamelen : ℕ := 31

/-- `struct ac_set`; an `ipsets` that is `none` is the null pointer. -/
structure AcSet where
  updated : BitVec 32
  number : ℕ
  ipsets : Option (List (Option (List Char)))

/-- A set that the configuration does not mention. -/
def AcSet.absent : AcSet := ⟨0, 0, none⟩

/-- The loop of `do_parse_ac_set` from the key `idx` on.  When it fails, the names are freed
    and the bits of those before it stay. -/
def parseSetLoop (js : NxJson) : ℕ → List String → BitVec 32 →
    BitVec 32 × Option (List (Option (List Char)))
  | _, [], updated => (updated, some [])
  | idx, key :: keys, updated =>
    if (nxJsonGet js key).isNull then
      let r := parseSetLoop js (idx + 1) keys updated
      (r.1, r.2.map (none :: ·))
    else
      match nxJsonStringMap acIpsetMaxnamelen (nxJsonGet js key) with
      | none => (updated, none)
      | some name =>
        let r := parseSetLoop js (idx + 1) keys (updated ||| (1#32 <<< idx))
        (r.1, r.2.map (some name :: ·))

/-- `do_parse_control_set` and `do_parse_audit_set`. -/
def doParseAcSet (c : RuleType) (js : NxJson) : AcSet :=
  let r := parseSetLoop js 0 (ipsetKeyMap.take (ipsetTypeMax c)) 0
  ⟨r.1, ipsetTypeMax c, r.2⟩

/-! ## The configuration -/

/-- `CONTROL_RULE_KEY` and `AUDIT_RULE_KEY`. -/
def ruleKey : RuleType → String
  | .control => "ControlRule"
  | .audit => "AuditRule"

/-- `CONTROL_SET_KEY` and `AUDIT_SET_KEY`. -/
def setKey : RuleType → String
  | .control => "ControlSet"
  | .audit => "AuditSet"

/-- `s_config`. -/
structure AcConfig where
  rule : RuleType → AcRule
  set : RuleType → AcSet

/-- The sets of one rule type; whether they parse is not asked. -/
def parseSet (js : NxJson) (c : RuleType) : AcSet :=
  if (nxJsonGet js (setKey c)).isNull then .absent else doParseAcSet c (nxJsonGet js (setKey c))

/-- The rules of one rule type, and whether they parse. -/
def parseRule (js : NxJson) (c : RuleType) : Bool × AcRule :=
  if (nxJsonGet js (ruleKey c)).isNull then (true, ⟨false, []⟩)
  else
    match doParseAcRule (nxJsonGet js (ruleKey c)) with
    | some items => (true, ⟨true, items⟩)
    | none => (false, ⟨true, []⟩)

/-- `do_parse_config` on the tree of the text: whether it returns 0, and what is left in
    `s_config`.  The lists of the tree are as long as their nodes say, so `nx_json_verify`
    does not fail; after control rules that do not parse the audit rules are not read. -/
def doParseConfig (js : NxJson) : Bool × AcConfig :=
  let control := parseRule js .control
  let audit := if control.1 then parseRule js .audit else (false, ⟨false, []⟩)
  (control.1 && audit.1, ⟨fun
    | .control => control.2
    | .audit => audit.2, parseSet js⟩)

/-- `free_ac_set` reads the names of as many sets as there should be. -/
def AcSet.freeable (s : AcSet) : Bool := s.number == 0 || s.ipsets.isSome

/-- `free_global_config` does not read through a null pointer. -/
def AcConfig.freeable (conf : AcConfig) : Bool :=
  (conf.set .control).freeable && (conf.set .audit).freeable

end RuleTable
