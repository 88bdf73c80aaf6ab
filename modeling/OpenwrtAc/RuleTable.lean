/-
# Rule tables as user space builds them

`match_target.c` and `rule_entry.c`: a list of rules is serialised into one block
of variable-length entries with aligned 16-bit sizes and offsets.  A rule item
carries the bounds the parser has checked, so that no list is longer than
`AC_ID_MAXNUM_PERMATCH` and no id leaves its range.
-/
import Mathlib.Algebra.GroupWithZero.Nat
import OpenwrtAc.ByteCodec
import Mathlib.Algebra.BigOperators.Group.List.Basic

open ByteCodec

namespace RuleTable

/-! ## Rule items -/

/-- `AC_ID_MAXNUM_PERMATCH`. -/
def acIdMaxnumPermatch : ℕ := 4096

/-- `AC_ZONE_MAXID`. -/
def acZoneMaxid : ℕ := 255

/-- `AC_IPGRP_MAXID`. -/
def acIpgrpMaxid : ℕ := 63

/-- `AC_PROTO_MAXID`. -/
def acProtoMaxid : ℕ := 2 ^ 32 - 1

/-- `AC_RULE_MAXID`. -/
def acRuleMaxid : ℕ := 65535

/-- `AC_ACTION_MAXNUM`. -/
def acActionMaxnum : ℕ := 3

/-- A list of ids as `id_list_init` accepts it; empty where the part is missing. -/
structure IdList (maxid : ℕ) where
  ids : List ℕ
  len_le : ids.length ≤ acIdMaxnumPermatch
  le : ∀ x ∈ ids, x ≤ maxid
deriving DecidableEq

/-- `struct ac_rule_item`. -/
structure RuleItem where
  id : ℕ
  srcZoneIds : IdList acZoneMaxid
  srcIpgrpIds : IdList acIpgrpMaxid
  dstZoneIds : IdList acZoneMaxid
  dstIpgrpIds : IdList acIpgrpMaxid
  protoIds : IdList acProtoMaxid
  action : List (List Char)
  id_le : id ≤ acRuleMaxid
  action_le : action.length ≤ acActionMaxnum
deriving DecidableEq

/-! ## The parts of an entry -/

/-- `AC_ALIGN`. -/
def acAlign (n : ℕ) : ℕ := (n + 7) / 8 * 8

/-- `AC_ALIGN(sizeof(struct ac_flow_match))`. -/
def sizeofFlowMatch : ℕ := 16

/-- `AC_ALIGN(sizeof(struct ac_proto_match))`. -/
def sizeofProtoMatch : ℕ := 8

/-- `AC_ALIGN(sizeof(struct ac_entry))`. -/
def sizeofEntry : ℕ := 8

/-- `AC_ALIGN(sizeof(struct ac_target))`. -/
def sizeofTarget : ℕ := 8

/-- `AC_PROTOID_SORT_ASC`. -/
def acProtoidSortAsc : ℕ := 1

/-- `AC_ACCEPT`. -/
def acAccept : ℕ := 1

/-- `AC_AUDIT`. -/
def acAudit : ℕ := 2

/-- `AC_REJECT`. -/
def acReject : ℕ := 4

/-- The zeros that are left of a cleared block of the size after some bytes are written. -/
def pad (size : ℕ) (bytes : List UInt8) : List UInt8 :=
  bytes ++ List.replicate (size - bytes.length) 0

/-- The number of elements of a flow match. -/
def RuleItem.flowElems (r : RuleItem) : ℕ :=
  r.srcZoneIds.ids.length + r.srcIpgrpIds.ids.length + r.dstZoneIds.ids.length
    + r.dstIpgrpIds.ids.length

/-- The `match_size` of the flow match before it is stored. -/
def RuleItem.flowMatchSize (r : RuleItem) : ℕ := acAlign (r.flowElems + sizeofFlowMatch)

/-- `generate_flow_match`: `none` when one of the lists is empty. -/
def generateFlowMatch (r : RuleItem) : Option (List UInt8) :=
  if r.srcZoneIds.ids = [] ∨ r.srcIpgrpIds.ids = [] ∨ r.dstZoneIds.ids = [] ∨ r.dstIpgrpIds.ids = []
  then none
  else
    let number := le16 r.srcZoneIds.ids.length ++ le16 r.srcIpgrpIds.ids.length
      ++ le16 r.dstZoneIds.ids.length ++ le16 r.dstIpgrpIds.ids.length
    let elems := (r.srcZoneIds.ids ++ r.srcIpgrpIds.ids ++ r.dstZoneIds.ids ++ r.dstIpgrpIds.ids).map
      UInt8.ofNat
    some (pad r.flowMatchSize
      (pad sizeofFlowMatch (number ++ le16 r.flowMatchSize) ++ elems))

/-- The `match_size` of the protocol match before it is stored. -/
def RuleItem.protoMatchSize (r : RuleItem) : ℕ :=
  acAlign (r.protoIds.ids.length * 4 + sizeofProtoMatch)

/-- `generate_proto_match`: `none` when the list is empty. -/
def generateProtoMatch (r : RuleItem) : Option (List UInt8) :=
  if r.protoIds.ids = [] then none
  else
    let header := le16 r.protoIds.ids.length ++ le16 r.protoMatchSize ++ le16 acProtoidSortAsc
    some (pad r.protoMatchSize (pad sizeofProtoMatch header ++ r.protoIds.ids.flatMap le32))

/-- `target_map` with the flags of `target_flag_map`. -/
def targetMap : List (List Char × ℕ) :=
  [(['A', 'C', 'C', 'E', 'P', 'T'], acAccept), (['A', 'U', 'D', 'I', 'T'], acAudit),
    (['R', 'E', 'J', 'E', 'C', 'T'], acReject)]

/-- `strcasecmp(..) == 0`. -/
def strcaseeq (a b : List Char) : Bool := a.map Char.toLower == b.map Char.toLower

/-- The flags of a list of action names; a name that is not known adds none. -/
def actionFlags (action : List (List Char)) : ℕ :=
  action.foldl (fun flags a =>
    targetMap.foldl (fun flags t => if strcaseeq a t.1 then flags ||| t.2 else flags) flags) 0

/-- `generate_target`: `none` when there is no action. -/
def generateTarget (r : RuleItem) : Option (List UInt8) :=
  if r.action = [] then none
  else some (le32 sizeofTarget ++ le32 (actionFlags r.action))

/-! ## Entries and tables -/

/-- The `proto_match_offset` of the rule's entry before it is stored. -/
def RuleItem.protoMatchOffset (r : RuleItem) : ℕ := sizeofEntry + r.flowMatchSize

/-- The `target_offset` of the rule's entry before it is stored. -/
def RuleItem.targetOffset (r : RuleItem) : ℕ := r.protoMatchOffset + r.protoMatchSize

/-- The `next_offset` of the rule's entry before it is stored. -/
def RuleItem.nextOffset (r : RuleItem) : ℕ := r.targetOffset + sizeofTarget

/-- `generate_ac_entry`: the header of four 16-bit words and the three parts behind it. -/
def generateAcEntry (r : RuleItem) : Option (List UInt8) :=
  match generateFlowMatch r, generateProtoMatch r, generateTarget r with
  | some flowMatch, some protoMatch, some target =>
    some (le16 r.id ++ le16 r.protoMatchOffset ++ le16 r.targetOffset ++ le16 r.nextOffset
      ++ flowMatch ++ protoMatch ++ target)
  | _, _, _ => none

/-- `struct ac_repl_table_info`; `category` is the number of the rule type. -/
structure ReplTable where
  category : ℕ
  size : ℕ
  number : ℕ
  entries : List UInt8
deriving DecidableEq

/-- `entry->next_offset` of a block that holds an entry. -/
def entryNextOffset (entry : List UInt8) : ℕ := (rd16 (entry.drop 6)).getD 0

/-- `glue_entries_to_table`: as many bytes of each entry as it says it has. -/
def glueEntriesToTable (entries : List (List UInt8)) (category : ℕ) : ReplTable where
  category := category
  size := (entries.map entryNextOffset).sum % 2 ^ 32
  number := entries.length
  entries := (entries.map fun e => e.take (entryNextOffset e)).flatten

/-- `struct ac_rule`: the list, and whether the configuration has one at all. -/
structure AcRule where
  updated : Bool
  items : List RuleItem
deriving DecidableEq

/-- `generate_ac_table`: `none` for the `NULL` of a list that is not to be updated or of one
    with an entry that cannot be built. -/
def generateAcTable (rules : AcRule) (category : ℕ) : Option ReplTable :=
  if rules.updated then
    match rules.items.mapM generateAcEntry with
    | some entries => some (glueEntriesToTable entries category)
    | none => none
  else none

end RuleTable
