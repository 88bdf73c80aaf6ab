/-
# The rules and sets of the access control (`performer/acconfig.lua`)

The performer reads rules and sets from the database, translates them into what the kernel
takes, compares the outcome with what it remembers to have committed, and commits what
differs with the commands `ruletable` and `ipset`.  This module has the two
configurations, their translation, their comparison and the commands of a commit; the
interleaving of the runs is in the next ones.
-/
import OpenwrtAc.LuaTable
import Mathlib.Data.Int.Notation
import Mathlib.Data.List.Basic
import Mathlib.Data.Nat.Notation
import Mathlib.Logic.Function.Basic

namespace AcConfig

open LuaTable

/-! ## What comes from elsewhere -/

/-- `ConfigCate`, in the order of the loops over it. -/
inductive ConfigCate where
  | control
  | audit
  deriving DecidableEq, Repr

/-- What the code calls that is not in the file, over a type `J` of what JSON decodes to
(equal values of it are those that `fp.same` takes for the same). -/
structure Lib (J : Type) where
  /-- `js.decode`; `none` is its `nil`. -/
  decode : String → Option J
  /-- The table `{}`. -/
  empty : J
  /-- The value is `false`. -/
  isFalse : J → Bool
  /-- What `ipairs` gives of a table; `none` is a value of another type. -/
  items : J → Option (List J)
  /-- `v[k]` of a table `v`; `none` is `nil`. -/
  field : J → String → Option J
  /-- `v == 1`. -/
  isOne : J → Bool
  /-- `string.format("%s", v)`, which raises an error for a table. -/
  text : J → Option String
  /-- `tonumber(s, 16)`. -/
  hex : String → Option ℕ
  /-- The day of the week of a time, as `day_map` names it. -/
  dayKey : ℤ → String
  /-- `os.time` of an hour and a minute of the day of a time. -/
  timeOf : ℤ → Option J → Option J → ℤ
  /-- `ipops.ipgroup2ipranges(ipops.ipranges2ipgroup(v))`; `none` is an error. -/
  ipRanges : J → Option J
  /-- The values of a table without repetition, by `fp.reduce` and `fp.toarr`. -/
  unique : J → J
  /-- The order in which `pairs` goes through a table. -/
  pairs : {κ β : Type} → Table κ β → Table κ β

/-- `pairs` visits each entry of a table once. -/
def Lib.Lawful {J : Type} (L : Lib J) : Prop :=
  ∀ {κ β : Type} (t : Table κ β), (L.pairs t).Perm t

/-! ## The configurations -/

/-- `{days = .., tmlist = ..}`. -/
structure TmGrp (J : Type) where
  days : J
  tmlist : J

/-- A row of the table `acrule`; the columns of type `text` can be null, and `tonumber`
reads an integer column as the number it is. -/
structure AcruleRow where
  ruleid : ℤ
  srcZids : Option String
  srcIpgids : Option String
  destZids : Option String
  destIpgids : Option String
  protoIds : Option String
  tmgrpIds : Option String
  actions : String

/-- A rule as `fetch_raw_config.Rule` leaves it: a row whose `tmgrp_ids` have become
`TmGrp`. -/
structure RawRule (J : Type) where
  row : AcruleRow
  tmGrp : List (TmGrp J)

/-- A row of the table `acset`. -/
structure SetRow where
  setname : String
  settype : String
  content : Option String
  action : String
  enable : ℤ

/-- `all_raw_ac_config`. -/
structure RawConfig (J : Type) where
  rule : ConfigCate → List (RawRule J)
  set : ConfigCate → List SetRow

/-- A rule as `ruletable` takes it. -/
structure RuleItem (J : Type) where
  id : ℤ
  srcZoneIds : J
  srcIpgrpIds : J
  dstZoneIds : J
  dstIpgrpIds : J
  protoIds : List ℕ
  actions : J
  deriving DecidableEq

/-- The keys of `ipset_map`. -/
inductive MapKey where
  | macWhiteList
  | ipWhiteList
  | macBlackList
  | ipBlackList
  deriving DecidableEq, Repr

/-- `ipset_map[key].set_key`. -/
def MapKey.setKey : MapKey → String
  | macWhiteList => "MacWhiteListSetName"
  | ipWhiteList => "IpWhiteListSetName"
  | macBlackList => "MacBlackListSetName"
  | ipBlackList => "IpBlackListSetName"

/-- `ipset_map[key].set_type`. -/
def MapKey.setType : MapKey → String
  | macWhiteList => "hash:mac"
  | ipWhiteList => "hash:ip"
  | macBlackList => "hash:mac"
  | ipBlackList => "hash:ip"

/-- `{map_key = .., set_list = ..}`. -/
structure SetInfo (J : Type) where
  mapKey : MapKey
  setList : J
  deriving DecidableEq

/-- A translated configuration of rules. -/
abbrev RuleConfig (J : Type) := ConfigCate → List (RuleItem J)

/-- A translated configuration of sets, which are tables from the names of the sets. -/
abbrev SetConfig (J : Type) := ConfigCate → Table String (SetInfo J)

theorem MapKey.setKey_injective : Function.Injective MapKey.setKey := by
  intro a b h
  cases a <;> cases b <;> first | rfl | (simp [MapKey.setKey] at h)

/-! ## Loading -/

section Loading

variable {J : Type} (L : Lib J)

/-- What the database answers to the queries of one load; a query that fails answers
`none`. The time groups are those of the rule at a place in the answer for its category. -/
structure Answers where
  acrule : ConfigCate → Option (List AcruleRow)
  timegroup : ConfigCate → ℕ → Option (List (String × String))
  acset : ConfigCate → Option (List SetRow)

/-- The time groups of a rule, of the columns `days` and `tmlist` of the rows for it. -/
def fetchTmGrp : List (String × String) → Option (List (TmGrp J))
  | [] => some []
  | (days, tmlist) :: rows => do
    let days ← L.decode days
    let tmlist ← L.decode tmlist
    return ⟨days, tmlist⟩ :: (← fetchTmGrp rows)

/-- The loop of `fetch_rule` over the rows, from the one at place `n` on. -/
def fetchRule (timegroup : ℕ → Option (List (String × String))) (n : ℕ) :
    List AcruleRow → Option (List (RawRule J))
  | [] => some []
  | row :: rows => do
    let ids ← row.tmgrpIds.bind L.decode
    -- "tmgrpids is empty"
    if (L.items ids).getD [] = [] then none
    let detail ← timegroup n
    if detail = [] then none
    let tmGrp ← fetchTmGrp L detail
    return ⟨{ row with tmgrpIds := none }, tmGrp⟩ :: (← fetchRule timegroup (n + 1) rows)

/-- `check_number`. -/
def checkNumber : ConfigCate → ℕ
  | .control => 4
  | .audit => 2

/-- `fetch_set`, with the check of the number of sets. -/
def fetchSet (cate : ConfigCate) (rows : Option (List SetRow)) : Option (List SetRow) := do
  let res ← rows
  if res.length = checkNumber cate then some res else none

/-- `load_config`: the value for `all_raw_ac_config`, or `none` where it returns false. -/
def loadConfig (a : Answers) : Option (RawConfig J) := do
  let ruleC ← fetchRule L (a.timegroup .control) 0 (← a.acrule .control)
  let ruleA ← fetchRule L (a.timegroup .audit) 0 (← a.acrule .audit)
  let setC ← fetchSet .control (a.acset .control)
  let setA ← fetchSet .audit (a.acset .audit)
  return {
    rule := fun | .control => ruleC | .audit => ruleA
    set := fun | .control => setC | .audit => setA }

end Loading

/-! ## The time groups -/

section Translate

variable {J : Type} (L : Lib J)

/-- `tm_contained`, over the entries of `tmlist`. -/
def tmContained (tm : ℤ) (tmItem : J) : Bool :=
  let startTm := L.timeOf tm (L.field tmItem "hour_start") (L.field tmItem "min_start")
  let endTm := L.timeOf tm (L.field tmItem "hour_end") (L.field tmItem "min_end")
  0 ≤ tm - startTm ∧ 0 ≤ endTm - tm

/-- `tmgrp_contained`; `none` is the error of `pairs` or `ipairs` for a value that is no
table. -/
def tmgrpContained (tm : ℤ) : List (TmGrp J) → Option Bool
  | [] => some false
  | tmgrp :: tmgrps => do
    let _ ← L.items tmgrp.days
    if (L.field tmgrp.days (L.dayKey tm)).any L.isOne then
      let tmlist ← L.items tmgrp.tmlist
      if tmlist.any (tmContained L tm) then some true else tmgrpContained tm tmgrps
    else tmgrpContained tm tmgrps

/-! ## The leaves of the tree of protocols -/

/-- A row of `acproto`: `proto_id` and `node_type`. -/
structure ProtoRow where
  protoId : String
  nodeType : String

/-- Where `fetch_leaf_protoids` waits for the database, with the leaves found so far: the
calls that wait for an inner one only put these before its result. -/
inductive Fetch where
  /-- For the types of the protocols `ids`. -/
  | protos (leafIds : List ℕ) (ids : List String)
  /-- For the children of the protocols `nodes`. -/
  | children (leafIds : List ℕ) (nodes : List String)

/-- The entry of `fetch_leaf_protoids`: the query, or the result for no identifiers. -/
def fetchLeafProtoids (leafIds : List ℕ) (ids : List String) : Fetch ⊕ List ℕ :=
  if ids = [] then .inr leafIds else .inl (.protos leafIds ids)

/-- `fetch_leaf_protoids` goes on with the rows that the database answers. -/
def Fetch.answer (rows : List ProtoRow) : Fetch → Fetch ⊕ List ℕ
  | .protos leafIds _ =>
    let leafs := (rows.filter fun r => r.nodeType = "leaf").map ProtoRow.protoId
    let leafIds := leafIds ++ leafs.filterMap L.hex
    let nodes := (rows.filter fun r => r.nodeType = "node").map ProtoRow.protoId
    if nodes = [] then .inr leafIds else .inl (.children leafIds nodes)
  | .children leafIds _ =>
    fetchLeafProtoids leafIds (rows.map ProtoRow.protoId)

/-! ## The rules -/

/-- A translation that waits in `fetch_leaf_protoids` for the protocols of a rule. -/
structure Trans (J : Type) where
  /-- `cur_tm`. -/
  tm : ℤ
  /-- The rules translated so far. -/
  arr : RuleConfig J
  cate : ConfigCate
  item : RawRule J
  fetch : Fetch
  /-- The rules that follow, with their categories. -/
  rest : List (ConfigCate × RawRule J)

/-- How far a translation goes at a time. -/
inductive Turn (J : Type) where
  | asks (t : Trans J)
  | done (config : RuleConfig J)
  /-- An error is raised, which ends the process. -/
  | crash

/-- `js.decode` of a column, with the assertion that the result is there. -/
def decodeCol (col : Option String) : Option J := do
  let v ← col.bind L.decode
  if L.isFalse v then none else some v

/-- The rule item of a rule with its protocols: the assertions of `generate_rule`. -/
def ruleItem (row : AcruleRow) (protoIds : List ℕ) : Option (RuleItem J) := do
  let srcZoneIds ← decodeCol L row.srcZids
  let srcIpgrpIds ← decodeCol L row.srcIpgids
  let dstZoneIds ← decodeCol L row.destZids
  let dstIpgrpIds ← decodeCol L row.destIpgids
  let actions ← decodeCol L (some row.actions)
  if protoIds = [] then none
  return {
    id := row.ruleid
    srcZoneIds, srcIpgrpIds, dstZoneIds, dstIpgrpIds
    protoIds := protoIds.mergeSort
    actions }

/-- `js.decode(item.proto_ids) or {}`, as the texts that the query is made of. -/
def protoTexts (row : AcruleRow) : Option (List String) := do
  let ids := (decodeCol L row.protoIds).getD L.empty
  (← L.items ids).mapM L.text

/-- The rules with one more of a category. -/
def RuleConfig.insert (arr : RuleConfig J) (cate : ConfigCate) (item : RuleItem J) :
    RuleConfig J :=
  Function.update arr cate (arr cate ++ [item])

/-- The loops of `translate_config.Rule`, over the rules of both categories. A rule whose
`proto_ids` are empty needs no query, and the assertion on its protocols fails. -/
def translateRest (tm : ℤ) (arr : RuleConfig J) : List (ConfigCate × RawRule J) → Turn J
  | [] => .done arr
  | (cate, item) :: rest =>
    match tmgrpContained L tm item.tmGrp with
    | none => .crash
    | some false => translateRest tm arr rest
    | some true =>
      match (protoTexts L item.row).map (fetchLeafProtoids []) with
      | some (.inl fetch) => .asks { tm, arr, cate, item, fetch, rest }
      | _ => .crash

/-- `translate_config.Rule`, up to its first query. -/
def translateRule (tm : ℤ) (raw : ConfigCate → List (RawRule J)) : Turn J :=
  translateRest L tm (fun _ => [])
    ((raw .control).map (ConfigCate.control, ·) ++ (raw .audit).map (ConfigCate.audit, ·))

/-- The translation goes on with what the database answers; a query that fails leaves the
rule without its protocols. -/
def Trans.answer (t : Trans J) : Option (List ProtoRow) → Turn J
  | none => .crash
  | some rows =>
    match t.fetch.answer L rows with
    | .inl fetch => .asks { t with fetch }
    | .inr protoIds =>
      match ruleItem L t.item.row protoIds with
      | some item => translateRest L t.tm (t.arr.insert t.cate item) t.rest
      | none => .crash

/-! ## The sets -/

/-- `ipset_key` of a set; `none` is the error "invalid settype". -/
def SetRow.mapKey (row : SetRow) : Option MapKey :=
  if row.settype = "ip" then
    some (if row.action = "bypass" then .ipWhiteList else .ipBlackList)
  else if row.settype = "mac" then
    some (if row.action = "bypass" then .macWhiteList else .macBlackList)
  else none

/-- `set_content` of a set, from the type check on; `none` is an error that ends the
process. -/
def setContent (row : SetRow) : Option (Except String J) :=
  let content := if row.enable = 1 then row.content.bind L.decode else some L.empty
  match content.bind fun v => (L.items v).map (v, ·) with
  | none => some (.error "invalid setcontent")
  | some (v, []) => some (.ok v)
  | some (v, _ :: _) =>
    if row.settype = "ip" then (L.ipRanges v).map .ok else some (.ok (L.unique v))

/-- `generate_set`. -/
def generateSet (setMap : Table String (SetInfo J)) :
    List SetRow → Option (Except String (Table String (SetInfo J)))
  | [] => some (.ok setMap)
  | row :: rows =>
    match row.mapKey with
    | none => some (.error "invalid settype")
    | some mapKey =>
      match setContent L row with
      | none => none
      | some (.error err) => some (.error err)
      | some (.ok setList) =>
        generateSet (LuaTable.set setMap row.setname { mapKey, setList }) rows

/-- `translate_config.Set`. -/
def translateSet (raw : ConfigCate → List SetRow) : Option (Except String (SetConfig J)) :=
  match generateSet L [] (raw .control) with
  | none => none
  | some (.error err) => some (.error err)
  | some (.ok control) =>
    match generateSet L [] (raw .audit) with
    | none => none
    | some (.error err) => some (.error err)
    | some (.ok audit) => some (.ok fun | .control => control | .audit => audit)

end Translate

/-! ## Comparing -/

section Compare

variable {J : Type} [DecidableEq J] (L : Lib J)

/-- `compare_config.Rule`: the categories to commit. -/
def compareRule (old : Option (RuleConfig J)) (new : RuleConfig J) : List ConfigCate :=
  match old with
  | none => [.control, .audit]
  | some old => [ConfigCate.control, .audit].filter fun cate => old cate ≠ new cate

/-- The sets of a category whose lists differ; `none` is the error of a name that the old
configuration has not. -/
def compareCate (cate : ConfigCate) (old : Table String (SetInfo J)) :
    Table String (SetInfo J) → Option (List (ConfigCate × String))
  | [] => some []
  | (name, info) :: new => do
    let oldInfo ← get old name
    let rest ← compareCate cate old new
    return if oldInfo.setList = info.setList then rest else (cate, name) :: rest

/-- `compare_config.Set`: the sets to commit. -/
def compareSet (old : Option (SetConfig J)) (new : SetConfig J) :
    Option (List (ConfigCate × String)) :=
  match old with
  | none => some ([ConfigCate.control, .audit].flatMap fun cate =>
      (L.pairs (new cate)).map fun e => (cate, e.1))
  | some old => do
    let control ← compareCate .control (old .control) (L.pairs (new .control))
    let audit ← compareCate .audit (old .audit) (L.pairs (new .audit))
    return control ++ audit

/-! ## Committing -/

/-- A command that a commit executes. -/
inductive Cmd (J : Type) where
  /-- `ruletable -s` with the rules of a category. -/
  | ruleset (cate : ConfigCate) (rules : List (RuleItem J))
  /-- `ruletable -s` with the sets of a category, by their keys: an empty name ends the
  reference. -/
  | reference (cate : ConfigCate) (itemMap : List (String × String))
  | destroy (ipsetName : String)
  | create (ipsetName ipsetType : String)
  | add (ipsetName : String) (item : J)
  deriving DecidableEq

/-- `commit_item`, without the key, which nothing reads. -/
structure CommitItem (J : Type) where
  ipsetName : String
  ipsetType : String
  ipsetList : List J

/-- `commit_config.Rule`. -/
def commitRule (cates : List ConfigCate) (new : RuleConfig J) : List (Cmd J) :=
  cates.map fun cate => .ruleset cate (new cate)

/-- `reference_ipset`. -/
def referenceIpset (cate : ConfigCate) (config : Table String (SetInfo J)) (ref : Bool) :
    Cmd J :=
  .reference cate ((L.pairs config).map fun e =>
    (e.2.mapKey.setKey, if ref then e.1 else ""))

/-- `destroy_ipset`. -/
def destroyIpset (config : List (CommitItem J)) : List (Cmd J) :=
  config.map fun info => .destroy info.ipsetName

/-- `create_ipset`. -/
def createIpset (config : List (CommitItem J)) : List (Cmd J) :=
  config.map fun info => .create info.ipsetName info.ipsetType

/-- `update_ipset`. -/
def updateIpset (config : List (CommitItem J)) : List (Cmd J) :=
  config.flatMap fun info => info.ipsetList.map fun item => .add info.ipsetName item

/-- `cate_config`: the sets to commit by their categories. The names are those of the new
configuration itself, so that the assertion on `set_item` holds. -/
def cateConfig (names : List (ConfigCate × String)) (new : SetConfig J) :
    Table ConfigCate (List (CommitItem J)) :=
  [ConfigCate.control, .audit].filterMap fun cate =>
    match names.filter fun e => e.1 = cate with
    | [] => none
    | es => some (cate, es.filterMap fun e => (get (new cate) e.2).map fun info =>
        { ipsetName := e.2
          ipsetType := info.mapKey.setType
          ipsetList := (L.items info.setList).getD [] })

/-- The commands for the sets of one category. -/
def commitCate (cate : ConfigCate) (config : List (CommitItem J))
    (new : Table String (SetInfo J)) : List (Cmd J) :=
  referenceIpset L cate new false ::
    (destroyIpset config ++ createIpset config ++ updateIpset config ++
      [referenceIpset L cate new true])

/-- `commit_config.Set`. -/
def commitSet (names : List (ConfigCate × String)) (new : SetConfig J) : List (Cmd J) :=
  (L.pairs (cateConfig L names new)).flatMap fun e => commitCate L e.1 e.2 (new e.1)

end Compare

end AcConfig
