/-
# Committing a configuration

`do_commit_config` of `rule_core.c`: a configuration is parsed, up to two tables and
two sets of ipset names are built from it, and each is handed to the kernel, where
`do_replace_table` and `do_replace_set` put it in place.  The parser of nxjson is a
parameter, as is what the kernel knows an ipset's name as.  A read through a null
pointer ends the program; what it had freed before is not tracked.
-/
import OpenwrtAc.NacsTable
import OpenwrtAc.RuleParse
import Mathlib.Algebra.Group.Action.Defs
import Mathlib.Algebra.Order.BigOperators.Group.List

open Nacs

namespace RuleTable

/-! ## The kernel's side -/

/-- `struct ac_table_info`: the number of entries, and the entries. -/
structure TableInfo where
  number : ℕ
  entries : List UInt8
deriving DecidableEq

/-- What is installed in the kernel. -/
structure Kernel where
  tables : RuleType → TableInfo
  sets : SetTable

/-- `sizeof(struct ac_repl_table_info)`. -/
def replTableInfoSize : ℕ := 12

/-- `do_replace_table` with its arguments in memory: `none` for an error, which leaves
    everything as it was. -/
def doReplaceTable (k : Kernel) (t : ReplTable) (len : ℕ) : Option Kernel :=
  if len ≠ (replTableInfoSize + t.size) % 2 ^ 32 then none
  else if translateTable t then
    (RuleType.ofNat? t.category).map fun c => {
      tables := Function.update k.tables c ⟨t.number, t.entries.take t.size⟩
      sets := { k.sets with magic := (k.sets.magic + 1) % 2 ^ 32 } }
  else none

/-- What a commit meets in the system: for each call whether it gets through to the kernel and
    finds memory there, and `ip_set_get_byname`. -/
structure Env where
  tableIpc : RuleType → Bool
  setIpc : RuleType → Bool
  lookup : List Char → ℕ

/-! ## One call for each table and set -/

/-- The number of a rule type. -/
def ruleTypeNum : RuleType → ℕ
  | .control => 0
  | .audit => 1

/-- The table of one rule type.  A list that cannot be built is passed over. -/
def commitTable (env : Env) (rule : RuleType → AcRule) (c : RuleType) (k : Kernel) :
    Option (Bool × Kernel) :=
  if (rule c).updated then
    match generateAcTable (rule c) (ruleTypeNum c) with
    | none => some (true, k)
    | some t =>
      if env.tableIpc c then
        match doReplaceTable k t ((replTableInfoSize + t.size) % 2 ^ 32) with
        | some k => some (true, k)
        | none => some (false, k)
      else some (false, k)
  else some (true, k)

/-- `ac_set_action_map`. -/
def acSetActionMap : List ℕ := [acAccept, acAccept, acAudit ||| acReject, acAudit ||| acReject]

/-- `generate_ac_set`, with the names as the kernel finds them. -/
def generateAcSet (lookup : List Char → ℕ) (c : RuleType) (updated : BitVec 32) (number : ℕ)
    (ipsets : List (Option (List Char))) : ReplSet where
  len := (replSetInfoSize + number * hybridEntrySize % 2 ^ 32) % 2 ^ 32
  category := ruleTypeNum c
  size := number * hybridEntrySize % 2 ^ 32
  number := number
  updated := updated
  body i := ⟨ipsetInvalidId, acSetActionMap.getD i 0⟩
  found i := lookup ((ipsets.getD i none).getD [])
  size_lt := Nat.mod_lt _ (by decide)

/-- The sets of one rule type; `none` when names are copied that are not there. -/
def commitSet (env : Env) (set : RuleType → AcSet) (c : RuleType) (k : Kernel) :
    Option (Bool × Kernel) :=
  if (set c).updated = 0 then some (true, k)
  else
    match (set c).ipsets with
    | none => none
    | some ipsets =>
      if env.setIpc c then
        match doReplaceSet k.sets
            (generateAcSet env.lookup c (set c).updated (set c).number ipsets) with
        | some (none, sets) => some (true, { k with sets := sets })
        | some (some _, sets) => some (false, { k with sets := sets })
        | none => none
      else some (false, k)

/-- One call after the other, until one fails. -/
def runUntilError : List (Kernel → Option (Bool × Kernel)) → Kernel → Option (Bool × Kernel)
  | [], k => some (true, k)
  | call :: calls, k =>
    match call k with
    | some (true, k) => runUntilError calls k
    | r => r

/-- The calls of a configuration that is not turned down. -/
def commitCalls (env : Env) (conf : AcConfig) (k : Kernel) : Option (Bool × Kernel) :=
  runUntilError [commitTable env conf.rule .control, commitSet env conf.set .control,
    commitTable env conf.rule .audit, commitSet env conf.set .audit] k

/-- `do_commit_config`: whether it returns 0, and the kernel afterwards. -/
def doCommitConfig (parse : List Char → Option NxJson) (env : Env) (config : List Char)
    (k : Kernel) : Option (Bool × Kernel) :=
  if config = [] then some (false, k)
  else
    match parse config with
    | none => some (false, k)
    | some js =>
      let conf := doParseConfig js
      -- every way out frees the configuration
      if conf.2.freeable then
        if conf.1 then commitCalls env conf.2 k else some (false, k)
      else none

/-! ## What a configuration says -/

/-- The numbers of an array. -/
def idsOf : NxJson → List ℕ
  | .array items => items.map NxJson.intValue
  | _ => []

/-- The text of a node. -/
def textOf : NxJson → List Char
  | .string text => text
  | _ => []

/-- The texts of an array. -/
def textsOf : NxJson → List (List Char)
  | .array items => items.map textOf
  | _ => []

/-- The rule is the one that the node describes. -/
structure Describes (js : NxJson) (r : RuleItem) : Prop where
  id : r.id = (nxJsonGet js "Id").intValue
  srcZoneIds : r.srcZoneIds.ids = idsOf (nxJsonGet js "SrcZoneIds")
  srcIpgrpIds : r.srcIpgrpIds.ids = idsOf (nxJsonGet js "SrcIpgrpIds")
  dstZoneIds : r.dstZoneIds.ids = idsOf (nxJsonGet js "DstZoneIds")
  dstIpgrpIds : r.dstIpgrpIds.ids = idsOf (nxJsonGet js "DstIpgrpIds")
  protoIds : r.protoIds.ids = idsOf (nxJsonGet js "ProtoIds")
  action : r.action = textsOf (nxJsonGet js "Actions")

/-- The table is made of the entries of the rules that the list describes, in their order. -/
def TableInfo.Holds (t : TableInfo) (items : List NxJson) : Prop :=
  ∃ (rules : List RuleItem) (entries : List (List UInt8)), List.Forall₂ Describes items rules
    ∧ rules.mapM generateAcEntry = some entries ∧ t = ⟨rules.length, entries.flatten⟩

/-- Every list of rules that the configuration has is in the kernel, and so is, in its place,
    every ipset it names. -/
structure Installed (lookup : List Char → ℕ) (js : NxJson) (k : Kernel) : Prop where
  rules : ∀ c items, nxJsonGet js (ruleKey c) = .array items → (k.tables c).Holds items
  sets : ∀ c i, i < ipsetTypeMax c → ∀ name,
    nxJsonGet (nxJsonGet js (setKey c)) (ipsetKeyMap.getD i "") = .string name →
      (k.sets.installed c)[i]? = some ⟨lookup name, acSetActionMap.getD i 0⟩
        ∧ (name ≠ [] → lookup name ≠ ipsetInvalidId)

/-! ## When a commit is complete -/

/-- The node is an array with at least one item and at most so many. -/
def FilledArray (maxnum : ℕ) (js : NxJson) : Prop :=
  ∃ items, js = .array items ∧ items ≠ [] ∧ items.length ≤ maxnum

/-- The rule has its five lists of ids and its list of actions, none of them empty or too
    long. -/
def CompleteRule (js : NxJson) : Prop :=
  (∀ key ∈ ["SrcZoneIds", "SrcIpgrpIds", "DstZoneIds", "DstIpgrpIds", "ProtoIds"],
    FilledArray acIdMaxnumPermatch (nxJsonGet js key))
  ∧ FilledArray acActionMaxnum (nxJsonGet js "Actions")

/-- Every rule of the configuration is complete, and every ipset it names is known. -/
structure Encodable (lookup : List Char → ℕ) (js : NxJson) : Prop where
  rules : ∀ c items, nxJsonGet js (ruleKey c) = .array items → ∀ item ∈ items, CompleteRule item
  sets : ∀ c i, i < ipsetTypeMax c → ∀ name,
    nxJsonGet (nxJsonGet js (setKey c)) (ipsetKeyMap.getD i "") = .string name →
      name ≠ [] → lookup name ≠ ipsetInvalidId

/-! ## What the parser makes of a complete rule -/

/-- A list that is made element by element. -/
theorem forall₂_of_mapM {α β : Type} {f : α → Option β} {l : List α} {l' : List β}
    (h : l.mapM f = some l') : List.Forall₂ (fun a b => f a = some b) l l' := by
  induction l generalizing l' with
  | nil =>
    cases h
    exact .nil
  | cons a l ih =>
    rw [List.mapM_cons] at h
    simp only [Option.bind_eq_bind, Option.bind_eq_some_iff, Option.pure_def, Option.some.injEq] at h
    obtain ⟨b, hb, bs, hbs, rfl⟩ := h
    exact .cons hb (ih hbs)

/-- The ids of an array that is filled. -/
theorem parseIds_filled {maxid : ℕ} {js : NxJson} {key : String} {l : IdList maxid}
    (h : parseIds maxid js key = some l) (hfill : FilledArray acIdMaxnumPermatch (nxJsonGet js key)) :
    l.ids = idsOf (nxJsonGet js key) ∧ l.ids ≠ [] := by
  obtain ⟨items, hitems, hne, hlen⟩ := hfill
  simp only [parseIds, hitems, checkListValid, dif_pos hlen, idListInit] at h
  split at h
  · cases h
    rw [hitems]
    exact ⟨rfl, by simpa using hne⟩
  · cases h

/-- The actions of an array that is filled. -/
theorem parseActions_filled {js : NxJson}
    {action : { action : List (List Char) // action.length ≤ acActionMaxnum }}
    (h : parseActions js = some action) (hfill : FilledArray acActionMaxnum (nxJsonGet js "Actions")) :
    action.val = textsOf (nxJsonGet js "Actions") ∧ action.val ≠ [] := by
  obtain ⟨items, hitems, hne, hlen⟩ := hfill
  simp only [parseActions, hitems, checkListValid, dif_pos hlen, strListInit] at h
  split at h
  next hall =>
    cases h
    rw [hitems]
    refine ⟨List.map_congr_left fun e he => ?_, by simpa using hne⟩
    -- an action that parses is a text or null
    have hsome := List.all_eq_true.1 hall e he
    cases e with
    | null => rfl
    | string text =>
      simp only [nxJsonStringMap] at hsome ⊢
      split at hsome
      next hle => rw [if_pos hle]; rfl
      · cases hsome
    | _ => cases hsome
  · cases h

/-- A number that is accepted is that of the document. -/
theorem nxJsonIntegerMap_val {max : ℕ} {js : NxJson} {n : { n : ℕ // n ≤ max }}
    (h : nxJsonIntegerMap max js = some n) : n.val = js.intValue := by
  cases js with
  | null =>
    cases h
    rfl
  | integer value =>
    simp only [nxJsonIntegerMap] at h
    split at h
    · cases h
      rfl
    · cases h
  | _ => cases h

/-- A complete rule is parsed as it is written, and it can be encoded. -/
theorem acRuleItemInit_complete {js : NxJson} {r : RuleItem} (h : acRuleItemInit js = some r)
    (hc : CompleteRule js) : Describes js r ∧ Complete r := by
  obtain ⟨hlists, hactions⟩ := hc
  simp only [acRuleItemInit, Option.bind_eq_bind, Option.bind_eq_some_iff, Option.pure_def,
    Option.some.injEq] at h
  obtain ⟨id, hid, sz, hsz, si, hsi, dz, hdz, di, hdi, pr, hpr, act, hact, rfl⟩ := h
  obtain ⟨hsz, hsz0⟩ := parseIds_filled hsz (hlists _ (by simp))
  obtain ⟨hsi, hsi0⟩ := parseIds_filled hsi (hlists _ (by simp))
  obtain ⟨hdz, hdz0⟩ := parseIds_filled hdz (hlists _ (by simp))
  obtain ⟨hdi, hdi0⟩ := parseIds_filled hdi (hlists _ (by simp))
  obtain ⟨hpr, hpr0⟩ := parseIds_filled hpr (hlists _ (by simp))
  obtain ⟨hact, hact0⟩ := parseActions_filled hact hactions
  exact ⟨⟨nxJsonIntegerMap_val hid, hsz, hsi, hdz, hdi, hpr, hact⟩,
    hsz0, hsi0, hdz0, hdi0, hpr0, hact0⟩

/-- Ids that were read come from a filled array. -/
theorem filledArray_of_ids {maxid : ℕ} {l : IdList maxid} {js : NxJson} (h : l.ids = idsOf js)
    (hne : l.ids ≠ []) : FilledArray acIdMaxnumPermatch js := by
  have hlen := l.len_le
  rw [h] at hne hlen
  cases js with
  | array items => exact ⟨items, rfl, by simpa [idsOf] using hne, by simpa [idsOf] using hlen⟩
  | _ => exact absurd rfl hne

/-- A rule that can be encoded is described by a complete node only. -/
theorem completeRule_of_describes {js : NxJson} {r : RuleItem} (h : Describes js r)
    (hc : Complete r) : CompleteRule js := by
  obtain ⟨h1, h2, h3, h4, h5, h6⟩ := hc
  refine ⟨fun key hkey => ?_, ?_⟩
  · simp only [List.mem_cons, List.not_mem_nil, or_false] at hkey
    rcases hkey with rfl | rfl | rfl | rfl | rfl
    · exact filledArray_of_ids h.srcZoneIds h1
    · exact filledArray_of_ids h.srcIpgrpIds h2
    · exact filledArray_of_ids h.dstZoneIds h3
    · exact filledArray_of_ids h.dstIpgrpIds h4
    · exact filledArray_of_ids h.protoIds h5
  · have hlen := r.action_le
    have hact := h.action
    rw [hact] at h6 hlen
    cases hjs : nxJsonGet js "Actions" with
    | array items =>
      rw [hjs] at h6 hlen
      exact ⟨items, rfl, by simpa [textsOf] using h6, by simpa [textsOf] using hlen⟩
    | _ =>
      rw [hjs] at h6
      exact absurd rfl h6

/-- A list of complete rules is parsed as it is written. -/
theorem mapM_acRuleItemInit {items : List NxJson} {rules : List RuleItem}
    (h : items.mapM acRuleItemInit = some rules) (hc : ∀ item ∈ items, CompleteRule item) :
    List.Forall₂ Describes items rules ∧ ∀ r ∈ rules, Complete r := by
  have hall := forall₂_of_mapM h
  clear h
  induction hall with
  | nil => exact ⟨.nil, fun r hr => absurd hr (List.not_mem_nil)⟩
  | cons hab _ ih =>
    obtain ⟨hd, hcomp⟩ := acRuleItemInit_complete hab (hc _ List.mem_cons_self)
    obtain ⟨hds, hcomps⟩ := ih fun item hitem => hc item (List.mem_cons_of_mem _ hitem)
    refine ⟨.cons hd hds, fun r hr => ?_⟩
    rcases List.mem_cons.1 hr with rfl | hr
    · exact hcomp
    · exact hcomps r hr

/-! ## Tables -/

/-- The size of a table fits its field. -/
theorem sum_nextOffset_lt {rules : List RuleItem} (h : rules.length ≤ ruleMaxnum) :
    (rules.map RuleItem.nextOffset).sum < 2 ^ 32 := by
  have hle := List.sum_le_card_nsmul (rules.map RuleItem.nextOffset) (2 ^ 16 - 1) (by
    intro n hn
    obtain ⟨r, -, rfl⟩ := List.mem_map.1 hn
    have := nextOffset_lt r
    omega)
  rw [List.length_map, smul_eq_mul] at hle
  unfold ruleMaxnum acRuleMaxid at h
  omega

/-- The number of a category names it. -/
theorem ofNat?_ruleTypeNum (c : RuleType) : RuleType.ofNat? (ruleTypeNum c) = some c := by
  cases c <;> rfl

/-- There are two categories. -/
theorem ruleTypeNum_lt (c : RuleType) : ruleTypeNum c < 2 := by
  cases c <;> decide

/-- The kernel takes the block of a list of complete rules. -/
theorem doReplaceTable_generate {rules : List RuleItem} (hlen : rules.length ≤ ruleMaxnum)
    (hc : ∀ r ∈ rules, Complete r) (c : RuleType) (k : Kernel) :
    ∃ t, generateAcTable ⟨true, rules⟩ (ruleTypeNum c) = some t
      ∧ doReplaceTable k t ((replTableInfoSize + t.size) % 2 ^ 32) = some
        { tables := Function.update k.tables c ⟨rules.length, tableBytes rules⟩
          sets := { k.sets with magic := (k.sets.magic + 1) % 2 ^ 32 } } := by
  refine ⟨_, generateAcTable_eq hc (ruleTypeNum c), ?_⟩
  rw [Nat.mod_eq_of_lt (sum_nextOffset_lt hlen), sum_nextOffset, doReplaceTable,
    if_neg (not_not.2 rfl), if_pos (translateTable_bytes rules (ruleTypeNum_lt c)),
    ofNat?_ruleTypeNum]
  simp only [Option.map_some, List.take_length]

/-- What the call for one table does: a list of complete rules that gets through is in place,
    and nothing else of what is installed changes. -/
theorem commitTable_spec (env : Env) (rule : RuleType → AcRule) (c : RuleType) (k : Kernel)
    (hlen : (rule c).items.length ≤ ruleMaxnum) :
    ∃ ok k', commitTable env rule c k = some (ok, k')
      ∧ (∀ c', c' ≠ c → k'.tables c' = k.tables c')
      ∧ k'.sets.privSets = k.sets.privSets
      ∧ (env.tableIpc c = true → ok = true)
      ∧ (ok = true → (rule c).updated = true → (∀ r ∈ (rule c).items, Complete r) →
        k'.tables c = ⟨(rule c).items.length, tableBytes (rule c).items⟩) := by
  unfold commitTable
  revert hlen
  obtain ⟨updated, items⟩ := rule c
  intro hlen
  cases updated with
  | false => exact ⟨true, k, rfl, fun _ _ => rfl, rfl, fun _ => rfl, fun _ h => (by cases h)⟩
  | true =>
    rw [if_pos rfl]
    by_cases hc : ∀ r ∈ items, Complete r
    · obtain ⟨t, ht, hrep⟩ := doReplaceTable_generate hlen hc c k
      rw [ht]
      by_cases hipc : env.tableIpc c = true
      · simp only [if_pos hipc, hrep]
        refine ⟨true, _, rfl, fun c' hne => Function.update_of_ne hne _ _, rfl, fun _ => rfl,
          fun _ _ _ => Function.update_self _ _ _⟩
      · simp only [if_neg hipc]
        exact ⟨false, k, rfl, fun _ _ => rfl, rfl, fun h => absurd h hipc, fun h => (by cases h)⟩
    · -- the list is passed over
      push Not at hc
      obtain ⟨r, hr, hr'⟩ := hc
      rw [generateAcTable_eq_none hr hr']
      exact ⟨true, k, rfl, fun _ _ => rfl, rfl, fun _ => rfl, fun _ _ h => absurd (h r hr) hr'⟩

/-! ## Sets -/

/-- The kernel takes a structure with as many entries as there are kinds of sets. -/
theorem doReplaceSet_generate (lookup : List Char → ℕ) (c : RuleType) (updated : BitVec 32)
    {number : ℕ} (hnum : number ≤ 4) (ipsets : List (Option (List Char))) (t : SetTable) :
    ∃ t', doReplaceSet t (generateAcSet lookup c updated number ipsets) = some (none, t')
      ∧ t'.privSets = Function.update t.privSets c
        (some ⟨updated, (generateAcSet lookup c updated number ipsets).entries⟩) := by
  have hmod : number * hybridEntrySize % 2 ^ 32 = number * hybridEntrySize := by
    unfold hybridEntrySize
    exact Nat.mod_eq_of_lt (by omega)
  have hcat : ¬ ruleTypeMax < (generateAcSet lookup c updated number ipsets).category := by
    have := ruleTypeNum_lt c
    change ¬ ruleTypeMax < ruleTypeNum c
    unfold ruleTypeMax
    omega
  have hok : (generateAcSet lookup c updated number ipsets).sizeOk = true := by
    simp [ReplSet.sizeOk, generateAcSet]
  have hsize : ¬ (generateAcSet lookup c updated number ipsets).size
      < (generateAcSet lookup c updated number ipsets).number * hybridEntrySize := by
    change ¬ number * hybridEntrySize % 2 ^ 32 < number * hybridEntrySize
    omega
  unfold doReplaceSet
  rw [if_neg (by simp [generateAcSet]), if_neg (by simp [generateAcSet]), if_neg hcat,
    if_neg (by simp [generateAcSet]), if_neg (by simp [generateAcSet]), if_neg (by simp [hok]),
    if_neg hsize]
  rw [show (generateAcSet lookup c updated number ipsets).category = ruleTypeNum c from rfl,
    ofNat?_ruleTypeNum]
  exact ⟨_, rfl, rfl⟩

/-- What the call for the sets of one rule type does. -/
theorem commitSet_spec (env : Env) (set : RuleType → AcSet) (c : RuleType) (k : Kernel)
    (hnum : (set c).number ≤ 4) (hfree : (set c).freeable = true)
    (habs : (set c).number = 0 → (set c).updated = 0) :
    ∃ ok k', commitSet env set c k = some (ok, k')
      ∧ k'.tables = k.tables
      ∧ (∀ c', c' ≠ c → k'.sets.privSets c' = k.sets.privSets c')
      ∧ (env.setIpc c = true → ok = true)
      ∧ (ok = true → (set c).updated ≠ 0 → ∃ ipsets, (set c).ipsets = some ipsets
        ∧ k'.sets.installed c = (generateAcSet env.lookup c (set c).updated (set c).number
          ipsets).entries) := by
  unfold commitSet
  by_cases hup : (set c).updated = 0
  · rw [if_pos hup]
    exact ⟨true, k, rfl, rfl, fun _ _ => rfl, fun _ => rfl, fun _ h => absurd hup h⟩
  · rw [if_neg hup]
    cases hips : (set c).ipsets with
    | none =>
      exfalso
      simp only [AcSet.freeable, hips, Option.isSome_none, Bool.or_false, beq_iff_eq] at hfree
      exact hup (habs hfree)
    | some ipsets =>
      by_cases hipc : env.setIpc c = true
      · obtain ⟨t', ht', hpriv⟩ := doReplaceSet_generate env.lookup c (set c).updated hnum ipsets
          k.sets
        simp only [if_pos hipc, ht']
        refine ⟨true, _, rfl, rfl, fun c' hne => ?_, fun _ => rfl, fun _ _ => ⟨ipsets, rfl, ?_⟩⟩
        · change t'.privSets c' = _
          rw [hpriv, Function.update_of_ne hne]
        · change t'.installed c = _
          rw [SetTable.installed, hpriv, Function.update_self]
      · simp only [if_neg hipc]
        exact ⟨false, k, rfl, rfl, fun _ _ => rfl, fun h => absurd h hipc, fun h => (by cases h)⟩

/-- A name that the loop has read stands in its place, and its bit is set. -/
theorem parseSetLoop_spec {js : NxJson} {keys : List String} {idx : ℕ} {updated u : BitVec 32}
    {names : List (Option (List Char))} (h : parseSetLoop js idx keys updated = (u, some names)) :
    (∀ j, updated.getLsbD j = true → u.getLsbD j = true) ∧
    ∀ i key name, keys[i]? = some key → nxJsonGet js key = .string name → idx + i < 32 →
      names.getD i none = some name ∧ u.getLsbD (idx + i) = true := by
  induction keys generalizing idx updated names with
  | nil =>
    cases h
    exact ⟨fun _ hj => hj, fun i key name hi => by simp at hi⟩
  | cons key keys ih =>
    rw [parseSetLoop] at h
    by_cases hnull : (nxJsonGet js key).isNull = true
    · -- a key that is null leaves its name out and its bit as it was
      rw [if_pos hnull] at h
      simp only [Prod.mk.injEq, Option.map_eq_some_iff] at h
      obtain ⟨rfl, rest, hrest, rfl⟩ := h
      obtain ⟨hkeep, hnames⟩ := ih (Prod.ext rfl hrest)
      refine ⟨hkeep, fun i key' name hi hget hlt => ?_⟩
      cases i with
      | zero =>
        simp only [List.getElem?_cons_zero, Option.some.injEq] at hi
        rw [hi, hget] at hnull
        cases hnull
      | succ i =>
        have := hnames i key' name (by simpa using hi) hget (by omega)
        rwa [show idx + (i + 1) = idx + 1 + i by omega]
    · rw [if_neg hnull] at h
      cases hstr : nxJsonStringMap acIpsetMaxnamelen (nxJsonGet js key) with
      | none =>
        rw [hstr] at h
        cases h
      | some name₀ =>
        simp only [hstr, Prod.mk.injEq, Option.map_eq_some_iff] at h
        obtain ⟨rfl, rest, hrest, rfl⟩ := h
        obtain ⟨hkeep, hnames⟩ := ih (Prod.ext rfl hrest)
        -- the name of this key is the first of the list, and its bit stays set in the others
        refine ⟨fun j hj => hkeep j (by simp [hj]), fun i key' name hi hget hlt => ?_⟩
        cases i with
        | zero =>
          simp only [List.getElem?_cons_zero, Option.some.injEq] at hi
          subst hi
          rw [hget, nxJsonStringMap] at hstr
          split at hstr
          · cases hstr
            refine ⟨rfl, hkeep idx ?_⟩
            simp [show idx < 32 by omega]
          · cases hstr
        | succ i =>
          have := hnames i key' name (by simpa using hi) hget (by omega)
          rwa [show idx + (i + 1) = idx + 1 + i by omega]

/-! ## All calls -/

/-- The four calls of a commit: if all get through, it succeeds, and if it succeeds, each has
    done its part. -/
theorem runUntilError_spec (env : Env) (rule : RuleType → AcRule) (set : RuleType → AcSet)
    (k : Kernel) (hlen : ∀ c, (rule c).items.length ≤ ruleMaxnum) (hnum : ∀ c, (set c).number ≤ 4)
    (hfree : ∀ c, (set c).freeable = true) (habs : ∀ c, (set c).number = 0 → (set c).updated = 0) :
    ∃ ok k', runUntilError [commitTable env rule .control, commitSet env set .control,
        commitTable env rule .audit, commitSet env set .audit] k = some (ok, k')
      ∧ ((∀ c, env.tableIpc c = true) → (∀ c, env.setIpc c = true) → ok = true)
      ∧ (ok = true → ∀ c,
        ((rule c).updated = true → (∀ r ∈ (rule c).items, Complete r) →
          k'.tables c = ⟨(rule c).items.length, tableBytes (rule c).items⟩)
        ∧ ((set c).updated ≠ 0 → ∃ ipsets, (set c).ipsets = some ipsets
          ∧ k'.sets.installed c = (generateAcSet env.lookup c (set c).updated (set c).number
            ipsets).entries)) := by
  obtain ⟨ok₁, k₁, h₁, -, -, hipc₁, hput₁⟩ := commitTable_spec env rule .control k (hlen _)
  obtain ⟨ok₂, k₂, h₂, htab₂, -, hipc₂, hput₂⟩ := commitSet_spec env set .control k₁ (hnum _)
    (hfree _) (habs _)
  obtain ⟨ok₃, k₃, h₃, htab₃, hset₃, hipc₃, hput₃⟩ := commitTable_spec env rule .audit k₂ (hlen _)
  obtain ⟨ok₄, k₄, h₄, htab₄, hset₄, hipc₄, hput₄⟩ := commitSet_spec env set .audit k₃ (hnum _)
    (hfree _) (habs _)
  simp only [runUntilError, h₁]
  cases ok₁ with
  | false => exact ⟨false, k₁, rfl, fun h _ => hipc₁ (h _), fun h => (by cases h)⟩
  | true =>
    simp only [h₂]
    cases ok₂ with
    | false => exact ⟨false, k₂, rfl, fun _ h => hipc₂ (h _), fun h => (by cases h)⟩
    | true =>
      simp only [h₃]
      cases ok₃ with
      | false => exact ⟨false, k₃, rfl, fun h _ => hipc₃ (h _), fun h => (by cases h)⟩
      | true =>
        simp only [h₄]
        cases ok₄ with
        | false => exact ⟨false, k₄, rfl, fun _ h => hipc₄ (h _), fun h => (by cases h)⟩
        | true =>
          refine ⟨true, k₄, rfl, fun _ _ => rfl, fun _ c => ?_⟩
          -- no later call touches what an earlier one has put in place
          cases c with
          | control =>
            refine ⟨fun hup hc => ?_, fun hup => ?_⟩
            · rw [htab₄, htab₃ _ (by decide), htab₂]
              exact hput₁ rfl hup hc
            · obtain ⟨ipsets, hips, hinst⟩ := hput₂ rfl hup
              refine ⟨ipsets, hips, ?_⟩
              rw [SetTable.installed, hset₄ _ (by decide), hset₃]
              exact hinst
          | audit =>
            refine ⟨fun hup hc => ?_, hput₄ rfl⟩
            rw [htab₄]
            exact hput₃ rfl hup hc

/-! ## The configuration that is committed -/

/-- A configuration has as many rules as allowed. -/
theorem parseRule_length (js : NxJson) (c : RuleType) :
    (parseRule js c).2.items.length ≤ ruleMaxnum := by
  unfold parseRule
  split
  · exact Nat.zero_le _
  · split
    next items h =>
      cases hjs : nxJsonGet js (ruleKey c) with
      | null =>
        rw [hjs] at h
        cases h
        exact Nat.zero_le _
      | array elems =>
        rw [hjs, doParseAcRule] at h
        split at h
        next hle => rwa [(forall₂_of_mapM h).length_eq] at hle
        · cases h
      | _ =>
        rw [hjs] at h
        cases h
    · exact Nat.zero_le _

/-- So has each category. -/
theorem doParseConfig_length (js : NxJson) (c : RuleType) :
    ((doParseConfig js).2.rule c).items.length ≤ ruleMaxnum := by
  cases c with
  | control => exact parseRule_length js .control
  | audit =>
    change (if (parseRule js .control).1 then parseRule js .audit
      else (false, ⟨false, []⟩)).2.items.length ≤ ruleMaxnum
    split
    · exact parseRule_length js .audit
    · exact Nat.zero_le _

/-- A configuration that is accepted has the rules of both categories. -/
theorem doParseConfig_rule {js : NxJson} (hok : (doParseConfig js).1 = true) (c : RuleType) :
    (parseRule js c).1 = true ∧ (doParseConfig js).2.rule c = (parseRule js c).2 := by
  simp only [doParseConfig, Bool.and_eq_true] at hok ⊢
  cases c with
  | control => exact ⟨hok.1, rfl⟩
  | audit =>
    rw [if_pos hok.1] at hok ⊢
    exact ⟨hok.2, rfl⟩

/-- A list of a configuration that parses is the list of its rules. -/
theorem doParseConfig_array {js : NxJson} (hok : (doParseConfig js).1 = true) {c : RuleType}
    {items : List NxJson} (hget : nxJsonGet js (ruleKey c) = .array items) :
    ∃ rules, items.mapM acRuleItemInit = some rules
      ∧ (doParseConfig js).2.rule c = ⟨true, rules⟩ := by
  obtain ⟨hparse, heq⟩ := doParseConfig_rule hok c
  rw [heq]
  simp only [parseRule, hget, NxJson.isNull, Bool.false_eq_true, if_false, doParseAcRule] at hparse ⊢
  by_cases hle : items.length ≤ ruleMaxnum
  · rw [if_pos hle] at hparse ⊢
    cases h : items.mapM acRuleItemInit with
    | none =>
      rw [h] at hparse
      cases hparse
    | some rules => exact ⟨rules, rfl, rfl⟩
  · rw [if_neg hle] at hparse
    cases hparse

/-- A category has four sets at most, and none is updated where it has none. -/
theorem parseSet_number (js : NxJson) (c : RuleType) :
    (parseSet js c).number ≤ 4 ∧ ((parseSet js c).number = 0 → (parseSet js c).updated = 0) := by
  unfold parseSet
  split
  · exact ⟨by decide, fun _ => rfl⟩
  · cases c
    · exact ⟨le_refl _, fun h => absurd h (by simp [doParseAcSet, ipsetTypeMax])⟩
    · exact ⟨by simp [doParseAcSet, ipsetTypeMax], fun h => absurd h (by
        simp [doParseAcSet, ipsetTypeMax])⟩

/-- The sets of a category that names one. -/
theorem parseSet_present {js : NxJson} {c : RuleType} {key : String} {name : List Char}
    (hget : nxJsonGet (nxJsonGet js (setKey c)) key = .string name) :
    parseSet js c = doParseAcSet c (nxJsonGet js (setKey c)) := by
  unfold parseSet
  cases h : nxJsonGet js (setKey c) with
  | null =>
    rw [h] at hget
    cases hget
  | _ => rfl

/-- A set that is named and parsed has its name and its bit. -/
theorem parseSet_named {js : NxJson} {c : RuleType} {i : ℕ} (hi : i < ipsetTypeMax c)
    {name : List Char} {names : List (Option (List Char))}
    (hget : nxJsonGet (nxJsonGet js (setKey c)) (ipsetKeyMap.getD i "") = .string name)
    (hnames : (parseSet js c).ipsets = some names) :
    names.getD i none = some name ∧ (parseSet js c).updated.getLsbD i = true := by
  have hlt : i < 4 := by
    cases c
    · exact hi
    · exact lt_trans hi (by decide)
  have hkey : (ipsetKeyMap.take (ipsetTypeMax c))[i]? = some (ipsetKeyMap.getD i "") := by
    rw [List.getElem?_take_of_lt hi, List.getD_eq_getElem?_getD,
      List.getElem?_eq_getElem (show i < ipsetKeyMap.length from hlt), Option.getD_some]
  rw [parseSet_present hget] at hnames ⊢
  have hspec := (parseSetLoop_spec (Prod.ext rfl hnames)).2 i _ name hkey hget (by omega)
  rwa [Nat.zero_add] at hspec

/-- The entry of a set that is updated. -/
theorem generateAcSet_entry {lookup : List Char → ℕ} {c : RuleType} {updated : BitVec 32}
    {number i : ℕ} {names : List (Option (List Char))} {name : List Char} (hi : i < number)
    (hlt : i < 32) (hname : names.getD i none = some name) (hbit : updated.getLsbD i = true) :
    (generateAcSet lookup c updated number names).entries[i]? =
      some ⟨lookup name, acSetActionMap.getD i 0⟩ := by
  have hb : bitSet updated i = true := by rwa [bitSet, Nat.mod_eq_of_lt hlt]
  rw [ReplSet.entries, List.getElem?_map,
    show (generateAcSet lookup c updated number names).number = number from rfl,
    List.getElem?_range hi]
  simp only [Option.map_some, ReplSet.entry, generateAcSet, hb, if_true, hname, Option.getD_some]

/-- What is freed of the sets was allocated. -/
theorem AcConfig.freeable_set {conf : AcConfig} (h : conf.freeable = true) (c : RuleType) :
    (conf.set c).freeable = true := by
  rw [AcConfig.freeable, Bool.and_eq_true] at h
  cases c
  · exact h.1
  · exact h.2

/-- A commit succeeds exactly when its configuration is taken and its calls all succeed. -/
theorem doCommitConfig_eq_true {parse : List Char → Option NxJson} {env : Env} {config : List Char}
    {k k' : Kernel} {js : NxJson} (hparse : parse config = some js) :
    doCommitConfig parse env config k = some (true, k') ↔
      config ≠ [] ∧ (doParseConfig js).1 = true ∧ (doParseConfig js).2.freeable = true
        ∧ commitCalls env (doParseConfig js).2 k = some (true, k') := by
  rw [doCommitConfig, hparse]
  by_cases hconfig : config = []
  · simp [hconfig]
  · by_cases hfree : (doParseConfig js).2.freeable = true
    · by_cases hok : (doParseConfig js).1 = true
      · simp [hconfig, hfree, hok]
      · simp [hconfig, hfree, hok]
    · simp [hconfig, hfree]

/-- What the commit asks of the kernel, and what it leaves there. -/
theorem commitCalls_spec (env : Env) (js : NxJson) (k : Kernel)
    (hfree : (doParseConfig js).2.freeable = true) :
    ∃ ok k', commitCalls env (doParseConfig js).2 k = some (ok, k')
      ∧ ((∀ c, env.tableIpc c = true) → (∀ c, env.setIpc c = true) → ok = true)
      ∧ (ok = true → ∀ c,
        (((doParseConfig js).2.rule c).updated = true →
          (∀ r ∈ ((doParseConfig js).2.rule c).items, Complete r) →
          k'.tables c = ⟨((doParseConfig js).2.rule c).items.length,
            tableBytes ((doParseConfig js).2.rule c).items⟩)
        ∧ ((parseSet js c).updated ≠ 0 → ∃ ipsets, (parseSet js c).ipsets = some ipsets
          ∧ k'.sets.installed c = (generateAcSet env.lookup c (parseSet js c).updated
            (parseSet js c).number ipsets).entries)) :=
  runUntilError_spec env _ _ k (doParseConfig_length js) (fun c => (parseSet_number js c).1)
    (AcConfig.freeable_set hfree) fun c => (parseSet_number js c).2

/-- What is encodable is installed when the calls succeed. -/
theorem installed_of_commitCalls {env : Env} {js : NxJson} {k k' : Kernel}
    (hok : (doParseConfig js).1 = true) (hfree : (doParseConfig js).2.freeable = true)
    (henc : Encodable env.lookup js)
    (hrun : commitCalls env (doParseConfig js).2 k = some (true, k')) :
    Installed env.lookup js k' := by
  obtain ⟨ok, k'', hrun', -, hput⟩ := commitCalls_spec env js k hfree
  rw [hrun] at hrun'
  cases hrun'
  refine ⟨fun c items hget => ?_, fun c i hi name hget => ?_⟩
  · obtain ⟨rules, hmap, hrule⟩ := doParseConfig_array hok hget
    obtain ⟨hdesc, hcomplete⟩ := mapM_acRuleItemInit hmap (henc.rules c items hget)
    have htable := (hput rfl c).1
    rw [hrule] at htable
    exact ⟨rules, _, hdesc, mapM_generateAcEntry hcomplete, htable rfl hcomplete⟩
  · refine ⟨?_, henc.sets c i hi name hget⟩
    have hnumber : (parseSet js c).number = ipsetTypeMax c := by
      rw [parseSet_present hget]
      rfl
    have hsome : (parseSet js c).ipsets.isSome = true := by
      have hf := AcConfig.freeable_set hfree c
      change (parseSet js c).freeable = true at hf
      rw [AcSet.freeable, Bool.or_eq_true, beq_iff_eq] at hf
      exact hf.resolve_left (by omega)
    obtain ⟨names, hnames⟩ := Option.isSome_iff_exists.1 hsome
    obtain ⟨hname, hbit⟩ := parseSet_named hi hget hnames
    have hup : (parseSet js c).updated ≠ 0 := by
      intro hzero
      rw [hzero] at hbit
      simp at hbit
    obtain ⟨names', hnames', hinst⟩ := (hput rfl c).2 hup
    rw [hnames] at hnames'
    cases hnames'
    rw [hinst]
    refine generateAcSet_entry (hnumber ▸ hi) ?_ hname hbit
    cases c <;> exact lt_trans hi (by decide)

/-- What is installed was encodable. -/
theorem encodable_of_installed {lookup : List Char → ℕ} {js : NxJson} {k : Kernel}
    (h : Installed lookup js k) : Encodable lookup js := by
  refine ⟨fun c items hget item hitem => ?_, fun c i hi name hget => (h.sets c i hi name hget).2⟩
  obtain ⟨rules, entries, hdesc, hentries, -⟩ := h.rules c items hget
  obtain ⟨n, hn, rfl⟩ := List.getElem_of_mem hitem
  have hn' : n < rules.length := hdesc.length_eq ▸ hn
  refine completeRule_of_describes (hdesc.get hn hn') ?_
  by_contra hincomplete
  rw [mapM_generateAcEntry_eq_none (List.getElem_mem hn') hincomplete] at hentries
  cases hentries

/-- A commit tells the truth about a configuration exactly when the configuration is turned
    down, or every rule of its lists has all its parts and every ipset it names is known: for
    the other configurations it passes over what it cannot build and returns 0. -/
theorem commit_complete_iff (parse : List Char → Option NxJson) (config : List Char)
    (lookup : List Char → ℕ) :
    (∀ env k k', env.lookup = lookup → doCommitConfig parse env config k = some (true, k') →
      ∀ js, parse config = some js → Installed lookup js k') ↔
    ∀ js, config ≠ [] → parse config = some js → (doParseConfig js).1 = true →
      (doParseConfig js).2.freeable = true → Encodable lookup js := by
  constructor
  · intro hcommit js hconfig hparse hok hfree
    -- in a system where every call gets through, the commit succeeds
    obtain ⟨ok, k', hrun, hipc, -⟩ := commitCalls_spec ⟨fun _ => true, fun _ => true, lookup⟩ js
      ⟨fun _ => ⟨0, []⟩, ⟨fun _ => none, fun _ => 0, 999⟩⟩ hfree
    obtain rfl : ok = true := hipc (fun _ => rfl) fun _ => rfl
    exact encodable_of_installed (hcommit _ _ k' rfl
      ((doCommitConfig_eq_true hparse).2 ⟨hconfig, hok, hfree, hrun⟩) js hparse)
  · rintro hcond env k k' rfl hcommit js hparse
    obtain ⟨hconfig, hok, hfree, hrun⟩ := (doCommitConfig_eq_true hparse).1 hcommit
    exact installed_of_commitCalls hok hfree (hcond js hconfig hparse hok hfree) hrun

/-- The text of a configuration with one control rule, which has an id only. -/
def bareConfig : List Char := "\x7b\"ControlRule\":[\x7b\"Id\":1\x7d]\x7d".toList

/-- The tree of that text. -/
def bareTree : NxJson := .object [("ControlRule", .array [.object [("Id", .integer 1)]])]

/-- A kernel with one control rule in place. -/
def rejectFiveKernel : Kernel :=
  ⟨fun
    | .control => ⟨1, tableBytes [rejectFive]⟩
    | .audit => ⟨0, []⟩, ⟨fun _ => none, fun _ => 0, 999⟩⟩

/-- Where every call gets through. -/
def quietEnv : Env := ⟨fun _ => true, fun _ => true, fun _ => ipsetInvalidId⟩

/-- The commit of a list whose one rule lacks its parts returns 0 and leaves the old rule in
    force. -/
theorem bare_rule_passed_over :
    doCommitConfig (fun text => if text = bareConfig then some bareTree else none) quietEnv
        bareConfig rejectFiveKernel = some (true, rejectFiveKernel)
      ∧ ¬ Installed quietEnv.lookup bareTree rejectFiveKernel := by
  refine ⟨rfl, fun h => ?_⟩
  obtain ⟨-, hactions⟩ := (encodable_of_installed h).rules .control _ rfl _ List.mem_cons_self
  obtain ⟨items, hitems, -⟩ := hactions
  cases hitems

end RuleTable
