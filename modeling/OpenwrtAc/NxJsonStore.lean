/-
# Where the parser is called

`tbq_parse_config` and `do_commit_config` have their parser as a parameter.  With the parser of
nxjson in its place, what a text does is what the tree does that it stands for.  In user space
a number is read with `strtoul`; one with a point or an exponent, which becomes a double there,
is not among the texts of `Parses`.
-/
import OpenwrtAc.NxJsonComplete
import OpenwrtAc.RuleCommit
import OpenwrtAc.TbqSysfs

open CString

namespace Tbq.Nx

variable {strtol : Strtol}

/-- `nx_json_parse_utf8`; a null pointer is none. -/
def nxJsonParseUtf8 (strtol : Strtol) (text : List UInt8) : Option NxJson :=
  (nxJsonParse strtol text).toOption.join

section

variable (hstrtol : ∀ l, (strtol l).2 ≤ l.length) {text : List UInt8} (hzero : 0 ∉ text)
include hstrtol hzero

/-- A tree is returned for the texts that stand for it. -/
theorem nxJsonParseUtf8_iff {js : NxJson} :
    nxJsonParseUtf8 strtol text = some js ↔ ∃ rest, Parses strtol (.value (some js)) text rest := by
  rw [← nxJsonParse_ok_iff hstrtol hzero]
  unfold nxJsonParseUtf8
  cases nxJsonParse strtol text with
  | error e => simp [Except.toOption]
  | ok v => simp [Except.toOption]

/-- No text stands for two trees. -/
theorem parses_unique {js js' : NxJson} {rest rest' : List UInt8}
    (h : Parses strtol (.value (some js)) text rest)
    (h' : Parses strtol (.value (some js')) text rest') : js = js' := by
  have hjs := (nxJsonParseUtf8_iff hstrtol hzero).2 ⟨rest, h⟩
  have hjs' := (nxJsonParseUtf8_iff hstrtol hzero).2 ⟨rest', h'⟩
  exact Option.some.inj (hjs.symm.trans hjs')

theorem nxJsonParseUtf8_eq_none :
    nxJsonParseUtf8 strtol text = none ↔
      ¬ ∃ js rest, Parses strtol (.value (some js)) text rest := by
  rw [Option.eq_none_iff_forall_not_mem]
  simp only [Option.mem_def, nxJsonParseUtf8_iff hstrtol hzero, not_exists]

/-! ## Into the driver -/

variable {HZ : ℕ} {drain : Drain} {s : SysState}

/-- A text that is stored does what its tree does. -/
theorem tbqSysfsAttrStore_parses {js : NxJson} {rest : List UInt8}
    (h : Parses strtol (.value (some js)) text rest) :
    tbqSysfsAttrStore HZ (nxJsonParseUtf8 strtol) drain s text =
      tbqSysfsAttrStore HZ (fun _ => some js) drain s text := by
  unfold tbqSysfsAttrStore tbqParseConfig
  rw [(nxJsonParseUtf8_iff hstrtol hzero).2 ⟨rest, h⟩]

/-- A text that stands for no tree is refused, and changes nothing. -/
theorem tbqSysfsAttrStore_refused (h : ¬ ∃ js rest, Parses strtol (.value (some js)) text rest) :
    tbqSysfsAttrStore HZ (nxJsonParseUtf8 strtol) drain s text =
      (s, .error (.config (.error .parseFailed))) := by
  unfold tbqSysfsAttrStore tbqParseConfig
  rw [(nxJsonParseUtf8_eq_none hstrtol hzero).2 h]

end

end Tbq.Nx

namespace RuleTable

open Tbq.Nx

/-! ## Into the tables of rules -/

/-- Bytes as characters. -/
def chars (text : List UInt8) : List Char := text.map fun c => Char.ofNat c.toNat

mutual

/-- The tree of user space. -/
def NxJson.ofTree : Tbq.NxJson → NxJson
  | .null => .null
  | .object members => .object (NxJson.ofMembers members)
  | .array items => .array (NxJson.ofItems items)
  | .string text => .string (chars text)
  | .integer value => .integer (UInt32.ofInt value)
  | .bool value => .bool (value ≠ 0)

def NxJson.ofMembers : List (List UInt8 × Tbq.NxJson) → List (String × NxJson)
  | [] => []
  | (key, value) :: members => (String.ofList (chars key), NxJson.ofTree value) :: NxJson.ofMembers members

def NxJson.ofItems : List Tbq.NxJson → List NxJson
  | [] => []
  | item :: items => NxJson.ofTree item :: NxJson.ofItems items

end

/-- Characters as bytes. -/
def bytes (text : List Char) : List UInt8 := text.map fun c => c.toNat.toUInt8

theorem toNat_ofNat_byte : ∀ n < 256, (Char.ofNat n).toNat = n := by
  decide +kernel

theorem bytes_chars (text : List UInt8) : bytes (chars text) = text := by
  unfold bytes chars
  rw [List.map_map]
  refine (List.map_congr_left fun c _ => ?_).trans (List.map_id text)
  rw [Function.comp_apply, toNat_ofNat_byte _ c.toNat_lt]
  exact UInt8.ofNat_toNat

theorem chars_bytes {text : List Char} (h : ∀ c ∈ text, c.toNat < 256) :
    chars (bytes text) = text := by
  unfold bytes chars
  rw [List.map_map]
  refine (List.map_congr_left fun c hc => ?_).trans (List.map_id text)
  have hlt : c.toNat.toUInt8.toNat = c.toNat := by
    rw [Nat.toUInt8, UInt8.toNat_ofNat']
    exact Nat.mod_eq_of_lt (h c hc)
  rw [Function.comp_apply, hlt]
  exact Char.ofNat_toNat c

/-- A key of the source is compared as characters as it is compared as bytes. -/
theorem ofList_chars_eq_iff {key : String} (h : ∀ c ∈ key.toList, c.toNat < 256)
    (k : List UInt8) : String.ofList (chars k) = key ↔ k = asciiBytes key := by
  constructor
  · rintro rfl
    show k = bytes (String.ofList (chars k)).toList
    rw [String.toList_ofList, bytes_chars]
  · rintro rfl
    show String.ofList (chars (bytes key.toList)) = key
    rw [chars_bytes h, String.ofList_toList]

/-- `nx_json_get` finds in the tree of user space what it finds in that of the kernel. -/
theorem nxJsonGet_ofTree {key : String} (h : ∀ c ∈ key.toList, c.toNat < 256) (js : Tbq.NxJson) :
    nxJsonGet (.ofTree js) key = .ofTree (Tbq.nxJsonGet js key) := by
  cases js with
  | object members =>
    unfold Tbq.nxJsonGet
    simp only [NxJson.ofTree, nxJsonGet]
    induction members with
    | nil => rfl
    | cons m members ih =>
      obtain ⟨k, v⟩ := m
      simp only [NxJson.ofMembers, List.find?_cons]
      by_cases hk : k = asciiBytes key
      · have hkey := (ofList_chars_eq_iff h k).2 hk
        rw [hkey, hk, beq_self_eq_true, beq_self_eq_true]
        rfl
      · have hkey := mt (ofList_chars_eq_iff h k).1 hk
        rw [beq_false_of_ne hkey, beq_false_of_ne hk]
        exact ih
  | _ => rfl

/-- The parser of `ruletable`, for texts without doubles. -/
def commitParse (strtoul : Strtol) (config : List Char) : Option NxJson :=
  (nxJsonParseUtf8 strtoul (bytes config)).map NxJson.ofTree

section

variable {strtoul : Strtol} (hstrtoul : ∀ l, (strtoul l).2 ≤ l.length) {config : List Char}
  (hzero : 0 ∉ bytes config) {env : Env} {k : Kernel}
include hstrtoul hzero

/-- A configuration that is committed does what its tree does. -/
theorem doCommitConfig_parses {js : Tbq.NxJson} {rest : List UInt8}
    (h : Parses strtoul (.value (some js)) (bytes config) rest) :
    doCommitConfig (commitParse strtoul) env config k =
      doCommitConfig (fun _ => some (.ofTree js)) env config k := by
  unfold doCommitConfig commitParse
  rw [(nxJsonParseUtf8_iff hstrtoul hzero).2 ⟨rest, h⟩]
  rfl

/-- A configuration that stands for no tree fails, and changes nothing. -/
theorem doCommitConfig_refused
    (h : ¬ ∃ js rest, Parses strtoul (.value (some js)) (bytes config) rest) :
    doCommitConfig (commitParse strtoul) env config k = some (false, k) := by
  unfold doCommitConfig commitParse
  rw [(nxJsonParseUtf8_eq_none hstrtoul hzero).2 h]
  split <;> rfl

end

end RuleTable
