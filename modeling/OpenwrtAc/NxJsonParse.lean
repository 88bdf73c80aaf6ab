/-
# The parser of nxjson

`nxjson.c` in the kernel.  The text is parsed in place: a string is unescaped over the
text that it is read from, and the tree points into it.  Behind the text stands a 0.  Memory
for the nodes is always there.
-/
import OpenwrtAc.TbqConfig

open CString Outcome

namespace Tbq.Nx

/-- Why a call does not return a pointer: an access outside of the text, or what is behind
    `NX_JSON_REPORT_ERROR`. -/
inductive Stop where
  | outside
  | fuel
  | refused
deriving DecidableEq, Repr

/-! ## Characters -/

def quote : UInt8 := 34

def backslash : UInt8 := 92

def comma : UInt8 := 44

def colon : UInt8 := 58

def slash : UInt8 := 47

def star : UInt8 := 42

def newline : UInt8 := 10

def minus : UInt8 := 45

def letterU : UInt8 := 117

def openBrace : UInt8 := 123

def closeBrace : UInt8 := 125

def openBracket : UInt8 := 91

def closeBracket : UInt8 := 93

/-- `IS_WHITESPACE`. -/
def isWhitespace (c : UInt8) : Prop := c ≤ 32

instance (c : UInt8) : Decidable (isWhitespace c) := inferInstanceAs (Decidable (c ≤ 32))

/-- What `parse_value` skips. -/
def isBlank (c : UInt8) : Prop := c = 32 ∨ c = 9 ∨ c = newline ∨ c = 13 ∨ c = comma

instance (c : UInt8) : Decidable (isBlank c) :=
  inferInstanceAs (Decidable (c = 32 ∨ c = 9 ∨ c = newline ∨ c = 13 ∨ c = comma))

/-- What `parse_key` skips. -/
def isKeyBlank (c : UInt8) : Prop := isWhitespace c ∨ c = comma

instance (c : UInt8) : Decidable (isKeyBlank c) :=
  inferInstanceAs (Decidable (isWhitespace c ∨ c = comma))

def isDigit (c : UInt8) : Prop := 48 ≤ c ∧ c ≤ 57

instance (c : UInt8) : Decidable (isDigit c) := inferInstanceAs (Decidable (48 ≤ c ∧ c ≤ 57))

/-- `hex_val`. -/
def hexVal (c : UInt8) : Option ℕ :=
  if 48 ≤ c ∧ c ≤ 57 then some (c.toNat - 48)
  else if 97 ≤ c ∧ c ≤ 102 then some (c.toNat - 97 + 10)
  else if 65 ≤ c ∧ c ≤ 70 then some (c.toNat - 65 + 10)
  else none

/-- What stands behind a backslash for one byte. -/
def escaped (c : UInt8) : Option UInt8 :=
  if c = backslash ∨ c = slash ∨ c = quote then some c
  else if c = 98 then some 8
  else if c = 102 then some 12
  else if c = 110 then some 10
  else if c = 114 then some 13
  else if c = 116 then some 9
  else none

/-- `unicode_to_utf8`. -/
def unicodeToUtf8 (codepoint : ℕ) : Option (List UInt8) :=
  if codepoint < 0x80 then some [codepoint.toUInt8]
  else if codepoint < 0x800 then
    some [(192 + codepoint / 64).toUInt8, (128 + codepoint % 64).toUInt8]
  else if 0xd800 ≤ codepoint ∧ codepoint < 0xd800 + 0x800 then none
  else if codepoint < 0x10000 then
    some [(224 + codepoint / 4096).toUInt8, (128 + codepoint / 64 % 64).toUInt8,
      (128 + codepoint % 64).toUInt8]
  else if codepoint < 0x110000 then
    some [(240 + codepoint / 262144).toUInt8, (128 + codepoint / 4096 % 64).toUInt8,
      (128 + codepoint / 64 % 64).toUInt8, (128 + codepoint % 64).toUInt8]
  else none

/-! ## The text -/

/-- `*p`. -/
def peek (mem : List UInt8) (p : ℕ) : Except Stop UInt8 :=
  match mem[p]? with
  | some c => .ok c
  | none => if p = mem.length then .ok 0 else .error .outside

/-- `*d = c`. -/
def put (mem : List UInt8) (d : ℕ) (c : UInt8) : Except Stop (List UInt8) :=
  if d < mem.length then .ok (mem.set d c) else .error .outside

/-- `*d++ = c` for each of the bytes. -/
def putAll : List UInt8 → ℕ → List UInt8 → Except Stop (List UInt8)
  | mem, _, [] => return mem
  | mem, d, c :: cs => do
    let mem ← put mem d c
    putAll mem (d + 1) cs

/-- The string at a pointer. -/
def stringAt (mem : List UInt8) (p : ℕ) : List UInt8 := (mem.drop p).takeWhile (· ≠ 0)

/-- `strchr`. -/
def strchr (mem : List UInt8) (c : UInt8) : ℕ → ℕ → Except Stop (Option ℕ)
  | 0, _ => .error .fuel
  | fuel + 1, p => do
    let b ← peek mem p
    if b = c then return some p
    else if b = 0 then return none
    else strchr mem c fuel (p + 1)

/-! ## Strings -/

/-- `hex_val(p[0])` up to `hex_val(p[3])`, of which each has to be a digit. -/
def hexDigits (mem : List UInt8) : ℕ → ℕ → ℕ → Except Stop ℕ
  | 0, _, n => return n
  | k + 1, p, n => do
    let c ← peek mem p
    match hexVal c with
    | some h => hexDigits mem k (p + 1) (n <<< 4 ||| h)
    | none => throw .refused

/-- A code point, with `p` at its `u`, and the place behind it. -/
def unicode (mem : List UInt8) (p : ℕ) : Except Stop (ℕ × ℕ) := do
  let codepoint ← hexDigits mem 4 (p + 1) 0
  if codepoint &&& 0xfc00 = 0xd800 then
    let b ← peek mem (p + 5)
    stopIf (b ≠ backslash) .refused
    let u ← peek mem (p + 6)
    stopIf (u ≠ letterU) .refused
    let codepoint2 ← hexDigits mem 4 (p + 7) 0
    stopIf (codepoint2 &&& 0xfc00 ≠ 0xdc00) .refused
    return (0x10000 + (codepoint - 0xd800) <<< 10 + (codepoint2 - 0xdc00), p + 11)
  else return (codepoint, p + 5)

/-- The loop of `unescape_string`: the text, and the place behind the closing quote. -/
def unescapeLoop : ℕ → List UInt8 → ℕ → ℕ → Except Stop (List UInt8 × ℕ)
  | 0, _, _, _ => .error .fuel
  | fuel + 1, mem, p, d => do
    let c ← peek mem p
    if c = 0 then throw .refused
    else if c = quote then do
      let mem ← put mem d 0
      return (mem, p + 1)
    else if c = backslash then do
      let e ← peek mem (p + 1)
      match escaped e with
      | some b =>
        let mem ← put mem d b
        unescapeLoop fuel mem (p + 2) (d + 1)
      | none =>
        if e = letterU then do
          let (codepoint, p) ← unicode mem (p + 1)
          match unicodeToUtf8 codepoint with
          | some bytes =>
            let mem ← putAll mem d bytes
            unescapeLoop fuel mem p (d + bytes.length)
          | none => throw .refused
        else do
          -- left untouched
          let mem ← put mem d c
          unescapeLoop fuel mem (p + 1) (d + 1)
    else do
      let mem ← put mem d c
      unescapeLoop fuel mem (p + 1) (d + 1)

/-- `unescape_string` with the encoder `unicode_to_utf8`. -/
def unescapeString (mem : List UInt8) (s : ℕ) : Except Stop (List UInt8 × ℕ) :=
  unescapeLoop (mem.length + 1) mem s s

/-! ## Comments -/

/-- From `REPEAT` on. -/
def blockLoop (mem : List UInt8) : ℕ → ℕ → Except Stop ℕ
  | 0, _ => .error .fuel
  | fuel + 1, p => do
    match ← strchr mem slash (mem.length + 1) (p + 1) with
    | none => throw .refused
    | some q =>
      let b ← peek mem (q - 1)
      if b ≠ star then blockLoop mem fuel q else return q + 1

/-- `skip_block_comment`. -/
def skipBlockComment (mem : List UInt8) (p : ℕ) : Except Stop ℕ := do
  let c ← peek mem p
  stopIf (c = 0) .refused
  blockLoop mem (mem.length + 1) p

/-- A comment, with `p` at its slash. -/
def skipComment (mem : List UInt8) (p : ℕ) : Except Stop ℕ := do
  let c ← peek mem (p + 1)
  if c = slash then
    match ← strchr mem newline (mem.length + 1) (p + 2) with
    | none => throw .refused
    | some q => return q + 1
  else if c = star then skipBlockComment mem (p + 2)
  else throw .refused

/-- What stands before a value, or before a key. -/
def skipBlank (mem : List UInt8) (blank : UInt8 → Prop) [DecidablePred blank] : ℕ → ℕ → Except Stop ℕ
  | 0, _ => .error .fuel
  | fuel + 1, p => do
    let c ← peek mem p
    if c ≠ 0 ∧ blank c then skipBlank mem blank fuel (p + 1)
    else if c = slash then do
      let p ← skipComment mem p
      skipBlank mem blank fuel p
    else return p

/-- `while (*p && IS_WHITESPACE(*p)) p++`. -/
def skipSpaces (mem : List UInt8) : ℕ → ℕ → Except Stop ℕ
  | 0, _ => .error .fuel
  | fuel + 1, p => do
    let c ← peek mem p
    if c ≠ 0 ∧ isWhitespace c then skipSpaces mem fuel (p + 1) else return p

/-! ## The parser -/

/-- `parse_key`: the text, the key if there is one, and the place behind its colon or that of
    the closing brace. -/
def parseKey (mem : List UInt8) (p : ℕ) : Except Stop (List UInt8 × Option ℕ × ℕ) := do
  let p ← skipBlank mem isKeyBlank (mem.length + 1) p
  let c ← peek mem p
  if c = quote then
    let (mem, e) ← unescapeString mem (p + 1)
    let e ← skipSpaces mem (mem.length + 1) e
    let c ← peek mem e
    stopIf (c ≠ colon) .refused
    return (mem, some (p + 1), e + 1)
  else if c = closeBrace then return (mem, none, p)
  else throw .refused

/-- `strtol` with the base 0: the value, and how many bytes were read for it. -/
abbrev Strtol := List UInt8 → ℤ × ℕ

/-- A node of the tree, as it reads in the text: its strings are pointers into it. -/
abbrev Node := List UInt8 → NxJson

/-- The members of an object, and the items of an array. -/
abbrev Members := List UInt8 → List (List UInt8 × NxJson)

abbrev Items := List UInt8 → List NxJson

/-- A node without children. -/
def parseLeaf (strtol : Strtol) (mem : List UInt8) (p : ℕ) (c : UInt8) :
    Except Stop (List UInt8 × Option Node × ℕ) := do
  if c = quote then
    let (mem, e) ← unescapeString mem (p + 1)
    return (mem, some fun mem => .string (stringAt mem (p + 1)), e)
  else if c = minus ∨ isDigit c then
    let (value, n) := strtol (mem.drop p)
    stopIf (n = 0) .refused
    return (mem, some fun _ => .integer value, p + n)
  else if asciiBytes "true" <+: mem.drop p then return (mem, some fun _ => .bool 1, p + 4)
  else if asciiBytes "false" <+: mem.drop p then return (mem, some fun _ => .bool 0, p + 5)
  else if asciiBytes "null" <+: mem.drop p then return (mem, some fun _ => .null, p + 4)
  else throw .refused

mutual

/-- `parse_value`: the text, the node if there is one, and the place behind it. -/
def parseValue (strtol : Strtol) : ℕ → List UInt8 → ℕ → Except Stop (List UInt8 × Option Node × ℕ)
  | 0, _, _ => .error .fuel
  | fuel + 1, mem, p => do
    let p ← skipBlank mem isBlank (mem.length + 1) p
    let c ← peek mem p
    if c = openBrace then do
      let (mem, members, p) ← parseMembers strtol fuel mem (p + 1)
      return (mem, some fun mem => .object (members mem), p)
    else if c = openBracket then do
      let (mem, items, p) ← parseItems strtol fuel mem (p + 1)
      return (mem, some fun mem => .array (items mem), p)
    else if c = closeBracket then return (mem, none, p)
    else parseLeaf strtol mem p c

/-- The loop over the members of an object. -/
def parseMembers (strtol : Strtol) : ℕ → List UInt8 → ℕ → Except Stop (List UInt8 × Members × ℕ)
  | 0, _, _ => .error .fuel
  | fuel + 1, mem, p => do
    let (mem, key, p) ← parseKey mem p
    let c ← peek mem p
    if c = closeBrace then return (mem, fun _ => [], p + 1)
    else do
      let (mem, value, p) ← parseValue strtol fuel mem p
      let (mem, members, p) ← parseMembers strtol fuel mem p
      return (mem, fun mem => (value.toList.map fun v => (stringAt mem (key.getD 0), v mem)) ++
        members mem, p)

/-- The loop over the items of an array. -/
def parseItems (strtol : Strtol) : ℕ → List UInt8 → ℕ → Except Stop (List UInt8 × Items × ℕ)
  | 0, _, _ => .error .fuel
  | fuel + 1, mem, p => do
    let (mem, value, p) ← parseValue strtol fuel mem p
    let c ← peek mem p
    if c = closeBracket then return (mem, fun mem => value.toList.map fun v => v mem, p + 1)
    else do
      let (mem, items, p) ← parseItems strtol fuel mem p
      return (mem, fun mem => (value.toList.map fun v => v mem) ++ items mem, p)

end

/-- `nx_json_parse`: the first node and the text it points into; none is `NULL`. -/
def nxJsonParse (strtol : Strtol) (text : List UInt8) : Except Stop (Option NxJson) := do
  let (mem, node, _) ← parseValue strtol (2 * text.length + 2) text 0
  return node.map fun v => v mem

end Tbq.Nx
