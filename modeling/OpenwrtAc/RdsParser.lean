/-
# The message format of rdsparser

`rdsparser.c` and `luawrap.c`: a message is an array of byte strings, written with
the number of its strings and the length of each.  The decoder keeps what has come in
a buffer, and a message that is only half there in an array; it can be fed with the
bytes in pieces.  A number is an `int` of 32 bits.  Allocations succeed.
-/
import Mathlib.Data.Nat.Digits.Lemmas
import OpenwrtAc.MachineInt

open MachineInt

namespace Rds

/-- Why a call does not return: a failed `assert`, a `BUG_ON`, which ends the process, or
    arithmetic and memory accesses that C leaves undefined. -/
inductive Stop where
  | assertion
  | bugOn
  | undefined
deriving DecidableEq, Repr

/-- A string of a message. -/
abbrev Bytes := List UInt8

/-! ## Writing -/

/-- `%d` of a number that is not negative. -/
def decimal (n : ℕ) : Bytes :=
  if n = 0 then [48] else (Nat.digits 10 n).reverse.map fun d => (48 + d).toUInt8

/-- A length and what marks it. -/
def header (mark : UInt8) (n : ℕ) : Bytes := mark :: decimal n ++ [13, 10]

/-- `*`. -/
def star : UInt8 := 42

/-- `$`. -/
def dollar : UInt8 := 36

/-- The bytes of a string. -/
def writeParam (s : Bytes) : Bytes := header dollar s.length ++ s ++ [13, 10]

/-- The size of the buffer that `rds_encode` gets. -/
def encodeTotal (arr : List Bytes) : ℕ :=
  arr.length * 10 + (arr.length * 2 + 1) * 2 + (arr.map List.length).sum

/-- The loop of `rds_encode`, with what it has written.  A length that is cut short by `snprintf`
    is noticed with the string behind it. -/
def encodeLoop (total : ℕ) : List Bytes → Bytes → Except Stop Bytes
  | [], buff => if total ≤ buff.length + 1 then .error .bugOn else .ok buff
  | s :: arr, buff =>
    if total ≤ (header dollar s.length).length then .error .bugOn
    else if total ≤ buff.length + (header dollar s.length).length + s.length + 2 then .error .bugOn
    else encodeLoop total arr (buff ++ writeParam s)

/-- `rds_encode`. -/
def rdsEncode (arr : List Bytes) : Except Stop Bytes :=
  if arr = [] then .error .assertion
  else if arr.any (fun s => s.length == 0 || 128 * 1024 < s.length) then .error .assertion
  else if 2 ^ 31 ≤ encodeTotal arr then .error .undefined
  else if encodeTotal arr ≤ (header star arr.length).length then .error .bugOn
  else encodeLoop (encodeTotal arr) arr (header star arr.length)

/-! ## Reading -/

/-- What `read_rds_len` returns: an error, that there are too few bytes, or the number and what
    comes behind it. -/
inductive LenRet where
  | fail
  | more
  | ok (n : ℤ) (rest : Bytes)
deriving DecidableEq, Repr

/-- The loop of `read_rds_len`. -/
def readDigits : Bytes → ℤ → LenRet
  | c :: d :: rest, count =>
    if c = 13 ∧ d = 10 then (if 100000000 ≤ count then .fail else .ok count rest)
    else if c < 48 ∨ 57 < c then .fail
    else readDigits (d :: rest) (i32 (count * 10 + (c.toNat - 48 : ℕ)))
  | _, _ => .more

/-- `read_rds_len`, for a buffer that is not empty. -/
def readRdsLen (mark : UInt8) : Bytes → LenRet
  | [] => .more
  | c :: rest => if c = mark then readDigits rest 0 else .fail

/-- What `read_param_content` returns: an error, that there are too few bytes, or that the array is
    full; with the buffer and the strings it has read. -/
inductive ParamRet where
  | fail
  | more (buff : Bytes) (arr : List Bytes)
  | done (buff : Bytes) (arr : List Bytes)
deriving DecidableEq, Repr

/-- What `read_param_content` makes of a negative length, with `p` at `off`: it looks for the end
    of the string in front of `p`, where there may be no buffer, and then asks for memory. -/
def negativeLen (buff : Bytes) (off : ℕ) (len : ℤ) : Except Stop ParamRet :=
  if off + len < 0 then .error .undefined
  else if (buff.drop (off + len).toNat).take 2 ≠ [13, 10] then .ok .fail
  else if len + 1 < 0 then .error .bugOn
  -- the `memcpy` of -1 bytes
  else .error .undefined

/-- `read_param_content`, for a number of strings that are still to come. -/
def readParamContent : ℕ → Bytes → List Bytes → Except Stop ParamRet
  | 0, buff, arr => .ok (.done buff arr)
  | left + 1, buff, arr =>
    if buff = [] then .ok (.more buff arr)
    else
      match readRdsLen dollar buff with
      | .fail => .ok .fail
      | .more => .ok (.more buff arr)
      | .ok len rest =>
        if (rest.length : ℤ) < len + 2 then .ok (.more buff arr)
        else if len < 0 then negativeLen buff (buff.length - rest.length) len
        else if (rest.drop len.toNat).take 2 ≠ [13, 10] then .ok .fail
        else readParamContent left (rest.drop (len.toNat + 2)) (arr ++ [rest.take len.toNat])

/-- `RDS_NEW`, `RDS_RUN` and `RDS_ERR`. -/
inductive RdsState where
  | new
  | run
  | err
deriving DecidableEq, Repr

/-- `rdsst`: the bytes in the buffer, its size, which is 0 without a buffer, and of the array the
    number of its strings and those read so far. -/
structure Decoder where
  buff : Bytes
  maxsize : ℕ
  state : RdsState
  resCount : ℕ
  resArr : List Bytes
deriving DecidableEq, Repr

/-- `rds_new`. -/
def rdsNew : Decoder := ⟨[], 0, .new, 0, []⟩

/-- `adjust_size`. -/
def adjustSize (size : ℕ) : Option ℕ := ((List.range 24).map (2 ^ ·)).find? (size ≤ ·)

/-- `rds_cache`: whether there is room, and the decoder. -/
def rdsCache (rds : Decoder) (buff : Bytes) : Except Stop (Bool × Decoder) :=
  let rds := if rds.maxsize = 0 then { rds with maxsize := 32 * 1024 } else rds
  if rds.buff.length + buff.length ≤ rds.maxsize then
    .ok (true, { rds with buff := rds.buff ++ buff })
  else
    match adjustSize (rds.buff.length + buff.length) with
    | none => .error .bugOn
    | some size =>
      if 512 * 1024 < size then .ok (false, { rds with maxsize := size })
      else .ok (true, { rds with maxsize := size, buff := rds.buff ++ buff })

/-- `shrink_buff`, for a buffer that is empty. -/
def shrinkBuff (rds : Decoder) : Decoder := { rds with maxsize := min rds.maxsize (128 * 1024) }

/-- What `rds_decode` returns. -/
inductive DecodeRet where
  | fail
  | more
  | done (arr : List Bytes)
deriving DecidableEq, Repr

/-- `rds_decode` behind the number of strings. -/
def decodeParams (rds : Decoder) : Except Stop (DecodeRet × Decoder) :=
  if rds.resCount ≤ rds.resArr.length then .error .bugOn
  else
    match readParamContent (rds.resCount - rds.resArr.length) rds.buff rds.resArr with
    | .error e => .error e
    | .ok .fail => .ok (.fail, { rds with state := .err })
    | .ok (.more buff arr) => .ok (.more, { rds with buff := buff, resArr := arr })
    | .ok (.done buff arr) =>
      let rds : Decoder := ⟨buff, rds.maxsize, .new, 0, []⟩
      .ok (.done arr, if buff = [] then shrinkBuff rds else rds)

/-- `rds_decode` behind the buffering.  A number of strings that is negative, or 0, ends in a
    `BUG_ON`. -/
def decodeBuff (rds : Decoder) : Except Stop (DecodeRet × Decoder) :=
  if rds.buff = [] then .ok (.more, rds)
  else
    match rds.state with
    | .err => .error .bugOn
    | .run => decodeParams rds
    | .new =>
      match readRdsLen star rds.buff with
      | .fail => .ok (.fail, { rds with state := .err })
      | .more => .ok (.more, rds)
      | .ok count rest =>
        if count ≤ 0 then .error .bugOn
        else decodeParams { rds with buff := rest, state := .run, resCount := count.toNat }

/-- `rds_decode`; without bytes there is nothing to buffer. -/
def rdsDecode (rds : Decoder) (buff : Bytes) : Except Stop (DecodeRet × Decoder) :=
  if rds.state = .err then .error .bugOn
  else if buff = [] then decodeBuff rds
  else
    match rdsCache rds buff with
    | .error e => .error e
    | .ok (false, rds) => .ok (.fail, rds)
    | .ok (true, rds) => decodeBuff rds

/-- The loop of `l_decode` behind its first call, run at most `fuel` times: the messages, or
    `none` for an error. -/
def decodeRest : ℕ → Decoder → List (List Bytes) → Except Stop (Option (List (List Bytes)) × Decoder)
  | 0, rds, res => .ok (some res, rds)
  | fuel + 1, rds, res =>
    match rdsDecode rds [] with
    | .error e => .error e
    | .ok (.fail, rds) => .ok (none, rds)
    | .ok (.more, rds) => .ok (some res, rds)
    | .ok (.done arr, rds) => decodeRest fuel rds (res ++ [arr])

/-- `l_decode`.  Every message takes bytes from the buffer. -/
def lDecode (rds : Decoder) (s : Bytes) : Except Stop (Option (List (List Bytes)) × Decoder) :=
  match rdsDecode rds s with
  | .error e => .error e
  | .ok (.fail, rds) => .ok (none, rds)
  | .ok (.more, rds) => .ok (some [], rds)
  | .ok (.done arr, rds) => decodeRest (rds.buff.length + 1) rds [arr]

/-- The unsigned hash of `l_hex`. -/
def hexHash (s : Bytes) : UInt32 :=
  s.foldl (fun hash c => hash ^^^ ((hash <<< 5) + c.toUInt32 + (hash >>> 2))) 1315423911

/-- `l_hex`: eight digits. -/
def lHex (s : Bytes) : Bytes :=
  (List.range 8).reverse.map fun i =>
    let d := (hexHash s).toNat / 16 ^ i % 16
    (if d < 10 then 48 + d else 87 + d).toUInt8

end Rds
