/-
# The decompressor of lz4.c

`LZ4_decompress_safe`.  The memory behind `dest` is explicit, with what is in it before the
call, since the copies go eight bytes at a time and beyond what they are for; so is the memory
from `source` on, which may go on behind the input.  Pointers are indices, and lengths wrap
with `size_t`.  The two comparisons that look for a pointer that has wrapped around at the
length of some literals lead to the same error as the ones behind them, and are left out.
-/
import OpenwrtAc.Lz4Format
import OpenwrtAc.Outcome

open Rds ByteCodec LzWindow Outcome

namespace Lz4Block

/-- Why a call does not return a number of bytes: an access outside of its memory, a jump to
    `_output_error`, from where it returns `-ip - 1`, or the end of a match above the last
    address, where it would go on at one of the first. -/
inductive Halt where
  | outside
  | fuel
  | outputError (ip : ℕ)
  | wrapped
deriving DecidableEq, Repr

/-- A machine of 64 or 32 bits, and how many addresses there are above `dest` and the sixteen
    behind it. -/
structure Machine where
  is64 : Bool
  above : ℕ

/-- The number of values of a `size_t`. -/
def Machine.word (m : Machine) : ℕ := if m.is64 then 2 ^ 64 else 2 ^ 32

/-- The addresses from `dest` on. -/
def Machine.top (m : Machine) (dest : Bytes) : ℕ := dest.length + 16 + m.above

/-- Some bytes of a memory. -/
def load (mem : Bytes) (p n : ℕ) : Except Halt Bytes :=
  if p + n ≤ mem.length then .ok ((mem.drop p).take n) else .error .outside

def store (mem : Bytes) (p : ℕ) (new : Bytes) : Except Halt Bytes :=
  if p + new.length ≤ mem.length then .ok (overwrite mem p new) else .error .outside

/-- `*p`. -/
def readByte (mem : Bytes) (p : ℕ) : Except Halt ℕ :=
  match mem[p]? with
  | some b => .ok b.toNat
  | none => .error .outside

/-- `LZ4_readLE16`. -/
def readLE16 (mem : Bytes) (p : ℕ) : Except Halt ℕ :=
  match rd16 (mem.drop p) with
  | some n => .ok n
  | none => .error .outside

/-- `LZ4_copy8`, `LZ4_copy4` and the copy of a byte, within `dest`. -/
def copyWithin (dest : Bytes) (d s n : ℕ) : Except Halt Bytes := do
  let bytes ← load dest s n
  store dest d bytes

/-- Byte by byte. -/
def copyBytes : ℕ → Bytes → ℕ → ℕ → Except Halt Bytes
  | 0, dest, _, _ => return dest
  | n + 1, dest, d, s => do
    let dest ← copyWithin dest d s 1
    copyBytes n dest (d + 1) (s + 1)

/-- `LZ4_wildCopy`, from `dest` itself where there is no other memory. -/
def wildCopy (source : Option Bytes) : ℕ → Bytes → ℕ → ℕ → ℕ → Except Halt Bytes
  | 0, _, _, _, _ => .error .fuel
  | fuel + 1, dest, d, s, e => do
    let bytes ← load (source.getD dest) s 8
    let dest ← store dest d bytes
    if d + 8 < e then wildCopy source fuel dest (d + 8) (s + 8) e else return dest

def dec32table : List ℕ := [4, 1, 2, 1, 4, 4, 4, 4]

def dec64table : List ℤ := [0, 0, 0, -1, 0, 1, 2, 3]

/-- The first eight bytes of a match, and where the next ones come from. -/
def copyFirst (dest : Bytes) (op m : ℕ) : Except Halt (Bytes × ℕ) :=
  if op - m < 8 then do
    let dest ← copyBytes 4 dest op m
    let m' := m + dec32table.getD (op - m) 0
    let dest ← copyWithin dest (op + 4) m' 4
    return (dest, (m' - dec64table.getD (op - m) 0).toNat)
  else do
    let dest ← copyWithin dest op m 8
    return (dest, m + 8)

/-- The copy of a match; `ip` is for the error. -/
def copyMatch (dest : Bytes) (ip op m length : ℕ) : Except Halt Bytes := do
  let oend := dest.length
  let cpy := op + length
  let (dest, m) ← copyFirst dest op m
  let op := op + 8
  if cpy + 12 > oend then
    stopIf (cpy + lastLiterals > oend) (.outputError ip)
    if op + 8 < oend then
      let dest ← wildCopy none (oend + 1) dest op m (oend - 8)
      copyBytes (cpy - (oend - 8)) dest (oend - 8) (m + (oend - 8 - op))
    else copyBytes (cpy - op) dest op m
  else wildCopy none (oend + 1) dest op m cpy

/-- The length of the literals behind the token: where it ends, and what it is. -/
def literalLength (m : Machine) (mem : Bytes) (iend : ℕ) : ℕ → ℕ → ℕ → Except Halt (ℕ × ℕ)
  | 0, _, _ => .error .fuel
  | fuel + 1, ip, length => do
    let s ← readByte mem ip
    if ip + 1 + mask < iend ∧ s = 255 then
      literalLength m mem iend fuel (ip + 1) ((length + s) % m.word)
    else return (ip + 1, (length + s) % m.word)

/-- The same for the length of a match. -/
def matchLength (m : Machine) (mem : Bytes) (iend : ℕ) : ℕ → ℕ → ℕ → Except Halt (ℕ × ℕ)
  | 0, _, _ => .error .fuel
  | fuel + 1, ip, length => do
    stopIf (ip + lastLiterals > iend) (.outputError ip)
    let s ← readByte mem ip
    if s = 255 then matchLength m mem iend fuel (ip + 1) ((length + s) % m.word)
    else return (ip + 1, (length + s) % m.word)

/-- The length of a match that is copied to `op`, without `MINMATCH`. -/
def matchLengthAt (m : Machine) (mem : Bytes) (iend token ip op : ℕ) (dest : Bytes) :
    Except Halt (ℕ × ℕ) :=
  if token &&& mask = mask then do
    let (ip, length) ← matchLength m mem iend (iend + 1) ip mask
    stopIf (m.top dest ≤ op + length) (.outputError ip)
    return (ip, length)
  else return (ip, token &&& mask)

/-- The main loop of `LZ4_decompress_generic`, for `endOnInputSize`, `full` and `noDict`. -/
def decodeLoop (m : Machine) (mem : Bytes) (iend : ℕ) :
    ℕ → ℕ → ℕ → Bytes → Except Halt (ℕ × Bytes)
  | 0, _, _, _ => .error .fuel
  | fuel + 1, ip, op, dest => do
    let oend := dest.length
    let token ← readByte mem ip
    let (ip, length) ← (if token >>> 4 = mask then literalLength m mem iend (iend + 1) (ip + 1) mask
      else pure (ip + 1, token >>> 4) : Except Halt (ℕ × ℕ))
    let cpy := op + length
    if cpy + mfLimit > oend ∨ ip + length + (2 + 1 + lastLiterals) > iend then
      stopIf (ip + length ≠ iend ∨ cpy > oend) (.outputError ip)
      let bytes ← load mem ip length
      let dest ← store dest op bytes
      return (cpy, dest)
    else
      let dest ← wildCopy (some mem) (oend + 1) dest op ip cpy
      let ip := ip + length
      let offset ← readLE16 mem ip
      let ip := ip + 2
      stopIf (cpy < offset) (.outputError ip)
      let (ip, length) ← matchLengthAt m mem iend token ip cpy dest
      let length := length + minMatch
      -- the comparison for a wrapped pointer is made before these four bytes are added
      stopIf (m.top dest ≤ cpy + length) .wrapped
      let dest ← copyMatch dest ip cpy (cpy - offset) length
      decodeLoop m mem iend fuel ip (cpy + length) dest

/-- `LZ4_decompress_safe` of the first `inputSize` bytes of a memory: the number of bytes, and
    the memory behind `dest`. -/
def decompressSafe (m : Machine) (mem : Bytes) (inputSize : ℕ) (dest : Bytes) :
    Except Halt (ℕ × Bytes) :=
  if dest.length = 0 then
    if inputSize = 1 ∧ mem[0]? = some 0 then .ok (0, dest) else .error (.outputError 0)
  else decodeLoop m mem inputSize (inputSize + 1) 0 0 dest

end Lz4Block
