/-
# The compressor of lz4.c

`LZ4_compress_default` and what it calls: a hash table of positions proposes what may be
copied, and what is compared and agrees is put out as sequences.  A pointer into `source` or
`dest` is an index; a read past the source or a write past the room of `dest` stops the run.
The dictionaries of the streaming functions are left out, as `LZ4_compress_default` has none.
-/
import OpenwrtAc.Lz4Format
import OpenwrtAc.Outcome

open Rds ByteCodec LzWindow Outcome

namespace Lz4Block

/-- Why a run gives no result; `fuel` is the bound on the rounds of its loops. -/
inductive Stop where
  | outside
  | fuel
deriving DecidableEq, Repr

/-- `tableType_t`. -/
inductive TableType where
  | byPtr
  | byU32
  | byU16
deriving DecidableEq, Repr

/-- `LZ4_MAX_INPUT_SIZE`. -/
def maxInputSize : ℕ := 0x7E000000

/-- `LZ4_64Klimit`. -/
def limit64K : ℕ := 64 * 2 ^ 10 + (mfLimit - 1)

/-- `LZ4_minLength`. -/
def minLength : ℕ := mfLimit + 1

/-- `LZ4_skipTrigger`. -/
def skipTrigger : ℕ := 6

/-- `LZ4_compressBound`. -/
def compressBound (isize : ℕ) : ℕ :=
  if isize > maxInputSize then 0 else isize + isize / 255 + 16

/-- What one instance of `LZ4_compress_generic` works on.  `room` is `maxOutputSize` where the
    output is limited; where it is not, the bytes that the caller has for it. -/
structure Job where
  is64 : Bool
  limited : Bool
  tableType : TableType
  acceleration : ℕ
  source : Bytes
  room : ℕ

/-- The hash table: a position, or the null pointer. -/
abbrev Table := ℕ → Option ℕ

/-- `LZ4_resetStream`. -/
def TableType.empty : TableType → Table
  | .byPtr, _ => none
  | _, _ => some 0

/-- `LZ4_HASHLOG`, and one more for 16 bits. -/
def TableType.hashLog : TableType → ℕ
  | .byU16 => 13
  | _ => 12

/-- `LZ4_putPositionOnHash`. -/
def putPositionOnHash (tableType : TableType) (p h : ℕ) (table : Table) : Table :=
  let entry := match tableType with
    | .byPtr => p
    | .byU32 => p % 2 ^ 32
    | .byU16 => p % 2 ^ 16
  fun h' => if h' = h then some entry else table h'

/-- The number that a word in memory is. -/
def wordValue (word : Bytes) : ℕ := word.foldr (fun b n => b.toNat + 2 ^ 8 * n) 0

/-- `LZ4_hashSequence`. -/
def hashSequence (sequence : ℕ) (tableType : TableType) : ℕ :=
  (sequence * 2654435761 % 2 ^ 32) >>> (minMatch * 8 - tableType.hashLog)

/-- `LZ4_hashSequence64`. -/
def hashSequence64 (sequence : ℕ) (tableType : TableType) : ℕ :=
  (sequence * 889523592379 % 2 ^ 64) >>> (40 - tableType.hashLog) &&& (2 ^ tableType.hashLog - 1)

/-- `LZ4_NbCommonBytes` of two words that differ: the bytes before the first that does. -/
def nbCommonBytes (diff : Bytes) : ℕ := (diff.takeWhile (· = 0)).length

/-- The bytes of a length that are put out by counting down from it. -/
def lengthBytes : ℕ → ℕ → Bytes
  | 0, len => [UInt8.ofNat len]
  | fuel + 1, len => if 255 ≤ len then 255 :: lengthBytes fuel (len - 255) else [UInt8.ofNat len]

/-- The same, two bytes at a time. -/
def lengthBytes2 : ℕ → ℕ → Bytes
  | 0, len => lengthBytes 1 len
  | fuel + 1, len =>
    if 510 ≤ len then 255 :: 255 :: lengthBytes2 fuel (len - 510) else lengthBytes 1 len

/-- How far `LZ4_wildCopy` goes for a number of bytes. -/
def wildLength (n : ℕ) : ℕ := 8 * max 1 ((n + 7) / 8)

namespace Job

variable (j : Job)

def mflimit : ℕ := j.source.length - mfLimit

def matchlimit : ℕ := j.source.length - lastLiterals

/-- `STEPSIZE`. -/
def stepSize : ℕ := if j.is64 then 8 else 4

/-- The bytes of a word that is read. -/
def readWord (p size : ℕ) : Except Stop Bytes :=
  if p + size ≤ j.source.length then .ok ((j.source.drop p).take size) else .error .outside

/-- `LZ4_hashPosition`. -/
def hashPosition (p : ℕ) : Except Stop ℕ := do
  let word ← j.readWord p j.stepSize
  return if j.is64 then hashSequence64 (wordValue word) j.tableType
    else hashSequence (wordValue word) j.tableType

/-- Whether the words at two places are the same. -/
def agree (p q size : ℕ) : Except Stop Bool := do
  let a ← j.readWord p size
  let b ← j.readWord q size
  return a = b

/-- One of the last comparisons of `LZ4_count`. -/
def countShort (size : ℕ) (p : ℕ × ℕ) : Except Stop (ℕ × ℕ) :=
  if p.1 + (size - 1) < j.matchlimit then do
    if ← j.agree p.2 p.1 size then return (p.1 + size, p.2 + size) else return p
  else return p

/-- The end of `LZ4_count`. -/
def countTail (p : ℕ × ℕ) : Except Stop ℕ := do
  let p ← (if j.is64 then j.countShort 4 p else pure p : Except Stop (ℕ × ℕ))
  let p ← j.countShort 2 p
  let p ← j.countShort 1 p
  return p.1

/-- `LZ4_count` up to `matchlimit`, with the place that `pIn` gets to. -/
def count : ℕ → ℕ → ℕ → Except Stop ℕ
  | 0, _, _ => .error .fuel
  | fuel + 1, pIn, pMatch =>
    if pIn + (j.stepSize - 1) < j.matchlimit then do
      let a ← j.readWord pMatch j.stepSize
      let b ← j.readWord pIn j.stepSize
      let diff := List.zipWith (· ^^^ ·) a b
      if diff.all (· = 0) then count fuel (pIn + j.stepSize) (pMatch + j.stepSize)
      else return pIn + nbCommonBytes diff
    else j.countTail (pIn, pMatch)

/-- Whether what the table has is no match at `ip`. -/
def rejects (entry : Option ℕ) (ip : ℕ) : Except Stop Bool :=
  match entry with
  | none => return true
  | some m =>
    if j.tableType ≠ .byU16 ∧ m + maxDistance < ip then return true
    else do
      let same ← j.agree m ip 4
      return !same

/-- The search for a match: where it is, what it is a copy of, and the table. -/
def findMatch : ℕ → ℕ → ℕ → ℕ → ℕ → Table → Except Stop (Option (ℕ × ℕ × Table))
  | 0, _, _, _, _, _ => .error .fuel
  | fuel + 1, ip, step, searchMatchNb, h, table => do
    let forwardIp := ip + step
    if forwardIp > j.mflimit then return none
    let entry := table h
    let forwardH ← j.hashPosition forwardIp
    let table := putPositionOnHash j.tableType ip h table
    if ← j.rejects entry ip then
      findMatch fuel forwardIp (searchMatchNb >>> skipTrigger) ((searchMatchNb + 1) % 2 ^ 32)
        forwardH table
    else return entry.map fun m => (ip, m, table)

/-- The loop that takes a match back over literals. -/
def catchUp (anchor : ℕ) : ℕ → ℕ → ℕ × ℕ
  | ip + 1, m + 1 =>
    if anchor < ip + 1 ∧ j.source[ip]? = j.source[m]? then catchUp anchor ip m else (ip + 1, m + 1)
  | ip, m => (ip, m)

def put (out new : Bytes) : Except Stop Bytes :=
  if out.length + new.length ≤ j.room then .ok (out ++ new) else .error .outside

/-- `LZ4_wildCopy` from the source; what goes too far is overwritten. -/
def wildCopy (out : Bytes) (p n : ℕ) : Except Stop Bytes :=
  if p + wildLength n ≤ j.source.length ∧ out.length + wildLength n ≤ j.room then
    .ok (out ++ (j.source.drop p).take n)
  else .error .outside

/-- The token of literals and what is behind it. -/
def literalBytes (litLength : ℕ) : Bytes :=
  if mask ≤ litLength then UInt8.ofNat (mask <<< 4) :: lengthBytes litLength (litLength - mask)
  else [UInt8.ofNat (litLength <<< 4)]

/-- The literals from `anchor` to `ip`; none where the output is full. -/
def putLiterals (out : Bytes) (anchor ip : ℕ) : Except Stop (Option Bytes) := do
  let litLength := ip - anchor
  if j.limited ∧
      out.length + 1 + litLength + (2 + 1 + lastLiterals) + litLength / 255 > j.room then
    return none
  let out ← j.put out (literalBytes litLength)
  return some (← j.wildCopy out anchor litLength)

/-- The offset and the length of a match behind the token at `tok`, and where it ends. -/
def putMatch (out : Bytes) (tok ip m : ℕ) : Except Stop (Option (ℕ × Bytes)) := do
  let out ← j.put out (le16 (ip - m))
  let ip' ← j.count (j.source.length + 1) (ip + minMatch) (m + minMatch)
  let matchLength := ip' - (ip + minMatch)
  if j.limited ∧ out.length + (1 + lastLiterals) + matchLength >>> 8 > j.room then return none
  if mask ≤ matchLength then
    let out ← j.put (out.modify tok (· + UInt8.ofNat mask))
      (lengthBytes2 matchLength (matchLength - mask))
    return some (ip', out)
  return some (ip', out.modify tok (· + UInt8.ofNat matchLength))

/-- What is put out after the last match. -/
def putLast (out : Bytes) (anchor : ℕ) : Except Stop (Option Bytes) := do
  let lastRun := j.source.length - anchor
  if j.limited ∧ out.length + lastRun + 1 + (lastRun + 255 - mask) / 255 > j.room then
    return none
  let out ← j.put out (literalBytes lastRun)
  return some (← j.put out (j.source.drop anchor))

end Job

/-- How the main loop goes on: with a search, or with a match right behind the last one. -/
inductive Next where
  | search (ip forwardH : ℕ)
  | found (m : ℕ)

/-- The variables of the main loop. -/
structure State where
  anchor : ℕ
  next : Next
  table : Table
  out : Bytes

/-- How a round ends: the output is full, there are only literals left, or it goes on. -/
inductive Round where
  | full
  | last (anchor : ℕ) (out : Bytes)
  | more (s : State)

namespace Job

variable (j : Job)

/-- What the table has for `ip`, if it is a match. -/
def nextMatch (entry : Option ℕ) (ip : ℕ) : Except Stop (Option ℕ) :=
  match entry with
  | none => return none
  | some m =>
    if m + maxDistance ≥ ip then do
      let same ← j.agree m ip 4
      return if same then some m else none
    else return none

/-- What follows a match that ends at `ip`. -/
def afterMatch (ip : ℕ) (table : Table) (out : Bytes) : Except Stop Round := do
  if ip > j.mflimit then return .last ip out
  let h ← j.hashPosition (ip - 2)
  let table := putPositionOnHash j.tableType (ip - 2) h table
  let h ← j.hashPosition ip
  let entry := table h
  let table := putPositionOnHash j.tableType ip h table
  match ← j.nextMatch entry ip with
  | some m => return .more ⟨ip, .found m, table, out⟩
  | none =>
    let forwardH ← j.hashPosition (ip + 1)
    return .more ⟨ip, .search (ip + 1) forwardH, table, out⟩

/-- From `_next_match` on. -/
def sequence (tok ip m : ℕ) (table : Table) (out : Bytes) : Except Stop Round := do
  match ← j.putMatch out tok ip m with
  | none => return .full
  | some (ip, out) => j.afterMatch ip table out

/-- One round of the main loop. -/
def round (s : State) : Except Stop Round :=
  match s.next with
  | .search ip forwardH => do
    match ← j.findMatch (j.source.length + 1) ip 1 (j.acceleration <<< skipTrigger % 2 ^ 32)
        forwardH s.table with
    | none => return .last s.anchor s.out
    | some (ip, m, table) =>
      let (ip, m) := j.catchUp s.anchor ip m
      match ← j.putLiterals s.out s.anchor ip with
      | none => return .full
      | some out => j.sequence s.out.length ip m table out
  | .found m => do
    let out ← j.put s.out [0]
    j.sequence s.out.length s.anchor m s.table out

def mainLoop : ℕ → State → Except Stop (Option Bytes)
  | 0, _ => .error .fuel
  | fuel + 1, s => do
    match ← j.round s with
    | .full => return none
    | .last anchor out => j.putLast out anchor
    | .more s => mainLoop fuel s

/-- `LZ4_compress_generic`; none for a result of 0. -/
def compressGeneric : Except Stop (Option Bytes) := do
  let inputSize := j.source.length
  if inputSize > maxInputSize then return none
  if j.tableType = .byU16 ∧ inputSize ≥ limit64K then return none
  if inputSize < minLength then j.putLast [] 0
  else do
    let h ← j.hashPosition 0
    let table := putPositionOnHash j.tableType 0 h j.tableType.empty
    let forwardH ← j.hashPosition 1
    j.mainLoop (inputSize + 1) ⟨0, .search 1 forwardH, table, []⟩

end Job

/-- `LZ4_compress_fast_extState`, and `LZ4_compress_fast` as well. -/
def compressFast (is64 : Bool) (source : Bytes) (maxOutputSize acceleration : ℕ) :
    Except Stop (Option Bytes) :=
  let tableType := if source.length < limit64K then .byU16 else if is64 then .byU32 else .byPtr
  let acceleration := if acceleration < 1 then 1 else acceleration
  let limited := decide (maxOutputSize < compressBound source.length)
  Job.compressGeneric ⟨is64, limited, tableType, acceleration, source, maxOutputSize⟩

/-- `LZ4_compress_default`. -/
def compressDefault (is64 : Bool) (source : Bytes) (maxOutputSize : ℕ) :
    Except Stop (Option Bytes) :=
  compressFast is64 source maxOutputSize 1

end Lz4Block
