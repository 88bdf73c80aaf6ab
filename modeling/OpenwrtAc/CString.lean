/-
# Strings of C

The bytes of strings, and the functions of the kernel's string library that the
control files read their lines with.  A string is the list of its bytes without the
0 behind it.
-/
import Mathlib.Algebra.Group.Nat.Defs
import Mathlib.Data.Int.Notation
import Mathlib.Tactic.Common

namespace CString

/-- The bytes of a string of the source. -/
def asciiBytes (s : String) : List UInt8 := s.toList.map fun c => c.toNat.toUInt8

/-- The string that stands in a buffer: it ends at the first 0. -/
def cstr (buf : List UInt8) : List UInt8 := buf.takeWhile (· != 0)

/-- `strncmp` with the length of the second string: 0. -/
def startsWith (str : List UInt8) (pat : String) : Bool := (asciiBytes pat).isPrefixOf str

/-- `strstr`: what begins with the first occurrence. -/
def strstr (pat : List UInt8) : List UInt8 → Option (List UInt8)
  | [] => if pat.isPrefixOf [] then some [] else none
  | c :: str => if pat.isPrefixOf (c :: str) then some (c :: str) else strstr pat str

/-- `isspace`. -/
def isSpace (c : UInt8) : Bool := c == 0x20 || (9 ≤ c && c ≤ 13) || c == 0xa0

/-- `isdigit`. -/
def isDigit (c : UInt8) : Bool := 48 ≤ c && c ≤ 57

/-- `skip_spaces`. -/
def skipSpaces (str : List UInt8) : List UInt8 := str.dropWhile isSpace

/-- `simple_strtoul` with the base 10, cut to an `unsigned int`. -/
def strtou32 (digits : List UInt8) : UInt32 :=
  digits.foldl (fun n c => n * 10 + (c.toNat - 48).toUInt32) 0

/-- What `sscanf` stores: for `%u` and for `%s`. -/
inductive Scanned where
  | u (n : UInt32)
  | s (text : List UInt8)
deriving DecidableEq, Repr

/-- `sscanf`: what it stores, one after the other, until the string and the format differ. -/
def sscanf : List Char → List UInt8 → List Scanned
  | '%' :: 'u' :: fmt, str =>
    let str := skipSpaces str
    let digits := str.takeWhile isDigit
    if digits.isEmpty then [] else .u (strtou32 digits) :: sscanf fmt (str.dropWhile isDigit)
  | '%' :: 's' :: fmt, str =>
    if str.isEmpty then []
    else
      let str := skipSpaces str
      .s (str.takeWhile fun c => !isSpace c) :: sscanf fmt (str.dropWhile fun c => !isSpace c)
  | c :: fmt, str =>
    if isSpace c.toNat.toUInt8 then sscanf fmt (skipSpaces str)
    else
      match str with
      | [] => []
      | d :: str => if c.toNat.toUInt8 == d then sscanf fmt str else []
  | [], _ => []

/-! ## Single conversions -/

/-- The number that decimal digits stand for. -/
def digitsValue (digits : List UInt8) : ℕ := digits.foldl (fun n c => n * 10 + (c.toNat - 48)) 0

/-- The digits that a conversion to a number reads, and what follows them. -/
def scanDigits (str : List UInt8) : Option (List UInt8 × List UInt8) :=
  let str := skipSpaces str
  if (str.takeWhile isDigit).isEmpty then none
  else some (str.takeWhile isDigit, str.dropWhile isDigit)

/-- `%u`. -/
def scanU (str : List UInt8) : Option (UInt32 × List UInt8) :=
  (scanDigits str).map fun (digits, str) => (strtou32 digits, str)

/-- `%llu`: the digits are read modulo `2 ^ 64`. -/
def scanLlu (str : List UInt8) : Option (ℕ × List UInt8) :=
  (scanDigits str).map fun (digits, str) => (digitsValue digits % 2 ^ 64, str)

/-- ` %c`. -/
def scanC (str : List UInt8) : Option (UInt8 × List UInt8) :=
  match skipSpaces str with
  | [] => none
  | c :: str => some (c, str)

/-- A character of the format. -/
def scanChar (c : UInt8) : List UInt8 → Option (List UInt8)
  | [] => none
  | d :: str => if d == c then some str else none

/-- `strchr`: what stands before the first `c`, and behind it. -/
def strchr (c : UInt8) (str : List UInt8) : Option (List UInt8 × List UInt8) :=
  if c ∈ str then some (str.takeWhile (· != c), (str.dropWhile (· != c)).tail) else none

/-- `strrchr`: what stands before the last `c`, and behind it. -/
def strrchr (c : UInt8) (str : List UInt8) : Option (List UInt8 × List UInt8) :=
  (strchr c str.reverse).map fun (behind, before) => (before.reverse, behind.reverse)

end CString
