/-
# What nxjson takes for JSON

The texts that the parser accepts and the trees they stand for, without the parser: each
relation is between a text and what is left of it.  Commas count as blanks, and a key may be
left without a value at the end of its object; a string that has a zero ends there.
-/
import OpenwrtAc.NxJsonParse

open CString

namespace Tbq.Nx

/-- To the end of the line, or to the first star with a slash behind it. -/
inductive Comment : List UInt8 → List UInt8 → Prop
  | line {body rest : List UInt8} : newline ∉ body →
      Comment (slash :: slash :: (body ++ newline :: rest)) rest
  | block {body rest : List UInt8} : ¬ [star, slash] <:+: body →
      Comment (slash :: star :: (body ++ star :: slash :: rest)) rest

inductive Blank (blank : UInt8 → Prop) : List UInt8 → List UInt8 → Prop
  | done (l : List UInt8) : Blank blank l l
  | char {c : UInt8} {l rest : List UInt8} : blank c → Blank blank l rest →
      Blank blank (c :: l) rest
  | comment {l m rest : List UInt8} : Comment l m → Blank blank m rest → Blank blank l rest

/-- The number that some hexadecimal digits stand for. -/
def hexValue (digits : List UInt8) : Option ℕ :=
  digits.foldlM (fun n c => (hexVal c).map fun h => n <<< 4 ||| h) 0

/-- A code point, as it stands behind a backslash. -/
inductive Unicode : ℕ → List UInt8 → List UInt8 → Prop
  | single {n : ℕ} {digits rest : List UInt8} : digits.length = 4 → hexValue digits = some n →
      n &&& 0xfc00 ≠ 0xd800 → Unicode n (letterU :: (digits ++ rest)) rest
  | pair {n m : ℕ} {digits digits' rest : List UInt8} :
      digits.length = 4 → hexValue digits = some n → n &&& 0xfc00 = 0xd800 →
      digits'.length = 4 → hexValue digits' = some m → m &&& 0xfc00 = 0xdc00 →
      Unicode (0x10000 + (n - 0xd800) <<< 10 + (m - 0xdc00))
        (letterU :: (digits ++ backslash :: letterU :: (digits' ++ rest))) rest

/-- What stands behind the opening quote of a string. -/
inductive Quoted : List UInt8 → List UInt8 → List UInt8 → Prop
  | close (rest : List UInt8) : Quoted [] (quote :: rest) rest
  | plain {c : UInt8} {out l rest : List UInt8} : c ≠ 0 → c ≠ quote → c ≠ backslash →
      Quoted out l rest → Quoted (c :: out) (c :: l) rest
  | escape {e b : UInt8} {out l rest : List UInt8} : escaped e = some b → Quoted out l rest →
      Quoted (b :: out) (backslash :: e :: l) rest
  | unicode {n : ℕ} {bytes out l m rest : List UInt8} : Unicode n l m →
      unicodeToUtf8 n = some bytes → Quoted out m rest →
      Quoted (bytes ++ out) (backslash :: l) rest
  | other {e : UInt8} {out l rest : List UInt8} : escaped e = none → e ≠ letterU →
      Quoted out (e :: l) rest → Quoted (backslash :: out) (backslash :: e :: l) rest

/-- The string of C that the bytes make. -/
def cut (out : List UInt8) : List UInt8 := out.takeWhile (· ≠ 0)

/-- A key and its colon. -/
inductive Key : List UInt8 → List UInt8 → List UInt8 → Prop
  | key {out l m spaces rest : List UInt8} : Blank isKeyBlank l (quote :: m) →
      Quoted out m (spaces ++ colon :: rest) → (∀ c ∈ spaces, c ≠ 0 ∧ isWhitespace c) →
      Key (cut out) l rest

/-- What is parsed: a value, or the place before a closing bracket where none is, and what is
    behind the opening brace or bracket. -/
inductive Piece
  | value (v : Option NxJson)
  | members (ms : List (List UInt8 × NxJson))
  | items (vs : List NxJson)

inductive Parses (strtol : Strtol) : Piece → List UInt8 → List UInt8 → Prop
  | object {ms : List (List UInt8 × NxJson)} {l m rest : List UInt8} :
      Blank isBlank l (openBrace :: m) → Parses strtol (.members ms) m rest →
      Parses strtol (.value (some (.object ms))) l rest
  | array {vs : List NxJson} {l m rest : List UInt8} :
      Blank isBlank l (openBracket :: m) → Parses strtol (.items vs) m rest →
      Parses strtol (.value (some (.array vs))) l rest
  | nothing {l rest : List UInt8} : Blank isBlank l (closeBracket :: rest) →
      Parses strtol (.value none) l (closeBracket :: rest)
  | string {out l m rest : List UInt8} : Blank isBlank l (quote :: m) → Quoted out m rest →
      Parses strtol (.value (some (.string (cut out)))) l rest
  | integer {c : UInt8} {l m : List UInt8} : Blank isBlank l (c :: m) → c = minus ∨ isDigit c →
      (strtol (c :: m)).2 ≠ 0 →
      Parses strtol (.value (some (.integer (strtol (c :: m)).1))) l
        ((c :: m).drop (strtol (c :: m)).2)
  | true {l rest : List UInt8} : Blank isBlank l (asciiBytes "true" ++ rest) →
      Parses strtol (.value (some (.bool 1))) l rest
  | false {l rest : List UInt8} : Blank isBlank l (asciiBytes "false" ++ rest) →
      Parses strtol (.value (some (.bool 0))) l rest
  | null {l rest : List UInt8} : Blank isBlank l (asciiBytes "null" ++ rest) →
      Parses strtol (.value (some .null)) l rest
  | closed {l rest : List UInt8} : Blank isKeyBlank l (closeBrace :: rest) →
      Parses strtol (.members []) l rest
  | valueless {key l rest : List UInt8} : Key key l (closeBrace :: rest) →
      Parses strtol (.members []) l rest
  | member {key : List UInt8} {v : NxJson} {ms : List (List UInt8 × NxJson)}
      {l m m' rest : List UInt8} : Key key l m → m.head? ≠ some closeBrace →
      Parses strtol (.value (some v)) m m' → Parses strtol (.members ms) m' rest →
      Parses strtol (.members ((key, v) :: ms)) l rest
  | last {v : Option NxJson} {l rest : List UInt8} :
      Parses strtol (.value v) l (closeBracket :: rest) → Parses strtol (.items v.toList) l rest
  | item {v : NxJson} {vs : List NxJson} {l m rest : List UInt8} :
      Parses strtol (.value (some v)) l m → m.head? ≠ some closeBracket →
      Parses strtol (.items vs) m rest → Parses strtol (.items (v :: vs)) l rest

end Tbq.Nx
