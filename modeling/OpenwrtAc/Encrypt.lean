/-
# The codec of lua-encrypt

`libencrypt.c` and `luawrap.c`: a string is sent behind a header with its length and how
it was encoded, as it is (0), with words xored (1) or compressed (2).  The machine is
little-endian; an `int` has 32 bits.  The functions of `lz4.c` are parameters.
-/
import OpenwrtAc.MachineInt
import OpenwrtAc.Outcome
import OpenwrtAc.Lz4Format
import Mathlib.Tactic.Linarith

open MachineInt Outcome Rds Lz4Block

namespace Encrypt

/-- Why a call does not return: `BUG_ON` ends the process; C leaves it undefined. -/
inductive Abort where
  | bugOn
  | undefined
deriving DecidableEq, Repr

/-- What is returned behind a `nil`. -/
inductive Err where
  | invalidLen (len : ℕ)
  | invalidLens (slen hlen : ℕ)
  | invalidType (type : ℤ)
  | decodeFail
  | tooShort (len : ℕ)
deriving DecidableEq, Repr

/-- The three functions of `lz4.c`: `compressDefault` has what is written to `dest` (nothing, when
    it does not fit), `decompressSafe` what is written or, for a return of `-n - 1`, the `n`. -/
structure Lz4 where
  compressBound : ℕ → ℕ
  compressDefault (source : Bytes) (maxDestSize : ℕ) : Bytes
  decompressSafe (source : Bytes) (maxDecompressedSize : ℕ) : Except ℕ Bytes

/-- `LZ4_MAX_INPUT_SIZE`. -/
def lz4MaxInputSize : ℕ := 0x7E000000

/-- What `lz4.h` says of them. -/
structure Lz4.Lawful (z : Lz4) : Prop where
  bound : ∀ n ≤ lz4MaxInputSize, z.compressBound n = n + n / 255 + 16
  fits : ∀ s : Bytes, s.length ≤ lz4MaxInputSize → ∀ m, z.compressBound s.length ≤ m →
    z.compressDefault s m ≠ [] ∧ (z.compressDefault s m).length ≤ z.compressBound s.length
  inverts : ∀ s : Bytes, s.length ≤ lz4MaxInputSize → ∀ m, z.compressBound s.length ≤ m →
    ∀ n, s.length ≤ n → z.decompressSafe (z.compressDefault s m) n = .ok s

/-! ## Words -/

def seed1 : UInt32 := 0xBCEF3A7E

/-- `xor`, of whole words. -/
def xor (se : UInt32) : Bytes → Bytes
  | a :: b :: c :: d :: rest =>
    (a ^^^ se.toUInt8) :: (b ^^^ (se >>> 8).toUInt8) :: (c ^^^ (se >>> 16).toUInt8) ::
      (d ^^^ (se >>> 24).toUInt8) :: xor se rest
  | rest => rest

/-- `htonl` of a word, stored. -/
def htonl (h : ℕ) : Bytes :=
  [(h / 2 ^ 24).toUInt8, (h / 2 ^ 16).toUInt8, (h / 2 ^ 8).toUInt8, h.toUInt8]

/-- `ntohl` of the word at the start. -/
def ntohl : Bytes → ℕ
  | a :: b :: c :: d :: _ => a.toNat * 2 ^ 24 + b.toNat * 2 ^ 16 + c.toNat * 2 ^ 8 + d.toNat
  | _ => 0

/-- `encrypt_set_header`. -/
def setHeader (type len : ℕ) : ℕ := (len <<< 4 ||| type) % 2 ^ 32

/-- `encrypt_get_header`: the type and the length. -/
def getHeader (h : ℕ) : ℕ × ℕ := (h &&& 0x0f, h >>> 4)

/-! ## Encoding and decoding -/

/-- `sizeof(encrypt_header_t)`, and `sizeof(int)` as well. -/
def wordSize : ℕ := 4

/-- `10*1024*1024`. -/
def maxLen : ℕ := 10 * 1024 * 1024

/-- `encrypt_encode01`. -/
def encode01 (type : ℕ) (s : Bytes) : Except Abort Bytes :=
  let head := htonl (setHeader type (wordSize + s.length))
  match type with
  | 0 => .ok (head ++ s)
  | 1 => .ok (head ++ xor seed1 s)
  | _ => .error .bugOn

/-- `encrypt_encode2`. -/
def encode2 (z : Lz4) (type : ℕ) (buf : Bytes) : Except Abort Bytes := do
  stopIf (type ≠ 2) .bugOn
  let max := z.compressBound buf.length + wordSize
  stopIf (max > maxLen) .bugOn
  let out := z.compressDefault buf max
  stopIf (out.length = 0 ∨ out.length ≥ max) .bugOn
  return htonl (setHeader type (out.length + wordSize + wordSize)) ++ htonl buf.length ++ out

/-- `encrypt_decode01`, of a string that is at least as long as a header. -/
def decode01 (type : ℕ) (buf : Bytes) : Except Abort Bytes := do
  let h := getHeader (ntohl buf)
  stopIf (type ≠ h.1 ∨ buf.length ≠ h.2) .bugOn
  let total := buf.length - wordSize
  stopIf (total = 0 ∨ total > maxLen) .bugOn
  match type with
  | 0 => return buf.drop wordSize
  | 1 => return xor seed1 (buf.drop wordSize)
  | _ => throw .bugOn

/-- `encrypt_decode2`; none is `NULL`. -/
def decode2 (z : Lz4) (type : ℕ) (buf : Bytes) : Except Abort (Option Bytes) := do
  if buf.length ≤ wordSize + wordSize then return none
  stopIf (type ≠ 2) .bugOn
  let orig := i32 (ntohl (buf.drop wordSize))
  let h := getHeader (ntohl buf)
  if h.2 ≠ buf.length then return none
  if orig ≥ maxLen then return none
  -- `malloc` of a length that is negative
  stopIf (orig + 2 < 0) .bugOn
  match z.decompressSafe (buf.drop (wordSize + wordSize)) (orig + 2).toNat with
  | .ok n =>
    stopIf (n.length > orig) .bugOn
    if n.length ≠ orig then return none
    return some n
  | .error code =>
    stopIf (-(code : ℤ) - 1 > orig) .bugOn
    if -(code : ℤ) - 1 ≠ orig then return none
    -- a string of a negative length
    throw .undefined

/-- `l_encode`. -/
def lEncode (z : Lz4) (type : ℤ) (s : Bytes) : Except Abort (Except Err Bytes) :=
  if s.length = 0 ∨ s.length > maxLen then .ok (.error (.invalidLen s.length))
  else if type = 0 ∨ type = 1 then return .ok (← encode01 type.toNat s)
  else if type = 2 then return .ok (← encode2 z type.toNat s)
  else .ok (.error (.invalidType type))

/-- `l_decode`; a string ends with a 0 that is not counted. -/
def lDecode (z : Lz4) (s : Bytes) : Except Abort (Except Err Bytes) := do
  stopIf (s.length + 1 < wordSize) .undefined
  let h := getHeader (ntohl (s ++ [0]))
  if s.length ≤ 4 ∨ h.2 ≠ s.length then return .error (.invalidLens s.length h.2)
  if h.1 = 0 ∨ h.1 = 1 then return .ok (← decode01 h.1 s)
  if h.1 = 2 then
    match ← decode2 z h.1 s with
    | none => return .error .decodeFail
    | some n => return .ok n
  return .error (.invalidType h.1)

/-- `l_header`: the length and the type. -/
def lHeader (s : Bytes) : Except Err (ℕ × ℕ) :=
  if s.length < 4 then .error (.tooShort s.length)
  else
    let h := getHeader (ntohl s)
    .ok (h.2, h.1)

/-! ## Headers -/

theorem htonl_length (h : ℕ) : (htonl h).length = wordSize := rfl

/-- A header is read back. -/
theorem ntohl_htonl {h : ℕ} (hlt : h < 2 ^ 32) (rest : Bytes) : ntohl (htonl h ++ rest) = h := by
  simp only [htonl, List.cons_append, List.nil_append, ntohl, Nat.toUInt8, UInt8.toNat_ofNat']
  omega

/-- The header is the length with the type behind it. -/
theorem setHeader_eq {type len : ℕ} (ht : type < 16) (hl : len < 2 ^ 28) :
    setHeader type len = len * 16 + type := by
  unfold setHeader
  rw [← Nat.shiftLeft_add_eq_or_of_lt (by simpa using ht), Nat.shiftLeft_eq, Nat.mod_eq_of_lt (by omega)]

/-- The type and the length of a header. -/
theorem getHeader_eq (h : ℕ) : getHeader h = (h % 16, h / 16) := by
  unfold getHeader
  rw [show 0x0f = 2 ^ 4 - 1 from rfl, Nat.and_two_pow_sub_one_eq_mod, Nat.shiftRight_eq_div_pow]

/-- A header that was set is read. -/
theorem getHeader_setHeader {type len : ℕ} (ht : type < 16) (hl : len < 2 ^ 28) (rest : Bytes) :
    getHeader (ntohl (htonl (setHeader type len) ++ rest)) = (type, len) := by
  rw [setHeader_eq ht hl, ntohl_htonl (by omega), getHeader_eq]
  ext <;> simp only <;> omega

/-- The binding reads back the header. -/
theorem lHeader_setHeader {type len : ℕ} (ht : type < 16) (hl : len < 2 ^ 28) (rest : Bytes) :
    lHeader (htonl (setHeader type len) ++ rest) = .ok (len, type) := by
  unfold lHeader
  rw [if_neg (by simp [htonl]), getHeader_setHeader ht hl]

/-- The cipher keeps the length. -/
theorem xor_length (se : UInt32) (s : Bytes) : (xor se s).length = s.length := by
  fun_induction xor se s with
  | case1 a b c d rest ih => simp [ih]
  | case2 rest _ => rfl

/-- The words that are xored twice are back; the tail is never touched. -/
theorem xor_xor (se : UInt32) (s : Bytes) : xor se (xor se s) = s := by
  fun_induction xor se s with
  | case1 a b c d rest ih => simp only [xor, ih, UInt8.xor_assoc, UInt8.xor_self, UInt8.xor_zero]
  | case2 rest h =>
    unfold xor
    split
    · rename_i a b c d rest'
      exact (h a b c d rest' rfl).elim
    · rfl

/-! ## Blocks of literals -/

/-- Reads the bytes of a length. -/
def readLength : ℕ → Bytes → ℕ × Bytes
  | n, b :: rest => if b = 255 then readLength (n + 255) rest else (n + b.toNat, rest)
  | n, [] => (n, [])

/-- The literals of a block that has no sequence. -/
def readBlock : Bytes → Except ℕ Bytes
  | [] => .error 0
  | token :: rest =>
    let (n, s) := if token.toNat / 16 < mask then (token.toNat / 16, rest) else readLength mask rest
    if s.length = n then .ok s else .error 0

/-- What `lz4.c` does with a string of less than `LZ4_minLength` bytes, done with every string. -/
def literals : Lz4 where
  compressBound n := n + n / 255 + 16
  compressDefault source m :=
    if source.length + source.length / 255 + 16 ≤ m then lastCode source else []
  decompressSafe source m := do
    let s ← readBlock source
    if s.length ≤ m then return s else throw 0

/-- The extension bytes of a length are read. -/
theorem readLength_replicate (k n : ℕ) (rest : Bytes) :
    readLength n (List.replicate k 255 ++ rest) = readLength (n + 255 * k) rest := by
  induction k generalizing n with
  | zero => rfl
  | succ k ih =>
    rw [List.replicate_succ, List.cons_append, readLength, if_pos rfl, ih]
    congr 1
    omega

/-- The bytes of a length are read. -/
theorem readLength_extra {n : ℕ} (h : mask ≤ n) (rest : Bytes) :
    readLength mask (extra n ++ rest) = (n, rest) := by
  have hlast : (UInt8.ofNat ((n - mask) % 255)).toNat = (n - mask) % 255 := by
    rw [UInt8.toNat_ofNat']
    omega
  have hne : UInt8.ofNat ((n - mask) % 255) ≠ 255 := by
    intro he
    have heq := congrArg UInt8.toNat he
    rw [hlast] at heq
    change (n - mask) % 255 = 255 at heq
    omega
  rw [extra_of_le h, List.append_assoc, readLength_replicate, List.singleton_append, readLength,
    if_neg hne, hlast]
  congr 1
  omega

/-- The last literals of a block are read. -/
theorem readBlock_lastCode (s : Bytes) : readBlock (lastCode s) = .ok s := by
  have htoken : (token s.length 0).toNat / 16 = min s.length mask := by
    rw [toNat_token]
    omega
  have hread : (if min s.length mask < mask then (min s.length mask, extra s.length ++ s)
      else readLength mask (extra s.length ++ s)) = (s.length, s) := by
    by_cases h : s.length < mask
    · rw [if_pos (by omega), extra_of_lt h, min_eq_left h.le]
      rfl
    · rw [if_neg (by omega), readLength_extra (by omega)]
  unfold lastCode readBlock
  simp only [htoken, hread, if_true]

/-- Blocks of literals are a lawful compression. -/
theorem literals_lawful : literals.Lawful where
  bound _ _ := rfl
  fits s _ m hm := by
    change (if s.length + s.length / 255 + 16 ≤ m then lastCode s else []) ≠ [] ∧ _
    change s.length + s.length / 255 + 16 ≤ m at hm
    have hlen : (lastCode s).length ≤ s.length + s.length / 255 + 16 := by
      rw [length_lastCode, length_extra]
      unfold mask
      split <;> omega
    simp only [literals, if_pos hm]
    exact ⟨by simp [lastCode], by omega⟩
  inverts s _ m hm n hn := by
    change s.length + s.length / 255 + 16 ≤ m at hm
    simp only [literals, if_pos hm, readBlock_lastCode]
    change (if s.length ≤ n then _ else _) = _
    rw [if_pos hn]
    rfl

/-! ## The round trip -/

/-- What was encoded under `s`: it is decoded to `s`, and `header` tells its length and its type. -/
def Encoded (z : Lz4) (type : ℤ) (s e : Bytes) : Prop :=
  lDecode z e = .ok (.ok s) ∧ lHeader e = .ok (e.length, type.toNat)

/-- `l_decode` of a string behind its header. -/
theorem lDecode_headed (z : Lz4) {type : ℕ} {body : Bytes} (ht : type < 16) (hb : body ≠ [])
    (hl : wordSize + body.length < 2 ^ 28) :
    lDecode z (htonl (setHeader type (wordSize + body.length)) ++ body) =
      if type = 0 ∨ type = 1 then
        (decode01 type (htonl (setHeader type (wordSize + body.length)) ++ body)).map .ok
      else if type = 2 then
        (decode2 z type (htonl (setHeader type (wordSize + body.length)) ++ body)).map fun
          | none => .error .decodeFail
          | some n => .ok n
      else .ok (.error (.invalidType type)) := by
  have hpos := List.length_pos_iff.mpr hb
  have hlen : (htonl (setHeader type (wordSize + body.length)) ++ body).length = wordSize + body.length := by
    rw [List.length_append, htonl_length]
  unfold lDecode
  rw [stopIf_of_not (by rw [hlen]; omega), List.append_assoc, getHeader_setHeader ht hl]
  change (if _ ∨ wordSize + body.length ≠ _ then _ else _) = _
  rw [if_neg (by rw [hlen, wordSize]; omega)]
  split
  · cases decode01 type _ <;> rfl
  · split
    · cases decode2 z type _ with
      | error e => rfl
      | ok o => cases o <;> rfl
    · rfl

/-- `encrypt_decode01` of a string whose header is right. -/
theorem decode01_headed {type : ℕ} {buf : Bytes} (h1 : getHeader (ntohl buf) = (type, buf.length))
    (h2 : wordSize < buf.length) (h3 : buf.length - wordSize ≤ maxLen) :
    decode01 type buf =
      if type = 0 then .ok (buf.drop wordSize)
      else if type = 1 then .ok (xor seed1 (buf.drop wordSize))
      else .error .bugOn := by
  have hs1 : stopIf (type ≠ (getHeader (ntohl buf)).1 ∨ buf.length ≠ (getHeader (ntohl buf)).2) Abort.bugOn =
      .ok () := stopIf_of_not (by rw [h1]; simp)
  have hs2 : stopIf (buf.length - wordSize = 0 ∨ buf.length - wordSize > maxLen) Abort.bugOn = .ok () :=
    stopIf_of_not (by omega)
  unfold decode01
  simp only [hs1, hs2]
  obtain _ | _ | n := type
  · rfl
  · rfl
  · rfl

/-- Types 0 and 1. -/
theorem encode01_encoded (z : Lz4) {type : ℕ} {s : Bytes} (ht : type = 0 ∨ type = 1) (hs : s ≠ [])
    (hl : s.length ≤ maxLen) : ∃ e, lEncode z type s = .ok (.ok e) ∧ Encoded z type s e := by
  have hpos := List.length_pos_iff.mpr hs
  -- the words of the string are its own inverse
  obtain ⟨f, hf, hinv⟩ : ∃ f : Bytes → Bytes, (∀ s, (f s).length = s.length) ∧ (∀ s, f (f s) = s) ∧
      (∀ s, encode01 type s = .ok (htonl (setHeader type (wordSize + s.length)) ++ f s)) ∧
      ∀ buf, getHeader (ntohl buf) = (type, buf.length) → wordSize < buf.length →
        buf.length - wordSize ≤ maxLen → decode01 type buf = .ok (f (buf.drop wordSize)) := by
    obtain rfl | rfl := ht
    · exact ⟨id, fun _ => rfl, fun _ => rfl, fun _ => rfl, fun buf h1 h2 h3 => decode01_headed h1 h2 h3⟩
    · exact ⟨xor seed1, xor_length seed1, xor_xor seed1, fun _ => rfl,
        fun buf h1 h2 h3 => decode01_headed h1 h2 h3⟩
  obtain ⟨hinv, henc, hdec⟩ := hinv
  have ht16 : type < 16 := by omega
  have hlen : (f s).length = s.length := hf s
  have hne : f s ≠ [] := by
    rw [← List.length_pos_iff, hlen]
    exact hpos
  have hl28 : wordSize + (f s).length < 2 ^ 28 := by
    rw [hlen, wordSize]
    simp only [maxLen] at hl
    omega
  refine ⟨htonl (setHeader type (wordSize + (f s).length)) ++ f s, ?_, ?_, ?_⟩
  · unfold lEncode
    rw [if_neg (by omega), if_pos (by omega), Int.toNat_natCast, henc s, hlen]
    rfl
  · rw [lDecode_headed z ht16 hne hl28, if_pos ht, hdec]
    · rw [List.drop_left' (htonl_length _), hinv]
      rfl
    · rw [getHeader_setHeader ht16 hl28, List.length_append, htonl_length]
    · rw [List.length_append, htonl_length]
      omega
    · rw [List.length_append, htonl_length, Nat.add_sub_cancel_left, hlen]
      exact hl
  · rw [lHeader_setHeader ht16 hl28, List.length_append, htonl_length, Int.toNat_natCast]

/-- `encrypt_decode2` of a string whose two numbers are right. -/
theorem decode2_headed {z : Lz4} {buf s : Bytes} (hb : wordSize + wordSize < buf.length)
    (h1 : getHeader (ntohl buf) = (2, buf.length)) (ho : ntohl (buf.drop wordSize) = s.length)
    (hs : s.length < maxLen) (hd : z.decompressSafe (buf.drop (wordSize + wordSize)) (s.length + 2) = .ok s) :
    decode2 z 2 buf = .ok (some s) := by
  have hm : maxLen = 10485760 := rfl
  have horig : i32 (ntohl (buf.drop wordSize) : ℕ) = s.length := by
    rw [ho, i32_of_range (by omega) (by omega)]
  have hs1 : stopIf ((s.length : ℤ) + 2 < 0) Abort.bugOn = .ok () := stopIf_of_not (by omega)
  have hs2 : stopIf ((s.length : ℤ) > s.length) Abort.bugOn = .ok () := stopIf_of_not (by omega)
  have hn : ((s.length : ℤ) + 2).toNat = s.length + 2 := by omega
  unfold decode2
  rw [if_neg (by omega), stopIf_of_not (by simp)]
  simp only [horig, h1, hs1, hn, hd, hs2]
  rw [if_neg (by simp), if_neg (by omega), if_neg (by simp)]
  rfl

/-- Type 2, when the bound on what is compressed does not pass the limit. -/
theorem encode2_encoded {z : Lz4} (hz : z.Lawful) {s : Bytes} (hs : s ≠ []) (hl : s.length ≤ maxLen)
    (hb : s.length + s.length / 255 + 20 ≤ maxLen) :
    ∃ e, lEncode z 2 s = .ok (.ok e) ∧ Encoded z 2 s e := by
  have hpos := List.length_pos_iff.mpr hs
  have hin : s.length ≤ lz4MaxInputSize := by
    simp only [maxLen] at hl
    simp only [lz4MaxInputSize]
    omega
  have hbound := hz.bound s.length hin
  obtain ⟨hne, hfit⟩ := hz.fits s hin (z.compressBound s.length + wordSize) (by omega)
  have hinv := hz.inverts s hin (z.compressBound s.length + wordSize) (by omega)
  generalize hout : z.compressDefault s (z.compressBound s.length + wordSize) = out at hne hfit hinv
  have hopos := List.length_pos_iff.mpr hne
  have hw : wordSize = 4 := rfl
  have hm : maxLen = 10485760 := rfl
  have hbody : (htonl s.length ++ out).length = wordSize + out.length := by
    rw [List.length_append, htonl_length]
  have hl28 : wordSize + (htonl s.length ++ out).length < 2 ^ 28 := by
    rw [hbody]
    omega
  have hlen : (htonl (setHeader 2 (wordSize + (htonl s.length ++ out).length)) ++
      (htonl s.length ++ out)).length = wordSize + (wordSize + out.length) := by
    rw [List.length_append, htonl_length, hbody]
  refine ⟨htonl (setHeader 2 (wordSize + (htonl s.length ++ out).length)) ++ (htonl s.length ++ out), ?_, ?_, ?_⟩
  · have henc : encode2 z 2 s =
        .ok (htonl (setHeader 2 (wordSize + (htonl s.length ++ out).length)) ++ (htonl s.length ++ out)) := by
      -- no check of the code fails: the bound is below `max_len`, the output below the bound
      have hs1 : stopIf (z.compressBound s.length + wordSize > maxLen) Abort.bugOn = .ok () :=
        stopIf_of_not (by omega)
      have hs2 : stopIf (out.length = 0 ∨ out.length ≥ z.compressBound s.length + wordSize) Abort.bugOn =
          .ok () := stopIf_of_not (by omega)
      unfold encode2
      simp only [hout, hs1, hs2]
      rw [hbody, ← List.append_assoc,
        show wordSize + (wordSize + out.length) = out.length + wordSize + wordSize by omega]
      rfl
    unfold lEncode
    rw [if_neg (by omega), if_neg (by omega), if_pos rfl]
    change (encode2 z 2 s >>= _) = _
    rw [henc]
    rfl
  · rw [lDecode_headed z (by omega) (by simp [htonl]) hl28, if_neg (by omega), if_pos rfl]
    have hdec : decode2 z 2 (htonl (setHeader 2 (wordSize + (htonl s.length ++ out).length)) ++
        (htonl s.length ++ out)) = .ok (some s) := by
      -- what `decode2` reads back: the length of the whole, that of the text, and the packed text
      refine decode2_headed ?_ ?_ ?_ (by omega) ?_
      · rw [hlen]
        omega
      · rw [getHeader_setHeader (by omega) hl28, hlen, hbody]
      · rw [List.drop_left' (htonl_length _), ntohl_htonl (by omega)]
      · rw [← List.append_assoc, List.drop_left' (by rw [List.length_append, htonl_length, htonl_length]),
          hinv _ (by omega)]
    rw [hdec]
    rfl
  · rw [lHeader_setHeader (by omega) hl28, hlen, hbody]
    rfl

/-- What `encode` of type 2 does with a string that is too long to be compressed. -/
theorem encode2_bugOn {z : Lz4} (hz : z.Lawful) {s : Bytes} (hs : s ≠ []) (hl : s.length ≤ maxLen)
    (hb : maxLen < s.length + s.length / 255 + 20) : lEncode z 2 s = .error .bugOn := by
  have hpos := List.length_pos_iff.mpr hs
  have hm : maxLen = 10485760 := rfl
  have hbound := hz.bound s.length (by simp only [lz4MaxInputSize]; omega)
  have hw : wordSize = 4 := rfl
  unfold lEncode
  rw [if_neg (by omega), if_neg (by omega), if_pos rfl]
  change (encode2 z 2 s >>= _) = _
  have hs1 : stopIf (z.compressBound s.length + wordSize > maxLen) Abort.bugOn = .error .bugOn :=
    stopIf_of (by omega)
  unfold encode2
  simp only [hs1]
  rfl

/-- Whatever is encoded can be decoded. -/
theorem lEncode_encoded {z : Lz4} (hz : z.Lawful) {type : ℤ} {s e : Bytes}
    (h : lEncode z type s = .ok (.ok e)) :
    Encoded z type s e := by
  have h' := h
  unfold lEncode at h'
  split at h'
  · cases h'
  next hlen =>
    have hne : s ≠ [] := fun hs => hlen (.inl (by rw [hs]; rfl))
    have hl : s.length ≤ maxLen := by omega
    have hsame : ∀ {type' : ℤ}, type' = type → (∃ e', lEncode z type' s = .ok (.ok e') ∧ Encoded z type' s e') →
        Encoded z type s e := by
      rintro _ rfl ⟨e', he', henc⟩
      rw [h] at he'
      cases he'
      exact henc
    by_cases h01 : type = 0 ∨ type = 1
    · obtain ht | ht := h01
      · exact hsame ht.symm (@encode01_encoded z 0 s (.inl rfl) hne hl)
      · exact hsame ht.symm (@encode01_encoded z 1 s (.inr rfl) hne hl)
    · rw [if_neg h01] at h'
      by_cases h2 : type = 2
      · refine hsame h2.symm (encode2_encoded hz hne hl ?_)
        by_contra hb
        rw [h2, encode2_bugOn hz hne hl (by omega)] at h
        cases h
      · rw [if_neg h2] at h'
        cases h'

theorem exists_word {a : Bytes} (h : 4 ≤ a.length) : ∃ x y z w rest, a = x :: y :: z :: w :: rest :=
  match a, h with
  | x :: y :: z :: w :: rest, _ => ⟨x, y, z, w, rest, rfl⟩

/-- The header of what is longer. -/
theorem lHeader_append {a : Bytes} (h : 4 ≤ a.length) (b : Bytes) :
    lHeader (a ++ b) = lHeader a := by
  obtain ⟨x, y, z, w, rest, rfl⟩ := exists_word h
  unfold lHeader
  rw [if_neg (by simp), if_neg (by simp)]
  rfl

/-- A header that is read has four bytes and 28 bits of length. -/
theorem lHeader_bounds {e : Bytes} {len type : ℕ} (h : lHeader e = .ok (len, type)) :
    4 ≤ e.length ∧ len < 2 ^ 28 := by
  unfold lHeader at h
  split at h
  · cases h
  next hlen =>
    rw [getHeader_eq] at h
    cases h
    obtain ⟨x, y, z, w, rest, rfl⟩ := exists_word (not_lt.mp hlen)
    refine ⟨by omega, ?_⟩
    have h1 := x.toNat_lt
    have h2 := y.toNat_lt
    have h3 := z.toNat_lt
    have h4 := w.toNat_lt
    simp only [ntohl]
    omega

/-- For the types that there are and the lengths that `encode` accepts, the round trip holds if
    and only if type 2 is not given a string that might not be compressed into `10*1024*1024`
    bytes. -/
theorem round_trip_iff {z : Lz4} (hz : z.Lawful) {type : ℤ}
    (ht : type = 0 ∨ type = 1 ∨ type = 2) {s : Bytes}
    (hs : 1 ≤ s.length) (hl : s.length ≤ 10 * 1024 * 1024) :
    (∃ e, lEncode z type s = .ok (.ok e) ∧ lDecode z e = .ok (.ok s) ∧
      lHeader e = .ok (e.length, type.toNat)) ↔
      (type = 2 → s.length + s.length / 255 + 20 ≤ 10 * 1024 * 1024) := by
  have hne : s ≠ [] := List.length_pos_iff.mp hs
  constructor
  · intro hround
    by_contra hb
    push Not at hb
    obtain ⟨rfl, hb⟩ := hb
    obtain ⟨e, he, -⟩ := hround
    rw [encode2_bugOn hz hne hl hb] at he
    cases he
  · intro hb
    obtain rfl | rfl | rfl := ht
    · exact @encode01_encoded z 0 s (.inl rfl) hne hl
    · exact @encode01_encoded z 1 s (.inr rfl) hne hl
    · exact encode2_encoded hz hne hl (hb rfl)

/-- The longest string that is accepted ends the process. -/
theorem longest_not_encoded : ∃ s : Bytes, s.length = 10 * 1024 * 1024 ∧ literals.Lawful ∧
    ¬∃ e, lEncode literals 2 s = .ok (.ok e) ∧ lDecode literals e = .ok (.ok s) ∧
      lHeader e = .ok (e.length, 2) := by
  refine ⟨List.replicate (10 * 1024 * 1024) 0, List.length_replicate .., literals_lawful, ?_⟩
  rintro ⟨e, he, -⟩
  have hl : (List.replicate (10 * 1024 * 1024) (0 : UInt8)).length = 10 * 1024 * 1024 := List.length_replicate ..
  rw [encode2_bugOn literals_lawful (by rw [← List.length_pos_iff, hl]; decide) (by rw [hl]; decide)
    (by rw [hl]; decide)] at he
  cases he

/-- Five bytes, compressed. -/
theorem round_trip_short :
    ∃ e, lEncode literals 2 [1, 2, 3, 4, 5] = .ok (.ok e) ∧ lDecode literals e = .ok (.ok [1, 2, 3, 4, 5]) ∧
      lHeader e = .ok (e.length, 2) :=
  (@round_trip_iff literals literals_lawful 2 (.inr (.inr rfl)) [1, 2, 3, 4, 5] (by decide) (by decide)).mpr fun _ => by decide

/-! ## What is received -/

/-- What `LZ4_decompress_safe` returns. -/
def Lz4.ret (z : Lz4) (source : Bytes) (m : ℕ) : ℤ :=
  match z.decompressSafe source m with
  | .ok n => n.length
  | .error code => -(code : ℤ) - 1

/-- The original length, as an `int`. -/
def origLen (s : Bytes) : ℤ := i32 (ntohl (s.drop wordSize))

/-- What LZ4 makes of the data, with two bytes more than the original length, is not longer than
    that; a failure is not taken for it. -/
def Unpacks (z : Lz4) (s : Bytes) : Prop :=
  let ret := z.ret (s.drop (wordSize + wordSize)) (origLen s + 2).toNat
  0 ≤ origLen s + 2 ∧ (ret < origLen s ∨ ret = origLen s ∧ 0 ≤ origLen s)

/-- What can be received: a header with another length is refused, and the limits of each type are
    kept. -/
def Acceptable (z : Lz4) (s : Bytes) : Prop :=
  let h := getHeader (ntohl s)
  s.length ≤ wordSize ∨ h.2 ≠ s.length ∨
    (h.1 = 0 ∨ h.1 = 1 → s.length - wordSize ≤ maxLen) ∧
    (h.1 = 2 → s.length ≤ wordSize + wordSize ∨ maxLen ≤ origLen s ∨ Unpacks z s)

/-- The header is in the first four bytes. -/
theorem ntohl_append {a : Bytes} (h : 4 ≤ a.length) (b : Bytes) : ntohl (a ++ b) = ntohl a := by
  obtain ⟨x, y, z, w, rest, rfl⟩ := exists_word h
  rfl

/-- Types 0 and 1 stop at what is longer than the limit. -/
theorem decode01_returns {type : ℕ} {buf : Bytes} (ht : type = 0 ∨ type = 1)
    (h1 : getHeader (ntohl buf) = (type, buf.length)) (h2 : wordSize < buf.length) :
    Returns (decode01 type buf) ↔ buf.length - wordSize ≤ maxLen := by
  unfold decode01
  simp only [returns_stopIf_bind, h1, ne_eq, not_true_eq_false, or_self, not_false_eq_true, true_and]
  obtain rfl | rfl := ht
  · simp only [returns_pure, and_true]
    omega
  · simp only [returns_pure, and_true]
    omega

/-- Type 2 stops at a length that is too small, and at a negative one unless LZ4 says less than
    it. -/
theorem decode2_returns (z : Lz4) {buf : Bytes} (h1 : getHeader (ntohl buf) = (2, buf.length))
    (h2 : wordSize + wordSize < buf.length) :
    Returns (decode2 z 2 buf) ↔ maxLen ≤ origLen buf ∨ Unpacks z buf := by
  -- what is behind the checks depends on what LZ4 returns alone
  have hret : Returns (match z.decompressSafe (buf.drop (wordSize + wordSize)) (origLen buf + 2).toNat with
      | .ok n => do
        stopIf ((n.length : ℤ) > origLen buf) Abort.bugOn
        if (n.length : ℤ) ≠ origLen buf then pure none else pure (some n)
      | .error code => do
        stopIf (-(code : ℤ) - 1 > origLen buf) Abort.bugOn
        if -(code : ℤ) - 1 ≠ origLen buf then pure none else throw .undefined) ↔
      z.ret (buf.drop (wordSize + wordSize)) (origLen buf + 2).toNat < origLen buf ∨
        z.ret (buf.drop (wordSize + wordSize)) (origLen buf + 2).toNat = origLen buf ∧ 0 ≤ origLen buf := by
    unfold Lz4.ret
    cases z.decompressSafe (buf.drop (wordSize + wordSize)) (origLen buf + 2).toNat with
    | ok n =>
      simp only [returns_stopIf_bind, returns_ite, returns_pure, implies_true, and_true]
      omega
    | error code =>
      simp only [returns_stopIf_bind, returns_ite, returns_pure, not_returns_throw, imp_false, implies_true, true_and]
      omega
  unfold decode2 Unpacks
  simp only [← origLen.eq_def, h1, ne_eq, not_true_eq_false, if_false, if_neg (not_le.mpr h2),
    returns_stopIf_bind, returns_ite, returns_pure, implies_true, true_and, not_false_eq_true]
  simp only [ne_eq] at hret
  rw [hret]
  omega

/-- `decode` of at least a header returns a string, or nil and an error, if and only if what it
    was given is acceptable. -/
theorem decode_returns_iff (z : Lz4) {s : Bytes} (hs : 4 ≤ s.length) :
    (∃ r, lDecode z s = .ok r) ↔ Acceptable z s := by
  have hw : wordSize = 4 := rfl
  change Returns (lDecode z s) ↔ _
  unfold lDecode Acceptable
  rw [returns_stopIf_bind, ntohl_append hs]
  by_cases href : s.length ≤ 4 ∨ (getHeader (ntohl s)).2 ≠ s.length
  · simp only [if_pos href, returns_pure, and_true]
    refine iff_of_true (by omega) ?_
    obtain h | h := href
    · exact .inl (by omega)
    · exact .inr (.inl h)
  simp only [if_neg href]
  push Not at href
  obtain ⟨hlong, hlen⟩ := href
  rw [and_iff_right (by omega), or_iff_right (by omega : ¬ s.length ≤ wordSize),
    or_iff_right (a := (getHeader (ntohl s)).2 ≠ s.length) (by simp [hlen])]
  have hhead : getHeader (ntohl s) = ((getHeader (ntohl s)).1, s.length) := Prod.ext rfl hlen
  generalize (getHeader (ntohl s)).1 = type at hhead
  by_cases h01 : type = 0 ∨ type = 1
  · rw [if_pos h01, returns_bind_of_returns fun _ => returns_pure _, decode01_returns h01 hhead (by omega)]
    constructor
    · exact fun h => ⟨fun _ => h, fun h2 => by omega⟩
    · exact fun h => h.1 h01
  rw [if_neg h01]
  by_cases h2 : type = 2
  · subst h2
    rw [if_pos rfl, returns_bind_of_returns]
    · by_cases hshort : s.length ≤ wordSize + wordSize
      · refine iff_of_true ?_ ⟨fun h => (h01 h).elim, fun _ => .inl hshort⟩
        unfold decode2
        rw [if_pos hshort]
        exact returns_pure none
      · rw [decode2_returns z hhead (by omega)]
        constructor
        · exact fun h => ⟨fun h' => (h01 h').elim, fun _ => .inr h⟩
        · exact fun h => (h.2 rfl).resolve_left hshort
    · rintro (_ | n)
      · exact returns_pure _
      · exact returns_pure _
  · rw [if_neg h2]
    exact iff_of_true (returns_pure _) ⟨fun h => (h01 h).elim, fun h => (h2 h).elim⟩

/-- One byte that is said to be none ends the process. -/
theorem decode_longer : ∃ s : Bytes, 4 ≤ s.length ∧ lDecode literals s = .error .bugOn :=
  ⟨[0, 0, 0, 162, 0, 0, 0, 0, 16, 7], by decide, by decide⟩

/-- A longer one than there is, is refused. -/
theorem decode_returns_iff_longer :
    ∃ r, lDecode literals [0, 0, 0, 162, 0, 0, 0, 9, 16, 7] = .ok r :=
  (@decode_returns_iff literals [0, 0, 0, 162, 0, 0, 0, 9, 16, 7] (by decide)).mpr
    (.inr (.inr ⟨by decide, fun _ => .inr (.inr ⟨by decide, .inl (by decide)⟩)⟩))

end Encrypt
