/-
# The block format of LZ4

A block is a list of sequences, each some literals and a copy from what stands before, and
some last literals.  `Decodes` says what the bytes of a block mean behind what is already
decoded, under the restrictions at the end of a block: a copy starts at least 12 bytes and
ends at least 5 bytes before it.
-/
import OpenwrtAc.LzWindow
import OpenwrtAc.ByteCodec
import OpenwrtAc.RdsParser

open Rds ByteCodec LzWindow

namespace Lz4Block

/-- `MINMATCH`. -/
def minMatch : ℕ := 4

/-- `LASTLITERALS`. -/
def lastLiterals : ℕ := 5

/-- `MFLIMIT`. -/
def mfLimit : ℕ := 8 + minMatch

/-- `MAX_DISTANCE`. -/
def maxDistance : ℕ := 2 ^ 16 - 1

/-- `ML_MASK`, and `RUN_MASK` as well. -/
def mask : ℕ := 15

/-- The literals of a sequence and its copy. -/
structure Sequence where
  lits : Bytes
  dist : ℕ
  len : ℕ

namespace Sequence

/-- What is decoded behind a sequence. -/
def run (s : Sequence) (acc : Bytes) : Bytes := copyBack s.dist s.len (acc ++ s.lits)

/-- The copy is from what is decoded, and the format can say it. -/
structure Fits (s : Sequence) (acc : Bytes) : Prop where
  dist_pos : 0 < s.dist
  dist_le : s.dist ≤ acc.length + s.lits.length
  dist_max : s.dist ≤ maxDistance
  len_le : minMatch ≤ s.len

end Sequence

/-- The bytes of a length behind its half of the token. -/
def extra (n : ℕ) : Bytes :=
  if n < mask then [] else List.replicate ((n - mask) / 255) 255 ++ [UInt8.ofNat ((n - mask) % 255)]

def token (lits len : ℕ) : UInt8 := UInt8.ofNat (2 ^ 4 * min lits mask + min len mask)

namespace Sequence

def code (s : Sequence) : Bytes :=
  token s.lits.length (s.len - minMatch) ::
    (extra s.lits.length ++ s.lits ++ le16 s.dist ++ extra (s.len - minMatch))

end Sequence

/-- The last literals of a block. -/
def lastCode (lits : Bytes) : Bytes := token lits.length 0 :: (extra lits.length ++ lits)

/-- Behind `acc`, the bytes of the block are decoded to `out`. -/
inductive Decodes (out : Bytes) : Bytes → Bytes → Prop
  | last (acc lits : Bytes) : acc ++ lits = out → Decodes out acc (lastCode lits)
  | sequence (acc code : Bytes) (s : Sequence) : s.Fits acc →
      acc.length + s.lits.length + mfLimit ≤ out.length →
      acc.length + s.lits.length + s.len + lastLiterals ≤ out.length →
      Decodes out (s.run acc) code → Decodes out acc (s.code ++ code)

/-! ## Lengths -/

/-- The number of extension bytes of a length. -/
theorem length_extra (n : ℕ) :
    (extra n).length = if n < mask then 0 else (n - mask) / 255 + 1 := by
  unfold extra
  split
  · rfl
  · rw [List.length_append, List.length_replicate, List.length_singleton]

/-- A length below the mask has no extension bytes. -/
theorem extra_of_lt {n : ℕ} (h : n < mask) : extra n = [] := if_pos h

/-- The extension bytes of a longer length: 255s and one byte below 255. -/
theorem extra_of_le {n : ℕ} (h : mask ≤ n) :
    extra n = List.replicate ((n - mask) / 255) 255 ++ [UInt8.ofNat ((n - mask) % 255)] :=
  if_neg (by omega)

/-- The number of bytes that one sequence takes. -/
theorem Sequence.length_code (s : Sequence) :
    s.code.length =
      3 + (extra s.lits.length).length + s.lits.length + (extra (s.len - minMatch)).length := by
  simp only [Sequence.code, List.length_cons, List.length_append, le16_length]
  omega

/-- The number of bytes that the last literals take. -/
theorem length_lastCode (lits : Bytes) :
    (lastCode lits).length = 1 + (extra lits.length).length + lits.length := by
  simp only [lastCode, List.length_cons, List.length_append]
  omega

/-- A sequence lengthens the output by its literals and its match. -/
theorem Sequence.Fits.length_run {s : Sequence} {acc : Bytes} (h : s.Fits acc) :
    (s.run acc).length = acc.length + s.lits.length + s.len := by
  rw [Sequence.run, length_copyBack h.dist_pos _ (by rw [List.length_append]; exact h.dist_le),
    List.length_append]

/-- A block that still has its last literals to decode is longer than they are. -/
theorem Decodes.lt_length {out acc code : Bytes} (h : Decodes out acc code)
    (hacc : acc.length + lastLiterals ≤ out.length) : lastLiterals < code.length := by
  induction h with
  | last acc lits hout =>
      rw [← hout, List.length_append] at hacc
      rw [length_lastCode]
      omega
  | sequence acc code s hfits _ hend _ ih =>
      have hrun := hfits.length_run
      have hcode := ih (by omega)
      rw [List.length_append]
      omega

/-- No block is empty. -/
theorem Decodes.length_pos {out acc code : Bytes} (h : Decodes out acc code) :
    0 < code.length := by
  cases h with
  | last => exact Nat.succ_pos _
  | sequence => exact Nat.succ_pos _

/-- A block only ever extends the output before it. -/
theorem Decodes.length_le {out acc code : Bytes} (h : Decodes out acc code) :
    acc.length ≤ out.length := by
  cases h with
  | last _ lits hout =>
      rw [← hout, List.length_append]
      omega
  | sequence _ _ s _ hlim => omega

/-! ## Tokens -/

/-- The token holds both lengths, cut at the mask, in its two halves. -/
theorem toNat_token (lits len : ℕ) :
    (token lits len).toNat = 2 ^ 4 * min lits mask + min len mask := by
  unfold token mask
  rw [UInt8.toNat_ofNat']
  omega

/-- The upper half of the token is the literal length. -/
theorem token_shiftRight (lits len : ℕ) : (token lits len).toNat >>> 4 = min lits mask := by
  rw [toNat_token, Nat.shiftRight_eq_div_pow]
  unfold mask
  omega

/-- The lower half of the token is the match length. -/
theorem token_and (lits len : ℕ) : (token lits len).toNat &&& mask = min len mask := by
  rw [toNat_token]
  show (_ &&& (2 ^ 4 - 1)) = _
  rw [Nat.and_two_pow_sub_one_eq_mod]
  unfold mask
  omega

end Lz4Block
