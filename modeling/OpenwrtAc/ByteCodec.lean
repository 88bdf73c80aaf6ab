/-
# Little-endian words in byte lists

Two- and four-byte words as bytes, and reading them back from the front of a
list.  A pointer into a buffer is the list of the bytes from there on, so
advancing it is `List.drop`.
-/
import Mathlib.Algebra.Group.Nat.Defs
import Mathlib.Data.Nat.Basic
import Mathlib.Tactic.Common

namespace ByteCodec

/-- A 16-bit word; what does not fit is lost. -/
def le16 (n : ℕ) : List UInt8 := [UInt8.ofNat n, UInt8.ofNat (n / 2 ^ 8)]

/-- A 32-bit word; what does not fit is lost. -/
def le32 (n : ℕ) : List UInt8 := le16 n ++ le16 (n / 2 ^ 16)

/-- The 16-bit word at the front. -/
def rd16 : List UInt8 → Option ℕ
  | a :: b :: _ => some (a.toNat + 2 ^ 8 * b.toNat)
  | _ => none

/-- The 32-bit word at the front. -/
def rd32 : List UInt8 → Option ℕ
  | a :: b :: c :: d :: _ =>
    some (a.toNat + 2 ^ 8 * b.toNat + 2 ^ 16 * (c.toNat + 2 ^ 8 * d.toNat))
  | _ => none

@[simp] theorem le16_length (n : ℕ) : (le16 n).length = 2 := rfl

@[simp] theorem le32_length (n : ℕ) : (le32 n).length = 4 := rfl

theorem le16_word (n : ℕ) :
    (UInt8.ofNat n).toNat + 2 ^ 8 * (UInt8.ofNat (n / 2 ^ 8)).toNat = n % 2 ^ 16 := by
  rw [UInt8.toNat_ofNat', UInt8.toNat_ofNat']
  omega

theorem rd16_le16 (n : ℕ) (rest : List UInt8) : rd16 (le16 n ++ rest) = some (n % 2 ^ 16) :=
  congrArg some (le16_word n)

theorem rd32_le32 (n : ℕ) (rest : List UInt8) : rd32 (le32 n ++ rest) = some (n % 2 ^ 32) := by
  refine congrArg some ?_
  rw [le16_word, le16_word]
  omega

theorem rd16_of_lt {n : ℕ} (h : n < 2 ^ 16) (rest : List UInt8) :
    rd16 (le16 n ++ rest) = some n := by
  rw [rd16_le16, Nat.mod_eq_of_lt h]

theorem rd32_of_lt {n : ℕ} (h : n < 2 ^ 32) (rest : List UInt8) :
    rd32 (le32 n ++ rest) = some n := by
  rw [rd32_le32, Nat.mod_eq_of_lt h]

@[simp] theorem flatMap_le32_length (l : List ℕ) : (l.flatMap le32).length = 4 * l.length := by
  induction l with
  | nil => rfl
  | cons n l ih =>
    rw [List.flatMap_cons, List.length_append, ih, le32_length, List.length_cons]
    omega

/-- The `i`-th word of an array of words. -/
theorem rd32_drop (l : List ℕ) (hl : ∀ n ∈ l, n < 2 ^ 32) (rest : List UInt8) {i : ℕ}
    (hi : i < l.length) : rd32 ((l.flatMap le32 ++ rest).drop (4 * i)) = some l[i] := by
  induction l generalizing i with
  | nil => exact absurd hi (by simp)
  | cons n l ih =>
    cases i with
    | zero =>
      rw [Nat.mul_zero, List.drop_zero, List.flatMap_cons, List.append_assoc]
      exact rd32_of_lt (hl n List.mem_cons_self) _
    | succ i =>
      rw [List.flatMap_cons, List.append_assoc]
      exact ih (fun m hm => hl m (List.mem_cons_of_mem n hm)) (Nat.lt_of_succ_lt_succ hi)

end ByteCodec
