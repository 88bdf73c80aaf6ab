/-
# Fixed-width integer arithmetic

The kernel's `int32_t` and `uint32_t` over `ℤ` and `ℕ`: a value is stored after
it has been brought back into range, two's complement for the signed type.  The
lemmas say when nothing wraps, and that a wrapped sum still tracks the exact one
modulo `2 ^ 32`.
-/
import Mathlib.Algebra.Group.Int.Defs
import Mathlib.Algebra.Group.Nat.Defs
import Mathlib.Algebra.Group.Basic
import Mathlib.Tactic.Common

namespace MachineInt

/-- The value an `int32_t` holds after `x` is stored in it. -/
def i32 (x : ℤ) : ℤ := Int.bmod x (2 ^ 32)

/-- The value a `uint32_t` holds after `x` is stored in it. -/
def u32 (x : ℤ) : ℕ := (x % 2 ^ 32).toNat

/-- The value an `int16_t` holds after `x` is stored in it. -/
def i16 (x : ℤ) : ℤ := Int.bmod x (2 ^ 16)

/-- The value a `uint64_t` holds after `x` is stored in it. -/
def u64 (x : ℤ) : ℕ := (x % 2 ^ 64).toNat

theorem i32_of_range {x : ℤ} (hlo : -(2 ^ 31) ≤ x) (hhi : x < 2 ^ 31) : i32 x = x := by
  unfold i32
  rw [Int.bmod_def]
  omega

theorem i16_of_range {x : ℤ} (hlo : -(2 ^ 15) ≤ x) (hhi : x < 2 ^ 15) : i16 x = x := by
  unfold i16
  rw [Int.bmod_def]
  omega

theorem u32_lt (x : ℤ) : u32 x < 2 ^ 32 := by
  unfold u32
  omega

theorem u32_of_range {x : ℤ} (hlo : 0 ≤ x) (hhi : x < 2 ^ 32) : (u32 x : ℤ) = x := by
  unfold u32
  omega

/-- A signed difference only depends on the wrapped values. -/
theorem i32_sub_congr {a b : ℤ} (h : u32 a = u32 b) (x : ℤ) : i32 (x - a) = i32 (x - b) := by
  unfold u32 at h
  unfold i32
  rw [Int.bmod_def, Int.bmod_def]
  omega

theorem u32_natCast (n : ℕ) : u32 n = n % 2 ^ 32 := by
  unfold u32
  omega

/-- A counter that tracks a total modulo `2 ^ 32` goes on tracking it. -/
theorem u32_track {total total' : ℕ} {n : ℤ} (h : (total' : ℤ) = total + n) :
    u32 ((total % 2 ^ 32 : ℕ) + n) = total' % 2 ^ 32 := by
  unfold u32
  omega

/-- A 16-bit length stored in an `int16_t` loses `2 ^ 16` from `2 ^ 15` on. -/
theorem i16_natCast {n : ℕ} (h : n < 2 ^ 16) :
    i16 n = n - 2 ^ 16 * (if 2 ^ 15 ≤ n then 1 else 0) := by
  unfold i16
  rw [Int.bmod_def]
  split <;> split <;> omega

theorem u64_lt (x : ℤ) : u64 x < 2 ^ 64 := by
  unfold u64
  omega

/-- Wrapping after each addition or once at the end comes to the same. -/
theorem u64_add_cast (x y : ℤ) : u64 ((u64 x : ℤ) + y) = u64 (x + y) := by
  unfold u64
  omega

theorem u64_natCast (n : ℕ) : u64 n = n % 2 ^ 64 := by
  unfold u64
  omega

end MachineInt
