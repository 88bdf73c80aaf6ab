/-
# Addresses as numbers (`lualib-ac/ipops.lua`)

The bit operations of the module go through the library `bit`, which takes its arguments
modulo `2 ^ 32` and has signed results; a loop over the 32 bits makes a number of such a
result that is not negative.  A number is exact here, as that of Lua is below `2 ^ 53`.
-/
import Mathlib.Algebra.Group.Nat.Defs
import Mathlib.Data.Int.Notation
import Mathlib.Tactic.Common

namespace IpOps

/-! ## Bits -/

/-- `bit.band`. -/
def bitBand (a b : ℤ) : ℤ := (BitVec.ofInt 32 a &&& BitVec.ofInt 32 b).toInt

/-- `bit.bor`. -/
def bitBor (a b : ℤ) : ℤ := (BitVec.ofInt 32 a ||| BitVec.ofInt 32 b).toInt

/-- `bit.bnot`. -/
def bitBnot (a : ℤ) : ℤ := (~~~ BitVec.ofInt 32 a).toInt

/-- `bit.lshift`, which takes the low five bits of the amount. -/
def bitLshift (a : ℤ) (i : ℕ) : ℤ := (BitVec.ofInt 32 a <<< (i % 32)).toInt

/-- `_lshift`. -/
def lshift (a i : ℕ) : ℕ := a * 2 ^ i

/-- `_rshift`. -/
def rshift (a i : ℕ) : ℕ := a / 2 ^ i

/-- The loop of `_band`, `_bor` and `_bnot` over the bits of their result. -/
def loop (a : ℤ) : ℕ :=
  (List.range 32).foldl (fun r i => if bitBand (bitLshift 1 i) a ≠ 0 then r + 2 ^ i else r) 0

/-- `_band`. -/
def band (a b : ℕ) : ℕ := loop (bitBand a b)

/-- `_bor`. -/
def bor (a b : ℕ) : ℕ := loop (bitBor a b)

/-- `_bnot`. -/
def bnot (a : ℕ) : ℕ := loop (bitBnot a)

/-! ## Strings -/

/-- `get_parts_as_number`: `%d+` matches what is between two characters that are no digits. -/
def getPartsAsNumber (ipstr : List Char) : List ℕ :=
  ((ipstr.splitOnP fun c => !c.isDigit).filter (· ≠ [])).map fun part => Nat.ofDigitChars 10 part 0

/-- Four parts as one number. -/
def ofParts (a b c d : ℕ) : ℕ := ((a * 256 + b) * 256 + c) * 256 + d

def ipstr2int (ipstr : List Char) : ℕ :=
  match getPartsAsNumber ipstr with
  | [a, b, c, d] => ofParts a b c d
  | _ => 0

/-- Four pieces with points between them. -/
def dotted (a b c d : List Char) : List Char := a ++ '.' :: (b ++ '.' :: (c ++ '.' :: d))

/-- `%u`. -/
def formatU (n : ℕ) : List Char := Nat.toDigits 10 n

def int2ipstr (ip : ℕ) : List Char :=
  let a := band (rshift ip 24) 0x000000FF
  let b := band (rshift ip 16) 0x000000FF
  let c := band (rshift ip 8) 0x000000FF
  let d := band (rshift ip 0) 0x000000FF
  dotted (formatU a) (formatU b) (formatU c) (formatU d)

/-- `cidr2int`, up to 32. -/
def cidr2int (cidr : ℕ) : ℕ :=
  (List.range cidr).foldl (fun x i => x + lshift 1 (31 - i)) 0

/-! ## What the bit operations do -/

/-- Testing the bit `i` of what `bit` returned. -/
theorem bitBand_bitLshift {i : ℕ} (hi : i < 32) (v : BitVec 32) :
    bitBand (bitLshift 1 i) v.toInt ≠ 0 ↔ v.getLsbD i = true := by
  have hand : bitBand (bitLshift 1 i) v.toInt = (BitVec.twoPow 32 i &&& v).toInt := by
    unfold bitBand bitLshift
    rw [BitVec.ofInt_toInt, BitVec.ofInt_toInt, Nat.mod_eq_of_lt hi, BitVec.twoPow_eq]
    rfl
  have hne : (BitVec.twoPow 32 i).toInt ≠ (0#32).toInt := by
    rw [BitVec.toInt_ne]
    intro h
    have hnat := congrArg BitVec.toNat h
    rw [BitVec.toNat_twoPow_of_lt hi] at hnat
    exact absurd hnat (Nat.ne_of_gt (Nat.two_pow_pos i))
  rw [hand, BitVec.twoPow_and]
  by_cases h : v.getLsbD i = true
  · rw [if_pos h]
    exact iff_of_true hne h
  · rw [if_neg h]
    exact iff_of_false (not_not.mpr rfl) h

/-- The bits that the loop has seen. -/
theorem foldl_bits (v : BitVec 32) {k : ℕ} (hk : k ≤ 32) :
    (List.range k).foldl
      (fun r i => if bitBand (bitLshift 1 i) v.toInt ≠ 0 then r + 2 ^ i else r) 0 =
      v.toNat % 2 ^ k := by
  induction k with
  | zero => exact (Nat.mod_one _).symm
  | succ k ih =>
    rw [List.range_succ, List.foldl_append, ih (by omega), List.foldl_cons, List.foldl_nil,
      Nat.mod_pow_succ, ← Nat.toNat_testBit]
    by_cases h : v.getLsbD k = true
    · rw [if_pos ((bitBand_bitLshift hk v).mpr h), show v.toNat.testBit k = true from h,
        Bool.toNat_true, Nat.mul_one]
    · rw [if_neg fun hne => h ((bitBand_bitLshift hk v).mp hne),
        show v.toNat.testBit k = false from Bool.eq_false_iff.mpr h]
      rfl

/-- The loop gives the unsigned value of a signed one. -/
theorem loop_toInt (v : BitVec 32) : loop v.toInt = v.toNat :=
  (foldl_bits v (Nat.le_refl 32)).trans (Nat.mod_eq_of_lt v.isLt)

/-- The conjunction of the library. -/
theorem band_eq (a b : ℕ) : band a b = (a &&& b) % 2 ^ 32 := by
  rw [band, bitBand, loop_toInt, BitVec.ofInt_natCast, BitVec.ofInt_natCast, BitVec.toNat_and,
    BitVec.toNat_ofNat, BitVec.toNat_ofNat, Nat.and_mod_two_pow]

/-- Its disjunction. -/
theorem bor_eq (a b : ℕ) : bor a b = (a ||| b) % 2 ^ 32 := by
  rw [bor, bitBor, loop_toInt, BitVec.ofInt_natCast, BitVec.ofInt_natCast, BitVec.toNat_or,
    BitVec.toNat_ofNat, BitVec.toNat_ofNat, Nat.or_mod_two_pow]

/-- Its complement. -/
theorem bnot_eq (a : ℕ) : bnot a = 2 ^ 32 - 1 - a % 2 ^ 32 := by
  rw [bnot, bitBnot, loop_toInt, BitVec.ofInt_natCast, BitVec.toNat_not, BitVec.toNat_ofNat]

/-- One of the four parts of an address. -/
theorem band_rshift (ip k : ℕ) : band (rshift ip k) 0x000000FF = ip / 2 ^ k % 256 := by
  have h := Nat.and_two_pow_sub_one_eq_mod (ip / 2 ^ k) 8
  rw [band_eq, rshift]
  show (ip / 2 ^ k &&& 2 ^ 8 - 1) % 2 ^ 32 = _
  rw [h]
  omega

/-! ## Parts -/

/-- A number as it is written. -/
structure Numeral (s : List Char) (n : ℕ) : Prop where
  ne_nil : s ≠ []
  digits : ∀ c ∈ s, c.isDigit = true
  value : Nat.ofDigitChars 10 s 0 = n

/-- A number that is formatted is a numeral. -/
theorem numeral_formatU (n : ℕ) : Numeral (formatU n) n where
  ne_nil := Nat.toDigits_ne_nil
  digits := fun _ hc => Nat.isDigit_of_mem_toDigits (by decide) (by decide) hc
  value := Nat.ofDigitChars_ten_toDigits

/-- A numeral is one part. -/
theorem Numeral.parts {s : List Char} {n : ℕ} (h : Numeral s n) : getPartsAsNumber s = [n] := by
  rw [getPartsAsNumber, List.splitOnP_eq_singleton fun c hc => by rw [h.digits c hc]; rfl,
    List.filter_cons_of_pos (by simpa using h.ne_nil), List.filter_nil, List.map_cons, h.value]
  rfl

/-- A number in front of a character that is no digit is the first part. -/
theorem Numeral.parts_cons {s : List Char} {n : ℕ} (h : Numeral s n) {sep : Char}
    (hsep : sep.isDigit = false) (rest : List Char) :
    getPartsAsNumber (s ++ sep :: rest) = n :: getPartsAsNumber rest := by
  rw [getPartsAsNumber, List.splitOnP_append_cons_of_forall_mem
      (fun c hc => by rw [h.digits c hc]; rfl) sep (by rw [hsep]; rfl),
    List.filter_cons_of_pos (by simpa using h.ne_nil), List.map_cons, h.value]
  rfl

/-- An address as it is written. -/
inductive Quad : List Char → ℕ → Prop
  | mk {a b c d : List Char} {x y z w : ℕ} (ha : Numeral a x) (hb : Numeral b y) (hc : Numeral c z)
    (hd : Numeral d w) (hx : x ≤ 255) (hy : y ≤ 255) (hz : z ≤ 255) (hw : w ≤ 255) :
    Quad (dotted a b c d) (ofParts x y z w)

/-- Four bytes make 32 bits. -/
theorem ofParts_lt {x y z w : ℕ} (hx : x ≤ 255) (hy : y ≤ 255) (hz : z ≤ 255) (hw : w ≤ 255) :
    ofParts x y z w < 2 ^ 32 := by
  unfold ofParts
  omega

/-- A quad has 32 bits. -/
theorem Quad.lt {s : List Char} {i : ℕ} (h : Quad s i) : i < 2 ^ 32 := by
  obtain ⟨-, -, -, -, hx, hy, hz, hw⟩ := h
  exact ofParts_lt hx hy hz hw

/-- The parts of an address, alone and in front of other parts. -/
theorem Quad.parts {s : List Char} {i : ℕ} (h : Quad s i) :
    ∃ x y z w, ofParts x y z w = i ∧ getPartsAsNumber s = [x, y, z, w] ∧
      ∀ sep, sep.isDigit = false → ∀ rest,
        getPartsAsNumber (s ++ sep :: rest) = x :: y :: z :: w :: getPartsAsNumber rest := by
  obtain @⟨a, b, c, d, x, y, z, w, ha, hb, hc, hd, -, -, -, -⟩ := h
  refine ⟨x, y, z, w, rfl, ?_, fun sep hsep rest => ?_⟩
  · rw [dotted, ha.parts_cons rfl, hb.parts_cons rfl, hc.parts_cons rfl, hd.parts]
  · rw [dotted, List.append_assoc, List.cons_append, ha.parts_cons rfl, List.append_assoc,
      List.cons_append, hb.parts_cons rfl, List.append_assoc, List.cons_append, hc.parts_cons rfl,
      hd.parts_cons hsep]

/-- A quad is read. -/
theorem Quad.ipstr2int {s : List Char} {i : ℕ} (h : Quad s i) : ipstr2int s = i := by
  obtain ⟨x, y, z, w, hi, hparts, -⟩ := h.parts
  rw [IpOps.ipstr2int, hparts, ← hi]

/-- The four bytes of a number make it up. -/
theorem ofParts_div {ip : ℕ} (h : ip < 2 ^ 32) :
    ofParts (ip / 2 ^ 24 % 256) (ip / 2 ^ 16 % 256) (ip / 2 ^ 8 % 256) (ip / 2 ^ 0 % 256) = ip := by
  unfold ofParts
  omega

/-- The string of an address is read as that address. -/
theorem quad_int2ipstr {ip : ℕ} (h : ip < 2 ^ 32) : Quad (int2ipstr ip) ip := by
  have hlt : ∀ k, ip / 2 ^ k % 256 ≤ 255 := fun k => by omega
  have hquad := Quad.mk (numeral_formatU (ip / 2 ^ 24 % 256)) (numeral_formatU (ip / 2 ^ 16 % 256))
    (numeral_formatU (ip / 2 ^ 8 % 256)) (numeral_formatU (ip / 2 ^ 0 % 256))
    (hlt 24) (hlt 16) (hlt 8) (hlt 0)
  rw [ofParts_div h] at hquad
  rw [int2ipstr, band_rshift, band_rshift, band_rshift, band_rshift]
  exact hquad

/-! ## Masks -/

/-- The mask and the number of addresses make up all. -/
theorem cidr2int_add {n : ℕ} (h : n ≤ 32) : cidr2int n + 2 ^ (32 - n) = 2 ^ 32 := by
  induction n with
  | zero => rfl
  | succ n ih =>
    have hsum : cidr2int (n + 1) = cidr2int n + 2 ^ (31 - n) := by
      rw [cidr2int, List.range_succ, List.foldl_append, List.foldl_cons, List.foldl_nil, lshift,
        Nat.one_mul, cidr2int]
    have hpow : 2 ^ (32 - n) = 2 ^ (31 - n) + 2 ^ (31 - n) := by
      rw [show 32 - n = (31 - n) + 1 by omega, Nat.pow_succ]
      omega
    have hexp : 32 - (n + 1) = 31 - n := by omega
    have := ih (by omega)
    rw [hsum, hexp]
    omega

/-- The mask of a prefix. -/
theorem cidr2int_eq {n : ℕ} (h : n ≤ 32) : cidr2int n = (2 ^ n - 1) * 2 ^ (32 - n) := by
  have hadd := cidr2int_add h
  have hpow : 2 ^ n * 2 ^ (32 - n) = 2 ^ 32 := by
    rw [← Nat.pow_add, Nat.add_sub_cancel' h]
  rw [Nat.sub_mul, hpow]
  omega

/-- What is behind the first `n` bits is cut off. -/
theorem band_cidr2int {i n : ℕ} (hi : i < 2 ^ 32) (hn : n ≤ 32) :
    band i (cidr2int n) = i / 2 ^ (32 - n) * 2 ^ (32 - n) := by
  have hand : i &&& cidr2int n = i / 2 ^ (32 - n) * 2 ^ (32 - n) := by
    rw [cidr2int_eq hn]
    apply Nat.eq_of_testBit_eq
    intro j
    rw [Nat.testBit_and, Nat.testBit_mul_two_pow, Nat.testBit_mul_two_pow,
      Nat.testBit_two_pow_sub_one, Nat.testBit_div_two_pow]
    by_cases hj : 32 - n ≤ j
    · rw [Nat.sub_add_cancel hj]
      by_cases hlt : j < 32
      · simp [hj, show j - (32 - n) < n by omega]
      · rw [Nat.testBit_lt_two_pow (Nat.lt_of_lt_of_le hi (Nat.pow_le_pow_right (by decide)
          (Nat.le_of_not_lt hlt)))]
        simp
    · simp [hj]
  rw [band_eq, hand, Nat.mod_eq_of_lt]
  exact Nat.lt_of_le_of_lt (Nat.div_mul_le_self _ _) hi

/-- What is behind the first `n` bits is filled with ones. -/
theorem bor_bnot_cidr2int {i n : ℕ} (hi : i < 2 ^ 32) (hn : n ≤ 32) :
    bor i (bnot (cidr2int n)) = i / 2 ^ (32 - n) * 2 ^ (32 - n) + (2 ^ (32 - n) - 1) := by
  have hpos : 0 < 2 ^ (32 - n) := Nat.two_pow_pos _
  have hmask : bnot (cidr2int n) = 2 ^ (32 - n) - 1 := by
    have hadd := cidr2int_add hn
    rw [bnot_eq, Nat.mod_eq_of_lt (by omega)]
    omega
  have hor : i ||| (2 ^ (32 - n) - 1) =
      i / 2 ^ (32 - n) * 2 ^ (32 - n) + (2 ^ (32 - n) - 1) := by
    rw [Nat.mul_comm, Nat.two_pow_add_eq_or_of_lt (by omega)]
    apply Nat.eq_of_testBit_eq
    intro j
    rw [Nat.testBit_or, Nat.testBit_or, Nat.testBit_two_pow_mul, Nat.testBit_two_pow_sub_one,
      Nat.testBit_div_two_pow]
    by_cases hj : 32 - n ≤ j
    · rw [Nat.sub_add_cancel hj]
      simp [hj]
    · simp [show j < 32 - n by omega]
  rw [hmask, bor_eq, hor, Nat.mod_eq_of_lt]
  rw [← hor]
  refine Nat.or_lt_two_pow hi (Nat.lt_of_lt_of_le (Nat.sub_lt hpos Nat.one_pos) ?_)
  exact Nat.pow_le_pow_right (by decide) (Nat.sub_le 32 n)

end IpOps
