/-
# Addresses in hex (`lualib-ac/ipops.lua`)

`ipstr2hexstr` puts the number of the address into a local variable `i` and takes the bytes
of `ip`, which is a global one: `nil`, or the parts that `ipstr2range` has left there.
-/
import OpenwrtAc.IpGroup

namespace IpOps

/-- What the global variable `ip` can be. -/
inductive Value
  | nil
  | number (n : ℕ)
  | table (parts : List ℕ)
  deriving DecidableEq

/-- `_band(_rshift(v, i), 0x000000FF)`; the arithmetic raises an error where `v` is no number. -/
def Value.byte (v : Value) (i : ℕ) : Option ℕ :=
  match v with
  | .number n => some (band (rshift n i) 0x000000FF)
  | _ => none

/-- `%02X`. -/
def format02X (n : ℕ) : List Char := List.leftpad 2 '0' ((Nat.toDigits 16 n).map Char.toUpper)

def hexDigit (c : Char) : Option ℕ :=
  if c.isDigit then some (c.toNat - '0'.toNat)
  else if 'a' ≤ c ∧ c ≤ 'f' then some (c.toNat - 'a'.toNat + 10)
  else if 'A' ≤ c ∧ c ≤ 'F' then some (c.toNat - 'A'.toNat + 10)
  else none

/-- `tonumber(s, 16)` of digits; of anything else it is taken to be `nil`. -/
def tonumber16 (s : List Char) : Value :=
  match s.mapM hexDigit with
  | some (d :: digits) => .number ((d :: digits).foldl (fun n d => 16 * n + d) 0)
  | _ => .nil

/-- `hexstr2ipstr`, where `big_endian()` is `big`; `none` is an error. -/
def hexstr2ipstr (big : Bool) (hexstr : List Char) : Option (List Char) := do
  let ip := tonumber16 hexstr
  let a ← ip.byte 24
  let b ← ip.byte 16
  let c ← ip.byte 8
  let d ← ip.byte 0
  return if big then dotted (formatU a) (formatU b) (formatU c) (formatU d)
    else dotted (formatU d) (formatU c) (formatU b) (formatU a)

/-- `ipstr2hexstr`, where `big_endian()` is `big` and the global variable `ip` is what it is. -/
def ipstr2hexstr (big : Bool) (ip : Value) (ipstr : List Char) : Option (List Char) := do
  let _i := ipstr2int ipstr
  let a ← ip.byte 24
  let b ← ip.byte 16
  let c ← ip.byte 8
  let d ← ip.byte 0
  return if big then format02X a ++ format02X b ++ format02X c ++ format02X d
    else format02X d ++ format02X c ++ format02X b ++ format02X a

/-- The calls into the module, with the strings that they come to `ipstr2range` with. -/
inductive Call
  | ipstr2range (ipstr : List Char)
  | ipgroupAdd (ipgrp : Option (List Range)) (ipstr : List Char)
  | ipranges2ipgroup (ipranges : List (List Char))
  /-- A function that does not call `ipstr2range`. -/
  | other

/-- The first line of `ipstr2range`. -/
def assignIp (_ip : Value) (ipstr : List Char) : Value := .table (getPartsAsNumber ipstr)

/-- The variable `ip` behind a call. -/
def Call.run (ip : Value) : Call → Value
  | .ipstr2range ipstr => assignIp ip ipstr
  | .ipgroupAdd _ ipstr => assignIp ip ipstr
  | .ipranges2ipgroup ipranges => ipranges.foldl assignIp ip
  | .other => ip

/-! ## The digits -/

theorem mapM_format02X : ∀ b < 256, (format02X b).mapM hexDigit = some [b / 16, b % 16] := by
  decide +kernel

theorem tonumber16_format02X {a b c d : ℕ} (ha : a < 256) (hb : b < 256) (hc : c < 256)
    (hd : d < 256) :
    tonumber16 (format02X a ++ format02X b ++ format02X c ++ format02X d) =
      .number (ofParts a b c d) := by
  have hdigits : (format02X a ++ format02X b ++ format02X c ++ format02X d).mapM hexDigit =
      some [a / 16, a % 16, b / 16, b % 16, c / 16, c % 16, d / 16, d % 16] := by
    rw [List.mapM_append, List.mapM_append, List.mapM_append, mapM_format02X a ha,
      mapM_format02X b hb, mapM_format02X c hc, mapM_format02X d hd]
    rfl
  rw [tonumber16, hdigits]
  show Value.number _ = _
  congr 1
  rw [ofParts]
  simp only [List.foldl_cons, List.foldl_nil]
  omega

/-! ## The round trip -/

theorem Value.byte_number (n i : ℕ) : (Value.number n).byte i = some (n / 2 ^ i % 256) := by
  rw [Value.byte, band_rshift]

/-- The four bytes of a number that is made of four. -/
theorem ofParts_bytes {a b c d : ℕ} (ha : a < 256) (hb : b < 256) (hc : c < 256) (hd : d < 256) :
    ofParts a b c d / 2 ^ 24 % 256 = a ∧ ofParts a b c d / 2 ^ 16 % 256 = b ∧
      ofParts a b c d / 2 ^ 8 % 256 = c ∧ ofParts a b c d / 2 ^ 0 % 256 = d := by
  unfold ofParts
  omega

theorem hexstr2ipstr_format02X (big : Bool) {a b c d : ℕ} (ha : a < 256) (hb : b < 256)
    (hc : c < 256) (hd : d < 256) :
    hexstr2ipstr big (format02X a ++ format02X b ++ format02X c ++ format02X d) =
      some (if big then dotted (formatU a) (formatU b) (formatU c) (formatU d)
        else dotted (formatU d) (formatU c) (formatU b) (formatU a)) := by
  obtain ⟨h24, h16, h8, h0⟩ := ofParts_bytes ha hb hc hd
  rw [hexstr2ipstr, tonumber16_format02X ha hb hc hd, Value.byte_number, Value.byte_number,
    Value.byte_number, Value.byte_number, h24, h16, h8, h0]
  rfl

theorem int2ipstr_eq (n : ℕ) : int2ipstr n = dotted (formatU (n / 2 ^ 24 % 256))
    (formatU (n / 2 ^ 16 % 256)) (formatU (n / 2 ^ 8 % 256)) (formatU (n / 2 ^ 0 % 256)) := by
  rw [int2ipstr, band_rshift, band_rshift, band_rshift, band_rshift]

theorem ipstr2hexstr_number (big : Bool) (n : ℕ) (s : List Char) :
    ipstr2hexstr big (.number n) s = some (if big
      then format02X (n / 2 ^ 24 % 256) ++ format02X (n / 2 ^ 16 % 256) ++
        format02X (n / 2 ^ 8 % 256) ++ format02X (n / 2 ^ 0 % 256)
      else format02X (n / 2 ^ 0 % 256) ++ format02X (n / 2 ^ 8 % 256) ++
        format02X (n / 2 ^ 16 % 256) ++ format02X (n / 2 ^ 24 % 256)) := by
  rw [ipstr2hexstr, Value.byte_number, Value.byte_number, Value.byte_number, Value.byte_number]
  rfl

/-- With a number in the variable `ip` there and back gives the address of that number. -/
theorem hexstr_of_number (big : Bool) (n : ℕ) (s : List Char) :
    (ipstr2hexstr big (.number n) s >>= hexstr2ipstr big) = some (int2ipstr n) := by
  have hlt : ∀ k, n / 2 ^ k % 256 < 256 := fun k => Nat.mod_lt _ (by decide)
  rw [ipstr2hexstr_number, Option.bind_eq_bind, Option.bind_some, int2ipstr_eq]
  cases big with
  | true =>
    rw [if_pos rfl, hexstr2ipstr_format02X true (hlt 24) (hlt 16) (hlt 8) (hlt 0), if_pos rfl]
  | false =>
    rw [if_neg Bool.false_ne_true,
      hexstr2ipstr_format02X false (hlt 0) (hlt 8) (hlt 16) (hlt 24),
      if_neg Bool.false_ne_true]

/-- With anything else in it an error is raised. -/
theorem ipstr2hexstr_error (big : Bool) {ip : Value} (h : ∀ n, ip ≠ .number n) (s : List Char) :
    ipstr2hexstr big ip s = none := by
  cases ip with
  | nil => rfl
  | number n => exact absurd rfl (h n)
  | table parts => rfl

theorem Call.run_ne_number {ip : Value} (h : ∀ n, ip ≠ .number n) (c : Call) (n : ℕ) :
    c.run ip ≠ .number n := by
  cases c with
  | ipstr2range ipstr => exact nofun
  | ipgroupAdd ipgrp ipstr => exact nofun
  | ipranges2ipgroup ipranges =>
    show ipranges.foldl assignIp ip ≠ _
    induction ipranges generalizing ip with
    | nil => exact h n
    | cons s ipranges ih => exact ih nofun
  | other => exact h n

theorem foldl_run_ne_number (calls : List Call) {ip : Value} (h : ∀ n, ip ≠ .number n) (n : ℕ) :
    calls.foldl Call.run ip ≠ .number n := by
  induction calls generalizing ip with
  | nil => exact h n
  | cons c calls ih => exact ih (Call.run_ne_number h c)

/-- An address written as `int2ipstr` writes it is the one of a number if its low 32 bits are
that address. -/
theorem int2ipstr_eq_iff {x y z w : ℕ} (hx : x ≤ 255) (hy : y ≤ 255) (hz : z ≤ 255)
    (hw : w ≤ 255) (n : ℕ) :
    int2ipstr n = dotted (formatU x) (formatU y) (formatU z) (formatU w) ↔
      n % 2 ^ 32 = ofParts x y z w := by
  have hquad := Quad.mk (numeral_formatU x) (numeral_formatU y) (numeral_formatU z)
    (numeral_formatU w) hx hy hz hw
  have hlow : int2ipstr n = int2ipstr (n % 2 ^ 32) := by
    rw [int2ipstr_eq, int2ipstr_eq]
    congr 2 <;> omega
  constructor
  · intro h
    have hread := (quad_int2ipstr (Nat.mod_lt n (Nat.two_pow_pos 32))).ipstr2int
    rw [← hlow, h, hquad.ipstr2int] at hread
    exact hread.symm
  · intro h
    obtain ⟨h24, h16, h8, h0⟩ := ofParts_bytes (show x < 256 by omega) (show y < 256 by omega)
      (show z < 256 by omega) (show w < 256 by omega)
    rw [hlow, h, int2ipstr_eq, h24, h16, h8, h0]

/-- An address comes back only where a number that has it is in the variable `ip`, which no
calls into the module lead to. -/
theorem hexstr_round_trip_iff (big : Bool) {x y z w : ℕ} (hx : x ≤ 255) (hy : y ≤ 255)
    (hz : z ≤ 255) (hw : w ≤ 255) {s : List Char}
    (hs : s = dotted (formatU x) (formatU y) (formatU z) (formatU w)) :
    (∀ ip, (ipstr2hexstr big ip s >>= hexstr2ipstr big) = some s ↔
      ∃ n, ip = .number n ∧ n % 2 ^ 32 = ofParts x y z w) ∧
    ∀ calls : List Call,
      (ipstr2hexstr big (calls.foldl Call.run .nil) s >>= hexstr2ipstr big) ≠ some s := by
  have herror : ∀ {ip}, (∀ n, ip ≠ .number n) →
      (ipstr2hexstr big ip s >>= hexstr2ipstr big) ≠ some s := by
    intro ip h
    rw [ipstr2hexstr_error big h]
    exact nofun
  refine ⟨fun ip => ⟨fun h => ?_, ?_⟩, fun calls => herror (foldl_run_ne_number calls nofun)⟩
  · by_contra hno
    by_cases hnum : ∃ n, ip = .number n
    · obtain ⟨n, rfl⟩ := hnum
      rw [hexstr_of_number, hs] at h
      exact hno ⟨n, rfl, (int2ipstr_eq_iff hx hy hz hw n).mp (Option.some.inj h)⟩
    · exact herror (fun n hn => hnum ⟨n, hn⟩) h
  · rintro ⟨n, rfl, hn⟩
    rw [hexstr_of_number, (int2ipstr_eq_iff hx hy hz hw n).mpr hn, ← hs]

/-- `1.2.3.4` in a module that has read it as a range before. -/
theorem hexstr_round_trip_read :
    (ipstr2hexstr true ([Call.ipstr2range (dotted ['1'] ['2'] ['3'] ['4'])].foldl Call.run .nil)
        (dotted ['1'] ['2'] ['3'] ['4']) >>= hexstr2ipstr true) ≠
      some (dotted ['1'] ['2'] ['3'] ['4']) :=
  (hexstr_round_trip_iff true (x := 1) (y := 2) (z := 3) (w := 4) (by decide) (by decide)
    (by decide) (by decide) rfl).2 _

/-- In a module that has just been loaded `1.2.3.4` raises an error. -/
theorem hexstr_raises : ¬ ∀ (calls : List Call) (big : Bool) (x y z w : ℕ),
    x ≤ 255 → y ≤ 255 → z ≤ 255 → w ≤ 255 →
    (ipstr2hexstr big (calls.foldl Call.run .nil)
        (dotted (formatU x) (formatU y) (formatU z) (formatU w)) >>= hexstr2ipstr big) =
      some (dotted (formatU x) (formatU y) (formatU z) (formatU w)) := by
  intro h
  have hnone := h [] false 1 2 3 4 (by decide) (by decide) (by decide) (by decide)
  have hnil : ∀ n, Value.nil ≠ .number n := nofun
  rw [List.foldl_nil, ipstr2hexstr_error false hnil] at hnone
  cases hnone

end IpOps
