/-
# The rates of the user interface

`nos-tbqd/files/settc.lua` turns a rate such as `100 Kbps` or `2 MBytes` into the text that
`tbq_token_config_init` reads.  The numbers of Lua are doubles; all numbers that pass the
bound of `parseRateDesc` are whole and small, and larger ones compare as they are.
-/
import OpenwrtAc.TbqConfig
import OpenwrtAc.RdsRoundTrip

open Outcome CString Rds

namespace Tbq

/-! ## The script -/

/-- `%s` in a pattern. -/
def luaSpace (c : UInt8) : Bool := c == 0x20 || (9 ≤ c && c ≤ 13)

/-- The pattern `^%s*(%d+)%s*([KM])%s*(unit)%s*$`: the digits and the letter. -/
def matchUnit (unit rate : List UInt8) : Option (List UInt8 × UInt8) :=
  let rate := rate.dropWhile luaSpace
  let a := rate.takeWhile isDigit
  match (rate.dropWhile isDigit).dropWhile luaSpace with
  | [] => none
  | b :: rest =>
      let rest := rest.dropWhile luaSpace
      if a ≠ [] ∧ (b = 75 ∨ b = 77) ∧ unit <+: rest
          ∧ (rest.drop unit.length).dropWhile luaSpace = [] then some (a, b)
      else none

/-- The three captures of `parseRateDesc`. -/
structure RateDesc where
  num : ℕ
  mega : Bool
  bps : Bool
  deriving DecidableEq, Repr

/-- `factor`. -/
def RateDesc.factor (d : RateDesc) : ℕ := if d.mega then 1000 * 1000 else 1000

/-- `maxRate`. -/
def RateDesc.maxRate (d : RateDesc) : ℕ :=
  if d.bps then 2 * 1000 * 1000 * 1000 * 8 else 2 * 1000 * 1000 * 1000

/-- The two matches of `parseRateDesc`. -/
def matchRate (rate : List UInt8) : Option RateDesc :=
  match matchUnit (asciiBytes "bps") rate with
  | some (a, b) => some ⟨digitsValue a, b == 77, true⟩
  | none => (matchUnit (asciiBytes "Bytes") rate).map fun (a, b) => ⟨digitsValue a, b == 77, false⟩

/-- The rest of `parseRateDesc`. -/
def RateDesc.rate (d : RateDesc) : ℕ :=
  if d.maxRate / d.factor < d.num then 0
  else if d.bps then d.num * d.factor / 8 else d.num * d.factor

/-- `parseRateDesc`. -/
def parseRateDesc (rate : List UInt8) : ℕ := (matchRate rate).elim 0 RateDesc.rate

/-- The text of a number of bytes per second. -/
def rateText (num : ℕ) : List UInt8 :=
  if num % 1000000000 = 0 then decimal (num / 1000000000) ++ [71]
  else if num % 1000000 = 0 then decimal (num / 1000000) ++ [77]
  else if num % 1000 = 0 then decimal (num / 1000) ++ [75]
  else decimal num

/-- `tbqRateFromTCRate`. -/
def tbqRateFromTCRate (rate : List UInt8) : List UInt8 := rateText (parseRateDesc rate)

/-! ## What the kernel reads -/

theorem isDigit_of_lt {d : ℕ} (hd : d < 10) : isDigit (48 + d).toUInt8 = true
    ∧ isSpace (48 + d).toUInt8 = false ∧ (48 + d).toUInt8.toNat - 48 = d := by
  have hall : ∀ d : Fin 10, isDigit (48 + d.val).toUInt8 = true
      ∧ isSpace (48 + d.val).toUInt8 = false ∧ (48 + d.val).toUInt8.toNat - 48 = d.val := by
    decide
  exact hall ⟨d, hd⟩

theorem digitsValue_decimal (n : ℕ) : digitsValue (decimal n) = n := by
  obtain ⟨ds, hds, hdec, hval⟩ := decimal_eq n
  rw [hdec, digitsValue, List.foldl_map]
  have hfold : ∀ (l : List ℕ) (c : ℕ), (∀ d ∈ l, d < 10) →
      l.foldl (fun c d => c * 10 + ((48 + d).toUInt8.toNat - 48)) c
        = l.foldl (fun c d => c * 10 + d) c := by
    intro l
    induction l with
    | nil => exact fun _ _ => rfl
    | cons d l ih =>
        intro c hl
        obtain ⟨hd, hl⟩ := List.forall_mem_cons.mp hl
        rw [List.foldl_cons, List.foldl_cons, (isDigit_of_lt hd).2.2, ih _ hl]
  rw [hfold ds 0 hds, hval]

theorem decimal_ne_nil (n : ℕ) : decimal n ≠ [] := by
  unfold decimal
  split
  · exact List.cons_ne_nil _ _
  · rename_i h
    simpa using Nat.digits_ne_nil_iff_ne_zero.mpr h

/-- A number is read up to what follows it. -/
theorem scanLlu_decimal {n : ℕ} (hn : n < 2 ^ 64) {rest : List UInt8}
    (hrest : rest.takeWhile isDigit = []) : scanLlu (decimal n ++ rest) = some (n, rest) := by
  obtain ⟨ds, hds, hdec, -⟩ := decimal_eq n
  have hdigits : ∀ c ∈ decimal n, isDigit c = true ∧ isSpace c = false := by
    intro c hc
    rw [hdec] at hc
    obtain ⟨d, hd, rfl⟩ := List.mem_map.mp hc
    exact ⟨(isDigit_of_lt (hds d hd)).1, (isDigit_of_lt (hds d hd)).2.1⟩
  have hskip : skipSpaces (decimal n ++ rest) = decimal n ++ rest := by
    unfold skipSpaces
    obtain ⟨c, l, hcl⟩ := List.exists_cons_of_ne_nil (decimal_ne_nil n)
    rw [hcl, List.cons_append, List.dropWhile_cons_of_neg]
    simpa using (hdigits c (hcl ▸ List.mem_cons_self)).2
  have htake : (decimal n ++ rest).takeWhile isDigit = decimal n := by
    rw [List.takeWhile_append_of_pos fun c hc => (hdigits c hc).1, hrest, List.append_nil]
  have hdrop : (decimal n ++ rest).dropWhile isDigit = rest := by
    have happ := List.takeWhile_append_dropWhile (p := isDigit) (l := decimal n ++ rest)
    rw [htake] at happ
    exact List.append_cancel_left happ
  unfold scanLlu scanDigits
  rw [hskip]
  dsimp only
  rw [htake, hdrop, if_neg (by simpa using decimal_ne_nil n)]
  simp only [Option.map_some, digitsValue_decimal, Nat.mod_eq_of_lt hn]

/-- A number with a unit is that many units. -/
theorem rateBytes_unit {n bytes : ℕ} {unit : UInt8} (hn : n < 2 ^ 64)
    (hunit : unitBytes unit = some bytes) (hdigit : isDigit unit = false)
    (hspace : isSpace unit = false) : rateBytes (decimal n ++ [unit]) = some (n * bytes) := by
  have hscan : scanRate (decimal n ++ [unit]) = some (n, unit) := by
    unfold scanRate
    rw [scanLlu_decimal hn (by simp [hdigit])]
    simp [scanC, skipSpaces, hspace]
  unfold rateBytes
  rw [hscan]
  simp [hunit]

/-- A number without a unit is refused. -/
theorem rateBytes_decimal {n : ℕ} (hn : n < 2 ^ 64) : rateBytes (decimal n) = none := by
  have hscan : scanLlu (decimal n ++ []) = some (n, []) := scanLlu_decimal hn rfl
  rw [List.append_nil] at hscan
  unfold rateBytes scanRate
  rw [hscan]
  rfl

theorem rateBytes_rateText {v : ℕ} (hv : v < 2 ^ 64) :
    rateBytes (rateText v) = if v % 1000 = 0 then some v else none := by
  have hunit : ∀ {bytes : ℕ} {unit : UInt8}, unitBytes unit = some bytes → isDigit unit = false →
      isSpace unit = false → v % bytes = 0 → v % 1000 = 0 →
      rateBytes (decimal (v / bytes) ++ [unit]) = if v % 1000 = 0 then some v else none := by
    intro bytes unit hbytes hdigit hspace hmod hkilo
    rw [rateBytes_unit ((Nat.div_le_self v bytes).trans_lt hv) hbytes hdigit hspace, if_pos hkilo,
      Nat.div_mul_cancel (Nat.dvd_of_mod_eq_zero hmod)]
  unfold rateText
  split
  · exact hunit (by decide) (by decide) (by decide) ‹_› (by omega)
  · split
    · exact hunit (by decide) (by decide) (by decide) ‹_› (by omega)
    · split
      · rename_i hkilo
        have h : rateBytes (decimal (v / 1000) ++ [75]) = _ :=
          hunit (by decide) (by decide) (by decide) hkilo hkilo
        rwa [if_pos hkilo] at h
      · exact rateBytes_decimal hv

theorem length_rateText {v : ℕ} (hv : v < 10 ^ 10) : (rateText v).length ≤ 64 := by
  have hlen : ∀ n ≤ v, (decimal n).length ≤ 10 := fun n hn =>
    decimal_length_le (by decide) (hn.trans_lt hv)
  have hunit : ∀ (n : ℕ) (unit : UInt8), n ≤ v → (decimal n ++ [unit]).length ≤ 64 := by
    intro n unit hn
    have := hlen n hn
    rw [List.length_append, List.length_singleton]
    omega
  unfold rateText
  split
  · exact hunit _ _ (Nat.div_le_self _ _)
  · split
    · exact hunit _ _ (Nat.div_le_self _ _)
    · split
      · exact hunit _ _ (Nat.div_le_self _ _)
      · exact (hlen v le_rfl).trans (by decide)

/-- The kernel reads the text of a rate as that rate when it is a number of thousands, and
refuses it otherwise. -/
theorem bytesPerSecInit_rateText {v : ℕ} (hv : (v : ℤ) ≤ tbqBytesPerSecMax) :
    bytesPerSecInit (.string (rateText v)) = .ok (if v = 0 then tbqBytesPerSecMax.toNat else v)
      ↔ v % 1000 = 0 := by
  have hmax : v ≤ 2000000000 := by
    unfold tbqBytesPerSecMax at hv
    omega
  have hlen := length_rateText (show v < 10 ^ 10 by omega)
  have hstring : tbqJsonStringMap "RateLimit" 64 (.string (rateText v)) = .ok (rateText v) :=
    if_neg (not_lt.mpr hlen)
  have hbytes := rateBytes_rateText (show v < 2 ^ 64 by omega)
  rw [bytesPerSecInit_eq_ok]
  constructor
  · rintro ⟨desc, r, hdesc, hr, -, -⟩
    obtain rfl := Except.ok.inj (hstring.symm.trans hdesc)
    by_contra hmod
    rw [hbytes, if_neg hmod] at hr
    cases hr
  · intro hmod
    rw [if_pos hmod] at hbytes
    exact ⟨_, v, hstring, hbytes, hv, rfl⟩

/-! ## Which rates are read back -/

/-- `parseRateDesc` accepts the description: it matches, and the rate is not too large. -/
def RateAccepted (rate : List UInt8) (d : RateDesc) : Prop :=
  matchRate rate = some d ∧ d.num ≤ d.maxRate / d.factor

theorem RateDesc.rate_le (d : RateDesc) : d.rate ≤ 2000000000 := by
  unfold rate
  by_cases h : d.maxRate / d.factor < d.num
  · rw [if_pos h]
    exact Nat.zero_le _
  · rw [if_neg h]
    obtain ⟨num, mega, bps⟩ := d
    cases mega <;> cases bps <;> simp [factor, maxRate] at h ⊢ <;> omega

/-- Only kilobits need not be a number of thousands of bytes. -/
theorem RateDesc.rate_mod (d : RateDesc) (h : d.num ≤ d.maxRate / d.factor) :
    d.rate % 1000 = 0 ↔ (d.bps = true → d.mega = false → 8 ∣ d.num) := by
  obtain ⟨num, mega, bps⟩ := d
  unfold rate
  rw [if_neg (not_lt.mpr h)]
  cases mega <;> cases bps <;> simp [factor] <;> omega

theorem parseRateDesc_le (rate : List UInt8) : (parseRateDesc rate : ℤ) ≤ tbqBytesPerSecMax := by
  unfold parseRateDesc tbqBytesPerSecMax
  cases matchRate rate with
  | none => simp
  | some d =>
      have hle := d.rate_le
      simp only [Option.elim_some]
      omega

/-- The text of an accepted description is read back as its rate, with 0 for no limit on
both sides, exactly when it is not a number of kilobits that 8 does not divide. -/
theorem rate_roundtrip_iff {rate : List UInt8} {d : RateDesc} (h : RateAccepted rate d) :
    bytesPerSecInit (.string (tbqRateFromTCRate rate))
        = .ok (if parseRateDesc rate = 0 then tbqBytesPerSecMax.toNat else parseRateDesc rate)
      ↔ (d.bps = true → d.mega = false → 8 ∣ d.num) := by
  have hrate : parseRateDesc rate = d.rate := by
    unfold parseRateDesc
    rw [h.1]
    rfl
  unfold tbqRateFromTCRate
  rw [bytesPerSecInit_rateText (parseRateDesc_le rate), hrate, d.rate_mod h.2]

/-- `8 Mbps` is `1M`. -/
theorem rate_roundtrip_mega :
    bytesPerSecInit (.string (tbqRateFromTCRate (asciiBytes "8 Mbps"))) = .ok 1000000 := by
  have h : RateAccepted (asciiBytes "8 Mbps") ⟨8, true, true⟩ := ⟨by decide, by decide⟩
  have hread := (rate_roundtrip_iff h).mpr fun _ hm => by cases hm
  have hval : parseRateDesc (asciiBytes "8 Mbps") = 1000000 := by decide
  rwa [hval] at hread

/-- `100 Kbps` is `12500`, which has no unit. -/
theorem rate_refused :
    ¬ ∀ rate d, RateAccepted rate d →
      bytesPerSecInit (.string (tbqRateFromTCRate rate))
        = .ok (if parseRateDesc rate = 0 then tbqBytesPerSecMax.toNat else parseRateDesc rate) := by
  intro hall
  have h : RateAccepted (asciiBytes "100 Kbps") ⟨100, false, true⟩ := ⟨by decide, by decide⟩
  have hmod := (bytesPerSecInit_rateText (parseRateDesc_le _)).mp (hall _ _ h)
  have hval : parseRateDesc (asciiBytes "100 Kbps") = 12500 := by decide
  rw [hval] at hmod
  exact absurd hmod (by decide)

end Tbq
