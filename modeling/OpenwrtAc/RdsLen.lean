/-
# The numbers of the message format (`read_rds_len`)

A number is a mark, digits and the end of a line.  The digits are added up in an `int`,
and the bound is tested when all of them are: a number of many digits may have become any
other by then.
-/
import OpenwrtAc.CString
import OpenwrtAc.RdsParser

open MachineInt CString

namespace Rds

/-- Decimal digits only. -/
def Digits (ds : Bytes) : Prop := ∀ c ∈ ds, isDigit c = true

instance (ds : Bytes) : Decidable (Digits ds) :=
  inferInstanceAs (Decidable (∀ c ∈ ds, isDigit c = true))

/-- The number that digits behind others denote. -/
def valueFrom (n : ℕ) (ds : Bytes) : ℕ := ds.foldl (fun n c => n * 10 + (c.toNat - 48)) n

/-- The number that digits denote. -/
def value (ds : Bytes) : ℕ := valueFrom 0 ds

/-- `pre` is what is in front of the first end of a line. -/
def FirstLine (b pre rest : Bytes) : Prop :=
  b = pre ++ 13 :: 10 :: rest ∧ ∀ a c, b = a ++ 13 :: 10 :: c → pre.length ≤ a.length

theorem isDigit_iff {c : UInt8} : isDigit c = true ↔ ¬ (c < 48 ∨ 57 < c) := by
  rw [not_or, UInt8.not_lt, UInt8.not_lt]
  simp [isDigit]

theorem ne_of_isDigit {c : UInt8} (h : isDigit c = true) : c ≠ 13 := by
  rintro rfl
  exact absurd h (by decide)

/-- One step of the loop at a digit. -/
theorem readDigits_digit {c d : UInt8} (hc : isDigit c = true) (rest : Bytes) (n : ℤ) :
    readDigits (c :: d :: rest) n = readDigits (d :: rest) (i32 (n * 10 + (c.toNat - 48 : ℕ))) := by
  rw [readDigits, if_neg fun h => ne_of_isDigit hc h.1, if_neg (isDigit_iff.mp hc)]

/-- One step of the loop at another byte that does not begin the end of the line. -/
theorem readDigits_other {c d : UInt8} (hc : ¬ isDigit c = true) (hend : ¬ (c = 13 ∧ d = 10))
    (rest : Bytes) (n : ℤ) : readDigits (c :: d :: rest) n = .fail := by
  rw [readDigits, if_neg hend, if_pos (not_not.mp fun h => hc (isDigit_iff.mpr h))]

/-- Storing each step in an `int` comes to the same as storing the last. -/
theorem i32_step (n d : ℕ) : i32 (i32 n * 10 + d) = i32 ((n * 10 + d : ℕ) : ℤ) := by
  unfold i32
  rw [Int.bmod_def, Int.bmod_def, Int.bmod_def]
  omega

/-- At digits and the end of the line the number is tested as the `int` it has become. -/
theorem readDigits_line {ds : Bytes} (hds : Digits ds) (rest : Bytes) (n : ℕ) :
    readDigits (ds ++ 13 :: 10 :: rest) (i32 n) =
      if 100000000 ≤ i32 (valueFrom n ds) then .fail else .ok (i32 (valueFrom n ds)) rest := by
  induction ds generalizing n with
  | nil => rw [List.nil_append, readDigits, if_pos ⟨rfl, rfl⟩]; rfl
  | cons c ds ih =>
    have hc : isDigit c = true := hds c List.mem_cons_self
    have ih := ih (fun x hx => hds x (List.mem_cons_of_mem _ hx)) (n * 10 + (c.toNat - 48))
    cases ds with
    | nil =>
      rw [List.cons_append, List.nil_append, readDigits_digit hc, i32_step]
      exact ih
    | cons d ds =>
      rw [List.cons_append, List.cons_append, readDigits_digit hc, i32_step]
      exact ih

/-- What is read has digits in front of it and the end of a line. -/
theorem readDigits_eq_ok {b rest : Bytes} {n v : ℤ} (h : readDigits b n = .ok v rest) :
    ∃ ds, Digits ds ∧ b = ds ++ 13 :: 10 :: rest := by
  induction b generalizing n with
  | nil => cases h
  | cons c b ih =>
    cases b with
    | nil => cases h
    | cons d b =>
      by_cases hend : c = 13 ∧ d = 10
      · rw [readDigits, if_pos hend] at h
        split at h
        · cases h
        · cases h
          exact ⟨[], nofun, by rw [hend.1, hend.2]; rfl⟩
      · by_cases hc : isDigit c = true
        · rw [readDigits_digit hc] at h
          obtain ⟨ds, hds, hb⟩ := ih h
          refine ⟨c :: ds, fun x hx => ?_, by rw [hb]; rfl⟩
          rcases List.mem_cons.mp hx with rfl | hx
          · exact hc
          · exact hds x hx
        · rw [readDigits_other hc hend] at h
          cases h

/-- In the middle of digits and the end of a line there is more to come. -/
theorem readDigits_prefix {ds b : Bytes} (hds : Digits ds) (hpre : b <+: ds ++ [13, 10])
    (hne : b ≠ ds ++ [13, 10]) (n : ℤ) : readDigits b n = .more := by
  induction ds generalizing b n with
  | nil =>
    match b, hpre, hne with
    | [], _, _ => rfl
    | [_], _, _ => rfl
    | c :: d :: b, hpre, hne =>
      exact absurd (hpre.eq_of_length_le (by simp)) hne
  | cons c ds ih =>
    match b, hpre, hne with
    | [], _, _ => rfl
    | [_], _, _ => rfl
    | x :: y :: b, hpre, hne =>
      obtain ⟨rfl, htail⟩ := List.cons_prefix_cons.mp hpre
      rw [readDigits_digit (hds x List.mem_cons_self)]
      refine ih (fun z hz => hds z (List.mem_cons_of_mem _ hz)) htail (fun h => hne ?_) _
      rw [h]
      rfl

/-- A byte in front of the end of the line that is no digit is an error. -/
theorem readDigits_of_not_digits {b pre rest : Bytes} (h : FirstLine b pre rest)
    (hpre : ¬ Digits pre) (n : ℤ) : readDigits b n = .fail := by
  obtain ⟨rfl, hfirst⟩ := h
  induction pre generalizing n with
  | nil => exact absurd nofun hpre
  | cons c pre ih =>
    obtain ⟨d, tail, htail⟩ : ∃ d tail, pre ++ 13 :: 10 :: rest = d :: tail := by
      cases pre with
      | nil => exact ⟨13, 10 :: rest, rfl⟩
      | cons d pre => exact ⟨d, pre ++ 13 :: 10 :: rest, rfl⟩
    have hend : ¬ (c = 13 ∧ d = 10) := by
      rintro ⟨rfl, rfl⟩
      have := hfirst [] tail (by rw [List.cons_append, htail]; rfl)
      simp at this
    by_cases hc : isDigit c = true
    · have hrest : ¬ Digits pre := by
        intro hall
        refine hpre fun x hx => ?_
        rcases List.mem_cons.mp hx with rfl | hx
        · exact hc
        · exact hall x hx
      have hnext : ∀ n, readDigits (pre ++ 13 :: 10 :: rest) n = .fail := by
        intro n
        refine ih hrest n fun a e hae => ?_
        have := hfirst (c :: a) e (by rw [List.cons_append, hae]; rfl)
        simpa using this
      rw [List.cons_append, htail, readDigits_digit hc, ← htail]
      exact hnext _
    · rw [List.cons_append, htail]
      exact readDigits_other hc hend _ _

/-- Digits are all in front of the first end of a line. -/
theorem firstLine_of_digits {ds : Bytes} (hds : Digits ds) (rest : Bytes) :
    FirstLine (ds ++ 13 :: 10 :: rest) ds rest := by
  refine ⟨rfl, fun a c h => ?_⟩
  by_contra hlt
  have hget : (ds ++ 13 :: 10 :: rest)[a.length]? = some 13 := by
    rw [h, List.getElem?_append_right le_rfl, Nat.sub_self]
    rfl
  rw [List.getElem?_append_left (by omega)] at hget
  exact ne_of_isDigit (hds 13 (List.mem_of_getElem? hget)) rfl

/-! ## A bounded decimal parser -/

/-- What `read_rds_len` is to do of a buffer that begins with the mark. -/
structure BoundedDecimal (mark : UInt8) (b : Bytes) : Prop where
  accepts : ∀ v rest, readRdsLen mark (mark :: b) = .ok v rest ↔
    ∃ ds, Digits ds ∧ b = ds ++ 13 :: 10 :: rest ∧ value ds < 100000000 ∧ v = value ds
  waits : ∀ ds, Digits ds → value ds < 100000000 → b <+: ds ++ [13, 10] → b ≠ ds ++ [13, 10] →
    readRdsLen mark (mark :: b) = .more
  refuses : ∀ pre rest, FirstLine b pre rest → ¬ (Digits pre ∧ value pre < 100000000) →
    readRdsLen mark (mark :: b) = .fail

/-- It is that unless a number is there that is out of bounds and that as an `int` is below
the bound. -/
theorem readRdsLen_iff (mark : UInt8) (b : Bytes) :
    BoundedDecimal mark b ↔
      ∀ ds rest, Digits ds → b = ds ++ 13 :: 10 :: rest → 100000000 ≤ value ds →
        100000000 ≤ i32 (value ds) := by
  have hread : readRdsLen mark (mark :: b) = readDigits b (i32 (0 : ℕ)) := if_pos rfl
  have hline : ∀ ds rest, Digits ds → b = ds ++ 13 :: 10 :: rest →
      readRdsLen mark (mark :: b) =
        if 100000000 ≤ i32 (value ds) then .fail else .ok (i32 (value ds)) rest := by
    intro ds rest hds hb
    rw [hread, hb]
    exact readDigits_line hds rest 0
  constructor
  · intro h ds rest hds hb hbig
    have hfail := h.refuses ds rest (hb ▸ firstLine_of_digits hds rest) fun hp => by
      have := hp.2
      omega
    rw [hline ds rest hds hb] at hfail
    by_contra hlt
    rw [if_neg hlt] at hfail
    cases hfail
  · intro h
    refine ⟨fun v rest => ⟨fun hok => ?_, ?_⟩, ?_, ?_⟩
    · obtain ⟨ds, hds, hb⟩ := readDigits_eq_ok (hread ▸ hok)
      rw [hline ds rest hds hb] at hok
      split at hok
      · cases hok
      next hlt =>
        have hsmall : value ds < 100000000 := by
          by_contra hbig
          exact hlt (h ds rest hds hb (not_lt.mp hbig))
        have hi32 : i32 (value ds) = value ds := i32_of_range (by omega) (by omega)
        rw [hi32] at hok
        exact ⟨ds, hds, hb, hsmall, (LenRet.ok.inj hok).1.symm⟩
    · rintro ⟨ds, hds, hb, hsmall, rfl⟩
      have hi32 : i32 (value ds) = value ds := i32_of_range (by omega) (by omega)
      rw [hline ds rest hds hb, hi32, if_neg (by omega)]
    · intro ds hds _ hpre hne
      rw [hread]
      exact readDigits_prefix hds hpre hne _
    · intro pre rest hfirst hbad
      by_cases hpre : Digits pre
      · have hbig : 100000000 ≤ value pre := not_lt.mp fun hlt => hbad ⟨hpre, hlt⟩
        rw [hline pre rest hpre hfirst.1, if_pos (h pre rest hpre hfirst.1 hbig)]
      · rw [hread]
        exact readDigits_of_not_digits hfirst hpre _

/-- `4294967297` is read as `1`. -/
theorem long_number_accepted : ¬ ∀ (mark : UInt8) (b : Bytes), BoundedDecimal mark b := by
  intro h
  have hdigits : Digits (asciiBytes "4294967297") := by decide +kernel
  have hvalue : value (asciiBytes "4294967297") = 4294967297 := by decide +kernel
  have hfail := (h dollar (asciiBytes "4294967297" ++ [13, 10])).refuses _ []
    (firstLine_of_digits hdigits []) fun hp => by
      rw [hvalue] at hp
      omega
  exact absurd hfail (by decide)

end Rds
