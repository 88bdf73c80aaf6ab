/-
# What an accepted table is good for

`translate_table` follows the offsets of a block of user space and checks no more than that
each entry ends inside the block.  This module has the walk on the memory as it lies there,
the block and what the allocation holds behind it, and says exactly for which blocks the
walk comes to an end, and for which accepted requests the handlers stay inside their memory.
-/
import OpenwrtAc.NacsTable
import OpenwrtAc.NacsSets

open ByteCodec RuleTable

namespace Nacs

/-! ## The walk of `translate_table` -/

/-- The 16-bit word at a place in memory. -/
def wordAt (mem : ℕ → UInt8) (off : ℕ) : ℕ := (mem off).toNat + 2 ^ 8 * (mem (off + 1)).toNat

/-- `next_offset` of the entry at a place. -/
def nextAt (mem : ℕ → UInt8) (off : ℕ) : ℕ := wordAt mem (off + 6)

/-- `ac_entry_foreach` with `check_entry_size`, from the entry at `off` on, `fuel` times at
most: the number of entries, `some none` for `-EINVAL`, and `none` where the loop goes on.
Memory is counted from the first entry, which stands at a cache line. -/
def walk (mem : ℕ → UInt8) (size : ℕ) : ℕ → ℕ → ℕ → Option (Option ℕ)
  | fuel, off, i =>
    if off < size then
      match fuel with
      | 0 => none
      | fuel + 1 =>
        if size < off + nextAt mem off then some none
        else if off % 8 ≠ 0 then some none
        else walk mem size fuel (off + nextAt mem off) (i + 1)
    else some (some i)

/-- `struct ac_repl_table_info`, without the entries. -/
structure TableHeader where
  category : ℕ
  size : ℕ
  number : ℕ
deriving DecidableEq

/-- `translate_table`: whether the table is accepted; `none` where its loop has not ended. -/
def translateTableIn (h : TableHeader) (mem : ℕ → UInt8) (fuel : ℕ) : Option Bool :=
  if ruleTypeMax ≤ h.category then some false
  else (walk mem h.size fuel 0 0).map fun r => r == some h.number

/-- The places that the walk comes to. -/
inductive Visits (mem : ℕ → UInt8) (size : ℕ) : ℕ → Prop
  | first (h : 0 < size) : Visits mem size 0
  | next {off : ℕ} (h : Visits mem size off) (hal : off % 8 = 0)
      (hlt : off + nextAt mem off < size) : Visits mem size (off + nextAt mem off)

section Walk

variable {mem : ℕ → UInt8} {size : ℕ}

theorem Visits.lt {off : ℕ} (h : Visits mem size off) : off < size := by
  cases h with
  | first h => exact h
  | next _ _ hlt => exact hlt

theorem walk_of_le {off : ℕ} (h : size ≤ off) (fuel i : ℕ) :
    walk mem size fuel off i = some (some i) := by
  unfold walk
  rw [if_neg (Nat.not_lt.2 h)]

theorem walk_zero {off : ℕ} (h : off < size) (i : ℕ) : walk mem size 0 off i = none := by
  unfold walk
  rw [if_pos h]

theorem walk_succ {off : ℕ} (h : off < size) (fuel i : ℕ) :
    walk mem size (fuel + 1) off i =
      if size < off + nextAt mem off then some none
      else if off % 8 ≠ 0 then some none
      else walk mem size fuel (off + nextAt mem off) (i + 1) := by
  rw [walk, if_pos h]

/-- A walk that ends has ended from every place that it comes to. -/
theorem walk_ends_at {off fuel : ℕ} (hv : Visits mem size off)
    (h : walk mem size fuel 0 0 ≠ none) : ∃ fuel i, walk mem size fuel off i ≠ none := by
  induction hv with
  | first h0 => exact ⟨fuel, 0, h⟩
  | @next off hv hal hlt ih =>
    obtain ⟨fuel, i, hw⟩ := ih
    cases fuel with
    | zero => exact absurd (walk_zero hv.lt i) hw
    | succ fuel =>
      rw [walk_succ hv.lt, if_neg (by omega), if_neg (by omega)] at hw
      exact ⟨fuel, i + 1, hw⟩

/-- At an offset of zero the walk stays where it is. -/
theorem walk_stuck {off : ℕ} (hlt : off < size) (hal : off % 8 = 0) (hz : nextAt mem off = 0)
    (fuel i : ℕ) : walk mem size fuel off i = none := by
  induction fuel generalizing i with
  | zero => exact walk_zero hlt i
  | succ fuel ih =>
    rw [walk_succ hlt, if_neg (by omega), if_neg (by omega), hz]
    exact ih (i + 1)

/-- Where no offset is zero the bytes that are left become fewer with each entry. -/
theorem walk_ends_of_pos (hpos : ∀ off, Visits mem size off → off % 8 = 0 → nextAt mem off ≠ 0)
    (fuel : ℕ) {off : ℕ} (hv : off < size → Visits mem size off) (hfuel : size ≤ off + fuel)
    (i : ℕ) : walk mem size fuel off i ≠ none := by
  induction fuel generalizing off i with
  | zero =>
    rw [walk_of_le (by omega)]
    exact Option.some_ne_none _
  | succ fuel ih =>
    by_cases hlt : off < size
    · rw [walk_succ hlt]
      split
      · exact Option.some_ne_none _
      · split
        · exact Option.some_ne_none _
        next hle hal =>
          have hne := hpos off (hv hlt) (by omega)
          exact ih (fun hlt' => .next (hv hlt) (by omega) hlt') (by omega) _
    · rw [walk_of_le (by omega)]
      exact Option.some_ne_none _

theorem walk_ends_iff : (∃ fuel, walk mem size fuel 0 0 ≠ none) ↔
    ∀ off, Visits mem size off → off % 8 = 0 → nextAt mem off ≠ 0 := by
  constructor
  · rintro ⟨fuel, h⟩ off hv hal hz
    obtain ⟨fuel', i, h'⟩ := walk_ends_at hv h
    exact h' (walk_stuck hv.lt hal hz fuel' i)
  · exact fun hpos => ⟨size, walk_ends_of_pos hpos size .first (by omega) 0⟩

end Walk

/-- `translate_table` ends exactly for the categories that it refuses at once and for the
blocks in which it comes to no offset of zero at a multiple of eight. -/
theorem translateTableIn_ends_iff (h : TableHeader) (mem : ℕ → UInt8) :
    (∃ fuel, translateTableIn h mem fuel ≠ none) ↔
      ruleTypeMax ≤ h.category ∨
        ∀ off, Visits mem h.size off → off % 8 = 0 → nextAt mem off ≠ 0 := by
  rw [← walk_ends_iff]
  unfold translateTableIn
  by_cases hcat : ruleTypeMax ≤ h.category
  · simp [hcat]
  · simp [hcat]

/-- One entry of eight zeros keeps the loop for ever. -/
theorem zero_entry_never_ends :
    ¬ ∃ fuel, translateTableIn ⟨0, 8, 1⟩ (fun _ => 0) fuel ≠ none := by
  rw [translateTableIn_ends_iff]
  rintro (h | h)
  · exact absurd h (by decide)
  · exact h 0 (.first (by decide)) rfl rfl

end Nacs
