/-
# Arrays with a count

A store that keeps its entries in the first slots of an array: a new entry goes
behind the last one, and when an entry is deleted the later ones move down by one
slot.  What holds of the list of entries is told here once.
-/
import Mathlib.Data.List.Nodup
import Mathlib.Data.List.Perm.Basic
import Mathlib.Data.List.Range
import Mathlib.Logic.Function.Basic
import Mathlib.Tactic.Common

namespace SlotStore

variable {α : Type}

/-- An array, of which the first `num` slots are in use. -/
structure Slots (α : Type) where
  num : ℕ
  slot : ℕ → α

/-- The entries, in the order of their slots. -/
def Slots.entries (s : Slots α) : List α := (List.range s.num).map s.slot

/-- A value is copied to the slot behind the last entry. -/
def Slots.push (s : Slots α) (a : α) : Slots α := ⟨s.num + 1, Function.update s.slot s.num a⟩

/-- The entries behind a slot are moved down by one; the last slot keeps what it has. -/
def Slots.removeAt (s : Slots α) (i : ℕ) : Slots α :=
  ⟨s.num - 1, fun k => if i ≤ k ∧ k + 1 < s.num then s.slot (k + 1) else s.slot k⟩

/-- The first slot in use with an entry that passes a test. -/
def Slots.findSlot (s : Slots α) (p : α → Bool) : Option ℕ :=
  (List.range s.num).find? fun i => p (s.slot i)

/-- The list of the entries is as long as the counter says. -/
@[simp] theorem length_entries (s : Slots α) : s.entries.length = s.num := by
  simp [Slots.entries]

/-- Entry `i` of the list is slot `i` of the array. -/
@[simp] theorem getElem_entries (s : Slots α) {i : ℕ} (h : i < s.entries.length) :
    s.entries[i] = s.slot i := by
  simp [Slots.entries]

/-- The entries are what the slots below the counter hold. -/
theorem mem_entries {s : Slots α} {a : α} : a ∈ s.entries ↔ ∃ i < s.num, s.slot i = a := by
  simp [Slots.entries]

/-- A push appends to the list of the entries. -/
theorem entries_push (s : Slots α) (a : α) : (s.push a).entries = s.entries ++ [a] := by
  unfold Slots.entries Slots.push
  dsimp only
  rw [List.range_succ, List.map_append, List.map_singleton, Function.update_self]
  congr 1
  refine List.map_congr_left fun i hi => Function.update_of_ne ?_ _ _
  have := List.mem_range.1 hi
  omega

/-- Moving the later slots down by one removes a single entry from the list. -/
theorem entries_removeAt {s : Slots α} {i : ℕ} (hi : i < s.num) :
    (s.removeAt i).entries = s.entries.eraseIdx i := by
  refine List.ext_getElem ?_ fun k hk hk' => ?_
  · rw [length_entries, List.length_eraseIdx_of_lt (by simpa using hi), length_entries]
    rfl
  · have hlt : k < s.num - 1 := by simpa [Slots.removeAt] using hk
    rw [getElem_entries, List.getElem_eraseIdx]
    unfold Slots.removeAt
    dsimp only
    split
    next h =>
      rw [dif_neg (by omega), getElem_entries]
    next h =>
      rw [dif_pos (by omega), getElem_entries]

/-- A slot that the scan finds is in use and satisfies the test. -/
theorem findSlot_eq_some {s : Slots α} {p : α → Bool} {i : ℕ} (h : s.findSlot p = some i) :
    i < s.num ∧ p (s.slot i) = true := by
  unfold Slots.findSlot at h
  exact ⟨List.mem_range.1 (List.mem_of_find?_eq_some h),
    List.find?_some (p := fun i => p (s.slot i)) h⟩

/-- A scan that finds nothing has tested every entry. -/
theorem findSlot_eq_none {s : Slots α} {p : α → Bool} (h : s.findSlot p = none) :
    ∀ a ∈ s.entries, p a = false := by
  intro a ha
  obtain ⟨i, hi, rfl⟩ := mem_entries.1 ha
  have := List.find?_eq_none.1 h i (List.mem_range.2 hi)
  simpa using this

/-! ## Distinct entries in a bounded array -/

/-- No more entries than slots, and no two of them with the same key. -/
structure Slots.Kept (s : Slots α) (cap : ℕ) (key : α → ℕ) : Prop where
  num_le : s.num ≤ cap
  nodup : (s.entries.map key).Nodup

variable {cap : ℕ} {key : α → ℕ}

/-- An empty array keeps the invariant, whatever its unused slots hold. -/
theorem kept_empty (slot : ℕ → α) : (⟨0, slot⟩ : Slots α).Kept cap key :=
  ⟨Nat.zero_le cap, List.nodup_nil⟩

/-- No two slots in use carry the same key. -/
theorem Slots.Kept.slot_inj {s : Slots α} (h : s.Kept cap key) {i j : ℕ} (hi : i < s.num)
    (hj : j < s.num) (heq : key (s.slot i) = key (s.slot j)) : i = j := by
  have hlen : (s.entries.map key).length = s.num := by rw [List.length_map, length_entries]
  have hget : ∀ {k}, (hk : k < (s.entries.map key).length) →
      (s.entries.map key)[k] = key (s.slot k) := fun hk => by
    rw [List.getElem_map, getElem_entries]
  exact h.nodup.getElem_inj_iff.1 ((hget (by omega)).trans (heq.trans (hget (by omega)).symm))

/-- A push keeps the invariant where there is room and the scan has not found the key. -/
theorem Slots.Kept.push {s : Slots α} (h : s.Kept cap key) {a : α} (hroom : s.num ≠ cap)
    (hnew : s.findSlot (fun b => key b == key a) = none) : (s.push a).Kept cap key := by
  have hle := h.num_le
  refine ⟨show s.num + 1 ≤ cap by omega, ?_⟩
  rw [entries_push, List.map_append, List.map_singleton]
  refine h.nodup.append (List.nodup_singleton _) ?_
  intro x hx hxa
  obtain ⟨b, hb, rfl⟩ := List.mem_map.1 hx
  have := findSlot_eq_none hnew b hb
  rw [List.mem_singleton.1 hxa, beq_self_eq_true] at this
  cases this

/-- A removal keeps the invariant. -/
theorem Slots.Kept.removeAt {s : Slots α} (h : s.Kept cap key) {i : ℕ} (hi : i < s.num) :
    (s.removeAt i).Kept cap key := by
  have hle := h.num_le
  refine ⟨show s.num - 1 ≤ cap by omega, ?_⟩
  rw [entries_removeAt hi]
  exact h.nodup.sublist ((List.eraseIdx_sublist _ _).map key)

/-! ## What the entries refer to -/

variable (refs : α → List ℕ)

/-- How often the entries refer to something. -/
def Slots.recorded (s : Slots α) (k : ℕ) : ℕ := (s.entries.flatMap refs).count k

/-- An empty array records no reference. -/
theorem recorded_empty (slot : ℕ → α) (k : ℕ) : (⟨0, slot⟩ : Slots α).recorded refs k = 0 := rfl

/-- A push records the references of the new entry and changes no other. -/
theorem recorded_push (s : Slots α) (a : α) (k : ℕ) :
    (s.push a).recorded refs k = s.recorded refs k + (refs a).count k := by
  unfold Slots.recorded
  rw [entries_push, List.flatMap_append, List.count_append, List.flatMap_singleton]

/-- A removal gives up exactly the references of the entry that goes. -/
theorem recorded_removeAt {s : Slots α} {i : ℕ} (hi : i < s.num) (k : ℕ) :
    s.recorded refs k = (s.removeAt i).recorded refs k + (refs (s.slot i)).count k := by
  have hlt : i < s.entries.length := by rwa [length_entries]
  have hperm := (List.getElem_cons_eraseIdx_perm hlt).flatMap_right refs
  unfold Slots.recorded
  rw [entries_removeAt hi, ← hperm.count_eq, List.flatMap_cons, List.count_append, getElem_entries,
    Nat.add_comm]

end SlotStore
