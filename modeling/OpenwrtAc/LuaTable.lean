/-
# Tables of Lua

A table is the list of its keys and values, of which the first one with a key counts.
The order is that of nothing: a program that goes through a table with `pairs` sees the
keys in an order of its own.
-/
import Mathlib.Data.List.Lookmap
import Mathlib.Tactic.Common

namespace LuaTable

variable {κ α : Type} [DecidableEq κ]

/-- A table. -/
abbrev Table (κ α : Type) := List (κ × α)

/-- `t[k]`. -/
def get (t : Table κ α) (k : κ) : Option α := (t.find? fun e => e.1 = k).map Prod.snd

/-- `t[k] = nil`. -/
def erase (t : Table κ α) (k : κ) : Table κ α := t.filter fun e => e.1 ≠ k

/-- `t[k] = v`. -/
def set (t : Table κ α) (k : κ) (v : α) : Table κ α := (k, v) :: erase t k

/-- An empty table has no key. -/
@[simp] theorem get_nil (k : κ) : get ([] : Table κ α) k = none := rfl

/-- A lookup meets the first row before the others. -/
theorem get_cons (e : κ × α) (t : Table κ α) (k : κ) :
    get (e :: t) k = if e.1 = k then some e.2 else get t k := by
  unfold get
  rw [List.find?_cons]
  by_cases h : e.1 = k <;> simp [h]

/-- An erased key is gone. -/
@[simp] theorem get_erase_self (t : Table κ α) (k : κ) : get (erase t k) k = none := by
  induction t with
  | nil => rfl
  | cons e t ih =>
    by_cases h : e.1 = k
    · simpa [erase, h] using ih
    · rw [erase, List.filter_cons_of_pos (by simpa using h), get_cons, if_neg h]
      exact ih

/-- Erasing a key leaves the other keys as they are. -/
theorem get_erase_of_ne (t : Table κ α) {k k' : κ} (hne : k' ≠ k) :
    get (erase t k) k' = get t k' := by
  induction t with
  | nil => rfl
  | cons e t ih =>
    by_cases h : e.1 = k
    · rw [erase, List.filter_cons_of_neg (by simpa using h), get_cons, if_neg (h ▸ hne.symm)]
      exact ih
    · rw [erase, List.filter_cons_of_pos (by simpa using h), get_cons, get_cons]
      split
      · rfl
      · exact ih

/-- What a lookup finds behind an erasure, for every key. -/
theorem get_erase (t : Table κ α) (k k' : κ) :
    get (erase t k) k' = if k' = k then none else get t k' := by
  split
  next h => rw [h, get_erase_self]
  next h => exact get_erase_of_ne t h

/-- A lookup finds what was assigned last. -/
@[simp] theorem get_set_self (t : Table κ α) (k : κ) (v : α) : get (set t k v) k = some v := by
  rw [set, get_cons, if_pos rfl]

/-- An assignment leaves the other keys as they are. -/
theorem get_set_of_ne (t : Table κ α) {k k' : κ} (v : α) (hne : k' ≠ k) :
    get (set t k v) k' = get t k' := by
  rw [set, get_cons, if_neg fun h => hne h.symm, get_erase_of_ne t hne]

/-- What a lookup finds behind an assignment, for every key. -/
theorem get_set (t : Table κ α) (k k' : κ) (v : α) :
    get (set t k v) k' = if k' = k then some v else get t k' := by
  split
  next h => rw [h, get_set_self]
  next h => exact get_set_of_ne t v h

/-- The rows behind an assignment: the new one and those of the other keys. -/
theorem mem_set {t : Table κ α} {k : κ} {v : α} {e : κ × α} :
    e ∈ set t k v ↔ e = (k, v) ∨ e ∈ t ∧ e.1 ≠ k := by
  simp [set, erase]

/-- A key that is erased leaves the table smaller. -/
theorem length_erase_lt {t : Table κ α} {k : κ} {v : α} (h : get t k = some v) :
    (erase t k).length < t.length := by
  unfold get at h
  obtain ⟨e, he, -⟩ := Option.map_eq_some_iff.1 h
  refine List.length_filter_lt_length_iff_exists.2 ⟨e, List.mem_of_find?_eq_some he, ?_⟩
  simpa using List.find?_some he

/-! ## Tables in which a key occurs once -/

/-- What a lookup finds is a row of the table. -/
theorem mem_of_get {t : Table κ α} {k : κ} {v : α} (h : get t k = some v) : (k, v) ∈ t := by
  unfold get at h
  obtain ⟨e, he, rfl⟩ := Option.map_eq_some_iff.1 h
  have hk : e.1 = k := by simpa using List.find?_some he
  subst hk
  exact List.mem_of_find?_eq_some he

/-- A lookup fails exactly on the keys that no row has. -/
theorem get_eq_none {t : Table κ α} {k : κ} : get t k = none ↔ ∀ e ∈ t, e.1 ≠ k := by
  unfold get
  simp

/-- With one row a key, the lookup finds every row. -/
theorem get_of_mem {t : Table κ α} (hnd : (t.map Prod.fst).Nodup) {k : κ} {v : α}
    (h : (k, v) ∈ t) : get t k = some v := by
  induction t with
  | nil => cases h
  | cons e t ih =>
    rw [List.map_cons, List.nodup_cons] at hnd
    rw [get_cons]
    rcases List.mem_cons.1 h with rfl | h
    · exact if_pos rfl
    · rw [if_neg]
      · exact ih hnd.2 h
      · intro he
        exact hnd.1 (List.mem_map.2 ⟨(k, v), h, he.symm⟩)

/-- An assignment keeps one row a key. -/
theorem nodup_set {t : Table κ α} (hnd : (t.map Prod.fst).Nodup) (k : κ) (v : α) :
    ((set t k v).map Prod.fst).Nodup := by
  rw [set, List.map_cons, List.nodup_cons]
  constructor
  · simp [erase]
  · exact hnd.sublist ((List.filter_sublist).map _)

end LuaTable
