/-
# Copies from a window

A decoder of the Lempel-Ziv family makes its output longer by elements that it has already
put out: each is the one that stands a distance before it.  The file has the copy on lists,
the overwriting of a part of a memory, and what a copy in pieces leaves there.
-/
import Mathlib.Data.List.Basic
import Mathlib.Tactic.Common

namespace LzWindow

variable {α : Type*}

/-- The list with `len` more elements, each the one that stands `dist` before it. -/
def copyBack (dist : ℕ) : ℕ → List α → List α
  | 0, acc => acc
  | len + 1, acc => copyBack dist len (acc ++ acc[acc.length - dist]?.toList)

/-- From `a` up to `b`, each element of the list is the one that stands `dist` before it. -/
def Repeats (l : List α) (dist a b : ℕ) : Prop :=
  ∀ i, a ≤ i → i < b → l[i]? = l[i - dist]?

/-! ## Repetition -/

theorem Repeats.mono {l : List α} {dist a b b' : ℕ} (h : Repeats l dist a b) (hb : b' ≤ b) :
    Repeats l dist a b' := fun i ha hi => h i ha (by omega)

theorem Repeats.append {l : List α} {dist a b c : ℕ} (h : Repeats l dist a b)
    (h' : Repeats l dist b c) : Repeats l dist a c := by
  intro i ha hc
  by_cases hb : i < b
  · exact h i ha hb
  · exact h' i (by omega) hc

/-- Two places whose elements were compared. -/
theorem repeats_of_eq {l : List α} {p q n : ℕ} (hq : q ≤ p)
    (h : ∀ i < n, l[p + i]? = l[q + i]?) : Repeats l (p - q) p (p + n) := by
  intro i hp hi
  have hi' := h (i - p) (by omega)
  rw [show p + (i - p) = i by omega, show q + (i - p) = i - (p - q) by omega] at hi'
  exact hi'

/-- An element is also the one that stands some distances before it. -/
theorem Repeats.multiple {l : List α} {dist a b : ℕ} (h : Repeats l dist a b) :
    ∀ k i, a ≤ i - k * dist + dist → k * dist ≤ i → i < b → l[i]? = l[i - k * dist]? := by
  intro k
  induction k with
  | zero =>
      intro i _ _ _
      rw [Nat.zero_mul, Nat.sub_zero]
  | succ k ih =>
      intro i ha hk hi
      rw [Nat.succ_mul] at ha hk ⊢
      rw [ih i (by omega) (by omega) hi, h (i - k * dist) (by omega) (by omega)]
      congr 1
      omega

/-- What was compared with what stands before it is a copy. -/
theorem eq_copyBack {l : List α} {dist a len : ℕ} (hdist : 0 < dist) (hback : dist ≤ a)
    (hlen : a + len ≤ l.length) (h : Repeats l dist a (a + len)) :
    l.take (a + len) = copyBack dist len (l.take a) := by
  induction len generalizing a with
  | zero => rfl
  | succ len ih =>
      have hnext : (l.take a)[(l.take a).length - dist]?.toList = l[a]?.toList := by
        rw [List.length_take, Nat.min_eq_left (by omega), List.getElem?_take_of_lt (by omega),
          h a (Nat.le_refl a) (by omega)]
      rw [copyBack, hnext, ← List.take_add_one, ← Nat.succ_add_eq_add_succ]
      exact ih (by omega) (by omega) fun i ha hi => h i (by omega) (by omega)

theorem length_copyBack {dist : ℕ} (hdist : 0 < dist) (len : ℕ) {acc : List α}
    (hback : dist ≤ acc.length) : (copyBack dist len acc).length = acc.length + len := by
  induction len generalizing acc with
  | zero => rfl
  | succ len ih =>
      have hone : (acc[acc.length - dist]?.toList).length = 1 := by
        rw [List.getElem?_eq_getElem (by omega)]
        rfl
      rw [copyBack, ih (by rw [List.length_append]; omega), List.length_append, hone]
      omega

/-! ## Overwriting -/

/-- The memory with the elements written from position `p` on. -/
def overwrite (mem : List α) (p : ℕ) (new : List α) : List α :=
  mem.take p ++ new ++ mem.drop (p + new.length)

theorem length_overwrite {mem new : List α} {p : ℕ} (h : p + new.length ≤ mem.length) :
    (overwrite mem p new).length = mem.length := by
  simp only [overwrite, List.length_append, List.length_take, List.length_drop]
  omega

theorem getElem?_overwrite_lt {mem new : List α} {p i : ℕ} (h : p ≤ mem.length) (hi : i < p) :
    (overwrite mem p new)[i]? = mem[i]? := by
  rw [overwrite, List.append_assoc, List.getElem?_append_left (by rw [List.length_take]; omega),
    List.getElem?_take_of_lt hi]

theorem getElem?_overwrite_mid {mem new : List α} {p i : ℕ} (h : p ≤ mem.length) (hi : p ≤ i)
    (hi' : i < p + new.length) : (overwrite mem p new)[i]? = new[i - p]? := by
  have hp : (mem.take p).length = p := by rw [List.length_take]; omega
  rw [overwrite, List.append_assoc, List.getElem?_append_right (by omega), hp,
    List.getElem?_append_left (by omega)]

/-- The front of the memory is not touched. -/
theorem take_overwrite {mem new : List α} {p q : ℕ} (h : p ≤ mem.length) (hq : q ≤ p) :
    (overwrite mem p new).take q = mem.take q := by
  rw [overwrite, List.append_assoc, List.take_append_of_le_length (by rw [List.length_take]; omega),
    List.take_take, Nat.min_eq_left hq]

/-- The front of the memory and as much of what was written as is asked for. -/
theorem take_overwrite_add {mem new : List α} {p n : ℕ} (h : p ≤ mem.length)
    (hn : n ≤ new.length) : (overwrite mem p new).take (p + n) = mem.take p ++ new.take n := by
  have hp : (mem.take p).length = p := by rw [List.length_take]; omega
  rw [overwrite, List.append_assoc, List.take_append, hp, List.take_of_length_le (by omega),
    List.take_append_of_le_length (by omega)]
  congr 2
  omega

/-- Nor is what stands behind. -/
theorem drop_overwrite {mem new : List α} {p q : ℕ} (h : p + new.length ≤ mem.length)
    (hq : p + new.length ≤ q) : (overwrite mem p new).drop q = mem.drop q := by
  have hfront : (mem.take p ++ new).length = p + new.length := by
    rw [List.length_append, List.length_take]
    omega
  obtain ⟨k, rfl⟩ : ∃ k, q = p + new.length + k := ⟨q - (p + new.length), by omega⟩
  rw [overwrite, ← List.drop_drop, List.drop_left' hfront, List.drop_drop]

/-- One element is set. -/
theorem overwrite_singleton {mem : List α} {p : ℕ} (h : p < mem.length) (x : α) :
    overwrite mem p [x] = mem.set p x := by
  rw [overwrite, List.set_eq_take_append_cons_drop, if_pos h, List.append_assoc]
  rfl

/-- Two pieces, one behind the other. -/
theorem overwrite_append {mem new new' : List α} {p : ℕ}
    (h : p + new.length + new'.length ≤ mem.length) :
    overwrite (overwrite mem p new) (p + new.length) new' = overwrite mem p (new ++ new') := by
  have hfront : (overwrite mem p new).take (p + new.length) = mem.take p ++ new.take new.length :=
    take_overwrite_add (by omega) (Nat.le_refl _)
  rw [List.take_of_length_le (Nat.le_refl _)] at hfront
  have hrest : (overwrite mem p new).drop (p + new.length + new'.length)
      = mem.drop (p + new.length + new'.length) := drop_overwrite (by omega) (by omega)
  rw [overwrite, hfront, hrest, overwrite, List.length_append, Nat.add_assoc]
  simp only [List.append_assoc]

/-! ## Copies in pieces -/

/-- A piece that stands some distances before where it goes carries the repetition on. -/
theorem Repeats.copy {mem : List α} {dist a p q n k : ℕ} (h : Repeats mem dist a p)
    (hk : p = q + k * dist) (hkpos : 0 < k) (ha : a ≤ q + dist)
    (hn : q + n ≤ p) (hmem : p + n ≤ mem.length) :
    Repeats (overwrite mem p ((mem.drop q).take n)) dist a (p + n) := by
  have hlen : ((mem.drop q).take n).length = n := by
    rw [List.length_take, List.length_drop]
    omega
  have hmid : ∀ j, j < n → (overwrite mem p ((mem.drop q).take n))[p + j]? = mem[q + j]? := by
    intro j hj
    rw [getElem?_overwrite_mid (by omega) (by omega) (by omega),
      List.getElem?_take_of_lt (by omega), List.getElem?_drop]
    congr 1
    omega
  intro i hai hi
  by_cases hip : i < p
  · rw [getElem?_overwrite_lt (by omega) hip, getElem?_overwrite_lt (by omega) (by omega),
      h i hai hip]
  · obtain ⟨j, rfl⟩ : ∃ j, i = p + j := ⟨i - p, by omega⟩
    obtain ⟨k, rfl⟩ : ∃ k', k = k' + 1 := ⟨k - 1, by omega⟩
    rw [Nat.succ_mul] at hk
    rw [hmid j (by omega)]
    by_cases hj : dist ≤ j
    · -- the element before it is in the same piece
      obtain ⟨j, rfl⟩ : ∃ j', j = j' + dist := ⟨j - dist, by omega⟩
      rw [← Nat.add_assoc, ← Nat.add_assoc, Nat.add_sub_cancel, hmid j (by omega),
        h (q + j + dist) (by omega) (by omega), Nat.add_sub_cancel]
    · rw [getElem?_overwrite_lt (by omega) (by omega),
        h.multiple k (p + j - dist) (by omega) (by omega) (by omega)]
      congr 1
      omega

end LzWindow
