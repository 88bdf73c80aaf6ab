/-
# Rearranging a part of an array

What a sort in place may do to an array between two positions, and when the array is in order
but for some parts that are still to be sorted.
-/
import Mathlib.Data.List.Basic
import Mathlib.Tactic.Common

namespace InPlace

variable {α : Type*}

/-- From `lo` to `hi` the elements have changed places; the others are where they were. -/
structure Rearranged (lo hi : ℕ) (a b : Array α) : Prop where
  perm : b.Perm a
  outside : ∀ k, k < lo ∨ hi < k → b[k]? = a[k]?
  inside : ∀ k, lo ≤ k → k ≤ hi → ∃ j, lo ≤ j ∧ j ≤ hi ∧ b[k]? = a[j]?

namespace Rearranged

/-- Nothing is rearranged. -/
theorem refl (lo hi : ℕ) (a : Array α) : Rearranged lo hi a a :=
  ⟨.rfl, fun _ _ => rfl, fun k hlo hhi => ⟨k, hlo, hhi, rfl⟩⟩

/-- Two rearrangements, one after the other. -/
theorem trans {lo hi : ℕ} {a b c : Array α} (h : Rearranged lo hi a b)
    (h' : Rearranged lo hi b c) : Rearranged lo hi a c := by
  refine ⟨h'.perm.trans h.perm, fun k hk => (h'.outside k hk).trans (h.outside k hk),
    fun k hlo hhi => ?_⟩
  obtain ⟨j, hjlo, hjhi, hj⟩ := h'.inside k hlo hhi
  obtain ⟨i, hilo, hihi, hi⟩ := h.inside j hjlo hjhi
  exact ⟨i, hilo, hihi, hj.trans hi⟩

/-- A rearrangement keeps the size. -/
theorem size {lo hi : ℕ} {a b : Array α} (h : Rearranged lo hi a b) : b.size = a.size :=
  h.perm.size_eq

/-- A rearrangement of a part is one of the whole. -/
theorem widen {lo hi lo' hi' : ℕ} {a b : Array α} (h : Rearranged lo hi a b) (hlo : lo' ≤ lo)
    (hhi : hi ≤ hi') : Rearranged lo' hi' a b := by
  refine ⟨h.perm, fun k hk => h.outside k (by omega), fun k hklo hkhi => ?_⟩
  by_cases hk : k < lo ∨ hi < k
  · exact ⟨k, hklo, hkhi, h.outside k hk⟩
  · obtain ⟨j, hjlo, hjhi, hj⟩ := h.inside k (by omega) (by omega)
    exact ⟨j, by omega, by omega, hj⟩

end Rearranged

/-- The elements after a swap. -/
theorem getElem?_swap {a : Array α} {i j : ℕ} (hi : i < a.size) (hj : j < a.size) (k : ℕ) :
    (a.swap i j hi hj)[k]? = if k = j then a[i]? else if k = i then a[j]? else a[k]? := by
  rw [Array.getElem?_swap, Array.getElem?_eq_getElem hi, Array.getElem?_eq_getElem hj]
  by_cases hkj : k = j
  · rw [if_pos hkj.symm, if_pos hkj]
  · rw [if_neg (Ne.symm hkj), if_neg hkj]
    by_cases hki : k = i
    · rw [if_pos hki.symm, if_pos hki]
    · rw [if_neg (Ne.symm hki), if_neg hki]

/-- A swap inside the segment rearranges it. -/
theorem rearranged_swap {lo hi i j : ℕ} {a : Array α} (hi' : i < a.size) (hj' : j < a.size)
    (hlo : lo ≤ i) (hhi : i ≤ hi) (hlo' : lo ≤ j) (hhi' : j ≤ hi) :
    Rearranged lo hi a (a.swap i j hi' hj') := by
  refine ⟨Array.swap_perm hi' hj', fun k hk => ?_, fun k hklo hkhi => ?_⟩
  · rw [getElem?_swap, if_neg (by omega), if_neg (by omega)]
  · rw [getElem?_swap]
    split
    · exact ⟨i, hlo, hhi, rfl⟩
    · split
      · exact ⟨j, hlo', hhi', rfl⟩
      · exact ⟨k, hklo, hkhi, rfl⟩

/-! ## Order -/

/-- The elements at two positions are related. -/
def RelAt (r : α → α → Prop) (a : Array α) (i j : ℕ) : Prop := ∀ x ∈ a[i]?, ∀ y ∈ a[j]?, r x y

/-- The relation of two elements depends on these only. -/
theorem RelAt.congr {r : α → α → Prop} {a b : Array α} {i j i' j' : ℕ} (h : RelAt r a i j)
    (hi : b[i']? = a[i]?) (hj : b[j']? = a[j]?) : RelAt r b i' j' := by
  unfold RelAt
  rw [hi, hj]
  exact h

/-- The part has both positions. -/
def Has (part : ℕ × ℕ) (i j : ℕ) : Prop := part.1 ≤ i ∧ j ≤ part.2

/-- The parts have no position in common. -/
def Apart (s t : ℕ × ℕ) : Prop := s.2 < t.1 ∨ t.2 < s.1

/-- Two elements are in order unless one of the parts has them both. -/
def SortedBut (r : α → α → Prop) (parts : List (ℕ × ℕ)) (a : Array α) : Prop :=
  ∀ i j, i < j → (∃ s ∈ parts, Has s i j) ∨ RelAt r a i j

/-- At the start the whole array is still to be sorted. -/
theorem sortedBut_whole (r : α → α → Prop) (a : Array α) : SortedBut r [(0, a.size - 1)] a := by
  intro i j hij
  by_cases hj : j < a.size
  · exact Or.inl ⟨_, List.mem_singleton_self _, Nat.zero_le i, Nat.le_sub_one_of_lt hj⟩
  · refine Or.inr fun x _ y hy => ?_
    rw [Array.getElem?_eq_none (Nat.le_of_not_lt hj)] at hy
    cases hy

/-- Where nothing is left, the array is sorted. -/
theorem SortedBut.pairwise {r : α → α → Prop} {a : Array α} (h : SortedBut r [] a) :
    a.toList.Pairwise r := by
  rw [List.pairwise_iff_getElem]
  intro i j hi hj hij
  obtain ⟨s, hs, -⟩ | hrel := h i j hij
  · cases hs
  · refine hrel _ ?_ _ ?_
    · rw [← Array.getElem?_toList, List.getElem?_eq_getElem hi]
      rfl
    · rw [← Array.getElem?_toList, List.getElem?_eq_getElem hj]
      rfl

/-- One part is put in order but for some parts of it. -/
theorem SortedBut.step {r : α → α → Prop} {lo hi : ℕ} {top rest : List (ℕ × ℕ)} {a b : Array α}
    (h : SortedBut r ((lo, hi) :: rest) a) (hapart : ∀ s ∈ rest, Apart (lo, hi) s)
    (hab : Rearranged lo hi a b)
    (hpart : ∀ i j, lo ≤ i → i < j → j ≤ hi → (∃ s ∈ top, Has s i j) ∨ RelAt r b i j) :
    SortedBut r (top ++ rest) b := by
  -- a position of the part is in no other part
  have hout : ∀ i j, i < j → lo ≤ i ∧ i ≤ hi ∨ lo ≤ j ∧ j ≤ hi → i < lo ∨ hi < j →
      RelAt r a i j := by
    intro i j hij hin hend
    obtain ⟨s, hs, hhas⟩ | hrel := h i j hij
    · exfalso
      unfold Has at hhas
      rcases List.mem_cons.1 hs with rfl | hs
      · dsimp only at hhas
        omega
      · have := hapart s hs
        unfold Apart at this
        dsimp only at this
        omega
    · exact hrel
  intro i j hij
  by_cases hi' : lo ≤ i ∧ i ≤ hi
  · by_cases hj' : j ≤ hi
    · rcases hpart i j hi'.1 hij hj' with ⟨s, hs, hhas⟩ | hrel
      · exact Or.inl ⟨s, List.mem_append_left rest hs, hhas⟩
      · exact Or.inr hrel
    · obtain ⟨k, hklo, hkhi, hk⟩ := hab.inside i hi'.1 hi'.2
      exact Or.inr ((hout k j (by omega) (Or.inl ⟨hklo, hkhi⟩) (by omega)).congr hk
        (hab.outside j (by omega)))
  · by_cases hj' : lo ≤ j ∧ j ≤ hi
    · obtain ⟨k, hklo, hkhi, hk⟩ := hab.inside j hj'.1 hj'.2
      exact Or.inr ((hout i k (by omega) (Or.inr ⟨hklo, hkhi⟩) (by omega)).congr
        (hab.outside i (by omega)) hk)
    · obtain ⟨s, hs, hhas⟩ | hrel := h i j hij
      · rcases List.mem_cons.1 hs with rfl | hs
        · unfold Has at hhas
          dsimp only at hhas
          omega
        · exact Or.inl ⟨s, List.mem_append_right top hs, hhas⟩
      · exact Or.inr (hrel.congr (hab.outside i (by omega)) (hab.outside j (by omega)))

end InPlace
