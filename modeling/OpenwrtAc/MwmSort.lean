/-
# The patterns are sorted

`mwmPrepPatterns` sorts the patterns with `qsort` and `sortcmp`: the array that the search
is given is one that a sort can make of the list.
-/
import OpenwrtAc.MwmEngines
import OpenwrtAc.QsortSpec

open Outcome Qsort

namespace Mwm

variable {δ : Type}

def sortcmp (e1 e2 : Patt δ) : ℤ := bcompare e1.psPat e2.psPat

theorem bcompare_nil_cons (y : UInt8) (b : List UInt8) : bcompare [] (y :: b) = -1 := rfl

theorem bcompare_cons_nil (x : UInt8) (a : List UInt8) : bcompare (x :: a) [] = 1 := rfl

theorem bcompare_flip (a : List UInt8) : ∀ b, 0 ≤ bcompare a b ↔ bcompare b a ≤ 0 := by
  induction a with
  | nil =>
      intro b
      cases b with
      | nil => exact Iff.rfl
      | cons y b =>
          rw [bcompare_nil_cons, bcompare_cons_nil]
          exact iff_of_false (by decide) (by decide)
  | cons x a ih =>
      intro b
      cases b with
      | nil =>
          rw [bcompare_nil_cons, bcompare_cons_nil]
          exact iff_of_true (by decide) (by decide)
      | cons y b =>
          unfold bcompare
          by_cases hxy : x < y
          · rw [if_pos hxy, if_neg (UInt8.lt_asymm hxy), if_pos hxy]
            exact iff_of_false (by decide) (by decide)
          · rw [if_neg hxy]
            by_cases hyx : y < x
            · rw [if_pos hyx, if_pos hyx]
              exact iff_of_true (by decide) (by decide)
            · rw [if_neg hyx, if_neg hyx, if_neg hxy]
              exact ih b

/-- The first bytes decide, or are equal. -/
theorem bcompare_cons_le {x y : UInt8} {a b : List UInt8} :
    bcompare (x :: a) (y :: b) ≤ 0 ↔ x < y ∨ x = y ∧ bcompare a b ≤ 0 := by
  rw [bcompare]
  by_cases hxy : x < y
  · rw [if_pos hxy]
    exact iff_of_true (by decide) (Or.inl hxy)
  · rw [if_neg hxy]
    by_cases hyx : y < x
    · rw [if_pos hyx]
      refine iff_of_false (by decide) ?_
      rintro (h | ⟨rfl, -⟩)
      · exact hxy h
      · exact hxy hyx
    · rw [if_neg hyx]
      have heq : x = y := UInt8.le_antisymm (UInt8.not_lt.1 hyx) (UInt8.not_lt.1 hxy)
      exact ⟨fun h => Or.inr ⟨heq, h⟩, fun h => (h.resolve_left hxy).2⟩

theorem bcompare_trans (a : List UInt8) : ∀ b c, bcompare a b ≤ 0 → bcompare b c ≤ 0 →
    bcompare a c ≤ 0 := by
  induction a with
  | nil =>
      intro b c _ _
      cases c with
      | nil => exact Int.le_refl 0
      | cons z c =>
          rw [bcompare_nil_cons]
          decide
  | cons x a ih =>
      intro b c hab hbc
      cases b with
      | nil =>
          rw [bcompare_cons_nil] at hab
          exact absurd hab (by decide)
      | cons y b =>
          cases c with
          | nil =>
              rw [bcompare_cons_nil] at hbc
              exact absurd hbc (by decide)
          | cons z c =>
              rw [bcompare_cons_le] at hab hbc ⊢
              rcases hab with hxy | ⟨rfl, hab⟩
              · rcases hbc with hyz | ⟨rfl, -⟩
                · exact Or.inl (UInt8.lt_trans hxy hyz)
                · exact Or.inl hxy
              · rcases hbc with hyz | ⟨rfl, hbc⟩
                · exact Or.inl hyz
                · exact Or.inr ⟨rfl, ih b c hab hbc⟩

theorem sortcmp_comparison : Comparison (sortcmp (δ := δ)) where
  flip x y := bcompare_flip x.psPat y.psPat
  trans x y z := bcompare_trans x.psPat y.psPat z.psPat

/-- `mwmAddPattern` refuses a pattern when there are too many. -/
theorem length_addPatterns (asked : List Asked) : (addPatterns asked).length < hashTableSize := by
  induction asked using List.reverseRecOn with
  | nil => exact Nat.zero_lt_succ _
  | append_singleton asked a ih =>
      rw [addPatterns_append_singleton]
      unfold mwmAddPatternEx mwmAddPattern
      split
      · split
        · exact ih
        · rename_i hroom
          simp only [Bool.false_and, Bool.false_eq_true, if_false, List.length_append,
            List.length_singleton]
          unfold hashTableSize at *
          omega
      · exact ih

/-- The sort makes of the patterns that were added, of up to 64 KiB each, an array that the search
    can be given. -/
theorem exists_sortedFrom (asked : List Asked) {width : ℕ}
    (hw : 0 < width) (hwidth : width ≤ 2 ^ 16) :
    ∃ arr, qsort sortcmp width (addPatterns asked).toArray = .ok arr ∧
      SortedFrom (addPatterns asked) arr.toList := by
  have hlen := length_addPatterns asked
  have hbytes : width * (addPatterns asked).toArray.size < 2 ^ 32 := by
    rw [List.size_toArray]
    have := Nat.mul_le_mul hwidth (Nat.le_of_lt_succ hlen)
    omega
  obtain ⟨arr, harr, hperm, hsorted⟩ := (sat_qsort sortcmp hw hbytes).exists_ok
  exact ⟨arr, harr, hperm.toList, hsorted sortcmp_comparison⟩

end Mwm
