/-
# Sums over a list of indices

Totals kept as counters are sums of a function over a list without repetitions.
When the function changes at one index the sum changes by the difference there.
-/
import Mathlib.Algebra.BigOperators.Group.List.Lemmas
import Mathlib.Algebra.Order.BigOperators.Group.List
import Mathlib.Algebra.Order.Ring.Nat
import Mathlib.Data.List.Nodup
import Mathlib.Tactic.Common

namespace ListSum

variable {α : Type}

/-- The sum of `g` over `l`. -/
def total (l : List α) (g : α → ℕ) : ℕ := (l.map g).sum

@[simp] theorem total_nil (g : α → ℕ) : total [] g = 0 := rfl

@[simp] theorem total_cons (a : α) (l : List α) (g : α → ℕ) :
    total (a :: l) g = g a + total l g := by
  simp [total]

@[simp] theorem total_append (l l' : List α) (g : α → ℕ) :
    total (l ++ l') g = total l g + total l' g := by
  simp [total]

theorem total_map {β : Type} (l : List β) (f : β → α) (g : α → ℕ) :
    total (l.map f) g = total l fun b => g (f b) := by
  unfold total
  rw [List.map_map]
  rfl

/-- A sum depends only on the values over the list. -/
theorem total_congr {l : List α} {g g' : α → ℕ} (h : ∀ a ∈ l, g' a = g a) :
    total l g' = total l g := by
  unfold total
  rw [List.map_congr_left h]

/-- A change at one index of the list. -/
theorem total_update {l : List α} (hl : l.Nodup) {a : α} (ha : a ∈ l) (g g' : α → ℕ)
    (h : ∀ b ∈ l, b ≠ a → g' b = g b) : total l g' + g a = total l g + g' a := by
  induction l with
  | nil => cases ha
  | cons b l ih =>
      obtain ⟨hb, hl⟩ := List.nodup_cons.mp hl
      rw [total_cons, total_cons]
      rcases List.mem_cons.mp ha with rfl | ha
      · have hrest : total l g' = total l g := by
          apply total_congr
          intro c hc
          exact h c (List.mem_cons_of_mem _ hc) fun e => hb (e ▸ hc)
        omega
      · have hba : b ≠ a := fun e => hb (e ▸ ha)
        have hstep := ih hl ha fun c hc => h c (List.mem_cons_of_mem _ hc)
        have hhead := h b List.mem_cons_self hba
        omega

/-- Every term is at most the sum. -/
theorem le_total {l : List α} {a : α} (ha : a ∈ l) (g : α → ℕ) : g a ≤ total l g :=
  List.single_le_sum (fun _ _ => Nat.zero_le _) _ (List.mem_map_of_mem ha)

theorem total_eq_zero {l : List α} {g : α → ℕ} : total l g = 0 ↔ ∀ a ∈ l, g a = 0 := by
  unfold total
  rw [List.sum_eq_zero_iff]
  simp

theorem total_le_total {l : List α} {g g' : α → ℕ} (h : ∀ a ∈ l, g a ≤ g' a) :
    total l g ≤ total l g' := by
  induction l with
  | nil => exact le_refl 0
  | cons a l ih =>
      rw [total_cons, total_cons]
      exact Nat.add_le_add (h a List.mem_cons_self)
        (ih fun b hb => h b (List.mem_cons_of_mem _ hb))

/-- One term that is less makes the sum less. -/
theorem total_lt_total {l : List α} {g g' : α → ℕ} (h : ∀ a ∈ l, g a ≤ g' a) {a : α}
    (ha : a ∈ l) (hlt : g a < g' a) : total l g < total l g' := by
  induction l with
  | nil => cases ha
  | cons b l ih =>
      rw [total_cons, total_cons]
      have hb := h b List.mem_cons_self
      have hrest : total l g ≤ total l g' :=
        total_le_total fun c hc => h c (List.mem_cons_of_mem _ hc)
      rcases List.mem_cons.mp ha with rfl | ha
      · omega
      · have := ih (fun c hc => h c (List.mem_cons_of_mem _ hc)) ha
        omega

/-- A sum over some of the indices is at most the sum over all of them. -/
theorem total_subperm {l l' : List α} (h : l.Subperm l') (g : α → ℕ) : total l g ≤ total l' g := by
  obtain ⟨l₁, hperm, hsub⟩ := h
  calc total l g = total l₁ g := (hperm.map g).sum_eq.symm
    _ ≤ total l' g := (hsub.map g).sum_le_sum fun _ _ => Nat.zero_le _

theorem total_le_of_subset {l l' : List α} (hl : l.Nodup) (h : l ⊆ l') (g : α → ℕ) :
    total l g ≤ total l' g :=
  total_subperm (List.subperm_of_subset hl h) g

/-- Shares of `t`, each rounded down, for weights that sum to at most `w`. -/
theorem total_share_le {l : List α} {g : α → ℕ} {w : ℕ} (h : total l g ≤ w) (t : ℕ) :
    total l (fun a => t * g a / w) ≤ t := by
  have hmul : total l (fun a => t * g a / w) * w ≤ t * total l g := by
    clear h
    induction l with
    | nil => simp
    | cons a l ih =>
        rw [total_cons, total_cons, Nat.add_mul, Nat.mul_add]
        exact Nat.add_le_add (Nat.div_mul_le_self _ _) ih
  rcases Nat.eq_zero_or_pos w with rfl | hw
  · have hz : total l (fun a => t * g a / 0) = 0 := total_eq_zero.mpr fun a _ => Nat.div_zero _
    omega
  · exact Nat.le_of_mul_le_mul_right (hmul.trans (Nat.mul_le_mul_left t h)) hw

/-- The zero terms of a sum may be left out. -/
theorem total_filter_ne_zero (l : List α) (g : α → ℕ) :
    total (l.filter fun a => g a ≠ 0) g = total l g := by
  induction l with
  | nil => rfl
  | cons a l ih =>
      by_cases ha : g a = 0
      · rw [List.filter_cons_of_neg (by simpa using ha), total_cons, ih]
        omega
      · rw [List.filter_cons_of_pos (by simpa using ha), total_cons, total_cons, ih]

/-- Two lists without repetitions that have the same non-zero terms. -/
theorem total_of_support {l l' : List α} (hl : l.Nodup) (hl' : l'.Nodup) {g g' : α → ℕ}
    (h : ∀ a, g a = g' a) (hs : ∀ a, g a ≠ 0 → (a ∈ l ↔ a ∈ l')) : total l g = total l' g' := by
  obtain rfl : g = g' := funext h
  rw [← total_filter_ne_zero l, ← total_filter_ne_zero l']
  have hperm : (l.filter fun a => g a ≠ 0).Perm (l'.filter fun a => g a ≠ 0) := by
    refine (List.perm_ext_iff_of_nodup (hl.filter _) (hl'.filter _)).mpr fun a => ?_
    simp only [List.mem_filter, decide_eq_true_eq]
    constructor
    · rintro ⟨ha, h0⟩
      exact ⟨(hs a h0).mp ha, h0⟩
    · rintro ⟨ha, h0⟩
      exact ⟨(hs a h0).mpr ha, h0⟩
  exact (hperm.map g).sum_eq

end ListSum
