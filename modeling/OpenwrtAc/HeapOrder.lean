/-
# Heap order on a forest of positions

Values sit at the positions of a forest, which is given by the parent of each
position.  A heap has no value before the value of its parent.  A sift moves one
value that may be out of order, called here the hole, along the forest by swaps:
`UpOrder` is what holds while it moves towards the root, `DownOrder` what holds while
it moves away from it.
-/
import Mathlib.Logic.Equiv.Basic
import Mathlib.Logic.Function.Basic
import Mathlib.Order.Defs.Unbundled
import Mathlib.Order.RelClasses

namespace HeapOrder

variable {ι α : Type*} (parent : ι → Option ι) (lt : α → α → Prop)

/-- No value is before the value of its parent. -/
def Ordered (a : ι → α) : Prop :=
  ∀ i p, parent i = some p → ¬ lt (a i) (a p)

/-- The value of `hole` may be before that of its parent; the values of its children
are not before that of its parent either. -/
structure UpOrder (a : ι → α) (hole : ι) : Prop where
  rest : ∀ i p, parent i = some p → i ≠ hole → ¬ lt (a i) (a p)
  grand : ∀ i g, parent i = some hole → parent hole = some g → ¬ lt (a i) (a g)

/-- The values of the children of `hole` may be before its own, but not before that of
its parent. -/
structure DownOrder (a : ι → α) (hole : ι) : Prop where
  rest : ∀ i p, parent i = some p → p ≠ hole → ¬ lt (a i) (a p)
  grand : ∀ i g, parent i = some hole → parent hole = some g → ¬ lt (a i) (a g)

/-- The forest has no cycles and no endless path to a root. -/
def Founded : Prop :=
  WellFounded fun p i => parent i = some p

variable {parent lt}

section Positions

variable (hf : Founded parent)
include hf

theorem Founded.ne_parent {i p : ι} (h : parent i = some p) : p ≠ i := by
  intro e
  subst e
  exact hf.asymmetric _ _ h h

theorem Founded.ne_grand {i p g : ι} (h : parent i = some p) (hg : parent p = some g) :
    g ≠ i := by
  intro e
  subst e
  exact hf.asymmetric _ _ h hg

end Positions

section Weak

variable [IsStrictWeakOrder α lt]

variable (lt) in
/-- Not being before is transitive. -/
theorem not_lt_trans {a b c : α} (hab : ¬ lt a b) (hbc : ¬ lt b c) : ¬ lt a c := by
  intro hac
  have hba : ¬ lt b a := fun h => hbc (trans_of lt h hac)
  have hcb : ¬ lt c b := fun h => hab (trans_of lt hac h)
  exact (IsStrictWeakOrder.incomp_trans a b c ⟨hab, hba⟩ ⟨hbc, hcb⟩).1 hac

variable (lt) in
theorem not_lt_symm {a b : α} (h : lt a b) : ¬ lt b a :=
  fun h' => irrefl a (trans_of lt h h')

variable [DecidableEq ι] (hf : Founded parent)
include hf

/-- Swapping the hole with its parent, whose value it is before, moves the hole up. -/
theorem UpOrder.swap {a : ι → α} {hole p : ι} (h : UpOrder parent lt a hole)
    (hp : parent hole = some p) (hlt : lt (a hole) (a p)) :
    UpOrder parent lt (a ∘ Equiv.swap hole p) p := by
  have hne : p ≠ hole := hf.ne_parent hp
  constructor
  · intro i q hq hi
    by_cases hih : i = hole
    · -- the old parent is now below the value that moved up
      subst hih
      obtain rfl : p = q := Option.some.inj (hp.symm.trans hq)
      simpa using not_lt_symm lt hlt
    have hi' : Equiv.swap hole p i = i := Equiv.swap_apply_of_ne_of_ne hih hi
    simp only [Function.comp_apply, hi']
    by_cases hqh : q = hole
    · subst hqh
      simpa using h.grand i p hq hp
    by_cases hqp : q = p
    · subst hqp
      rw [Equiv.swap_apply_right]
      exact fun hl => h.rest i q hq hih (trans_of lt hl hlt)
    · rw [Equiv.swap_apply_of_ne_of_ne hqh hqp]
      exact h.rest i q hq hih
  · intro i g hi hg
    have hgp : g ≠ p := hf.ne_parent hg
    have hgh : g ≠ hole := hf.ne_grand hp hg
    simp only [Function.comp_apply, Equiv.swap_apply_of_ne_of_ne hgh hgp]
    have hpg : ¬ lt (a p) (a g) := h.rest p g hg hne
    by_cases hih : i = hole
    · subst hih
      simpa using hpg
    · have hip : i ≠ p := (hf.ne_parent hi).symm
      rw [Equiv.swap_apply_of_ne_of_ne hih hip]
      exact not_lt_trans lt (h.rest i p hi hih) hpg

/-- Swapping the hole with its least child, whose value is before its own, moves the
hole down. -/
theorem DownOrder.swap {a : ι → α} {hole c : ι} (h : DownOrder parent lt a hole)
    (hc : parent c = some hole) (hleast : ∀ i, parent i = some hole → ¬ lt (a i) (a c))
    (hlt : lt (a c) (a hole)) : DownOrder parent lt (a ∘ Equiv.swap hole c) c := by
  have hne : hole ≠ c := hf.ne_parent hc
  constructor
  · intro i q hq hqc
    by_cases hqh : q = hole
    · subst hqh
      simp only [Function.comp_apply, Equiv.swap_apply_left]
      by_cases hic : i = c
      · subst hic
        simpa using not_lt_symm lt hlt
      · rw [Equiv.swap_apply_of_ne_of_ne (hf.ne_parent hq).symm hic]
        exact hleast i hq
    · simp only [Function.comp_apply, Equiv.swap_apply_of_ne_of_ne hqh hqc]
      have hic : i ≠ c := by
        intro e
        subst e
        exact hqh (Option.some.inj (hq.symm.trans hc))
      by_cases hih : i = hole
      · subst hih
        simpa using h.grand c q hc hq
      · rw [Equiv.swap_apply_of_ne_of_ne hih hic]
        exact h.rest i q hq hqh
  · intro i g hi hg
    obtain rfl : hole = g := Option.some.inj (hc.symm.trans hg)
    have hic : i ≠ c := (hf.ne_parent hi).symm
    have hih : i ≠ hole := (hf.ne_grand hi hc).symm
    simp only [Function.comp_apply, Equiv.swap_apply_left,
      Equiv.swap_apply_of_ne_of_ne hih hic]
    exact h.rest i c hi hne.symm

end Weak

/-- A hole that is not before its parent is in order. -/
theorem UpOrder.ordered {a : ι → α} {hole : ι} (h : UpOrder parent lt a hole)
    (hstop : ∀ p, parent hole = some p → ¬ lt (a hole) (a p)) : Ordered parent lt a := by
  intro i p hp
  by_cases hi : i = hole
  · subst hi
    exact hstop p hp
  · exact h.rest i p hp hi

/-- A hole that no child is before is in order. -/
theorem DownOrder.ordered {a : ι → α} {hole : ι} (h : DownOrder parent lt a hole)
    (hstop : ∀ i, parent i = some hole → ¬ lt (a i) (a hole)) : Ordered parent lt a := by
  intro i p hp
  by_cases hi : p = hole
  · subst hi
    exact hstop i hp
  · exact h.rest i p hp hi

/-- The value at the only root is a least one. -/
theorem Ordered.root [IsStrictWeakOrder α lt] {a : ι → α} (h : Ordered parent lt a)
    (hf : Founded parent) {r : ι} (hr : ∀ i, parent i = none → i = r) (i : ι) :
    ¬ lt (a i) (a r) := by
  induction i using hf.induction with
  | _ i ih =>
    cases hp : parent i with
    | none =>
      rw [hr i hp]
      exact irrefl _
    | some p => exact not_lt_trans lt (h i p hp) (ih p hp)

end HeapOrder
