/-
# Rule masks

`uint32_t` bit masks over the rule numbers `0 .. 31`, with the operations
`TBQ_RULE_MASK_SET`, `TBQ_RULE_MASK_CLR`, the ascending walk
`TBQ_RULE_MASK_FOR_EACH` and `__builtin_ffs`.
-/
import Mathlib.Data.List.FinRange
import Mathlib.Tactic.Common

/-- A rule number, below `TBQ_RULE_COUNT_MAX`. -/
abbrev RuleIdx := Fin 32

/-- A set of rules as the code stores it. -/
abbrev RuleMask := BitVec 32

namespace RuleMask

/-- Rule `i` is in the mask. -/
def has (m : RuleMask) (i : RuleIdx) : Bool := m.getLsbD i

/-- `TBQ_RULE_MASK_SET`. -/
def set (m : RuleMask) (i : RuleIdx) : RuleMask := m ||| (1#32 <<< i.val)

/-- `TBQ_RULE_MASK_CLR`. -/
def clr (m : RuleMask) (i : RuleIdx) : RuleMask := m &&& ~~~(1#32 <<< i.val)

/-- The rules `TBQ_RULE_MASK_FOR_EACH` visits, in its order. -/
def bits (m : RuleMask) : List RuleIdx := (List.finRange 32).filter fun i => m.has i

/-- `__builtin_ffs(mask) - 1`, with `none` for the `-1` of an empty mask. -/
def ffs (m : RuleMask) : Option RuleIdx := m.bits.head?

@[simp] theorem has_zero (i : RuleIdx) : has 0#32 i = false := by
  simp [has]

@[simp] theorem has_and (m n : RuleMask) (i : RuleIdx) :
    has (m &&& n) i = (m.has i && n.has i) := by
  simp [has]

@[simp] theorem has_set (m : RuleMask) (i j : RuleIdx) :
    (m.set j).has i = (m.has i || decide (i = j)) := by
  have hi := i.isLt
  rw [has, set, BitVec.getLsbD_or, BitVec.getLsbD_shiftLeft, BitVec.getLsbD_one]
  by_cases h : i = j
  · subst h
    simp [has]
  · have hne : i.val ≠ j.val := fun e => h (Fin.ext e)
    have hz : (decide (i.val < 32) && !decide (i.val < j.val)
        && (decide (0 < 32) && decide (i.val - j.val = 0))) = false := by
      simp only [Bool.and_eq_false_iff, Bool.not_eq_false', decide_eq_true_eq,
        decide_eq_false_iff_not]
      omega
    rw [hz]
    simp [has, h]

@[simp] theorem has_clr (m : RuleMask) (i j : RuleIdx) :
    (m.clr j).has i = (m.has i && decide (i ≠ j)) := by
  have hset := has_set 0#32 i j
  rw [set, BitVec.zero_or] at hset
  rw [has, clr, BitVec.getLsbD_and, BitVec.getLsbD_not]
  have hb : (1#32 <<< j.val).getLsbD i.val = decide (i = j) := by
    rw [has] at hset
    rw [hset]
    simp
  rw [hb]
  by_cases h : i = j <;> simp [has, h]

/-- Two masks with the same rules are equal. -/
theorem ext_has {m n : RuleMask} (h : ∀ i, m.has i = n.has i) : m = n := by
  apply BitVec.eq_of_getLsbD_eq
  intro i hi
  exact h ⟨i, hi⟩

/-- An empty mask is the zero word. -/
theorem eq_zero_iff {m : RuleMask} : m = 0#32 ↔ ∀ i, m.has i = false := by
  constructor
  · rintro rfl i
    exact has_zero i
  · intro h
    exact ext_has fun i => by rw [h i, has_zero]

@[simp] theorem mem_bits {m : RuleMask} {i : RuleIdx} : i ∈ m.bits ↔ m.has i = true := by
  simp [bits]

/-- The mask that a loop over `l` collects. -/
theorem has_foldl_set (l : List RuleIdx) (P : RuleIdx → Prop) [DecidablePred P] (m : RuleMask)
    (i : RuleIdx) : (l.foldl (fun m j => if P j then m.set j else m) m).has i = true
      ↔ m.has i = true ∨ (i ∈ l ∧ P i) := by
  induction l generalizing m with
  | nil => simp
  | cons j l ih =>
      rw [List.foldl_cons, ih]
      by_cases hj : P j
      · rw [if_pos hj, has_set]
        by_cases hij : i = j
        · subst hij
          simp [hj]
        · simp [hij]
      · rw [if_neg hj]
        by_cases hij : i = j
        · subst hij
          simp [hj]
        · simp [hij]

theorem nodup_bits (m : RuleMask) : m.bits.Nodup :=
  (List.nodup_finRange 32).filter _

theorem ffs_has {m : RuleMask} {i : RuleIdx} (h : m.ffs = some i) : m.has i = true := by
  have hmem : i ∈ m.bits := List.mem_of_mem_head? h
  exact mem_bits.mp hmem

theorem ffs_eq_none {m : RuleMask} : m.ffs = none ↔ m = 0#32 := by
  rw [ffs, List.head?_eq_none_iff, eq_zero_iff]
  constructor
  · intro h i
    by_contra hi
    have : i ∈ m.bits := mem_bits.mpr (by simpa using hi)
    rw [h] at this
    cases this
  · intro h
    apply List.eq_nil_iff_forall_not_mem.mpr
    intro i hi
    rw [mem_bits, h i] at hi
    cases hi

end RuleMask
