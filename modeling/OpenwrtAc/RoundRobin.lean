/-
# Deficit round robin

A list of units takes turns: the unit at the head is charged for what it sends, and goes
to the tail when its deficit is used up.  Other units come and go.  `Pair` follows two
units of the list as far as fairness between them is concerned: which one is ahead, and
their deficits.  Over any stretch of steps the number of turns of the two differs by at
most one, and so what they send differs, in proportion to their weights, by at most three
quanta.
-/
import Mathlib.Algebra.Field.Rat
import Mathlib.Algebra.Order.Field.Basic
import Mathlib.Algebra.Order.Ring.Int
import Mathlib.Algebra.Order.Ring.Rat
import Mathlib.Data.List.Nodup
import Mathlib.Tactic.FieldSimp
import Mathlib.Tactic.Linarith
import Mathlib.Tactic.Ring

namespace RoundRobin

/-! ## Places in a list -/

section Ahead

variable {α : Type*} {a b x : α} {l l' : List α}

/-- The element `a` stands before the element `b`. -/
def Ahead (l : List α) (a b : α) : Prop := [a, b].Sublist l

instance [DecidableEq α] (l : List α) (a b : α) : Decidable (Ahead l a b) :=
  inferInstanceAs (Decidable ([a, b].Sublist l))

theorem Ahead.filter {p : α → Bool} (h : Ahead l a b) (ha : p a = true) (hb : p b = true) :
    Ahead (l.filter p) a b := by
  have hf := List.Sublist.filter p h
  rwa [List.filter_cons_of_pos ha, List.filter_cons_of_pos hb, List.filter_nil] at hf

theorem Ahead.append (h : Ahead l a b) (l' : List α) : Ahead (l ++ l') a b :=
  h.trans (List.sublist_append_left l l')

theorem ahead_head (hb : b ∈ l) : Ahead (a :: l) a b :=
  (List.singleton_sublist.mpr hb).cons_cons a

/-- Two elements of a list are in one order or the other. -/
theorem ahead_total (ha : a ∈ l) (hb : b ∈ l) (hne : a ≠ b) : Ahead l a b ∨ Ahead l b a := by
  induction l with
  | nil => cases ha
  | cons c l ih =>
      rcases List.mem_cons.mp ha with rfl | ha'
      · exact .inl (ahead_head ((List.mem_cons.mp hb).resolve_left hne.symm))
      · rcases List.mem_cons.mp hb with rfl | hb'
        · exact .inr (ahead_head ha')
        · exact (ih ha' hb').imp (fun h => h.cons c) (fun h => h.cons c)

/-- And only in one when no element occurs twice. -/
theorem Ahead.asymm (hn : l.Nodup) (h : Ahead l a b) : ¬ Ahead l b a := by
  induction l with
  | nil => cases h
  | cons c l ih =>
      obtain ⟨hc, hn⟩ := List.nodup_cons.mp hn
      intro h'
      cases h with
      | cons _ h =>
          cases h' with
          | cons _ h' => exact ih hn h h'
          | cons_cons _ h' => exact hc (h.subset (List.mem_cons_of_mem a List.mem_cons_self))
      | cons_cons _ h =>
          cases h' with
          | cons _ h' => exact hc (h'.subset (List.mem_cons_of_mem b List.mem_cons_self))
          | cons_cons _ h' => exact hc (List.singleton_sublist.mp h)

/-- Nothing is ahead of the head. -/
theorem not_ahead_of_head? (hn : l.Nodup) (ha : l.head? = some a) : ¬ Ahead l b a := by
  obtain ⟨t, rfl⟩ := List.head?_eq_some_iff.mp ha
  intro h
  obtain ⟨hc, -⟩ := List.nodup_cons.mp hn
  cases h with
  | cons _ h => exact hc (h.subset (List.mem_cons_of_mem b List.mem_cons_self))
  | cons_cons _ h => exact hc (List.singleton_sublist.mp h)

variable [DecidableEq α]

theorem Ahead.erase (h : Ahead l a b) (ha : a ≠ x) (hb : b ≠ x) : Ahead (l.erase x) a b := by
  have he := List.Sublist.erase x h
  rwa [List.erase_of_not_mem (by simp [ha.symm, hb.symm])] at he

/-- The order of two units does not depend on what the others do, as long as neither order
is reversed. -/
theorem decide_ahead_congr (hn' : l'.Nodup) (ha : a ∈ l) (hb : b ∈ l) (hne : a ≠ b)
    (h₁ : Ahead l a b → Ahead l' a b) (h₂ : Ahead l b a → Ahead l' b a) :
    decide (Ahead l' a b) = decide (Ahead l a b) := by
  rw [decide_eq_decide]
  refine ⟨fun h' => ?_, h₁⟩
  exact (ahead_total ha hb hne).resolve_right fun h => Ahead.asymm hn' h' (h₂ h)

/-- A unit that goes to the tail is behind the others. -/
theorem ahead_rotate (hb : b ∈ l) (hne : b ≠ a) : Ahead (l.erase a ++ [a]) b a := by
  have hb' : b ∈ l.erase a := (List.mem_erase_of_ne hne).mpr hb
  exact (List.singleton_sublist.mpr hb').append (List.Sublist.refl [a])

end Ahead

/-! ## Charging a unit -/

/-- The new deficit of a unit that sends `n`, and whether its turn is over.  A unit of
weight `w` gets `w` quanta of `q` for every turn. -/
def charge (q w : ℕ) (d : ℤ) (n : ℕ) : ℤ × Bool :=
  if d - n < 0 then (d - n + w * q, true) else (d - n, false)

/-- A deficit is at most what one turn gives. -/
def InTurn (q w : ℕ) (d : ℤ) : Prop := 0 ≤ d ∧ d ≤ w * q

/-- A unit that sends at most one quantum keeps its deficit in range. -/
theorem InTurn.charge {q w n : ℕ} {d : ℤ} (h : InTurn q w d) (hw : 1 ≤ w) (hn : n ≤ q) :
    InTurn q w (charge q w d n).1 := by
  obtain ⟨h₀, h₁⟩ := h
  have hq : (q : ℤ) ≤ w * q := le_mul_of_one_le_left (Int.natCast_nonneg q) (by exact_mod_cast hw)
  unfold RoundRobin.charge InTurn
  split
  · dsimp only
    omega
  · dsimp only
    omega

/-! ## Two units -/

/-- Two units of one list. -/
structure Pair where
  ahead : Bool
  fst : ℤ
  snd : ℤ
  deriving DecidableEq, Repr

/-- One step: the two keep their places and deficits, or the one that is ahead sends `n`.
The two numbers are what each of them sends. -/
inductive Step (q w w' : ℕ) (p : Pair) : ℕ → ℕ → Pair → Prop
  | rest : Step q w w' p 0 0 p
  | fst (n : ℕ) : p.ahead = true →
      Step q w w' p n 0 ⟨!(charge q w p.fst n).2, (charge q w p.fst n).1, p.snd⟩
  | snd (n : ℕ) : p.ahead = false →
      Step q w w' p 0 n ⟨(charge q w' p.snd n).2, p.fst, (charge q w' p.snd n).1⟩

/-- Any number of steps, with what the two send altogether. -/
inductive Run (q w w' : ℕ) (p : Pair) : ℕ → ℕ → Pair → Prop
  | refl : Run q w w' p 0 0 p
  | step {m m' n n' : ℕ} {p₁ p₂ : Pair} : Run q w w' p m m' p₁ → Step q w w' p₁ n n' p₂ →
      Run q w w' p (m + n) (m' + n') p₂

theorem Run.trans {q w w' m m' n n' : ℕ} {p p₁ p₂ : Pair} (h : Run q w w' p m m' p₁)
    (h' : Run q w w' p₁ n n' p₂) : Run q w w' p (m + n) (m' + n') p₂ := by
  induction h' with
  | refl => exact h
  | step _ hs ih =>
      rw [← Nat.add_assoc, ← Nat.add_assoc]
      exact ih.step hs

/-- The unit that is ahead has had one turn less. -/
def Pair.credit (p : Pair) : ℤ := if p.ahead then 1 else 0

/-- What a unit sends is what its turns gave it, less what its deficit grew by. -/
theorem charge_sent (q w : ℕ) (d : ℤ) (n : ℕ) :
    (n : ℤ) = d - (charge q w d n).1 + (if (charge q w d n).2 then 1 else 0) * (w * q) := by
  unfold charge
  split
  · simp only [if_true]
    ring
  · simp

/-- The turns of the two units over a run, `k` and `k'`, account for what they sent and
differ as the places of the two differ. -/
theorem Run.turns {q w w' m m' : ℕ} {p p' : Pair} (h : Run q w w' p m m' p') :
    ∃ k k' : ℤ, (m : ℤ) = p.fst - p'.fst + k * (w * q) ∧ (m' : ℤ) = p.snd - p'.snd + k' * (w' * q)
      ∧ k - k' = p.credit - p'.credit := by
  induction h with
  | refl => exact ⟨0, 0, by simp, by simp, by simp⟩
  | @step m m' n n' p₁ p₂ _ hs ih =>
      obtain ⟨k, k', hm, hm', hk⟩ := ih
      cases hs with
      | rest => exact ⟨k, k', by simpa using hm, by simpa using hm', hk⟩
      | fst n ha =>
          have hn := charge_sent q w p₁.fst n
          refine ⟨k + (if (charge q w p₁.fst n).2 then 1 else 0), k', ?_, by simpa using hm', ?_⟩
          · push_cast
            linarith
          · unfold Pair.credit at hk ⊢
            rw [ha] at hk
            cases (charge q w p₁.fst n).2 <;> simp at hk ⊢ <;> omega
      | snd n ha =>
          have hn := charge_sent q w' p₁.snd n'
          refine ⟨k, k' + (if (charge q w' p₁.snd n').2 then 1 else 0), by simpa using hm, ?_, ?_⟩
          · push_cast
            linarith
          · unfold Pair.credit at hk ⊢
            rw [ha] at hk
            cases (charge q w' p₁.snd n').2 <;> simp at hk ⊢ <;> omega

theorem Pair.credit_range (p : Pair) : 0 ≤ p.credit ∧ p.credit ≤ 1 := by
  unfold Pair.credit
  split
  · exact ⟨by decide, by decide⟩
  · exact ⟨by decide, by decide⟩

/-- The share of a unit over a run is its number of turns, up to one quantum. -/
theorem share_near {q w m : ℕ} {d d' k : ℤ} (hw : 1 ≤ w) (h : InTurn q w d) (h' : InTurn q w d')
    (hm : (m : ℤ) = d - d' + k * (w * q)) :
    |(m : ℚ) / w - k * q| ≤ q := by
  obtain ⟨h₀, h₁⟩ := h
  obtain ⟨h₂, h₃⟩ := h'
  have hwpos : (0 : ℚ) < w := by exact_mod_cast hw
  have hsplit : (m : ℚ) / w - k * q = ((d - d' : ℤ) : ℚ) / w := by
    have hm' : (m : ℚ) = ((d - d' : ℤ) : ℚ) + k * (w * q) := by exact_mod_cast hm
    rw [hm']
    field_simp
    ring
  have hd : |((d - d' : ℤ) : ℚ)| ≤ q * w := by
    rw [abs_le]
    constructor
    · have : -((q : ℤ) * w) ≤ d - d' := by linarith [mul_comm (q : ℤ) w]
      exact_mod_cast this
    · have : d - d' ≤ (q : ℤ) * w := by linarith [mul_comm (q : ℤ) w]
      exact_mod_cast this
  rw [hsplit, abs_div, abs_of_pos hwpos, div_le_iff₀ hwpos]
  exact hd

/-- Two units that stay in the list are served in proportion to their weights, up to three
quanta. -/
theorem Run.fair {q w w' m m' : ℕ} {p p' : Pair} (h : Run q w w' p m m' p') (hw : 1 ≤ w)
    (hw' : 1 ≤ w') (h₁ : InTurn q w p.fst) (h₂ : InTurn q w' p.snd) (h₁' : InTurn q w p'.fst)
    (h₂' : InTurn q w' p'.snd) : |(m : ℚ) / w - (m' : ℚ) / w'| ≤ 3 * q := by
  obtain ⟨k, k', hm, hm', hk⟩ := h.turns
  have hturns : |(k : ℚ) * q - k' * q| ≤ q := by
    have hle : |k - k'| ≤ 1 := by
      have := p.credit_range
      have := p'.credit_range
      rw [abs_le]
      omega
    have hle' : |(k : ℚ) - k'| ≤ 1 := by exact_mod_cast hle
    have hq : (0 : ℚ) ≤ q := Nat.cast_nonneg q
    rw [← sub_mul, abs_mul, abs_of_nonneg hq]
    exact mul_le_of_le_one_left hq hle'
  calc |(m : ℚ) / w - (m' : ℚ) / w'|
      = |((m : ℚ) / w - k * q) + (k * q - k' * q) - ((m' : ℚ) / w' - k' * q)| := by
        congr 1
        ring
    _ ≤ |(m : ℚ) / w - k * q| + |(k : ℚ) * q - k' * q| + |(m' : ℚ) / w' - k' * q| :=
        (abs_sub _ _).trans (add_le_add_left (abs_add_le _ _) _)
    _ ≤ q + q + q :=
        add_le_add (add_le_add (share_near hw h₁ h₁' hm) hturns) (share_near hw' h₂ h₂' hm')
    _ = 3 * q := by ring

end RoundRobin
