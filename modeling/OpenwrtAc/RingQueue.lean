/-
# A queue kept in a ring of slots

A ring of `n` slots with a read index and a write index holds a queue of fewer
than `n` elements: the elements stand in the slots from the read index on, and
the write index is the first slot behind them.  The lemmas say how the two
indices tell full from empty, and what writing a free slot, publishing it and
releasing the front do to the queue.  Nothing here depends on what a slot holds.
-/
import Mathlib.Data.Nat.ModEq
import Mathlib.Logic.Function.Basic
import Mathlib.Tactic.Common

variable {α : Type*} {n r w : ℕ} {slot : ℕ → α} {q : List α}

/-- The slots from `r` up to `w` hold `q`. -/
structure RingQueue (n : ℕ) (slot : ℕ → α) (r w : ℕ) (q : List α) : Prop where
  r_lt : r < n
  w_eq : w = (r + q.length) % n
  fits : q.length < n
  holds : ∀ i (h : i < q.length), slot ((r + i) % n) = q[i]

namespace RingQueue

/-- Different offsets below `n` lead to different slots. -/
theorem slot_inj {i j : ℕ} (hi : i < n) (hj : j < n) (h : (r + i) % n = (r + j) % n) : i = j := by
  have hmod : (r + i) ≡ (r + j) [MOD n] := h
  exact Nat.ModEq.eq_of_lt_of_lt (Nat.ModEq.add_left_cancel' r hmod) hi hj

theorem empty (hr : r < n) : RingQueue n slot r r [] where
  r_lt := hr
  w_eq := by simp [Nat.mod_eq_of_lt hr]
  fits := by simp; omega
  holds := by simp

/-- The indices are equal exactly when nothing is queued. -/
theorem eq_iff_empty (h : RingQueue n slot r w q) : r = w ↔ q = [] := by
  have hr : r = (r + 0) % n := by rw [add_zero, Nat.mod_eq_of_lt h.r_lt]
  constructor
  · intro he
    rw [h.w_eq] at he
    have hlen := slot_inj (by have := h.r_lt; omega) h.fits (hr.symm.trans he)
    exact List.eq_nil_of_length_eq_zero hlen.symm
  · rintro rfl
    rw [h.w_eq]
    exact hr

/-- The slot after `w` is the front exactly when one more element would not fit. -/
theorem succ_eq_iff_full (h : RingQueue n slot r w q) : (w + 1) % n = r ↔ q.length + 1 = n := by
  have hr : r = (r + 0) % n := by rw [add_zero, Nat.mod_eq_of_lt h.r_lt]
  have hw : (w + 1) % n = (r + (q.length + 1)) % n := by
    rw [h.w_eq, Nat.mod_add_mod, add_assoc]
  rw [hw]
  constructor
  · intro he
    by_contra hne
    have hlt : q.length + 1 < n := by have := h.fits; omega
    have := slot_inj hlt (by have := h.r_lt; omega) (he.trans hr)
    omega
  · intro he
    rw [he, Nat.add_mod_right, Nat.mod_eq_of_lt h.r_lt]

/-- No queued element stands in the slot at the write index. -/
theorem ne_w (h : RingQueue n slot r w q) {i : ℕ} (hi : i < q.length) : (r + i) % n ≠ w := by
  rw [h.w_eq]
  intro he
  have := slot_inj (by have := h.fits; omega) h.fits he
  omega

/-- Slots other than the queued ones may change. -/
theorem congr {slot' : ℕ → α} (h : RingQueue n slot r w q)
    (hs : ∀ i, i ≠ w → slot' i = slot i) : RingQueue n slot' r w q where
  r_lt := h.r_lt
  w_eq := h.w_eq
  fits := h.fits
  holds i hi := by rw [hs _ (h.ne_w hi), h.holds i hi]

/-- Moving the write index on publishes what stands in its slot. -/
theorem push (h : RingQueue n slot r w q) (hfit : q.length + 1 < n) :
    RingQueue n slot r ((w + 1) % n) (q ++ [slot w]) where
  r_lt := h.r_lt
  w_eq := by rw [h.w_eq, Nat.mod_add_mod, List.length_append, List.length_singleton, add_assoc]
  fits := by simpa using hfit
  holds i hi := by
    by_cases hlt : i < q.length
    · rw [List.getElem_append_left hlt]
      exact h.holds i hlt
    · have he : i = q.length := by
        rw [List.length_append, List.length_singleton] at hi
        omega
      subst he
      rw [List.getElem_append_right (le_refl _)]
      simp [h.w_eq]

/-- The front stands in the slot at the read index. -/
theorem head {a : α} (h : RingQueue n slot r w (a :: q)) : slot r = a := by
  have := h.holds 0 (by simp)
  rwa [add_zero, Nat.mod_eq_of_lt h.r_lt] at this

/-- Moving the read index on releases the front. -/
theorem pop {a : α} (h : RingQueue n slot r w (a :: q)) :
    RingQueue n slot ((r + 1) % n) w q where
  r_lt := Nat.mod_lt _ (by have := h.r_lt; omega)
  w_eq := by
    rw [h.w_eq, Nat.mod_add_mod, List.length_cons]
    congr 1
    omega
  fits := by
    have := h.fits
    rw [List.length_cons] at this
    omega
  holds i hi := by
    have := h.holds (i + 1) (by rw [List.length_cons]; omega)
    rw [Nat.mod_add_mod, show r + 1 + i = r + (i + 1) by omega, this]
    rfl

end RingQueue
