/-
# Leads-to over an infinite run

A run is a sequence of states.  `P` leads to `Q` when behind each state in `P`, or there,
comes one in `Q`.
-/
import Mathlib.Data.Nat.Init
import Mathlib.Order.Nat
import Mathlib.Tactic.Common

namespace LeadsTo

variable {S : Type} {σ : ℕ → S} {P Q R : S → Prop}

def Leads (σ : ℕ → S) (P Q : S → Prop) : Prop := ∀ n, P (σ n) → ∃ k, n ≤ k ∧ Q (σ k)

theorem leads_of_imp (h : ∀ n, P (σ n) → Q (σ n)) : Leads σ P Q := fun n hn => ⟨n, le_rfl, h n hn⟩

theorem Leads.trans (h : Leads σ P Q) (h' : Leads σ Q R) : Leads σ P R := by
  intro n hn
  obtain ⟨k, hk, hQ⟩ := h n hn
  obtain ⟨j, hj, hR⟩ := h' k hQ
  exact ⟨j, hk.trans hj, hR⟩

theorem Leads.or (h : Leads σ P R) (h' : Leads σ Q R) : Leads σ (fun s => P s ∨ Q s) R := by
  rintro n (hn | hn)
  · exact h n hn
  · exact h' n hn

/-- What a step keeps, a run keeps. -/
theorem stable (h : ∀ n, P (σ n) → P (σ (n + 1))) {n k : ℕ} (hnk : n ≤ k) (hn : P (σ n)) : P (σ k) := by
  induction k, hnk using Nat.le_induction with
  | base => exact hn
  | succ k _ ih => exact h k ih

/-- What each step keeps unless it reaches `Q` holds until `Q` is reached. -/
theorem until_reached (h : ∀ n, P (σ n) → P (σ (n + 1)) ∨ Q (σ (n + 1))) {n k : ℕ} (hnk : n ≤ k)
    (hn : P (σ n)) : P (σ k) ∨ ∃ j, n ≤ j ∧ Q (σ j) := by
  induction k, hnk using Nat.le_induction with
  | base => exact .inl hn
  | succ k hnk ih =>
    rcases ih with hk | hj
    · rcases h k hk with hk | hk
      · exact .inl hk
      · exact .inr ⟨k + 1, hnk.trans (Nat.le_succ k), hk⟩
    · exact .inr hj

/-- `P` is kept until `Q` is reached, and at some time a step comes that takes it there. -/
theorem leads_of_step (h : ∀ n, P (σ n) → P (σ (n + 1)) ∨ Q (σ (n + 1)))
    (hstep : ∀ n, P (σ n) → ∃ k, n ≤ k ∧ (P (σ k) → Q (σ (k + 1)))) : Leads σ P Q := by
  intro n hn
  obtain ⟨k, hnk, hk⟩ := hstep n hn
  rcases until_reached h hnk hn with hP | hj
  · exact ⟨k + 1, hnk.trans (Nat.le_succ k), hk hP⟩
  · exact hj

end LeadsTo
