/-
# Simulation of computations that may stop

`Sim out R x y` says that the computation `x` goes the way of `y`: where `x` returns, `y` returns
a value that `R` relates to it, and where `x` stops, `y` stops for the same reason, unless it is
one of the reasons `out`, which `x` may have for itself: a loop of `x` may need more rounds.

The rules follow the shape of the two computations, so that a simulation is proved in step with
the code: what the two have in common is passed over, a test is taken together, and a loop is
simulated by its body.
-/
import OpenwrtAc.Outcome

namespace Outcome

variable {ε α β γ δ : Type} {out : ε → Prop}

/-- `x` goes the way of `y`, with results related by `R`. -/
def Sim (out : ε → Prop) (R : α → β → Prop) (x : Except ε α) (y : Except ε β) : Prop :=
  Sat x (fun a => ∃ b, y = .ok b ∧ R a b) fun e => out e ∨ y = .error e

theorem sim_ok {R : α → β → Prop} {a : α} {b : β} (h : R a b) :
    Sim out R (.ok a : Except ε α) (.ok b) := ⟨b, rfl, h⟩

theorem sim_pure {R : α → β → Prop} {a : α} {b : β} (h : R a b) :
    Sim out R (pure a : Except ε α) (pure b) := sim_ok h

theorem sim_error {R : α → β → Prop} (e : ε) : Sim out R (.error e) (.error e) := .inr rfl

/-- A loop that ran out of rounds goes any way. -/
theorem sim_out {R : α → β → Prop} {e : ε} {y : Except ε β} (h : out e) : Sim out R (.error e) y :=
  .inl h

theorem Sim.mono {R R' : α → β → Prop} {x : Except ε α} {y : Except ε β} (h : Sim out R x y)
    (hR : ∀ a b, R a b → R' a b) : Sim out R' x y :=
  Sat.mono h (fun a ⟨b, hb, hab⟩ => ⟨b, hb, hR a b hab⟩) fun _ he => he

/-- A simulation may mention the two runs. -/
theorem Sim.and_run {R : α → β → Prop} {x : Except ε α} {y : Except ε β} (h : Sim out R x y) :
    Sim out (fun a b => x = .ok a ∧ R a b) x y :=
  (Sat.and_run h).mono (fun _ ⟨ha, b, hb, hab⟩ => ⟨b, hb, ha, hab⟩) fun _ he => he

/-- Sequencing: what follows is simulated from related results. -/
theorem Sim.bind {R : α → β → Prop} {R' : γ → δ → Prop} {x : Except ε α} {y : Except ε β}
    {f : α → Except ε γ} {g : β → Except ε δ} (h : Sim out R x y)
    (hf : ∀ a b, R a b → Sim out R' (f a) (g b)) : Sim out R' (x >>= f) (y >>= g) := by
  cases x with
  | ok a =>
      obtain ⟨b, rfl, hab⟩ := h
      exact hf a b hab
  | error e =>
      rcases h with h | rfl
      · exact sim_out h
      · exact sim_error e

/-- What the two computations have in common. -/
theorem sim_bind_same {R : α → β → Prop} {x : Except ε γ} {f : γ → Except ε α} {g : γ → Except ε β}
    (h : ∀ c, x = .ok c → Sim out R (f c) (g c)) : Sim out R (x >>= f) (x >>= g) := by
  cases x with
  | ok c => exact h c rfl
  | error e => exact sim_error e

theorem stopIf_congr {c c' : Prop} [Decidable c] [Decidable c'] (h : c ↔ c') (e : ε) :
    stopIf c e = stopIf c' e := by
  by_cases hc : c
  · rw [stopIf_of hc, stopIf_of (h.mp hc)]
  · rw [stopIf_of_not hc, stopIf_of_not (mt h.mpr hc)]

/-- Both assert the same. -/
theorem sim_stopIf {R : α → β → Prop} {c c' : Prop} [Decidable c] [Decidable c'] {e : ε}
    {f : Unit → Except ε α} {g : Unit → Except ε β} (hc : c ↔ c')
    (h : ¬ c → Sim out R (f ()) (g ())) : Sim out R (stopIf c e >>= f) (stopIf c' e >>= g) := by
  rw [← stopIf_congr hc]
  exact sim_bind_same fun _ hu => h (stopIf_eq_ok.mp hu)

/-- Both take the same branch. -/
theorem sim_ite {R : α → β → Prop} {c c' : Prop} [Decidable c] [Decidable c'] {x x' : Except ε α}
    {y y' : Except ε β} (hc : c ↔ c') (h : c → Sim out R x y) (h' : ¬ c → Sim out R x' y') :
    Sim out R (if c then x else x') (if c' then y else y') := by
  by_cases hcc : c
  · rw [if_pos hcc, if_pos (hc.mp hcc)]
    exact h hcc
  · rw [if_neg hcc, if_neg (mt hc.mpr hcc)]
    exact h' hcc

/-- A loop is simulated by its body. -/
theorem sim_loopFuel {R : α → β → Prop} {stop : ε} (hout : out stop)
    {body : α → Except ε (Bool × α)} {body' : β → Except ε (Bool × β)}
    (h : ∀ a b, R a b → Sim out (fun r r' => r.1 = r'.1 ∧ R r.2 r'.2) (body a) (body' b)) (n : ℕ) :
    ∀ a b, R a b → Sim out R (loopFuel stop body n a) (loopFuel stop body' n b) := by
  induction n with
  | zero => exact fun _ _ _ => sim_out hout
  | succ n ih =>
      intro a b hab
      rw [loopFuel_succ, loopFuel_succ]
      refine (h a b hab).bind ?_
      rintro ⟨more, a'⟩ ⟨more', b'⟩ ⟨rfl, hab'⟩
      cases more with
      | true => exact ih a' b' hab'
      | false => exact sim_pure hab'

/-- A fold is simulated by its steps. -/
theorem sim_foldlM {R : α → β → Prop} {f : α → γ → Except ε α} {g : β → γ → Except ε β}
    (h : ∀ a b c, R a b → Sim out R (f a c) (g b c)) (l : List γ) :
    ∀ a b, R a b → Sim out R (l.foldlM f a) (l.foldlM g b) := by
  induction l with
  | nil => exact fun _ _ hab => sim_pure hab
  | cons c l ih =>
      intro a b hab
      rw [List.foldlM_cons, List.foldlM_cons]
      exact (h a b c hab).bind ih

/-- What a triple says of `y` holds of `x`. -/
theorem Sim.sat {R : α → β → Prop} {x : Except ε α} {y : Except ε β} {Q : β → Prop} {E : ε → Prop}
    (h : Sim out R x y) (hy : Sat y Q E) (hout : ∀ e, out e → E e) :
    Sat x (fun a => ∃ b, R a b ∧ Q b) E := by
  refine Sat.mono h ?_ ?_
  · rintro a ⟨b, rfl, hab⟩
    exact ⟨b, hab, hy⟩
  · rintro e (he | rfl)
    · exact hout e he
    · exact hy

end Outcome
