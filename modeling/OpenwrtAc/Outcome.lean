/-
# Partial correctness of computations that may stop

A kernel function that runs into a failed assertion does not return.  Such a
function is modelled as an `Except` computation whose error says where it
stopped.  `Sat x Q E` is the Hoare-style judgement used for all of them: if `x`
returns, its value satisfies `Q`, and if it stops, the reason satisfies `E`.

The file also has the one loop the models need: `loopFuel`, a loop whose body
says whether to go round again, run with a bound on the number of rounds.
-/
import Mathlib.Data.List.Forall2
import Mathlib.Logic.Basic
import Mathlib.Tactic.Common

namespace Outcome

variable {ε α β σ : Type}

/-- `x` returns only values in `Q` and stops only for reasons in `E`. -/
def Sat (x : Except ε α) (Q : α → Prop) (E : ε → Prop) : Prop :=
  match x with
  | .ok a => Q a
  | .error e => E e

@[simp] theorem sat_ok {a : α} {Q : α → Prop} {E : ε → Prop} :
    Sat (.ok a) Q E ↔ Q a := Iff.rfl

@[simp] theorem sat_error {e : ε} {Q : α → Prop} {E : ε → Prop} :
    Sat (.error e : Except ε α) Q E ↔ E e := Iff.rfl

@[simp] theorem sat_pure {a : α} {Q : α → Prop} {E : ε → Prop} :
    Sat (pure a : Except ε α) Q E ↔ Q a := Iff.rfl

@[simp] theorem sat_throw {e : ε} {Q : α → Prop} {E : ε → Prop} :
    Sat (throw e : Except ε α) Q E ↔ E e := Iff.rfl

/-- What holds of every value holds of the one returned. -/
theorem Sat.of_ok {x : Except ε α} {Q : α → Prop} {E : ε → Prop} {a : α}
    (h : Sat x Q E) (hx : x = .ok a) : Q a := by
  subst hx
  exact h

/-- What holds of every failure holds of the one raised. -/
theorem Sat.of_error {x : Except ε α} {Q : α → Prop} {E : ε → Prop} {e : ε}
    (h : Sat x Q E) (hx : x = .error e) : E e := by
  subst hx
  exact h

/-- What holds of every returned value and of every reason to stop is a triple. -/
theorem sat_intro {x : Except ε α} {Q : α → Prop} {E : ε → Prop}
    (hok : ∀ a, x = .ok a → Q a) (herr : ∀ e, x = .error e → E e) : Sat x Q E := by
  cases x with
  | ok a => exact hok a rfl
  | error e => exact herr e rfl

/-- A triple may mention the run itself. -/
theorem Sat.and_run {x : Except ε α} {Q : α → Prop} {E : ε → Prop} (h : Sat x Q E) :
    Sat x (fun a => x = .ok a ∧ Q a) E :=
  sat_intro (fun _ ha => ⟨ha, h.of_ok ha⟩) fun _ he => h.of_error he

/-- A triple that allows no reason to stop yields a returned value. -/
theorem Sat.exists_ok {x : Except ε α} {Q : α → Prop} (h : Sat x Q fun _ => False) :
    ∃ a, x = .ok a ∧ Q a := by
  cases x with
  | ok a => exact ⟨a, rfl, h⟩
  | error e => exact h.elim

/-- Both conditions may be weakened. -/
theorem Sat.mono {x : Except ε α} {Q Q' : α → Prop} {E E' : ε → Prop}
    (h : Sat x Q E) (hQ : ∀ a, Q a → Q' a) (hE : ∀ e, E e → E' e) : Sat x Q' E' := by
  cases x with
  | ok a => exact hQ a h
  | error e => exact hE e h

/-- Sequencing: the second computation starts where the first one ended. -/
theorem sat_bind {x : Except ε α} {f : α → Except ε β} {Q : β → Prop} {E : ε → Prop} :
    Sat (x >>= f) Q E ↔ Sat x (fun a => Sat (f a) Q E) E := by
  cases x <;> rfl

/-- The rule of sequence. -/
theorem Sat.bind {x : Except ε α} {f : α → Except ε β} {P : α → Prop} {Q : β → Prop}
    {E : ε → Prop} (hx : Sat x P E) (hf : ∀ a, P a → Sat (f a) Q E) : Sat (x >>= f) Q E :=
  sat_bind.mpr (hx.mono hf fun _ h => h)

/-- Inversion of sequencing on a run that returns. -/
theorem bind_eq_ok {x : Except ε α} {f : α → Except ε β} {b : β} :
    (x >>= f) = .ok b ↔ ∃ a, x = .ok a ∧ f a = .ok b := by
  cases x with
  | ok a =>
      constructor
      · intro h
        exact ⟨a, rfl, h⟩
      · rintro ⟨a', ha, h⟩
        cases ha
        exact h
  | error e =>
      constructor
      · intro h
        cases h
      · rintro ⟨a', ha, -⟩
        cases ha

@[simp] theorem pure_eq_ok {a b : α} : (pure a : Except ε α) = .ok b ↔ a = b := by
  constructor
  · intro h
    exact Except.ok.inj h
  · rintro rfl
    rfl

/-- A test that a run that returns passes. -/
theorem ok_of_any {x : Except ε α} {p : α → Bool} (h : x.toOption.any p = true) :
    ∃ a, x = .ok a ∧ p a = true := by
  cases x with
  | error e => cases h
  | ok a => exact ⟨a, rfl, h⟩

/-! ## Assertions -/

/-- Stop with reason `e` when the condition `c` holds: the kernel's `BUG_ON`. -/
def stopIf (c : Prop) [Decidable c] (e : ε) : Except ε Unit :=
  if c then .error e else .ok ()

/-- An assertion that holds lets the run pass. -/
theorem stopIf_of_not {c : Prop} [Decidable c] {e : ε} (h : ¬ c) :
    stopIf c e = .ok () := if_neg h

/-- An assertion that fails stops the run. -/
theorem stopIf_of {c : Prop} [Decidable c] {e : ε} (h : c) :
    stopIf c e = .error e := if_pos h

@[simp] theorem stopIf_eq_ok {c : Prop} [Decidable c] {e : ε} {u : Unit} :
    stopIf c e = .ok u ↔ ¬ c := by
  unfold stopIf
  by_cases h : c <;> simp [h]

/-- A check that comes before the rest has passed where the whole returns. -/
theorem ite_error_eq_ok {c : Prop} [Decidable c] {e : ε} {x : Except ε α} {a : α} :
    (if c then .error e else x) = .ok a ↔ ¬ c ∧ x = .ok a := by
  by_cases h : c <;> simp [h]

/-- The rule of an assertion. -/
theorem sat_stopIf {c : Prop} [Decidable c] {e : ε} {Q : Unit → Prop} {E : ε → Prop}
    (hQ : ¬ c → Q ()) (hE : c → E e) : Sat (stopIf c e) Q E := by
  by_cases h : c
  · rw [stopIf_of h]
    exact hE h
  · rw [stopIf_of_not h]
    exact hQ h

/-! ## Whether a computation returns -/

/-- `x` does not stop. -/
def Returns (x : Except ε α) : Prop := ∃ a, x = .ok a

@[simp] theorem returns_ok (a : α) : Returns (.ok a : Except ε α) := ⟨a, rfl⟩

@[simp] theorem returns_pure (a : α) : Returns (pure a : Except ε α) := ⟨a, rfl⟩

@[simp] theorem not_returns_error (e : ε) : ¬ Returns (.error e : Except ε α) := by
  rintro ⟨a, ha⟩
  cases ha

@[simp] theorem not_returns_throw (e : ε) : ¬ Returns (throw e : Except ε α) :=
  not_returns_error e

/-- A sequence returns where both parts do. -/
theorem returns_bind {x : Except ε α} {f : α → Except ε β} :
    Returns (x >>= f) ↔ ∃ a, x = .ok a ∧ Returns (f a) := by
  constructor
  · rintro ⟨b, hb⟩
    obtain ⟨a, ha, hfa⟩ := bind_eq_ok.mp hb
    exact ⟨a, ha, b, hfa⟩
  · rintro ⟨a, ha, b, hb⟩
    exact ⟨b, bind_eq_ok.mpr ⟨a, ha, hb⟩⟩

/-- Nothing behind `x` stops. -/
theorem returns_bind_of_returns {x : Except ε α} {f : α → Except ε β} (hf : ∀ a, Returns (f a)) :
    Returns (x >>= f) ↔ Returns x := by
  rw [returns_bind]
  exact ⟨fun ⟨a, ha, _⟩ => ⟨a, ha⟩, fun ⟨a, ha⟩ => ⟨a, ha, hf a⟩⟩

@[simp] theorem returns_stopIf_bind {c : Prop} [Decidable c] {e : ε} {f : Unit → Except ε β} :
    Returns (stopIf c e >>= f) ↔ ¬ c ∧ Returns (f ()) := by
  rw [returns_bind]
  constructor
  · rintro ⟨u, hu, hf⟩
    exact ⟨stopIf_eq_ok.mp hu, hf⟩
  · rintro ⟨hc, hf⟩
    exact ⟨(), stopIf_eq_ok.mpr hc, hf⟩

/-- A test returns where the branch taken does. -/
theorem returns_ite {c : Prop} [Decidable c] {x y : Except ε α} :
    Returns (if c then x else y) ↔ (c → Returns x) ∧ (¬ c → Returns y) := by
  by_cases h : c <;> simp [h]

/-! ## Loops -/

/-- Run `body` until it answers that the loop is left, at most `fuel` times;
`out` is the reason given when the rounds run out. -/
def loopFuel (out : ε) (body : σ → Except ε (Bool × σ)) : ℕ → σ → Except ε σ
  | 0, _ => .error out
  | n + 1, s => do
      let (more, s') ← body s
      if more then loopFuel out body n s' else pure s'

/-- A loop is one turn, and the loop again if the turn says so. -/
theorem loopFuel_succ (out : ε) (body : σ → Except ε (Bool × σ)) (n : ℕ) (s : σ) :
    loopFuel out body (n + 1) s
      = body s >>= fun r => if r.1 then loopFuel out body n r.2 else pure r.2 := rfl

/-- The invariant rule of `loopFuel`: a round started inside the invariant either
stays inside it or leaves the loop in `Q`. -/
theorem sat_loopFuel {out : ε} {body : σ → Except ε (Bool × σ)} {I Q : σ → Prop}
    {E : ε → Prop} (hout : E out)
    (hbody : ∀ s, I s → Sat (body s) (fun r => if r.1 then I r.2 else Q r.2) E) :
    ∀ n s, I s → Sat (loopFuel out body n s) Q E := by
  intro n
  induction n with
  | zero =>
      intro s _
      exact hout
  | succ n ih =>
      intro s hs
      rw [loopFuel_succ]
      refine (hbody s hs).bind ?_
      rintro ⟨more, s'⟩ hr
      cases more with
      | true => exact ih s' hr
      | false => exact hr

/-- A loop that returns has gone through a chain of rounds: whatever relation
contains every round, is reflexive and transitive, contains the whole loop. -/
theorem rel_of_loopFuel {out : ε} {body : σ → Except ε (Bool × σ)} {R : σ → σ → Prop}
    (htrans : ∀ a b c, R a b → R b c → R a c)
    (hbody : ∀ s more s', body s = .ok (more, s') → R s s') :
    ∀ n s s', loopFuel out body n s = .ok s' → R s s' := by
  intro n
  induction n with
  | zero =>
      intro s s' h
      cases h
  | succ n ih =>
      intro s s' h
      rw [loopFuel_succ, bind_eq_ok] at h
      obtain ⟨⟨more, s₁⟩, h₁, h₂⟩ := h
      have hstep := hbody s more s₁ h₁
      cases more with
      | true => exact htrans _ _ _ hstep (ih s₁ s' h₂)
      | false =>
          obtain rfl := pure_eq_ok.mp h₂
          exact hstep

/-- The variant rule of `loopFuel`: when every round that goes on lessens a measure, the
loop does not use up more rounds than the measure and one. -/
theorem loopFuel_ne_out {out : ε} {body : σ → Except ε (Bool × σ)} {I : σ → Prop} {μ : σ → ℕ}
    (hbody : ∀ s, I s →
      Sat (body s) (fun r => r.1 = true → I r.2 ∧ μ r.2 < μ s) fun e => e ≠ out) :
    ∀ n s, I s → μ s < n → loopFuel out body n s ≠ .error out := by
  intro n
  induction n with
  | zero =>
      intro s _ hlt
      omega
  | succ n ih =>
      intro s hs hlt
      have h := hbody s hs
      rw [loopFuel_succ]
      cases hb : body s with
      | error e =>
          rw [hb] at h
          exact fun he => h (Except.error.inj he)
      | ok r =>
          obtain ⟨more, s'⟩ := r
          rw [hb] at h
          cases more with
          | true =>
              obtain ⟨hs', hμ⟩ := h rfl
              exact ih s' hs' (by dsimp only at hμ; omega)
          | false => exact fun he => by cases he

/-- A computation mapped over a list returns what it returns for the elements. -/
theorem mapM_eq_ok {f : α → Except ε β} {l : List α} {l' : List β} :
    l.mapM f = .ok l' ↔ List.Forall₂ (fun a b => f a = .ok b) l l' := by
  induction l generalizing l' with
  | nil =>
      rw [List.mapM_nil, pure_eq_ok, List.forall₂_nil_left_iff]
      exact eq_comm
  | cons a l ih =>
      simp only [List.mapM_cons, bind_eq_ok, pure_eq_ok, ih]
      constructor
      · rintro ⟨b, hb, bs, hbs, rfl⟩
        exact .cons hb hbs
      · intro h
        cases h with
        | cons hb hbs => exact ⟨_, hb, _, hbs, rfl⟩

/-- The invariant rule for a computation folded over a list. -/
theorem sat_foldlM {f : σ → α → Except ε σ} {E : ε → Prop} (I : List α → σ → Prop) :
    ∀ (l : List α) (s : σ), I l s →
      (∀ a l s, I (a :: l) s → Sat (f s a) (I l) E) → Sat (l.foldlM f s) (I []) E := by
  intro l
  induction l with
  | nil =>
      intro s hs _
      exact hs
  | cons a l ih =>
      intro s hs hstep
      rw [List.foldlM_cons]
      exact (hstep a l s hs).bind fun s' hs' => ih s' hs' hstep

/-- A fold that returns is a chain of steps: whatever relation contains every step,
is reflexive and transitive, contains the whole fold. -/
theorem rel_of_foldlM {f : σ → α → Except ε σ} {R : σ → σ → Prop}
    (hrefl : ∀ a, R a a) (htrans : ∀ a b c, R a b → R b c → R a c)
    (hstep : ∀ s a s', f s a = .ok s' → R s s') :
    ∀ (l : List α) (s s' : σ), l.foldlM f s = .ok s' → R s s' := by
  intro l
  induction l with
  | nil =>
      intro s s' h
      obtain rfl := pure_eq_ok.mp h
      exact hrefl s
  | cons a l ih =>
      intro s s' h
      rw [List.foldlM_cons, bind_eq_ok] at h
      obtain ⟨s₁, h₁, h₂⟩ := h
      exact htrans _ _ _ (hstep s a s₁ h₁) (ih s₁ s' h₂)

end Outcome
