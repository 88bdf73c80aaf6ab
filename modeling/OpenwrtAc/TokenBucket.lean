/-
# Token buckets

One token bucket in exact arithmetic, with the history of what was charged to it.
Tokens are earned lazily: a charge that the tokens do not cover first collects the
tokens of the ticks since `clock`, at most `burst` of them; if that does not suffice
the bucket is parked, and its clock moves to the tick at which the debt is paid.

The potential of a bucket falls by the length of every charge and never rises, so
the charges of any window of time are bounded.
-/
import OpenwrtAc.ListSum
import Mathlib.Tactic.Ring
import Mathlib.Tactic.Linarith

open ListSum

namespace TokenBucket

/-- A bucket at time `now`; the entries of the history are times and lengths. -/
structure Bucket where
  tokens : ℤ
  clock : ℕ
  now : ℕ
  parked : Bool
  history : List (ℕ × ℕ)

/-- Record a charge of length `len`. -/
def Bucket.charge (b : Bucket) (len : ℕ) : List (ℕ × ℕ) := b.history ++ [(b.now, len)]

/-- What can happen to a bucket that earns `rate` tokens per tick. -/
inductive Step (rate : ℤ) (burst : ℕ) (b : Bucket) : Bucket → Prop
  /-- Time passes. -/
  | elapse (n : ℕ) : Step rate burst b { b with now := b.now + n }
  /-- The tokens cover the charge. -/
  | keep (len : ℕ) : b.parked = false → 0 ≤ b.tokens - len →
      Step rate burst b { b with
        tokens := b.tokens - len, parked := false, history := b.charge len }
  /-- The tokens earned since `clock` cover the rest. -/
  | refill (len n : ℕ) : b.parked = false → n ≤ burst → n ≤ b.now - b.clock →
      b.tokens - len < 0 → 0 ≤ b.tokens - len + rate * n →
      Step rate burst b { b with
        tokens := b.tokens - len + rate * n, clock := b.now, parked := false
        history := b.charge len }
  /-- The bucket waits until the debt is paid. -/
  | park (len n : ℕ) : b.parked = false → 0 ≤ b.tokens - len + rate * n →
      b.tokens - len + rate * n < rate →
      Step rate burst b { b with
        tokens := b.tokens - len + rate * n, clock := b.now + n, parked := true
        history := b.charge len }
  /-- The wait is over. -/
  | wake : b.parked = true → b.clock ≤ b.now → Step rate burst b { b with parked := false }

/-- The lengths charged in the window from `t₀` to `t₁`. -/
def chargedIn (h : List (ℕ × ℕ)) (t₀ t₁ : ℕ) : ℕ :=
  total h fun c => if t₀ ≤ c.1 ∧ c.1 ≤ t₁ then c.2 else 0

/-- The lengths charged from `t₀` on. -/
def chargedSince (h : List (ℕ × ℕ)) (t₀ : ℕ) : ℕ :=
  total h fun c => if t₀ ≤ c.1 then c.2 else 0

/-- The largest length charged in the window. -/
def largestIn (h : List (ℕ × ℕ)) (t₀ t₁ : ℕ) : ℕ :=
  h.foldr (fun c m => if t₀ ≤ c.1 ∧ c.1 ≤ t₁ then max c.2 m else m) 0

/-- The tokens on hand and those that can still be collected for the time before now. -/
def Bucket.potential (b : Bucket) (rate : ℤ) (burst : ℕ) : ℤ :=
  b.tokens - rate * max (b.clock : ℤ) (b.now - burst)

/-- The invariant of a bucket. -/
structure Ok (rate : ℤ) (burst : ℕ) (b : Bucket) : Prop where
  rate_pos : 0 < rate
  burst_pos : 0 < burst
  nonneg : 0 ≤ b.tokens
  le : b.tokens ≤ rate * burst
  active : b.parked = false → b.clock ≤ b.now
  past : ∀ c ∈ b.history, c.1 ≤ b.now
  spent : ∀ t₀ ≤ b.now, chargedSince b.history t₀ + b.potential rate burst
    ≤ 2 * (rate * burst) - rate * t₀
  window : ∀ t₀ t₁, t₀ ≤ t₁ → (chargedIn b.history t₀ t₁ : ℤ)
    ≤ rate * (t₁ - t₀) + 2 * (rate * burst) + largestIn b.history t₀ t₁

/-! ## The history -/

section History

variable (h : List (ℕ × ℕ)) (t₀ t₁ : ℕ) (c : ℕ × ℕ)

theorem chargedIn_append : chargedIn (h ++ [c]) t₀ t₁
    = chargedIn h t₀ t₁ + if t₀ ≤ c.1 ∧ c.1 ≤ t₁ then c.2 else 0 := by
  simp [chargedIn]

theorem chargedSince_append : chargedSince (h ++ [c]) t₀
    = chargedSince h t₀ + if t₀ ≤ c.1 then c.2 else 0 := by
  simp [chargedSince]

theorem chargedIn_le_chargedSince : chargedIn h t₀ t₁ ≤ chargedSince h t₀ := by
  apply total_le_total
  intro c _
  split_ifs with h₁ h₂
  · exact le_refl _
  · exact absurd h₁.1 h₂
  · exact Nat.zero_le _
  · exact le_refl _

theorem largestIn_append : largestIn (h ++ [c]) t₀ t₁
    = if t₀ ≤ c.1 ∧ c.1 ≤ t₁ then max (largestIn h t₀ t₁) c.2 else largestIn h t₀ t₁ := by
  induction h with
  | nil => by_cases hc : t₀ ≤ c.1 ∧ c.1 ≤ t₁ <;> simp [largestIn, hc]
  | cons a h ih =>
      simp only [largestIn, List.cons_append, List.foldr_cons] at ih ⊢
      rw [ih]
      by_cases hc : t₀ ≤ c.1 ∧ c.1 ≤ t₁
      · simp only [if_pos hc]
        split_ifs
        · exact (max_assoc _ _ _).symm
        · rfl
      · simp only [if_neg hc]

variable {h t₀}

/-- Nothing is charged in the future. -/
theorem chargedSince_eq_zero (hpast : ∀ c ∈ h, c.1 < t₀) : chargedSince h t₀ = 0 :=
  total_eq_zero.mpr fun c hc => if_neg (not_le.mpr (hpast c hc))

end History

/-! ## The invariant is kept -/

/-- There is no more to collect than the tokens of `burst` ticks. -/
theorem Bucket.potential_le {b : Bucket} {rate : ℤ} {burst : ℕ} (hrate : 0 < rate)
    (hle : b.tokens ≤ rate * burst) :
    b.potential rate burst ≤ 2 * (rate * burst) - rate * b.now := by
  have hmul : rate * ((b.now : ℤ) - burst) ≤ rate * max (b.clock : ℤ) (b.now - burst) :=
    mul_le_mul_of_nonneg_left (le_max_right _ _) hrate.le
  unfold Bucket.potential
  linarith

namespace Ok

variable {rate : ℤ} {burst : ℕ} {b b' : Bucket}

/-- A charge that lowers the potential by its length and leaves no more debt than its
length. -/
theorem charged (h : Ok rate burst b) {len : ℕ} (hnow : b'.now = b.now)
    (hhist : b'.history = b.charge len) (hnonneg : 0 ≤ b'.tokens) (hle : b'.tokens ≤ rate * burst)
    (hactive : b'.parked = false → b'.clock ≤ b'.now)
    (hpot : b'.potential rate burst + len ≤ b.potential rate burst)
    (hdebt : -b'.potential rate burst ≤ rate * b.now + len) : Ok rate burst b' := by
  have hspent : ∀ t₀ ≤ b.now, chargedSince b'.history t₀ + b'.potential rate burst
      ≤ 2 * (rate * burst) - rate * t₀ := by
    intro t₀ ht
    have := h.spent t₀ ht
    rw [hhist, Bucket.charge, chargedSince_append, if_pos ht]
    push_cast
    linarith
  refine ⟨h.rate_pos, h.burst_pos, hnonneg, hle, hactive, fun c hc => ?_, fun t₀ ht => ?_,
    fun t₀ t₁ ht => ?_⟩
  · rw [hhist, Bucket.charge, List.mem_append, List.mem_singleton] at hc
    rw [hnow]
    rcases hc with hc | rfl
    · exact h.past c hc
    · exact le_refl _
  · exact hspent t₀ (hnow ▸ ht)
  · by_cases hin : t₀ ≤ b.now ∧ b.now ≤ t₁
    · -- the window has not ended: everything since its start is bounded by the potential
      have hsince := hspent t₀ hin.1
      have hle := chargedIn_le_chargedSince b'.history t₀ t₁
      have hlen : len ≤ largestIn b'.history t₀ t₁ := by
        rw [hhist, Bucket.charge, largestIn_append, if_pos hin]
        exact le_max_right _ _
      have hmul : rate * (b.now : ℤ) ≤ rate * t₁ :=
        mul_le_mul_of_nonneg_left (by exact_mod_cast hin.2) h.rate_pos.le
      zify at hle hlen
      linarith
    · have := h.window t₀ t₁ ht
      rw [hhist, Bucket.charge, chargedIn_append, largestIn_append, if_neg hin, if_neg hin]
      exact this

/-- Every step keeps the invariant. -/
theorem step (h : Ok rate burst b) (hs : Step rate burst b b') : Ok rate burst b' := by
  have hpos := h.rate_pos
  -- one tick of tokens is within the burst
  have hburst : rate ≤ rate * burst := by
    have : rate * 1 ≤ rate * burst :=
      mul_le_mul_of_nonneg_left (by exact_mod_cast h.burst_pos) hpos.le
    linarith
  cases hs with
  | elapse n =>
      have hmono : ({ b with now := b.now + n } : Bucket).potential rate burst
          ≤ b.potential rate burst := by
        have hmax : max (b.clock : ℤ) ((b.now : ℤ) - burst)
            ≤ max (b.clock : ℤ) (((b.now + n : ℕ) : ℤ) - burst) := by
          apply max_le_max (le_refl _)
          push_cast
          omega
        have := mul_le_mul_of_nonneg_left hmax hpos.le
        unfold Bucket.potential
        dsimp only
        linarith
      refine ⟨hpos, h.burst_pos, h.nonneg, h.le, fun hp => (h.active hp).trans (Nat.le_add_right _ _),
        fun c hc => (h.past c hc).trans (Nat.le_add_right _ _), fun t₀ ht => ?_, h.window⟩
      by_cases hold : t₀ ≤ b.now
      · have := h.spent t₀ hold
        dsimp only
        linarith
      · -- a window that starts after the last charge
        have hzero : chargedSince b.history t₀ = 0 :=
          chargedSince_eq_zero fun c hc => lt_of_le_of_lt (h.past c hc) (not_le.mp hold)
        have hok := Bucket.potential_le (b := { b with now := b.now + n }) hpos h.le
        have hmul : rate * (t₀ : ℤ) ≤ rate * ((b.now + n : ℕ) : ℤ) :=
          mul_le_mul_of_nonneg_left (by exact_mod_cast ht) hpos.le
        rw [hzero]
        push_cast at hok hmul ⊢
        linarith
  | keep len hp h0 =>
      have hclock := h.active hp
      have hmax : rate * max (b.clock : ℤ) ((b.now : ℤ) - burst) ≤ rate * b.now :=
        mul_le_mul_of_nonneg_left (max_le (by exact_mod_cast hclock) (by omega)) hpos.le
      have hle := h.le
      refine h.charged rfl rfl h0 ?_ (fun _ => hclock) ?_ ?_
      · dsimp only
        omega
      · unfold Bucket.potential
        dsimp only
        linarith
      · unfold Bucket.potential
        dsimp only
        linarith
  | refill len n hp hn hel hneg h0 =>
      have hclock := h.active hp
      have hnow : max (b.now : ℤ) ((b.now : ℤ) - burst) = b.now := max_eq_left (by omega)
      -- what is collected is at most what the potential counts
      have hmul : rate * (n : ℤ) ≤ rate * (b.now - max (b.clock : ℤ) ((b.now : ℤ) - burst)) := by
        apply mul_le_mul_of_nonneg_left _ hpos.le
        rcases max_choice (b.clock : ℤ) ((b.now : ℤ) - burst) with hm | hm <;> rw [hm] <;> omega
      have hcap : rate * (n : ℤ) ≤ rate * burst :=
        mul_le_mul_of_nonneg_left (by exact_mod_cast hn) hpos.le
      refine h.charged rfl rfl h0 ?_ (fun _ => le_refl _) ?_ ?_
      · dsimp only
        linarith
      · unfold Bucket.potential
        dsimp only
        rw [hnow]
        linarith
      · unfold Bucket.potential
        dsimp only
        rw [hnow]
        linarith
  | park len n hp h0 hlt =>
      have hclock := h.active hp
      have hmax : rate * max (b.clock : ℤ) ((b.now : ℤ) - burst) ≤ rate * b.now :=
        mul_le_mul_of_nonneg_left (max_le (by exact_mod_cast hclock) (by omega)) hpos.le
      have hnew : max (((b.now + n : ℕ) : ℤ)) ((b.now : ℤ) - burst) = b.now + n := by
        push_cast
        exact max_eq_left (by omega)
      have hnonneg := h.nonneg
      refine h.charged rfl rfl h0 ?_ (fun hf => absurd hf (by simp)) ?_ ?_
      · dsimp only
        linarith
      · unfold Bucket.potential
        dsimp only
        rw [hnew]
        linarith
      · unfold Bucket.potential
        dsimp only
        rw [hnew]
        linarith
  | wake hp hle =>
      exact ⟨hpos, h.burst_pos, h.nonneg, h.le, fun _ => hle, h.past, h.spent, h.window⟩

/-- A bucket without a history. -/
theorem fresh (hrate : 0 < rate) (hburst : 0 < burst) (hhist : b.history = []) (hnonneg : 0 ≤ b.tokens)
    (hle : b.tokens ≤ rate * burst) (hclock : b.clock ≤ b.now) : Ok rate burst b := by
  have hpot := b.potential_le hrate hle
  have hcap : 0 ≤ rate * (burst : ℤ) := mul_nonneg hrate.le (Int.natCast_nonneg _)
  refine ⟨hrate, hburst, hnonneg, hle, fun _ => hclock, fun c hc => ?_, fun t₀ ht => ?_,
    fun t₀ t₁ ht => ?_⟩
  · rw [hhist] at hc
    cases hc
  · have hmul' : rate * (t₀ : ℤ) ≤ rate * b.now :=
      mul_le_mul_of_nonneg_left (by exact_mod_cast ht) hrate.le
    rw [hhist]
    unfold chargedSince
    rw [total_nil]
    push_cast
    linarith
  · have hmul' : 0 ≤ rate * ((t₁ : ℤ) - t₀) := mul_nonneg hrate.le (by omega)
    rw [hhist]
    unfold chargedIn largestIn
    rw [total_nil, List.foldr_nil]
    push_cast
    linarith

end Ok

end TokenBucket
