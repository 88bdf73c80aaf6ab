/-
# Searching with skips

A search tests the positions of a text one after the other and hands what it finds
to a visitor, which can end the search.  A faster search jumps over positions; it
is the same search as long as it jumps over positions only where the test finds
nothing.
-/
import Mathlib.Data.List.Basic
import Mathlib.Data.List.Range
import Mathlib.Tactic.Common

namespace SkipSearch

variable {α σ : Type}

/-! ## Visitors -/

/-- Hands the finds to the visitor until it says to stop. -/
def visit (act : α → σ → Bool × σ) : List α → σ → σ
  | [], s => s
  | a :: l, s => if (act a s).1 then (act a s).2 else visit act l (act a s).2

@[simp] theorem visit_nil (act : α → σ → Bool × σ) (s : σ) : visit act [] s = s := rfl

theorem visit_cons (act : α → σ → Bool × σ) (a : α) (l : List α) (s : σ) :
    visit act (a :: l) s = if (act a s).1 then (act a s).2 else visit act l (act a s).2 := rfl

/-- A visitor that keeps the first find and stops. -/
def keepFirst (a : α) (_ : Option α) : Bool × Option α := (true, some a)

theorem visit_keepFirst (l : List α) : visit keepFirst l none = l.head? := by
  cases l <;> rfl

/-! ## Finds -/

/-- What the test finds from a position up to another. -/
def found (test : ℕ → Option α) (t stop : ℕ) : List α := (List.range' t (stop - t)).filterMap test

theorem found_of_le {test : ℕ → Option α} {t stop : ℕ} (h : stop ≤ t) : found test t stop = [] := by
  rw [found, Nat.sub_eq_zero_of_le h]
  rfl

theorem found_of_lt {test : ℕ → Option α} {t stop : ℕ} (h : t < stop) :
    found test t stop = (test t).toList ++ found test (t + 1) stop := by
  rw [found, found, show stop - t = stop - (t + 1) + 1 by omega, List.range'_succ,
    List.filterMap_cons]
  cases test t <;> rfl

theorem mem_found {test : ℕ → Option α} {t stop : ℕ} {a : α} :
    a ∈ found test t stop ↔ ∃ i, t ≤ i ∧ i < stop ∧ test i = some a := by
  rw [found, List.mem_filterMap]
  constructor
  · rintro ⟨i, hi, ha⟩
    obtain ⟨hle, hlt⟩ := List.mem_range'_1.1 hi
    exact ⟨i, hle, by omega, ha⟩
  · rintro ⟨i, hle, hlt, ha⟩
    exact ⟨i, List.mem_range'_1.2 ⟨hle, by omega⟩, ha⟩

theorem found_congr {test test' : ℕ → Option α} {t stop : ℕ}
    (h : ∀ i, t ≤ i → i < stop → test i = test' i) : found test t stop = found test' t stop := by
  refine List.filterMap_congr fun i hi => ?_
  obtain ⟨hle, hlt⟩ := List.mem_range'_1.1 hi
  exact h i hle (by omega)

/-- Positions with nothing to find do not count. -/
theorem found_skip {test : ℕ → Option α} {t stop d : ℕ}
    (h : ∀ j < d, t + j < stop → test (t + j) = none) :
    found test t stop = found test (t + d) stop := by
  induction d generalizing t with
  | zero => rfl
  | succ d ih =>
    have hrest := ih (t := t + 1) fun j hj hlt => by
      rw [show t + 1 + j = t + (j + 1) by omega] at hlt ⊢
      exact h (j + 1) (by omega) hlt
    rw [show t + (d + 1) = t + 1 + d by omega, ← hrest]
    by_cases hlt : t < stop
    · have h0 := h 0 (by omega) hlt
      rw [Nat.add_zero] at h0
      rw [found_of_lt hlt, h0]
      rfl
    · rw [found_of_le (by omega), found_of_le (by omega)]

/-- Nor do they at the end. -/
theorem found_shorten {test : ℕ → Option α} {t stop stop' : ℕ} (hle : stop ≤ stop')
    (h : ∀ i, stop ≤ i → i < stop' → test i = none) :
    found test t stop' = found test t stop := by
  induction hd : stop - t generalizing t with
  | zero =>
    have hnil : found test t stop = [] := found_of_le (by omega)
    rw [hnil, found_skip (d := stop' - t) fun j _ hlt => h (t + j) (by omega) hlt,
      found_of_le (by omega)]
  | succ d ih =>
    have hstop : t < stop := by omega
    rw [found_of_lt (hstop.trans_le hle), ih (by omega), ← found_of_lt hstop]

/-- The first find is at a position before which there is none. -/
theorem head?_found_eq_some {test : ℕ → Option α} {t stop : ℕ} {a : α} :
    (found test t stop).head? = some a ↔
      ∃ i, t ≤ i ∧ i < stop ∧ test i = some a ∧ ∀ j, t ≤ j → j < i → test j = none := by
  induction hd : stop - t generalizing t with
  | zero =>
    rw [found_of_le (by omega)]
    refine iff_of_false (by simp) ?_
    rintro ⟨i, hle, hlt, -⟩
    omega
  | succ d ih =>
    rw [found_of_lt (by omega)]
    cases htest : test t with
    | some b =>
      simp only [Option.toList_some, List.singleton_append, List.head?_cons, Option.some.injEq]
      constructor
      · rintro rfl
        exact ⟨t, Nat.le_refl t, by omega, htest, fun j hle hlt => by omega⟩
      · rintro ⟨i, hle, -, hi, hfirst⟩
        obtain rfl : i = t := by
          by_contra hne
          have := hfirst t (Nat.le_refl t) (by omega)
          rw [htest] at this
          cases this
        exact Option.some.inj (htest.symm.trans hi)
    | none =>
      simp only [Option.toList_none, List.nil_append]
      rw [ih (by omega)]
      constructor
      · rintro ⟨i, hle, hlt, hi, hfirst⟩
        refine ⟨i, by omega, hlt, hi, fun j hj hji => ?_⟩
        rcases Nat.eq_or_lt_of_le hj with rfl | hj
        · exact htest
        · exact hfirst j hj hji
      · rintro ⟨i, hle, hlt, hi, hfirst⟩
        have hne : t ≠ i := by
          rintro rfl
          rw [htest] at hi
          cases hi
        exact ⟨i, by omega, hlt, hi, fun j hj hji => hfirst j (by omega) hji⟩

/-- A search seen position by position: what holds before the first one is kept where nothing is
    found and by every visit that lets the search go on; a visit that ends it gives what holds
    behind the search otherwise. -/
theorem visit_found_induct {test : ℕ → Option α} {act : α → σ → Bool × σ} {P : ℕ → σ → Prop}
    {Q : σ → Prop} {t stop : ℕ} {s : σ} (hle : t ≤ stop) (hs : P t s)
    (hnone : ∀ i s, i < stop → test i = none → P i s → P (i + 1) s)
    (hgo : ∀ i a s, i < stop → test i = some a → P i s → (act a s).1 = false →
      P (i + 1) (act a s).2)
    (hend : ∀ i a s, i < stop → test i = some a → P i s → (act a s).1 = true → Q (act a s).2) :
    Q (visit act (found test t stop) s) ∨ P stop (visit act (found test t stop) s) := by
  induction hd : stop - t generalizing t s with
  | zero =>
    obtain rfl : t = stop := by omega
    rw [found_of_le (Nat.le_refl t)]
    exact .inr hs
  | succ d ih =>
    have hlt : t < stop := by omega
    rw [found_of_lt hlt]
    cases htest : test t with
    | none => exact ih hlt (hnone t s hlt htest hs) (by omega)
    | some a =>
      simp only [Option.toList_some, List.singleton_append, visit_cons]
      cases hact : (act a s).1 with
      | true => exact .inl (hend t a s hlt htest hs hact)
      | false => exact ih hlt (hgo t a s hlt htest hs hact) (by omega)

/-! ## Loops -/

/-- A search that jumps ahead where the table says so, before it tests a position.  The loop
    is run at most `fuel` times. -/
def skipLoop (test : ℕ → Option α) (skip : ℕ → ℕ) (act : α → σ → Bool × σ) (stop : ℕ) :
    ℕ → ℕ → σ → σ
  | 0, _, s => s
  | fuel + 1, t, s =>
    if t < stop then
      if skip t ≠ 0 then skipLoop test skip act stop fuel (t + skip t) s
      else
        match test t with
        | none => skipLoop test skip act stop fuel (t + 1) s
        | some a =>
          if (act a s).1 then (act a s).2 else skipLoop test skip act stop fuel (t + 1) (act a s).2
    else s

/-- Such a search finds what the plain one finds. -/
theorem skipLoop_eq {test : ℕ → Option α} {skip : ℕ → ℕ} {act : α → σ → Bool × σ} {stop : ℕ}
    (hskip : ∀ t < stop, ∀ j < skip t, t + j < stop → test (t + j) = none) {fuel t : ℕ} (hfuel : stop - t ≤ fuel)
    (s : σ) : skipLoop test skip act stop fuel t s = visit act (found test t stop) s := by
  induction fuel generalizing t s with
  | zero =>
    rw [found_of_le (by omega)]
    rfl
  | succ fuel ih =>
    rw [skipLoop]
    by_cases hlt : t < stop
    · rw [if_pos hlt]
      by_cases hzero : skip t = 0
      · rw [if_neg (not_not.2 hzero), found_of_lt hlt]
        cases htest : test t with
        | none =>
          simp only [Option.toList_none, List.nil_append]
          exact ih (by omega) s
        | some a =>
          simp only [Option.toList_some, List.singleton_append, visit_cons]
          rw [ih (by omega)]
      · rw [if_pos hzero, found_skip (hskip t hlt)]
        exact ih (by omega) s
    · rw [if_neg hlt, found_of_le (by omega)]
      rfl

/-- A search for the first find that tests a position and jumps ahead when it finds nothing
    there. -/
def hopLoop (test : ℕ → Option α) (hop : ℕ → ℕ) (stop : ℕ) : ℕ → ℕ → Option α
  | 0, _ => none
  | fuel + 1, t =>
    if t < stop then
      match test t with
      | some a => some a
      | none => hopLoop test hop stop fuel (t + hop t)
    else none

theorem hopLoop_eq {test : ℕ → Option α} {hop : ℕ → ℕ} {stop : ℕ}
    (hpos : ∀ t < stop, 0 < hop t)
    (hhop : ∀ t < stop, ∀ j, 0 < j → j < hop t → t + j < stop → test (t + j) = none) {fuel t : ℕ}
    (hfuel : stop - t ≤ fuel) : hopLoop test hop stop fuel t = (found test t stop).head? := by
  induction fuel generalizing t with
  | zero =>
    rw [found_of_le (by omega)]
    rfl
  | succ fuel ih =>
    rw [hopLoop]
    by_cases hlt : t < stop
    · rw [if_pos hlt]
      cases htest : test t with
      | some a =>
        rw [found_of_lt hlt, htest]
        rfl
      | none =>
        have hskip : ∀ j < hop t, t + j < stop → test (t + j) = none := by
          intro j hj hstop
          rcases Nat.eq_zero_or_pos j with rfl | hjpos
          · exact htest
          · exact hhop t hlt j hjpos hj hstop
        have := hpos t hlt
        rw [found_skip hskip]
        exact ih (by omega)
    · rw [if_neg hlt, found_of_le (by omega)]
      rfl

/-- The positions that such a search tests. -/
def hopVisits (test : ℕ → Option α) (hop : ℕ → ℕ) (stop : ℕ) : ℕ → ℕ → List ℕ
  | 0, _ => []
  | fuel + 1, t =>
    if t < stop then
      match test t with
      | some _ => [t]
      | none => t :: hopVisits test hop stop fuel (t + hop t)
    else []

theorem hopVisits_lt {test : ℕ → Option α} {hop : ℕ → ℕ} {stop fuel t i : ℕ}
    (h : i ∈ hopVisits test hop stop fuel t) : i < stop := by
  induction fuel generalizing t with
  | zero => cases h
  | succ fuel ih =>
    rw [hopVisits] at h
    split at h
    next hlt =>
      split at h
      · rwa [List.mem_singleton.1 h]
      · rcases List.mem_cons.1 h with rfl | h
        · exact hlt
        · exact ih h
    · cases h

/-- What is found is found at a position that is tested. -/
theorem hopLoop_visits {test : ℕ → Option α} {hop : ℕ → ℕ} {stop fuel t : ℕ} {a : α}
    (h : hopLoop test hop stop fuel t = some a) :
    ∃ i ∈ hopVisits test hop stop fuel t, test i = some a := by
  induction fuel generalizing t with
  | zero => cases h
  | succ fuel ih =>
    rw [hopLoop] at h
    rw [hopVisits]
    split at h
    next hlt =>
      rw [if_pos hlt]
      split at h
      next b hb => exact ⟨t, by simp, hb.trans h⟩
      next hnone =>
        obtain ⟨i, hi, htest⟩ := ih h
        exact ⟨i, by simp [hi], htest⟩
    · cases h

/-! ## Occurrences -/

variable [DecidableEq α]

/-- A table of the last places: it counts from the end of the pattern to the last of the first `n`
    places where the element stands. -/
theorem lastPlace_le {pat : List α} {c : α} {n k : ℕ}
    (hn : n ≤ pat.length) (hk : k < n) (hc : pat[k]? = some c) :
    (List.range n).foldl (fun shift k => if pat[k]? = some c then pat.length - k - 1 else shift) pat.length ≤
      pat.length - k - 1 := by
  induction n with
  | zero => exact absurd hk (Nat.not_lt_zero k)
  | succ n ih =>
    rw [List.range_succ, List.foldl_append, List.foldl_cons, List.foldl_nil]
    split
    · omega
    next hne =>
      have hkn : k ≠ n := by
        rintro rfl
        exact hne hc
      exact ih (by omega) (by omega)

/-- The pattern stands at the position of the text. -/
def occursAt (pat text : List α) (t : ℕ) : Bool := pat.isPrefixOf (text.drop t)

theorem occursAt_iff {pat text : List α} {t : ℕ} :
    occursAt pat text t = true ↔ ∀ k < pat.length, text[t + k]? = pat[k]? := by
  rw [occursAt, List.isPrefixOf_iff_prefix, List.prefix_iff_getElem?]
  constructor
  · intro h k hk
    have := h k hk
    rwa [List.getElem?_drop, ← List.getElem?_eq_getElem] at this
  · intro h k hk
    rw [List.getElem?_drop, h k hk, List.getElem?_eq_getElem]

/-- An occurrence lies in the text. -/
theorem occursAt_le {pat text : List α} {t : ℕ} (h : occursAt pat text t = true)
    (hne : pat ≠ []) : t + pat.length ≤ text.length := by
  rw [occursAt, List.isPrefixOf_iff_prefix] at h
  have hlen := h.length_le
  have hpos := List.length_pos_iff.2 hne
  rw [List.length_drop] at hlen
  omega

end SkipSearch
