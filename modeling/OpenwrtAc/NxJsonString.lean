/-
# Strings are unescaped in place

What `unescape_string` writes is never ahead of what it has read, and is the string that the
text stands for, with a 0 behind it.
-/
import OpenwrtAc.NxJsonLex

open CString LzWindow Outcome

namespace Tbq.Nx

theorem bind_ok {α β : Type} (a : α) (f : α → Except Stop β) : (.ok a >>= f) = f a := rfl

/-! ## Writing -/

/-- A byte is written inside the memory. -/
theorem put_eq {mem : List UInt8} {d : ℕ} (h : d < mem.length) (c : UInt8) :
    put mem d c = .ok (overwrite mem d [c]) := by
  rw [overwrite_singleton h]
  exact if_pos h

/-- A list of bytes is written inside the memory. -/
theorem putAll_eq : ∀ (bytes mem : List UInt8) (d : ℕ), d + bytes.length ≤ mem.length →
    putAll mem d bytes = .ok (overwrite mem d bytes) := by
  intro bytes
  induction bytes with
  | nil =>
      intro mem d _
      show Except.ok mem = _
      rw [overwrite, List.append_nil, List.length_nil, Nat.add_zero, List.take_append_drop]
  | cons c bytes ih =>
      intro mem d h
      rw [List.length_cons] at h
      unfold putAll
      rw [put_eq (by omega)]
      show putAll (overwrite mem d [c]) (d + 1) bytes = _
      have hlen : (overwrite mem d [c]).length = mem.length :=
        length_overwrite (by rw [List.length_singleton]; omega)
      rw [ih _ _ (by rw [hlen]; omega)]
      exact congrArg Except.ok
        (@overwrite_append _ _ [c] bytes _ (by rw [List.length_singleton]; omega))

/-- What an unescaping leaves of the text: the string and its 0 at `d`. -/
structure Unescaped (mem : List UInt8) (p d : ℕ) (out mem' : List UInt8) (q : ℕ) : Prop where
  ahead : Ahead mem p q
  mem_eq : mem' = overwrite mem d (out ++ [0])
  room : d + out.length + 1 ≤ q

/-- Some bytes are written over what has been read before. -/
theorem Unescaped.step {mem bytes out mem' : List UInt8} {p p₁ d q : ℕ} (hp : p < p₁)
    (hp₁ : p₁ ≤ mem.length) (hd : d + bytes.length ≤ p₁)
    (h : Unescaped (overwrite mem d bytes) p₁ (d + bytes.length) out mem' q) :
    Unescaped mem p d (bytes ++ out) mem' q := by
  have hlen : (overwrite mem d bytes).length = mem.length := length_overwrite (by omega)
  have hlt := h.ahead.lt
  have hle := h.ahead.le
  have hroom := h.room
  rw [hlen] at hle
  refine ⟨⟨by omega, hle⟩, ?_, by rw [List.length_append]; omega⟩
  rw [h.mem_eq, overwrite_append (by rw [List.length_append, List.length_singleton]; omega),
    List.append_assoc]

/-! ## Code points -/

/-- One digit more. -/
def hexStep (n : ℕ) (c : UInt8) : Option ℕ := (hexVal c).map fun h => n <<< 4 ||| h

/-- What the loop over the digits accepts are digits, with their value. -/
theorem sat_hexDigits {mem : List UInt8} :
    ∀ (k p n : ℕ), p ≤ mem.length → Sat (hexDigits mem k p n) (fun v => p + k ≤ mem.length ∧
      ∃ digits, digits.length = k ∧ mem.drop p = digits ++ mem.drop (p + k) ∧
        digits.foldlM hexStep n = some v) Refused := by
  intro k
  induction k with
  | zero =>
      intro p n hp
      exact ⟨hp, [], rfl, rfl, rfl⟩
  | succ k ih =>
      intro p n hp
      unfold hexDigits
      refine (sat_peek hp).bind fun c hc => ?_
      cases hhex : hexVal c with
      | none => exact rfl
      | some h =>
        have hne : c ≠ 0 := by
          rintro rfl
          cases hhex
        obtain ⟨l, hl⟩ := hc hne
        refine (ih (p + 1) _ (lt_length hl)).mono (fun v hv => ?_) fun _ => id
        obtain ⟨hle, digits, hlen, hdrop, hfold⟩ := hv
        rw [drop_succ hl, Nat.add_assoc, Nat.add_comm 1 k] at hdrop
        refine ⟨by omega, c :: digits, by rw [List.length_cons, hlen], by rw [hl, hdrop]; rfl, ?_⟩
        rw [List.foldlM_cons]
        show (hexStep n c).bind _ = _
        unfold hexStep
        rw [hhex]
        exact hfold

/-- Digits are read with their value. -/
theorem hexDigits_eq {mem rest : List UInt8} :
    ∀ (digits : List UInt8) (p n v : ℕ), mem.drop p = digits ++ rest →
      digits.foldlM hexStep n = some v → hexDigits mem digits.length p n = .ok v := by
  intro digits
  induction digits with
  | nil =>
      intro p n v _ hfold
      exact congrArg Except.ok (Option.some.inj hfold)
  | cons c digits ih =>
      intro p n v hl hfold
      rw [List.foldlM_cons] at hfold
      change (hexStep n c).bind _ = _ at hfold
      unfold hexStep at hfold
      rw [List.length_cons]
      unfold hexDigits
      rw [peek_cons hl]
      cases hhex : hexVal c with
      | none =>
        rw [hhex] at hfold
        cases hfold
      | some h =>
        rw [hhex] at hfold
        rw [bind_ok, hhex]
        exact ih (p + 1) _ v (drop_succ hl) hfold

/-- What is accepted behind a backslash and a `u` are four digits or two groups of them. -/
theorem sat_unicode {mem l : List UInt8} {p : ℕ} (hl : mem.drop p = letterU :: l) :
    Sat (unicode mem p) (fun r => p + 5 ≤ r.2 ∧ r.2 ≤ mem.length ∧
      Unicode r.1 (mem.drop p) (mem.drop r.2)) Refused := by
  have hlt := lt_length hl
  unfold unicode
  refine (sat_hexDigits 4 (p + 1) 0 hlt).bind fun n hn => ?_
  obtain ⟨hle, digits, hlen, hdrop, hfold⟩ := hn
  rw [drop_succ hl] at hdrop
  split
  next hhigh =>
    refine (sat_peek hle).bind fun b hb => ?_
    have hstop : Sat (stopIf (b ≠ backslash) Stop.refused) (fun _ => b = backslash) Refused :=
      sat_stopIf (fun h => Classical.not_not.1 h) fun _ => rfl
    refine hstop.bind fun _ heq => ?_
    obtain ⟨m, hm⟩ := hb (heq ▸ by decide)
    refine (sat_peek (lt_length hm)).bind fun u hu => ?_
    have hstop : Sat (stopIf (u ≠ letterU) Stop.refused) (fun _ => u = letterU) Refused :=
      sat_stopIf (fun h => Classical.not_not.1 h) fun _ => rfl
    refine hstop.bind fun _ heq' => ?_
    obtain ⟨m', hm'⟩ := hu (heq' ▸ by decide)
    refine (sat_hexDigits 4 (p + 7) 0 (lt_length hm')).bind fun n' hn' => ?_
    obtain ⟨hle', digits', hlen', hdrop', hfold'⟩ := hn'
    have hstop : Sat (stopIf (n' &&& 0xfc00 ≠ 0xdc00) Stop.refused)
        (fun _ => n' &&& 0xfc00 = 0xdc00) Refused :=
      sat_stopIf (fun h => Classical.not_not.1 h) fun _ => rfl
    refine hstop.bind fun _ hlow => ?_
    refine ⟨by dsimp only; omega, hle', ?_⟩
    dsimp only
    rw [hl, hdrop, hm, ← drop_succ hm, hm', ← drop_succ hm', hdrop', heq, heq']
    exact .pair hlen hfold hhigh hlen' hfold' hlow
  next hhigh =>
    refine ⟨by dsimp only; omega, hle, ?_⟩
    dsimp only
    rw [hl, hdrop]
    exact .single hlen hfold hhigh

/-- A code point is read. -/
theorem unicode_eq {mem l rest : List UInt8} {n p : ℕ} (h : Unicode n l rest)
    (hl : mem.drop p = l) : ∃ q, unicode mem p = .ok (n, q) ∧ p + 5 ≤ q ∧ q ≤ mem.length ∧
      mem.drop q = rest := by
  have hlength := congrArg List.length hl
  rw [List.length_drop] at hlength
  cases h with
  | single hlen hfold hhigh =>
    rename_i digits
    have hread := hexDigits_eq digits (p + 1) 0 n (drop_succ hl) hfold
    rw [hlen] at hread
    simp only [List.length_append, List.length_cons, hlen] at hlength
    refine ⟨p + 5, ?_, Nat.le_refl _, by omega, ?_⟩
    · unfold unicode
      rw [hread]
      exact if_neg hhigh
    · have := drop_append (drop_succ hl)
      rw [hlen] at this
      exact this
  | pair hlen hfold hhigh hlen' hfold' hlow =>
    rename_i n n' digits digits'
    have hread := hexDigits_eq digits (p + 1) 0 n (drop_succ hl) hfold
    rw [hlen] at hread
    have hback := drop_append (drop_succ hl)
    rw [hlen] at hback
    obtain ⟨b, hb⟩ : ∃ b, b = backslash := ⟨_, rfl⟩
    obtain ⟨u, hu⟩ : ∃ u, u = letterU := ⟨_, rfl⟩
    have hback' := drop_succ hback
    rw [← hb] at hback
    rw [← hu] at hback'
    have hread' := hexDigits_eq digits' (p + 7) 0 n' (drop_succ hback') hfold'
    rw [hlen'] at hread'
    simp only [List.length_append, List.length_cons, hlen, hlen'] at hlength
    refine ⟨p + 11, ?_, by omega, by omega, ?_⟩
    · unfold unicode
      rw [hread]
      show (if n &&& 0xfc00 = 0xd800 then _ else _) = _
      rw [if_pos hhigh, peek_cons hback]
      show stopIf (b ≠ backslash) Stop.refused >>= _ = _
      rw [stopIf_of_not fun h => h hb]
      show peek mem (p + 6) >>= _ = _
      rw [peek_cons hback']
      show stopIf (u ≠ letterU) Stop.refused >>= _ = _
      rw [stopIf_of_not fun h => h hu]
      show hexDigits mem 4 (p + 7) 0 >>= _ = _
      rw [hread']
      show stopIf (n' &&& 0xfc00 ≠ 0xdc00) Stop.refused >>= _ = _
      rw [stopIf_of_not fun h => h hlow]
      rfl
    · have := drop_append (drop_succ hback')
      rw [hlen'] at this
      exact this

/-- A code point takes four bytes at most. -/
theorem length_unicodeToUtf8 {n : ℕ} {bytes : List UInt8} (h : unicodeToUtf8 n = some bytes) :
    bytes.length ≤ 4 := by
  unfold unicodeToUtf8 at h
  split at h
  · rw [← Option.some.inj h]
    exact Nat.le_add_left 1 3
  · split at h
    · rw [← Option.some.inj h]
      exact Nat.le_add_left 2 2
    · split at h
      · cases h
      · split at h
        · rw [← Option.some.inj h]
          exact Nat.le_add_left 3 1
        · split at h
          · rw [← Option.some.inj h]
            exact Nat.le_refl 4
          · cases h

/-! ## Strings -/

/-- The closing quote ends the text with a zero. -/
theorem Unescaped.close {mem l : List UInt8} {p d : ℕ} {c : UInt8} (hl : mem.drop p = c :: l)
    (hd : d ≤ p) : Unescaped mem p d [] (overwrite mem d [0]) (p + 1) :=
  ⟨⟨Nat.lt_succ_self p, lt_length hl⟩, rfl, Nat.succ_le_succ hd⟩

/-- Writing behind the reading position leaves what is still to be read. -/
theorem drop_written {mem bytes : List UInt8} {d p q : ℕ} (hd : d + bytes.length ≤ p)
    (hp : p ≤ mem.length) (hq : p ≤ q) : (overwrite mem d bytes).drop q = mem.drop q :=
  drop_overwrite (by omega) (by omega)

/-- Writing does not lengthen the memory. -/
theorem length_written {mem bytes : List UInt8} {d p : ℕ} (hd : d + bytes.length ≤ p)
    (hp : p ≤ mem.length) : (overwrite mem d bytes).length = mem.length :=
  length_overwrite (by omega)

/-- What the loop does with a string, and what it is left with. -/
def Reads (mem : List UInt8) (p d : ℕ) (r : List UInt8 × ℕ) : Prop :=
  ∃ out, Unescaped mem p d out r.1 r.2 ∧ Quoted out (mem.drop p) (mem.drop r.2)

/-- Some bytes more in front. -/
theorem Reads.step {mem bytes : List UInt8} {p p₁ d : ℕ} {r : List UInt8 × ℕ} (hp : p < p₁)
    (hp₁ : p₁ ≤ mem.length) (hd : d + bytes.length ≤ p₁)
    (hquoted : ∀ out rest, Quoted out (mem.drop p₁) rest → Quoted (bytes ++ out) (mem.drop p) rest)
    (h : Reads (overwrite mem d bytes) p₁ (d + bytes.length) r) : Reads mem p d r := by
  obtain ⟨out, hun, hq⟩ := h
  rw [drop_written hd hp₁ (Nat.le_refl _),
    drop_written hd hp₁ (Nat.le_of_lt hun.ahead.lt)] at hq
  exact ⟨bytes ++ out, hun.step hp hp₁ hd, hquoted out _ hq⟩

/-- What the loop accepts is quoted text, written in place. -/
theorem sat_unescapeLoop :
    ∀ (fuel : ℕ) (mem : List UInt8) (p d : ℕ), d ≤ p → p ≤ mem.length →
      mem.length < p + fuel → Sat (unescapeLoop fuel mem p d) (Reads mem p d) Refused := by
  intro fuel
  induction fuel with
  | zero =>
      intro mem p d _ hp hfuel
      omega
  | succ fuel ih =>
      intro mem p d hd hp hfuel
      -- what is written is behind what has been read
      have hstep : ∀ (bytes : List UInt8) (p₁ : ℕ), p < p₁ → p₁ ≤ mem.length →
          d + bytes.length ≤ p₁ →
          (∀ out rest, Quoted out (mem.drop p₁) rest → Quoted (bytes ++ out) (mem.drop p) rest) →
          Sat (unescapeLoop fuel (overwrite mem d bytes) p₁ (d + bytes.length)) (Reads mem p d)
            Refused := by
        intro bytes p₁ hlt hle hroom hquoted
        have hlen := length_written hroom hle
        exact (ih _ p₁ _ hroom (by omega) (by omega)).mono
          (fun r hr => hr.step hlt hle hroom hquoted) fun _ => id
      unfold unescapeLoop
      refine (sat_peek hp).bind fun c hc => ?_
      split
      · exact rfl
      next hzero =>
        obtain ⟨l, hl⟩ := hc hzero
        have hlt := lt_length hl
        split
        next heq =>
          rw [put_eq (by omega)]
          refine ⟨[], .close hl hd, ?_⟩
          rw [hl, drop_succ hl, heq]
          exact .close _
        next hquote =>
          split
          next heq =>
            subst heq
            have hl' := drop_succ hl
            rcases peek_cases hlt with ⟨e, m, hm, he⟩ | ⟨hend, he⟩
            · rw [he, bind_ok]
              have hlt' := lt_length hm
              cases hesc : escaped e with
              | some b =>
                show Sat (put mem d b >>= _) _ _
                rw [put_eq (by omega)]
                refine hstep [b] (p + 2) (by omega) hlt' ?_ fun out rest hq => ?_
                · rw [List.length_singleton]
                  omega
                · rw [drop_succ hm] at hq
                  rw [hl, ← hl', hm]
                  exact .escape hesc hq
              | none =>
                show Sat (if e = letterU then _ else _) _ _
                split
                next heq =>
                  rw [heq] at hm
                  refine (sat_unicode hm).bind fun r hr => ?_
                  obtain ⟨n, q⟩ := r
                  obtain ⟨hle, hqlen, huni⟩ := hr
                  dsimp only at hle hqlen huni ⊢
                  cases hutf : unicodeToUtf8 n with
                  | none => exact rfl
                  | some bytes =>
                    have hbytes := length_unicodeToUtf8 hutf
                    show Sat (putAll mem d bytes >>= _) _ _
                    rw [putAll_eq bytes mem d (by omega)]
                    refine hstep bytes q (by omega) hqlen (by omega) fun out rest hq => ?_
                    rw [hl, ← hl']
                    exact .unicode huni hutf hq
                next hu =>
                  rw [put_eq (by omega)]
                  refine hstep [backslash] (p + 1) (Nat.lt_succ_self p) hlt ?_ fun out rest hq => ?_
                  · rw [List.length_singleton]
                    omega
                  · rw [hm] at hq
                    rw [hl, ← hl', hm]
                    exact .other hesc hu hq
            · -- the text ends with a backslash
              rw [he]
              show Sat (put mem d backslash >>= _) _ _
              rw [put_eq (by omega)]
              refine hstep [backslash] (p + 1) (Nat.lt_succ_self p) hlt ?_ fun out rest hq => ?_
              · rw [List.length_singleton]
                omega
              · rw [show p + 1 = mem.length from hend, List.drop_length] at hq
                cases hq
          next hback =>
            rw [put_eq (by omega)]
            refine hstep [c] (p + 1) (Nat.lt_succ_self p) hlt ?_ fun out rest hq => ?_
            · rw [List.length_singleton]
              omega
            · rw [drop_succ hl] at hq
              rw [hl]
              exact .plain hzero hquote hback hq

/-- What the loop does with a string that is one. -/
def Writes (mem : List UInt8) (p d : ℕ) (out rest : List UInt8) (x : Except Stop (List UInt8 × ℕ)) :
    Prop := ∃ mem' q, x = .ok (mem', q) ∧ Unescaped mem p d out mem' q ∧ mem.drop q = rest

/-- One more piece of the text is written. -/
theorem Writes.step {mem bytes out rest : List UInt8} {p p₁ d : ℕ}
    {x : Except Stop (List UInt8 × ℕ)} (hp : p < p₁) (hp₁ : p₁ ≤ mem.length)
    (hd : d + bytes.length ≤ p₁)
    (h : Writes (overwrite mem d bytes) p₁ (d + bytes.length) out rest x) :
    Writes mem p d (bytes ++ out) rest x := by
  obtain ⟨mem', q, hx, hun, hrest⟩ := h
  rw [drop_written hd hp₁ (Nat.le_of_lt hun.ahead.lt)] at hrest
  exact ⟨mem', q, hx, hun.step hp hp₁ hd, hrest⟩

/-- Quoted text is written in place. -/
theorem unescapeLoop_writes {out l rest : List UInt8} (h : Quoted out l rest) :
    ∀ (fuel : ℕ) (mem : List UInt8) (p d : ℕ), mem.drop p = l → d ≤ p → mem.length < p + fuel →
      Writes mem p d out rest (unescapeLoop fuel mem p d) := by
  induction h with
  | close rest =>
      intro fuel mem p d hl hd hfuel
      have hlt := lt_length hl
      obtain ⟨fuel, rfl⟩ : ∃ k, fuel = k + 1 := ⟨fuel - 1, by omega⟩
      refine ⟨overwrite mem d [0], p + 1, ?_, .close hl hd, drop_succ hl⟩
      unfold unescapeLoop
      rw [peek_cons hl, put_eq (by omega)]
      rfl
  | plain hzero hquote hback _ ih =>
      intro fuel mem p d hl hd hfuel
      rename_i c out l rest _
      have hlt := lt_length hl
      obtain ⟨fuel, rfl⟩ : ∃ k, fuel = k + 1 := ⟨fuel - 1, by omega⟩
      have hroom : d + [c].length ≤ p + 1 := by
        rw [List.length_singleton]
        omega
      have hlen := length_written hroom hlt
      unfold unescapeLoop
      rw [peek_cons hl]
      show Writes mem p d _ _ (if c = 0 then _ else if c = quote then _ else
        if c = backslash then _ else put mem d c >>= _)
      rw [if_neg hzero, if_neg hquote, if_neg hback, put_eq (by omega)]
      exact @Writes.step mem [c] _ _ p _ d _ (Nat.lt_succ_self p) hlt hroom
        (ih fuel _ (p + 1) (d + 1) ((drop_written hroom hlt (Nat.le_refl _)).trans (drop_succ hl))
          (by omega) (by omega))
  | escape hesc _ ih =>
      intro fuel mem p d hl hd hfuel
      rename_i e b out l rest _
      have hm := drop_succ hl
      have hlt := lt_length hm
      obtain ⟨fuel, rfl⟩ : ∃ k, fuel = k + 1 := ⟨fuel - 1, by omega⟩
      have hroom : d + [b].length ≤ p + 2 := by
        rw [List.length_singleton]
        omega
      have hlen := length_written hroom hlt
      unfold unescapeLoop
      rw [peek_cons hl]
      show Writes mem p d _ _ (peek mem (p + 1) >>= _)
      rw [peek_cons hm, bind_ok, hesc]
      show Writes mem p d _ _ (put mem d b >>= _)
      rw [put_eq (by omega)]
      exact @Writes.step mem [b] _ _ p _ d _ (by omega) hlt hroom
        (ih fuel _ (p + 2) (d + 1) ((drop_written hroom hlt (Nat.le_refl _)).trans (drop_succ hm))
          (by omega) (by omega))
  | unicode huni hutf _ ih =>
      intro fuel mem p d hl hd hfuel
      rename_i n bytes out l m rest _
      have hm := drop_succ hl
      have hlt := lt_length hl
      obtain ⟨l', hl'⟩ : ∃ l', l = letterU :: l' := by
        cases huni with
        | single => exact ⟨_, rfl⟩
        | pair => exact ⟨_, rfl⟩
      obtain ⟨q, hread, hle, hqlen, hdrop⟩ := unicode_eq huni hm
      have hbytes := length_unicodeToUtf8 hutf
      obtain ⟨fuel, rfl⟩ : ∃ k, fuel = k + 1 := ⟨fuel - 1, by omega⟩
      have hroom : d + bytes.length ≤ q := by omega
      have hlen := length_written hroom hqlen
      have hpeek : peek mem (p + 1) = .ok letterU := peek_cons (hm.trans hl')
      unfold unescapeLoop
      rw [peek_cons hl]
      show Writes mem p d _ _ (peek mem (p + 1) >>= _)
      rw [hpeek]
      show Writes mem p d _ _ (unicode mem (p + 1) >>= _)
      rw [hread, bind_ok]
      dsimp only
      rw [hutf]
      show Writes mem p d _ _ (putAll mem d bytes >>= _)
      rw [putAll_eq bytes mem d (by omega)]
      exact (ih fuel _ q (d + bytes.length)
        ((drop_written hroom hqlen (Nat.le_refl _)).trans hdrop) hroom
        (by omega)).step (by omega) hqlen hroom
  | other hesc hu _ ih =>
      intro fuel mem p d hl hd hfuel
      rename_i e out l rest _
      have hm := drop_succ hl
      have hlt := lt_length hl
      obtain ⟨fuel, rfl⟩ : ∃ k, fuel = k + 1 := ⟨fuel - 1, by omega⟩
      have hroom : d + [backslash].length ≤ p + 1 := by
        rw [List.length_singleton]
        omega
      have hlen := length_written hroom hlt
      unfold unescapeLoop
      rw [peek_cons hl]
      show Writes mem p d _ _ (peek mem (p + 1) >>= _)
      rw [peek_cons hm, bind_ok, hesc]
      show Writes mem p d _ _ (if e = letterU then _ else _)
      rw [if_neg hu]
      show Writes mem p d _ _ (put mem d backslash >>= _)
      rw [put_eq (by omega)]
      exact @Writes.step mem [backslash] _ _ p _ d _ (Nat.lt_succ_self p) hlt hroom
        (ih fuel _ (p + 1) (d + 1) ((drop_written hroom hlt (Nat.le_refl _)).trans hm) (by omega)
          (by omega))

/-! ## The string in the text -/

/-- A part of the text before `q` that is left as it is: what a pointer into it shows. -/
def Shows {α : Type} (mem : List UInt8) (q : ℕ) (f : List UInt8 → α) (a : α) : Prop :=
  ∀ mem', mem'.take q = mem.take q → f mem' = a

/-- A text shown survives any writing behind it. -/
theorem Shows.mono {α : Type} {mem mem' : List UInt8} {q q' : ℕ} {f : List UInt8 → α} {a : α}
    (h : Shows mem q f a) (hq : q ≤ q') (hmem : mem'.take q = mem.take q) :
    Shows mem' q' f a := by
  intro m hm
  refine h m ?_
  have := congrArg (List.take q) hm
  rwa [List.take_take, List.take_take, Nat.min_eq_left hq, hmem] at this

/-- A call that has read up to `q` has changed only what it has read. -/
structure Frame (mem : List UInt8) (p : ℕ) (mem' : List UInt8) (q : ℕ) : Prop where
  length : mem'.length = mem.length
  le : p ≤ q
  le_length : q ≤ mem.length
  front : mem'.take p = mem.take p
  rest : mem'.drop q = mem.drop q

/-- Reading nothing changes nothing. -/
theorem Frame.refl {mem : List UInt8} {p q : ℕ} (h : p ≤ q) (hq : q ≤ mem.length) :
    Frame mem p mem q := ⟨rfl, h, hq, rfl, rfl⟩

/-- Two readings, one after the other. -/
theorem Frame.trans {mem mem' mem'' : List UInt8} {p q r : ℕ} (h : Frame mem p mem' q)
    (h' : Frame mem' q mem'' r) : Frame mem p mem'' r := by
  have hle := h'.le_length
  rw [h.length] at hle
  refine ⟨h'.length.trans h.length, Nat.le_trans h.le h'.le, hle, ?_, h'.rest.trans ?_⟩
  · have := congrArg (List.take p) h'.front
    rw [List.take_take, List.take_take, Nat.min_eq_left h.le] at this
    exact this.trans h.front
  · obtain ⟨k, rfl⟩ : ∃ k, r = q + k := ⟨r - q, by have := h'.le; omega⟩
    rw [← List.drop_drop, ← List.drop_drop, h.rest]

/-- The text begins at `p` with what has been read of it since. -/
theorem Frame.widen {mem mem' : List UInt8} {p p' q : ℕ} (h : Frame mem p mem' q) (hp : p' ≤ p) :
    Frame mem p' mem' q := by
  refine ⟨h.length, Nat.le_trans hp h.le, h.le_length, ?_, h.rest⟩
  have := congrArg (List.take p') h.front
  rwa [List.take_take, List.take_take, Nat.min_eq_left hp] at this

/-- Reading a string leaves what is before and behind it. -/
theorem Unescaped.frame {mem out mem' : List UInt8} {p q : ℕ} (h : Unescaped mem p p out mem' q) :
    Frame mem p mem' q := by
  have hlt := h.ahead.lt
  have hle := h.ahead.le
  have hroom := h.room
  have hlen : (out ++ [0]).length = out.length + 1 := List.length_append
  rw [h.mem_eq]
  exact ⟨length_overwrite (by omega), Nat.le_of_lt hlt, hle,
    take_overwrite (by omega) (Nat.le_refl p), drop_overwrite (by omega) (by omega)⟩

/-- A C string ends at its first zero. -/
theorem takeWhile_zero (out l : List UInt8) : (out ++ 0 :: l).takeWhile (· ≠ 0) = cut out := by
  unfold cut
  induction out with
  | nil => rfl
  | cons c out ih => simp only [List.cons_append, List.takeWhile_cons, ih]

/-- A pointer to where the string was shows what it stands for. -/
theorem Unescaped.shows {mem out mem' : List UInt8} {p q : ℕ} (h : Unescaped mem p p out mem' q) :
    Shows mem' q (fun mem => stringAt mem p) (cut out) := by
  have hlt := h.ahead.lt
  have hle := h.ahead.le
  have hroom := h.room
  have hlen : (out ++ [0]).length = out.length + 1 := List.length_append
  intro m hm
  have htake : m.take (p + (out.length + 1)) = mem.take p ++ (out ++ [0]) := by
    have := congrArg (List.take (p + (out.length + 1))) hm
    rw [List.take_take, List.take_take, Nat.min_eq_left (by omega)] at this
    rw [this, h.mem_eq, take_overwrite_add (by omega) (by omega), ← hlen,
      List.take_of_length_le (Nat.le_refl _)]
  have hp : (mem.take p).length = p := by
    rw [List.length_take]
    omega
  have hdrop : m.drop p = out ++ 0 :: m.drop (p + (out.length + 1)) := by
    conv_lhs => rw [← List.take_append_drop (p + (out.length + 1)) m, htake]
    rw [List.append_assoc, List.drop_append_of_le_length (by omega), List.drop_of_length_le (by omega)]
    simp
  show stringAt m p = cut out
  unfold stringAt
  rw [hdrop, takeWhile_zero]

end Tbq.Nx
