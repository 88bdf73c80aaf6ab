/-
# The lexical part of nxjson

Comments, blanks and strings: the parser stays inside of the text, accepts what the relations
say and nothing else, and writes a string only over what it has read of it.
-/
import OpenwrtAc.LzWindow
import OpenwrtAc.NxJsonText

open CString LzWindow Outcome

namespace Tbq.Nx

/-- The only error that a parse may end with. -/
def Refused (e : Stop) : Prop := e = .refused

/-! ## Reading -/

/-- What stands at a position is read there. -/
theorem peek_cons {mem l : List UInt8} {p : ℕ} {c : UInt8} (h : mem.drop p = c :: l) :
    peek mem p = .ok c := by
  unfold peek
  rw [← List.head?_drop, h]
  rfl

/-- The zero behind the text is read at its end. -/
theorem peek_end {mem : List UInt8} : peek mem mem.length = .ok 0 := by
  unfold peek
  rw [List.getElem?_eq_none (Nat.le_refl _)]
  exact if_pos rfl

/-- The rest behind one byte. -/
theorem drop_succ {mem l : List UInt8} {p : ℕ} {c : UInt8} (h : mem.drop p = c :: l) :
    mem.drop (p + 1) = l := by
  rw [← List.drop_drop, h]
  rfl

/-- A position with a byte lies inside. -/
theorem lt_length {mem l : List UInt8} {p : ℕ} {c : UInt8} (h : mem.drop p = c :: l) :
    p < mem.length := by
  by_contra hle
  rw [List.drop_of_length_le (Nat.le_of_not_lt hle)] at h
  cases h

/-- The position and the rest make up the text. -/
theorem length_rest {mem l : List UInt8} {p : ℕ} (hp : p ≤ mem.length) (h : mem.drop p = l) :
    p + l.length = mem.length := by
  rw [← h, List.length_drop]
  omega

/-- Where a part of what is left ends. -/
theorem drop_append {mem u v : List UInt8} {p : ℕ} (h : mem.drop p = u ++ v) :
    mem.drop (p + u.length) = v := by
  rw [← List.drop_drop, h, List.drop_left]

/-- The byte at a place of the text: the next one, or the 0 behind the last. -/
theorem peek_cases {mem : List UInt8} {p : ℕ} (h : p ≤ mem.length) :
    (∃ c l, mem.drop p = c :: l ∧ peek mem p = .ok c) ∨
      p = mem.length ∧ peek mem p = .ok 0 := by
  match hl : mem.drop p with
  | [] =>
    have := length_rest h hl
    obtain rfl : p = mem.length := by simpa using this
    exact Or.inr ⟨rfl, peek_end⟩
  | c :: l => exact Or.inl ⟨c, l, rfl, peek_cons hl⟩

/-- Where a byte that is not 0 has been read, there is one more. -/
theorem sat_peek {mem : List UInt8} {p : ℕ} {E : Stop → Prop} (h : p ≤ mem.length) :
    Sat (peek mem p) (fun c => c ≠ 0 → ∃ l, mem.drop p = c :: l) E := by
  rcases peek_cases h with ⟨c, l, hl, hc⟩ | ⟨-, hc⟩
  · rw [hc]
    exact fun _ => ⟨l, hl⟩
  · rw [hc]
    exact fun h => absurd rfl h

/-- And the byte is the one that is there. -/
theorem sat_peek_head {mem : List UInt8} {p : ℕ} {E : Stop → Prop} (h : p ≤ mem.length) :
    Sat (peek mem p) (fun c => (c ≠ 0 → ∃ l, mem.drop p = c :: l) ∧
      ∀ a, (mem.drop p).head? = some a → a = c) E := by
  rcases peek_cases h with ⟨c, l, hl, hc⟩ | ⟨hend, hc⟩
  · rw [hc, hl]
    exact ⟨fun _ => ⟨l, rfl⟩, fun a ha => (Option.some.inj ha).symm⟩
  · rw [hc, hend, List.drop_length]
    exact ⟨fun h => absurd rfl h, fun a ha => absurd ha.symm (Option.some_ne_none a)⟩

/-- `strchr` finds the first one. -/
theorem sat_strchr {mem : List UInt8} {c : UInt8} {E : Stop → Prop} (hc : c ≠ 0) :
    ∀ (fuel p : ℕ), p ≤ mem.length → mem.length < p + fuel →
      Sat (strchr mem c fuel p) (fun r => ∀ q, r = some q → ∃ body, c ∉ body ∧
        mem.drop p = body ++ c :: mem.drop (q + 1) ∧ q = p + body.length) E := by
  intro fuel
  induction fuel with
  | zero =>
      intro p hp hfuel
      omega
  | succ fuel ih =>
      intro p hp hfuel
      unfold strchr
      refine (sat_peek hp).bind fun b hb => ?_
      split
      next heq =>
        intro q hq
        obtain rfl := Option.some.inj hq
        obtain ⟨l, hl⟩ := hb (heq ▸ hc)
        exact ⟨[], List.not_mem_nil, by rw [drop_succ hl, hl, heq]; rfl, rfl⟩
      next hne =>
        split
        · exact fun q hq => absurd hq.symm (Option.some_ne_none q)
        next hzero =>
          obtain ⟨l, hl⟩ := hb hzero
          have hlt := lt_length hl
          refine (ih (p + 1) hlt (by omega)).mono (fun r hr q hq => ?_) fun _ => id
          obtain ⟨body, hbody, hdrop, hq⟩ := hr q hq
          rw [drop_succ hl] at hdrop
          refine ⟨b :: body, ?_, by rw [hl, hdrop]; rfl, by rw [hq, List.length_cons]; omega⟩
          rw [List.mem_cons]
          rintro (h | h)
          · exact hne h.symm
          · exact hbody h

/-- And it finds one if there is one. -/
theorem strchr_eq {mem : List UInt8} {c : UInt8} {rest : List UInt8} :
    ∀ (body : List UInt8) (fuel p : ℕ), mem.drop p = body ++ c :: rest → c ∉ body → 0 ∉ body →
      body.length < fuel → strchr mem c fuel p = .ok (some (p + body.length)) := by
  intro body
  induction body with
  | nil =>
      intro fuel p hl _ _ hfuel
      obtain ⟨fuel, rfl⟩ : ∃ k, fuel = k + 1 := ⟨fuel - 1, by rw [List.length_nil] at hfuel; omega⟩
      unfold strchr
      rw [peek_cons hl]
      exact if_pos rfl
  | cons b body ih =>
      intro fuel p hl hc hzero hfuel
      rw [List.length_cons] at hfuel ⊢
      obtain ⟨fuel, rfl⟩ : ∃ k, fuel = k + 1 := ⟨fuel - 1, by omega⟩
      rw [List.mem_cons, not_or] at hc hzero
      unfold strchr
      rw [peek_cons hl]
      show (if b = c then _ else if b = 0 then _ else strchr mem c fuel (p + 1)) = _
      rw [if_neg (Ne.symm hc.1), if_neg (Ne.symm hzero.1),
        ih fuel (p + 1) (drop_succ hl) hc.2 hzero.2 (by omega)]
      congr 2
      omega

/-! ## Comments -/

/-- There is no star with a slash behind it. -/
def Open (w : List UInt8) : Prop := ¬ [star, slash] <:+: w

/-- Text is open where the end of a comment does not occur in it. -/
theorem open_iff {w : List UInt8} : Open w ↔ ∀ s t, w ≠ s ++ star :: slash :: t := by
  refine ⟨fun h s t heq => h ⟨s, t, ?_⟩, ?_⟩
  · rw [heq, List.append_assoc]
    rfl
  · rintro h ⟨s, t, heq⟩
    exact h s t (by rw [← heq, List.append_assoc]; rfl)

/-- A prefix of open text is open. -/
theorem Open.of_prefix {w v : List UInt8} (h : Open (w ++ v)) : Open w :=
  fun hin => h (hin.trans (List.prefix_append w v).isInfix)

/-- Open text stays open where no slash follows. -/
theorem Open.append {w v : List UInt8} (h : Open w) (hv : slash ∉ v) : Open (w ++ v) := by
  rw [open_iff] at h ⊢
  intro s t heq
  rcases List.append_eq_append_iff.1 heq with ⟨u, -, hu⟩ | ⟨u, hw, hu⟩
  · exact hv (by rw [hu]; simp)
  · match u, hw, hu with
    | [], _, hu => exact hv (by rw [← List.nil_append v, ← hu]; simp)
    | [_], _, hu =>
      rw [List.singleton_append, List.cons.injEq] at hu
      exact hv (by rw [← hu.2]; exact List.mem_cons_self)
    | x :: y :: u, hw, hu =>
      simp only [List.cons_append, List.cons.injEq] at hu
      exact h s u (by rw [hw, hu.1, hu.2.1])

/-- A slash closes only behind a star. -/
theorem Open.concat {w : List UInt8} (h : Open w) (hlast : w.getLast? ≠ some star) :
    Open (w ++ [slash]) := by
  rw [open_iff] at h ⊢
  intro s t heq
  rcases List.eq_nil_or_concat t with rfl | ⟨t, x, rfl⟩
  · have : w = s ++ [star] := by
      rw [List.append_cons s star [slash]] at heq
      exact List.append_inj_left' heq rfl
    exact hlast (by rw [this, List.getLast?_concat])
  · have : w = s ++ star :: slash :: t := by
      rw [List.concat_eq_append, ← List.cons_append, ← List.cons_append, ← List.append_assoc] at heq
      exact List.append_inj_left' heq rfl
    exact h s t this

/-- The byte before a place that has been passed. -/
theorem peek_last {mem w l : List UInt8} {p : ℕ} {x : UInt8} (h : mem.drop p = w ++ l)
    (hx : w.getLast? = some x) : peek mem (p + w.length - 1) = .ok x := by
  rcases List.eq_nil_or_concat w with rfl | ⟨u, y, rfl⟩
  · cases hx
  · rw [List.concat_eq_append, List.getLast?_concat] at hx
    obtain rfl := Option.some.inj hx
    rw [List.concat_eq_append, List.length_append, List.length_singleton]
    rw [List.concat_eq_append, List.append_assoc] at h
    exact peek_cons (drop_append h)

/-- The search for the end of a block comment that has been read up to behind `p`. -/
theorem sat_blockLoop {mem : List UInt8} {p₀ : ℕ} :
    ∀ (fuel p : ℕ) (w : List UInt8), mem.drop p₀ = w ++ mem.drop (p + 1) → w ≠ [] →
      p + 1 = p₀ + w.length → p < mem.length → Open w → mem.length < p + fuel →
      Sat (blockLoop mem fuel p) (fun q => p₀ ≤ q ∧ q ≤ mem.length ∧
        ∃ body, Open body ∧ mem.drop p₀ = body ++ star :: slash :: mem.drop q) Refused := by
  intro fuel
  induction fuel with
  | zero =>
      intro p w _ _ _ hp _ hfuel
      omega
  | succ fuel ih =>
      intro p w hw hne hlen hp hopen hfuel
      unfold blockLoop
      refine (sat_strchr (by decide) (mem.length + 1) (p + 1) hp (by omega)).bind fun r hr => ?_
      match r, hr with
      | none, _ => exact rfl
      | some q, hr =>
        obtain ⟨v, hv, hdrop, hq⟩ := hr q rfl
        have hopen' := hopen.append hv
        have hread : mem.drop p₀ = (w ++ v) ++ slash :: mem.drop (q + 1) := by
          rw [hw, hdrop, List.append_assoc]
        have hqlen : q < mem.length := by
          have := congrArg List.length hdrop
          rw [List.length_drop, List.length_append, List.length_cons] at this
          omega
        obtain ⟨x, hx⟩ : ∃ x, (w ++ v).getLast? = some x :=
          ⟨_, List.getLast?_eq_some_getLast (List.append_ne_nil_of_left_ne_nil hne v)⟩
        have hpeek := peek_last hread hx
        rw [show p₀ + (w ++ v).length - 1 = q - 1 by rw [List.length_append]; omega] at hpeek
        show Sat (peek mem (q - 1) >>= _) _ _
        rw [hpeek]
        show Sat (if x ≠ star then blockLoop mem fuel q else _) _ _
        split
        next hstar =>
          have hlast : (w ++ v).getLast? ≠ some star := by
            rw [hx]
            exact fun h => hstar (Option.some.inj h)
          refine ih q (w ++ v ++ [slash]) ?_ (List.concat_ne_nil slash (w ++ v)) ?_ hqlen
            (hopen'.concat hlast) (by omega)
          · rw [hread, List.append_assoc (w ++ v), List.singleton_append]
          · simp only [List.length_append, List.length_singleton]
            omega
        next hstar =>
          have hstar : x = star := Classical.not_not.1 hstar
          obtain ⟨body, hbody⟩ : ∃ body, w ++ v = body ++ [star] := by
            rcases List.eq_nil_or_concat (w ++ v) with hnil | ⟨u, y, hu⟩
            · rw [hnil] at hx
              cases hx
            · rw [hu, List.concat_eq_append, List.getLast?_concat] at hx
              exact ⟨u, by rw [hu, List.concat_eq_append, Option.some.inj hx, hstar]⟩
          rw [hbody] at hopen' hread
          exact ⟨by omega, hqlen, body, hopen'.of_prefix, by rw [hread, List.append_assoc]; rfl⟩

/-- It ends at the first star with a slash behind it: `v` is what is left of the comment. -/
theorem blockLoop_eq {mem rest : List UInt8} {p₀ : ℕ} :
    ∀ (fuel p : ℕ) (w v body : List UInt8), mem.drop p₀ = body ++ star :: slash :: rest →
      body ++ [star] = w ++ v → w ≠ [] → p + 1 = p₀ + w.length → Open body → 0 ∉ body →
      v.length < fuel → blockLoop mem fuel p = .ok (p₀ + body.length + 2) := by
  intro fuel
  induction fuel with
  | zero =>
      intro p w v body _ _ _ _ _ _ hfuel
      omega
  | succ fuel ih =>
      intro p w v body hl hsplit hne hp hopen hzero hfuel
      have hlen := congrArg List.length hsplit
      simp only [List.length_append, List.length_singleton] at hlen
      have hread : mem.drop p₀ = (w ++ v) ++ slash :: rest := by
        rw [hl, ← hsplit, List.append_assoc, List.singleton_append]
      have hlength : v.length ≤ mem.length := by
        have := congrArg List.length hread
        rw [List.length_drop, List.length_append, List.length_append] at this
        omega
      have hrest : mem.drop (p + 1) = v ++ slash :: rest := by
        rw [List.append_assoc] at hread
        rw [hp, drop_append hread]
      have hzero' : 0 ∉ v := by
        intro h
        have : (0 : UInt8) ∈ body ++ [star] := by
          rw [hsplit]
          exact List.mem_append_right w h
        rcases List.mem_append.1 this with h | h
        · exact hzero h
        · exact absurd (List.mem_singleton.1 h) (by decide)
      unfold blockLoop
      by_cases hslash : slash ∈ v
      · -- a slash of the comment, with no star before it
        obtain ⟨x, y, rfl, hx⟩ := List.eq_append_cons_of_mem hslash
        rw [List.length_append, List.length_cons] at hlength hfuel
        rw [List.append_assoc] at hrest
        rw [strchr_eq x (mem.length + 1) (p + 1) hrest hx
          (fun h => hzero' (List.mem_append_left _ h)) (by omega)]
        have hread' : mem.drop p₀ = (w ++ x) ++ (slash :: y ++ slash :: rest) := by
          rw [hread]
          simp only [List.append_assoc]
        obtain ⟨z, hz⟩ : ∃ z, (w ++ x).getLast? = some z :=
          ⟨_, List.getLast?_eq_some_getLast (List.append_ne_nil_of_left_ne_nil hne x)⟩
        have hpeek := peek_last hread' hz
        rw [show p₀ + (w ++ x).length - 1 = p + 1 + x.length - 1 by
          rw [List.length_append]; omega] at hpeek
        have hstar : z ≠ star := by
          rintro rfl
          obtain ⟨u, hu⟩ : ∃ u, w ++ x = u ++ [star] := by
            rcases List.eq_nil_or_concat (w ++ x) with hnil | ⟨u, y, hu⟩
            · rw [hnil] at hz
              cases hz
            · rw [hu, List.concat_eq_append, List.getLast?_concat] at hz
              exact ⟨u, by rw [hu, List.concat_eq_append, Option.some.inj hz]⟩
          rw [← List.append_assoc, hu, List.append_assoc] at hsplit
          have hopen' := (open_iff.1 (hopen.append (v := [star]) (by decide))) u y
          exact hopen' (by rw [hsplit]; rfl)
        show peek mem (p + 1 + x.length - 1) >>= _ = _
        rw [hpeek]
        show (if z ≠ star then blockLoop mem fuel (p + 1 + x.length) else _) = _
        rw [if_pos hstar]
        refine ih (p + 1 + x.length) (w ++ x ++ [slash]) y body hl ?_ (List.concat_ne_nil _ _) ?_
          hopen hzero (by omega)
        · rw [hsplit]
          simp only [List.append_assoc, List.singleton_append]
        · simp only [List.length_append, List.length_singleton]
          omega
      · rw [strchr_eq v (mem.length + 1) (p + 1) hrest hslash hzero' (by omega)]
        show peek mem (p + 1 + v.length - 1) >>= _ = _
        have hlast : (w ++ v).getLast? = some star := by rw [← hsplit, List.getLast?_concat]
        have hpeek := peek_last hread hlast
        rw [show p₀ + (w ++ v).length - 1 = p + 1 + v.length - 1 by
          rw [List.length_append]; omega] at hpeek
        rw [hpeek]
        show Except.ok (p + 1 + v.length + 1) = _
        congr 1
        omega

/-- One byte ends no comment. -/
theorem open_singleton (a : UInt8) : Open [a] := by
  rw [open_iff]
  intro s t h
  have := congrArg List.length h
  simp only [List.length_append, List.length_cons, List.length_nil] at this
  omega

/-- What the scan of a block comment accepts is its body and its end. -/
theorem sat_skipBlockComment {mem : List UInt8} {p : ℕ} (hp : p ≤ mem.length) :
    Sat (skipBlockComment mem p) (fun q => p ≤ q ∧ q ≤ mem.length ∧
      ∃ body, Open body ∧ mem.drop p = body ++ star :: slash :: mem.drop q) Refused := by
  unfold skipBlockComment
  refine (sat_peek hp).bind fun a ha => ?_
  have hstop : Sat (stopIf (a = 0) Stop.refused) (fun _ => a ≠ 0) Refused :=
    sat_stopIf (fun h => h) fun _ => rfl
  refine hstop.bind fun _ hne => ?_
  obtain ⟨l, hl⟩ := ha hne
  have hlt := lt_length hl
  exact sat_blockLoop (mem.length + 1) p [a] (by rw [drop_succ hl, hl]; rfl)
    (List.cons_ne_nil a []) rfl hlt (open_singleton a) (by omega)

/-- A block comment is skipped. -/
theorem skipBlockComment_eq {mem body rest : List UInt8} {p : ℕ}
    (hl : mem.drop p = body ++ star :: slash :: rest) (hopen : Open body) (hzero : 0 ∉ body) :
    skipBlockComment mem p = .ok (p + body.length + 2) := by
  have hlen := congrArg List.length hl
  rw [List.length_drop, List.length_append, List.length_cons] at hlen
  obtain ⟨a, v, hav⟩ : ∃ a v, body ++ [star] = a :: v :=
    List.exists_cons_of_ne_nil (List.concat_ne_nil star body)
  have ha : a ≠ 0 := by
    rintro rfl
    have : (0 : UInt8) ∈ body ++ [star] := hav ▸ List.mem_cons_self
    rcases List.mem_append.1 this with h | h
    · exact hzero h
    · exact absurd (List.mem_singleton.1 h) (by decide)
  have hread : mem.drop p = a :: (v ++ slash :: rest) := by
    rw [hl, ← List.cons_append, ← hav, List.append_assoc]
    rfl
  have hv := congrArg List.length hav
  simp only [List.length_append, List.length_cons, List.length_nil] at hv hlen
  unfold skipBlockComment
  rw [peek_cons hread]
  show stopIf (a = 0) Stop.refused >>= _ = _
  rw [stopIf_of_not ha]
  exact blockLoop_eq (mem.length + 1) p [a] v body hl hav (List.cons_ne_nil a []) rfl hopen hzero
    (by omega)

/-! ## What is skipped -/

/-- A place of the text that the parse has gone on to from another. -/
structure Ahead (mem : List UInt8) (p q : ℕ) : Prop where
  lt : p < q
  le : q ≤ mem.length

/-- What the scan of a comment accepts is a comment. -/
theorem sat_skipComment {mem l : List UInt8} {p : ℕ} (hl : mem.drop p = slash :: l) :
    Sat (skipComment mem p) (fun q => Ahead mem p q ∧ Comment (mem.drop p) (mem.drop q)) Refused := by
  have hlt := lt_length hl
  have hl' := drop_succ hl
  unfold skipComment
  refine (sat_peek hlt).bind fun c hc => ?_
  split
  next heq =>
    obtain ⟨l', hl''⟩ := hc (heq ▸ by decide)
    rw [heq] at hl''
    have hlt' := lt_length hl''
    refine (sat_strchr (by decide) (mem.length + 1) (p + 2) hlt' (by omega)).bind fun r hr => ?_
    match r, hr with
    | none, _ => exact rfl
    | some q, hr =>
      obtain ⟨body, hbody, hdrop, hq⟩ := hr q rfl
      have hlen := congrArg List.length hdrop
      rw [List.length_drop, List.length_append, List.length_cons] at hlen
      refine ⟨⟨by omega, by omega⟩, ?_⟩
      rw [hl, ← hl', hl'', ← drop_succ hl'', hdrop]
      exact .line hbody
  next =>
    split
    next heq =>
      obtain ⟨l', hl''⟩ := hc (heq ▸ by decide)
      rw [heq] at hl''
      have hlt' := lt_length hl''
      refine (sat_skipBlockComment hlt').mono (fun q hq => ?_) fun _ => id
      obtain ⟨hle, hqlen, body, hopen, hdrop⟩ := hq
      refine ⟨⟨by omega, hqlen⟩, ?_⟩
      rw [hl, ← hl', hl'', ← drop_succ hl'']
      exact hdrop ▸ .block hopen
    next => exact rfl

/-- A comment begins with a slash. -/
theorem Comment.head {l rest : List UInt8} (h : Comment l rest) : ∃ m, l = slash :: m := by
  cases h with
  | line => exact ⟨_, rfl⟩
  | block => exact ⟨_, rfl⟩

/-- A line comment ends behind its line. -/
theorem skipComment_line {mem : List UInt8} {p q : ℕ} (h : peek mem (p + 1) = .ok slash)
    (hq : strchr mem newline (mem.length + 1) (p + 2) = .ok (some q)) :
    skipComment mem p = .ok (q + 1) := by
  unfold skipComment
  rw [h, hq]
  rfl

/-- A block comment is left to its own scan. -/
theorem skipComment_block {mem : List UInt8} {p : ℕ} (h : peek mem (p + 1) = .ok star) :
    skipComment mem p = skipBlockComment mem (p + 2) := by
  unfold skipComment
  rw [h]
  rfl

/-- A comment is skipped. -/
theorem skipComment_eq {mem l rest : List UInt8} {p : ℕ} (hp : mem.drop p = l) (h : Comment l rest)
    (hzero : 0 ∉ l) : ∃ q, skipComment mem p = .ok q ∧ Ahead mem p q ∧ mem.drop q = rest := by
  have hlen := congrArg List.length hp
  rw [List.length_drop] at hlen
  cases h with
  | line hbody =>
    rename_i body
    have hp' := drop_succ hp
    have hp'' := drop_succ hp'
    have hzero' : 0 ∉ body := fun h => hzero (by simp [h])
    simp only [List.length_append, List.length_cons] at hlen
    refine ⟨p + 2 + body.length + 1, ?_, ⟨by omega, by omega⟩, ?_⟩
    · exact skipComment_line (peek_cons hp')
        (strchr_eq body (mem.length + 1) (p + 2) hp'' hbody hzero' (by omega))
    · rw [← List.drop_drop, drop_append hp'']
      rfl
  | block hopen =>
    rename_i body
    have hp' := drop_succ hp
    have hp'' := drop_succ hp'
    have hzero' : 0 ∉ body := fun h => hzero (by simp [h])
    simp only [List.length_append, List.length_cons] at hlen
    refine ⟨p + 2 + body.length + 2, ?_, ⟨by omega, by omega⟩, ?_⟩
    · rw [skipComment_block (peek_cons hp'), skipBlockComment_eq hp'' hopen hzero']
    · rw [← List.drop_drop, drop_append hp'']
      rfl

section Blanks

variable {mem : List UInt8} {blank : UInt8 → Prop} [DecidablePred blank]

/-- What the loop over blanks and comments skips is blank. -/
theorem sat_skipBlank :
    ∀ (fuel p : ℕ), p ≤ mem.length → mem.length < p + fuel →
      Sat (skipBlank mem blank fuel p) (fun q => p ≤ q ∧ q ≤ mem.length ∧
        Blank blank (mem.drop p) (mem.drop q)) Refused := by
  intro fuel
  induction fuel with
  | zero =>
      intro p hp hfuel
      omega
  | succ fuel ih =>
      intro p hp hfuel
      unfold skipBlank
      refine (sat_peek hp).bind fun c hc => ?_
      split
      next hblank =>
        obtain ⟨l, hl⟩ := hc hblank.1
        refine (ih (p + 1) (lt_length hl) (by omega)).mono (fun q hq => ?_) fun _ => id
        rw [drop_succ hl] at hq
        exact ⟨by omega, hq.2.1, hl ▸ .char hblank.2 hq.2.2⟩
      next =>
        split
        next heq =>
          obtain ⟨l, hl⟩ := hc (heq ▸ by decide)
          rw [heq] at hl
          refine (sat_skipComment hl).bind fun q hq => ?_
          obtain ⟨⟨hlt, hle⟩, hcomment⟩ := hq
          exact (ih q hle (by omega)).mono
            (fun r hr => ⟨by omega, hr.2.1, .comment hcomment hr.2.2⟩) fun _ => id
        next => exact ⟨Nat.le_refl p, hp, .done _⟩

/-- It ends at what is neither a blank nor a comment. -/
theorem skipBlank_eq {c : UInt8} {rest l : List UInt8} (hslash : ¬ blank slash) (hc : ¬ blank c)
    (hc' : c ≠ slash) {l' : List UInt8} (h : Blank blank l l') :
    ∀ (fuel p : ℕ), l' = c :: rest → mem.drop p = l → p ≤ mem.length → 0 ∉ l →
      mem.length < p + fuel →
      ∃ q, skipBlank mem blank fuel p = .ok q ∧ p ≤ q ∧ q < mem.length ∧ mem.drop q = c :: rest := by
  induction h with
  | done l =>
      intro fuel p hl' hl hp hzero hfuel
      rw [hl'] at hl
      have hlt := lt_length hl
      obtain ⟨fuel, rfl⟩ : ∃ k, fuel = k + 1 := ⟨fuel - 1, by omega⟩
      refine ⟨p, ?_, Nat.le_refl p, hlt, hl⟩
      unfold skipBlank
      rw [peek_cons hl]
      show (if c ≠ 0 ∧ blank c then _ else if c = slash then _ else Except.ok p) = _
      rw [if_neg fun h => hc h.2, if_neg hc']
  | char hb _ ih =>
      intro fuel p hl' hl hp hzero hfuel
      rename_i b l rest' _
      have hlt := lt_length hl
      obtain ⟨fuel, rfl⟩ : ∃ k, fuel = k + 1 := ⟨fuel - 1, by omega⟩
      rw [List.mem_cons, not_or] at hzero
      obtain ⟨q, hq, hle, hqlen, hdrop⟩ := ih fuel (p + 1) hl' (drop_succ hl) hlt hzero.2 (by omega)
      refine ⟨q, ?_, by omega, hqlen, hdrop⟩
      unfold skipBlank
      rw [peek_cons hl]
      show (if b ≠ 0 ∧ blank b then skipBlank mem blank fuel (p + 1) else _) = _
      rw [if_pos ⟨Ne.symm hzero.1, hb⟩, hq]
  | comment hcomment _ ih =>
      intro fuel p hl' hl hp hzero hfuel
      obtain ⟨m, hm⟩ := hcomment.head
      obtain ⟨q, hq, hahead, hdrop⟩ := skipComment_eq hl hcomment hzero
      have hzero' : 0 ∉ mem.drop q := by
        intro h
        have hsub : mem.drop q = (mem.drop p).drop (q - p) := by
          rw [List.drop_drop]
          congr 1
          have := hahead.lt
          omega
        rw [hsub, hl] at h
        exact hzero (List.mem_of_mem_drop h)
      rw [hdrop] at hzero'
      have hlt := hahead.lt
      obtain ⟨fuel, rfl⟩ : ∃ k, fuel = k + 1 := ⟨fuel - 1, by omega⟩
      obtain ⟨r, hr, hle, hrlen, hdrop'⟩ := ih fuel q hl' hdrop hahead.le hzero' (by omega)
      refine ⟨r, ?_, by omega, hrlen, hdrop'⟩
      rw [hm] at hl
      unfold skipBlank
      rw [peek_cons hl]
      show (if slash ≠ 0 ∧ blank slash then _ else skipComment mem p >>= skipBlank mem blank fuel) = _
      rw [if_neg fun h => hslash h.2, hq]
      exact hr

/-- What the loop over white space skips is white space. -/
theorem sat_skipSpaces :
    ∀ (fuel p : ℕ), p ≤ mem.length → mem.length < p + fuel →
      Sat (skipSpaces mem fuel p) (fun q => p ≤ q ∧ q ≤ mem.length ∧ ∃ spaces,
        (∀ c ∈ spaces, c ≠ 0 ∧ isWhitespace c) ∧ mem.drop p = spaces ++ mem.drop q) Refused := by
  intro fuel
  induction fuel with
  | zero =>
      intro p hp hfuel
      omega
  | succ fuel ih =>
      intro p hp hfuel
      unfold skipSpaces
      refine (sat_peek hp).bind fun c hc => ?_
      split
      next hspace =>
        obtain ⟨l, hl⟩ := hc hspace.1
        refine (ih (p + 1) (lt_length hl) (by omega)).mono (fun q hq => ?_) fun _ => id
        obtain ⟨hle, hlen, spaces, hspaces, hdrop⟩ := hq
        rw [drop_succ hl] at hdrop
        exact ⟨by omega, hlen, c :: spaces, List.forall_mem_cons.2 ⟨hspace, hspaces⟩,
          by rw [hl, hdrop]; rfl⟩
      next => exact ⟨Nat.le_refl p, hp, [], by simp, rfl⟩

/-- White space is skipped up to the next byte. -/
theorem skipSpaces_eq {c : UInt8} {rest : List UInt8} (hc : ¬ isWhitespace c) :
    ∀ (spaces : List UInt8) (fuel p : ℕ), (∀ c ∈ spaces, c ≠ 0 ∧ isWhitespace c) →
      mem.drop p = spaces ++ c :: rest → spaces.length < fuel →
      skipSpaces mem fuel p = .ok (p + spaces.length) := by
  intro spaces
  induction spaces with
  | nil =>
      intro fuel p _ hl hfuel
      obtain ⟨fuel, rfl⟩ : ∃ k, fuel = k + 1 := ⟨fuel - 1, by omega⟩
      unfold skipSpaces
      rw [peek_cons hl]
      show (if c ≠ 0 ∧ isWhitespace c then _ else Except.ok p) = _
      rw [if_neg fun h => hc h.2]
      rfl
  | cons b spaces ih =>
      intro fuel p hspaces hl hfuel
      rw [List.length_cons] at hfuel ⊢
      obtain ⟨fuel, rfl⟩ : ∃ k, fuel = k + 1 := ⟨fuel - 1, by omega⟩
      rw [List.forall_mem_cons] at hspaces
      unfold skipSpaces
      rw [peek_cons hl]
      show (if b ≠ 0 ∧ isWhitespace b then skipSpaces mem fuel (p + 1) else _) = _
      rw [if_pos hspaces.1, ih fuel (p + 1) hspaces.2 (drop_succ hl) (by omega)]
      congr 1
      omega

end Blanks

end Tbq.Nx
