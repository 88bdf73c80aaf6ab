/-
# What nxjson accepts

For any text, the parser ends without leaving it, and what it returns is a tree that the text
stands for; the strings of the tree are not overwritten later.
-/
import OpenwrtAc.NxJsonString

open CString LzWindow Outcome

namespace Tbq.Nx

variable {strtol : Strtol}

/-- The parser goes on where the byte is the one it asks for. -/
theorem sat_stopIf_ne {c a : UInt8} :
    Sat (stopIf (c ≠ a) Stop.refused) (fun _ => c = a) Refused :=
  sat_stopIf (fun h => Classical.not_not.1 h) fun _ => rfl

/-! ## Keys -/

/-- A key, or the end of the object. -/
inductive KeyRead (mem : List UInt8) (p : ℕ) : List UInt8 × Option ℕ × ℕ → Prop
  | key {mem' : List UInt8} {s q : ℕ} {key : List UInt8} : Frame mem p mem' q → p < q →
      Key key (mem.drop p) (mem.drop q) → Shows mem' q (fun mem => stringAt mem s) key →
      KeyRead mem p (mem', some s, q)
  | closed {q : ℕ} {rest : List UInt8} : Frame mem p mem q →
      Blank isKeyBlank (mem.drop p) (closeBrace :: rest) → mem.drop q = closeBrace :: rest →
      KeyRead mem p (mem, none, q)

/-- What is accepted as a key is one. -/
theorem sat_parseKey {mem : List UInt8} {p : ℕ} (hp : p ≤ mem.length) :
    Sat (parseKey mem p) (KeyRead mem p) Refused := by
  unfold parseKey
  refine (sat_skipBlank (mem.length + 1) p hp (by omega)).bind fun s hs => ?_
  obtain ⟨hle, hlen, hblank⟩ := hs
  refine (sat_peek hlen).bind fun c hc => ?_
  split
  next heq =>
    obtain ⟨l, hl⟩ := hc (heq ▸ by decide)
    rw [heq] at hl
    have hlt := lt_length hl
    unfold unescapeString
    refine (sat_unescapeLoop (mem.length + 1) mem (s + 1) (s + 1) (Nat.le_refl _) hlt
      (by omega)).bind fun r hr => ?_
    obtain ⟨mem', e⟩ := r
    obtain ⟨out, hun, hquoted⟩ := hr
    have hframe := hun.frame
    have hahead := hun.ahead.lt
    have hle' := hframe.le_length
    dsimp only at hframe hle' hahead hquoted hun ⊢
    refine (@sat_skipSpaces mem' (mem'.length + 1) e (by rw [hframe.length]; exact hle')
      (by rw [hframe.length]; omega)).bind fun f hf => ?_
    obtain ⟨hef, hflen, spaces, hspaces, hdrop⟩ := hf
    refine (sat_peek hflen).bind fun a ha => ?_
    refine sat_stopIf_ne.bind fun _ hcolon => ?_
    obtain ⟨m, hm⟩ := ha (hcolon ▸ by decide)
    have hlt' := lt_length hm
    have hframe' : Frame mem p mem' (f + 1) :=
      (hframe.trans (Frame.refl (by omega : e ≤ f + 1) hlt')).widen (by omega)
    refine .key hframe' (by omega) (.key (hl ▸ hblank) ?_ hspaces)
      (hun.shows.mono (by omega) rfl)
    · rw [drop_succ hl] at hquoted
      rw [hframe.rest, hm, hcolon] at hdrop
      rw [hdrop] at hquoted
      rw [← hframe'.rest, drop_succ hm]
      exact hquoted
  next =>
    split
    next heq =>
      obtain ⟨l, hl⟩ := hc (heq ▸ by decide)
      rw [heq] at hl
      exact .closed (Frame.refl hle hlen) (hl ▸ hblank) hl
    next => exact rfl

/-! ## Values -/

/-- A node, and the place behind it. -/
structure ValueRead (strtol : Strtol) (mem : List UInt8) (p : ℕ)
    (r : List UInt8 × Option Node × ℕ) (v : Option NxJson) : Prop where
  frame : Frame mem p r.1 r.2.2
  parses : Parses strtol (.value v) (mem.drop p) (mem.drop r.2.2)
  shows : Shows r.1 r.2.2 (fun mem => r.2.1.map fun f => f mem) v
  lt : v ≠ none → p < r.2.2

/-- The rest of an object or an array. -/
structure ListRead {α : Type} (strtol : Strtol) (piece : List α → Piece) (mem : List UInt8) (p : ℕ)
    (r : List UInt8 × (List UInt8 → List α) × ℕ) (l : List α) : Prop where
  frame : Frame mem p r.1 r.2.2
  parses : Parses strtol (piece l) (mem.drop p) (mem.drop r.2.2)
  shows : Shows r.1 r.2.2 r.2.1 l

/-- What a function of the text shows. -/
theorem Shows.map {α β : Type} {mem : List UInt8} {q : ℕ} {f : List UInt8 → α} {a : α}
    (h : Shows mem q f a) (g : α → β) : Shows mem q (fun mem => g (f mem)) (g a) :=
  fun m hm => congrArg g (h m hm)

/-- What a function of two texts shows. -/
theorem Shows.map₂ {α β γ : Type} {mem : List UInt8} {q : ℕ} {f : List UInt8 → α} {a : α}
    {f' : List UInt8 → β} {b : β} (h : Shows mem q f a) (h' : Shows mem q f' b) (g : α → β → γ) :
    Shows mem q (fun mem => g (f mem) (f' mem)) (g a b) :=
  fun m hm => congrArg₂ g (h m hm) (h' m hm)

/-- A literal ends behind its letters. -/
theorem sat_literal {mem word : List UInt8} {p p₀ : ℕ} {v : NxJson} (hp₀ : p₀ ≤ p)
    (hp : p ≤ mem.length) (hword : word <+: mem.drop p) (hpos : 0 < word.length)
    (hparses : ∀ rest, Blank isBlank (mem.drop p₀) (word ++ rest) →
      Parses strtol (.value (some v)) (mem.drop p₀) rest)
    (hblank : Blank isBlank (mem.drop p₀) (mem.drop p)) :
    ValueRead strtol mem p₀ (mem, some fun _ => v, p + word.length) (some v) := by
  obtain ⟨rest, hrest⟩ := hword
  have hlen := congrArg List.length hrest
  rw [List.length_append, List.length_drop] at hlen
  refine ⟨Frame.refl (by dsimp only; omega) (by dsimp only; omega), ?_, fun _ _ => rfl,
    fun _ => by dsimp only; omega⟩
  dsimp only
  rw [drop_append hrest.symm]
  exact hparses rest (hrest ▸ hblank)

/-- What is accepted as a leaf is one. -/
theorem sat_parseLeaf (hstrtol : ∀ l, (strtol l).2 ≤ l.length) {mem : List UInt8} {p p₀ : ℕ}
    {c : UInt8} (hp₀ : p₀ ≤ p) (hp : p ≤ mem.length)
    (hblank : Blank isBlank (mem.drop p₀) (mem.drop p)) (hc : c ≠ 0 → ∃ l, mem.drop p = c :: l) :
    Sat (parseLeaf strtol mem p c) (fun r => ∃ v, ValueRead strtol mem p₀ r v) Refused := by
  unfold parseLeaf
  split
  next heq =>
    obtain ⟨l, hl⟩ := hc (heq ▸ by decide)
    rw [heq] at hl
    have hlt := lt_length hl
    unfold unescapeString
    refine (sat_unescapeLoop (mem.length + 1) mem (p + 1) (p + 1) (Nat.le_refl _) hlt
      (by omega)).bind fun r hr => ?_
    obtain ⟨mem', e⟩ := r
    obtain ⟨out, hun, hquoted⟩ := hr
    rw [drop_succ hl] at hquoted
    have hahead := hun.ahead.lt
    exact ⟨some (.string (cut out)), hun.frame.widen (by omega), .string (hl ▸ hblank) hquoted,
      fun m hm => congrArg (fun s => some (NxJson.string s)) (hun.shows m hm), fun _ => by dsimp only at hahead ⊢; omega⟩
  next =>
    split
    next hdigit =>
      have hne : c ≠ 0 := by
        rintro rfl
        revert hdigit
        decide
      obtain ⟨l, hl⟩ := hc hne
      have hcount := hstrtol (mem.drop p)
      rw [List.length_drop] at hcount
      have hstop : Sat (stopIf ((strtol (mem.drop p)).2 = 0) Stop.refused)
          (fun _ => (strtol (mem.drop p)).2 ≠ 0) Refused := sat_stopIf (fun h => h) fun _ => rfl
      show Sat (stopIf ((strtol (mem.drop p)).2 = 0) Stop.refused >>= _) _ _
      refine hstop.bind fun _ hpos => ?_
      refine ⟨some (.integer (strtol (mem.drop p)).1),
        Frame.refl (by dsimp only; omega) (by dsimp only; omega), ?_, fun _ _ => rfl,
        fun _ => by dsimp only; omega⟩
      dsimp only
      rw [← List.drop_drop]
      rw [hl] at hpos hblank ⊢
      exact .integer hblank hdigit hpos
    next =>
      split
      next hword => exact ⟨_, sat_literal hp₀ hp hword (by decide) (fun _ => .true) hblank⟩
      next =>
        split
        next hword => exact ⟨_, sat_literal hp₀ hp hword (by decide) (fun _ => .false) hblank⟩
        next =>
          split
          next hword => exact ⟨_, sat_literal hp₀ hp hword (by decide) (fun _ => .null) hblank⟩
          next => exact rfl

/-! ## The parser -/

/-- Nothing is read in front of a closing bracket only. -/
theorem Parses.of_none {piece : Piece} {l rest : List UInt8} (h : Parses strtol piece l rest)
    (hpiece : piece = .value none) : ∃ m, rest = closeBracket :: m := by
  cases h with
  | nothing => exact ⟨_, rfl⟩
  | _ => cases hpiece

/-- A closing bracket is neither a blank nor the start of a comment. -/
theorem Blank.bracket {blank : UInt8 → Prop} {l m rest : List UInt8} (h : Blank blank l rest)
    (hbracket : ¬ blank closeBracket) (hl : l = closeBracket :: m) : rest = closeBracket :: m := by
  cases h with
  | done => exact hl
  | char hc =>
    rw [List.cons.injEq] at hl
    exact absurd (hl.1 ▸ hc) hbracket
  | comment hcomment =>
    obtain ⟨m', hm'⟩ := hcomment.head
    rw [hm', List.cons.injEq] at hl
    exact absurd hl.1 (by decide)

/-- A key does not begin with the end of an array. -/
theorem Key.not_bracket {key l m rest : List UInt8} (h : Key key l rest) :
    l ≠ closeBracket :: m := by
  intro hl
  cases h with
  | key hblank =>
    have := hblank.bracket (by decide) hl
    rw [List.cons.injEq] at this
    exact absurd this.1 (by decide)

/-- No member begins with a closing bracket. -/
theorem Parses.not_bracket {piece : Piece} {l m rest : List UInt8} (h : Parses strtol piece l rest)
    {ms : List (List UInt8 × NxJson)} (hpiece : piece = .members ms) : l ≠ closeBracket :: m := by
  intro hl
  cases h with
  | closed hblank =>
    have := hblank.bracket (by decide) hl
    rw [List.cons.injEq] at this
    exact absurd this.1 (by decide)
  | valueless hkey => exact hkey.not_bracket hl
  | member hkey => exact hkey.not_bracket hl
  | _ => cases hpiece

section Sound

variable (hstrtol : ∀ l, (strtol l).2 ≤ l.length)
include hstrtol

/-- One level of the values. -/
theorem sat_parseValue_step {fuel : ℕ}
    (hmembers : ∀ mem p, p ≤ mem.length → 2 * (mem.length - p) < fuel →
      Sat (parseMembers strtol fuel mem p)
        (fun r => p < r.2.2 ∧ ∃ ms, ListRead strtol .members mem p r ms) Refused)
    (hitems : ∀ mem p, p ≤ mem.length → 2 * (mem.length - p) + 1 < fuel →
      Sat (parseItems strtol fuel mem p)
        (fun r => p < r.2.2 ∧ ∃ vs, ListRead strtol .items mem p r vs) Refused)
    {mem : List UInt8} {p : ℕ} (hp : p ≤ mem.length) (hfuel : 2 * (mem.length - p) < fuel + 1) :
    Sat (parseValue strtol (fuel + 1) mem p) (fun r => ∃ v, ValueRead strtol mem p r v) Refused := by
  rw [parseValue]
  refine (sat_skipBlank (mem.length + 1) p hp (by omega)).bind fun q hq => ?_
  obtain ⟨hle, hlen, hblank⟩ := hq
  refine (sat_peek hlen).bind fun c hc => ?_
  split
  next heq =>
    obtain ⟨l, hl⟩ := hc (heq ▸ by decide)
    rw [heq] at hl
    have hlt := lt_length hl
    refine (hmembers mem (q + 1) hlt (by omega)).bind fun r hr => ?_
    obtain ⟨mem', members, e⟩ := r
    obtain ⟨hlt', ms, hread⟩ := hr
    have hparses := hread.parses
    rw [drop_succ hl] at hparses
    exact ⟨some (.object ms), hread.frame.widen (by omega), .object (hl ▸ hblank) hparses,
      fun m hm => congrArg (fun ms => some (NxJson.object ms)) (hread.shows m hm),
      fun _ => by dsimp only at hlt' ⊢; omega⟩
  next =>
    split
    next heq =>
      obtain ⟨l, hl⟩ := hc (heq ▸ by decide)
      rw [heq] at hl
      have hlt := lt_length hl
      refine (hitems mem (q + 1) hlt (by omega)).bind fun r hr => ?_
      obtain ⟨mem', items, e⟩ := r
      obtain ⟨hlt', vs, hread⟩ := hr
      have hparses := hread.parses
      rw [drop_succ hl] at hparses
      exact ⟨some (.array vs), hread.frame.widen (by omega), .array (hl ▸ hblank) hparses,
        fun m hm => congrArg (fun vs => some (NxJson.array vs)) (hread.shows m hm),
        fun _ => by dsimp only at hlt' ⊢; omega⟩
    next =>
      split
      next heq =>
        obtain ⟨l, hl⟩ := hc (heq ▸ by decide)
        rw [heq] at hl
        refine ⟨none, Frame.refl hle hlen, ?_, fun _ _ => rfl, fun h => absurd rfl h⟩
        show Parses strtol (.value none) (mem.drop p) (mem.drop q)
        rw [hl] at hblank ⊢
        exact .nothing hblank
      next => exact sat_parseLeaf hstrtol hle hlen hblank hc

omit hstrtol in
/-- One level of the members. -/
theorem sat_parseMembers_step {fuel : ℕ}
    (hvalue : ∀ mem p, p ≤ mem.length → 2 * (mem.length - p) < fuel →
      Sat (parseValue strtol fuel mem p) (fun r => ∃ v, ValueRead strtol mem p r v) Refused)
    (hmembers : ∀ mem p, p ≤ mem.length → 2 * (mem.length - p) < fuel →
      Sat (parseMembers strtol fuel mem p)
        (fun r => p < r.2.2 ∧ ∃ ms, ListRead strtol .members mem p r ms) Refused)
    {mem : List UInt8} {p : ℕ} (hp : p ≤ mem.length) (hfuel : 2 * (mem.length - p) < fuel + 1) :
    Sat (parseMembers strtol (fuel + 1) mem p)
      (fun r => p < r.2.2 ∧ ∃ ms, ListRead strtol .members mem p r ms) Refused := by
  rw [parseMembers]
  refine (sat_parseKey hp).bind fun r hr => ?_
  cases hr with
  | closed hframe hblank hdrop =>
    rename_i q rest
    have hlt := lt_length hdrop
    have hle := hframe.le
    show Sat (peek mem q >>= _) _ _
    rw [peek_cons hdrop]
    refine ⟨by dsimp only; omega, [], Frame.refl (by dsimp only; omega) hlt, ?_, fun _ _ => rfl⟩
    show Parses strtol (.members []) (mem.drop p) (mem.drop (q + 1))
    rw [drop_succ hdrop]
    exact .closed hblank
  | key hframe hlt hkey hshows =>
    rename_i mem' s q key
    have hqlen := hframe.le_length
    have hlen := hframe.length
    show Sat (peek mem' q >>= _) _ _
    refine (sat_peek_head (by omega)).bind fun c hc => ?_
    split
    next heq =>
      obtain ⟨l, hl⟩ := hc.1 (heq ▸ by decide)
      rw [heq] at hl
      have hlt' := lt_length hl
      have hframe' := hframe.trans (Frame.refl (Nat.le_succ q) hlt')
      refine ⟨by dsimp only; omega, [], hframe', ?_, fun _ _ => rfl⟩
      show Parses strtol (.members []) (mem.drop p) (mem.drop (q + 1))
      rw [← hframe.rest, hl] at hkey
      rw [← hframe'.rest, drop_succ hl]
      exact .valueless hkey
    next hbrace =>
      refine (hvalue mem' q (by omega) (by omega)).bind fun r hr => ?_
      obtain ⟨mem'', value, e⟩ := r
      obtain ⟨v, hv⟩ := hr
      have hframe₁ := hframe.trans hv.frame
      have helen := hframe₁.le_length
      have hlen₁ := hframe₁.length
      have hqe := hv.frame.le
      dsimp only at helen hlen₁ hqe ⊢
      refine (hmembers mem'' e (by omega) (by omega)).bind fun r hr => ?_
      obtain ⟨mem₃, members, f⟩ := r
      obtain ⟨hef, ms, hms⟩ := hr
      have hframe₂ := hframe₁.trans hms.frame
      have hparses := hms.parses
      have hrest := hms.frame.rest
      dsimp only at hparses hrest hef hframe₂ ⊢
      rw [hframe₁.rest, ← hrest, hframe₂.rest] at hparses
      cases v with
      | none =>
        obtain ⟨m, hm⟩ := hv.parses.of_none rfl
        have hdrop : mem.drop e = closeBracket :: m := by
          rw [← hframe₁.rest, hv.frame.rest]
          exact hm
        exact absurd hdrop (hparses.not_bracket rfl)
      | some v =>
        have hhead : (mem.drop q).head? ≠ some closeBrace := by
          intro h
          rw [← hframe.rest] at h
          exact hbrace (hc.2 _ h).symm
        have hvparses := hv.parses
        dsimp only at hvparses
        rw [hframe.rest, ← hv.frame.rest, hframe₁.rest] at hvparses
        refine ⟨by dsimp only; omega, (key, v) :: ms, hframe₂, .member hkey hhead hvparses hparses,
          fun m hm => ?_⟩
        have hqe' : q ≤ e := hqe
        have hkey' := ((hshows.mono hqe' hv.frame.front).mono (Nat.le_of_lt hef) hms.frame.front) m hm
        have hvalue' := (hv.shows.mono (Nat.le_of_lt hef) hms.frame.front) m hm
        have hms' := hms.shows m hm
        dsimp only at hkey' hvalue' hms' ⊢
        obtain ⟨g, rfl, hg⟩ := Option.map_eq_some_iff.1 hvalue'
        rw [hms', ← hkey', ← hg]
        rfl

omit hstrtol in
/-- One level of the items. -/
theorem sat_parseItems_step {fuel : ℕ}
    (hvalue : ∀ mem p, p ≤ mem.length → 2 * (mem.length - p) < fuel →
      Sat (parseValue strtol fuel mem p) (fun r => ∃ v, ValueRead strtol mem p r v) Refused)
    (hitems : ∀ mem p, p ≤ mem.length → 2 * (mem.length - p) + 1 < fuel →
      Sat (parseItems strtol fuel mem p)
        (fun r => p < r.2.2 ∧ ∃ vs, ListRead strtol .items mem p r vs) Refused)
    {mem : List UInt8} {p : ℕ} (hp : p ≤ mem.length) (hfuel : 2 * (mem.length - p) + 1 < fuel + 1) :
    Sat (parseItems strtol (fuel + 1) mem p)
      (fun r => p < r.2.2 ∧ ∃ vs, ListRead strtol .items mem p r vs) Refused := by
  rw [parseItems]
  refine (hvalue mem p hp (by omega)).bind fun r hr => ?_
  obtain ⟨mem', value, q⟩ := r
  obtain ⟨v, hv⟩ := hr
  have hframe := hv.frame
  have hparses := hv.parses
  have hshows := hv.shows
  have hlt := hv.lt
  dsimp only at hframe hparses hshows hlt ⊢
  have hqlen := hframe.le_length
  have hlen := hframe.length
  have hle := hframe.le
  refine (sat_peek_head (by omega)).bind fun c hc => ?_
  split
  next heq =>
    obtain ⟨l, hl⟩ := hc.1 (heq ▸ by decide)
    rw [heq] at hl
    have hlt' := lt_length hl
    have hframe' := hframe.trans (Frame.refl (Nat.le_succ q) hlt')
    refine ⟨by dsimp only; omega, v.toList, hframe', ?_, fun m hm => ?_⟩
    · show Parses strtol (.items v.toList) (mem.drop p) (mem.drop (q + 1))
      rw [← hframe'.rest, drop_succ hl]
      rw [← hframe.rest, hl] at hparses
      exact .last hparses
    · dsimp only
      rw [← (hshows.mono (Nat.le_succ q) rfl) m hm, Option.toList_map]
  next hbracket =>
    cases v with
    | none =>
      obtain ⟨m, hm⟩ := hparses.of_none rfl
      rw [← hframe.rest] at hm
      exact absurd (hc.2 closeBracket (by rw [hm]; rfl)).symm hbracket
    | some v =>
      have hpq := hlt (Option.some_ne_none v)
      refine (hitems mem' q (by omega) (by omega)).bind fun r hr => ?_
      obtain ⟨mem'', items, e⟩ := r
      obtain ⟨hqe, vs, hvs⟩ := hr
      have hframe₁ := hframe.trans hvs.frame
      have hrest := hvs.parses
      have hshows₁ := hvs.shows
      dsimp only at hframe₁ hrest hqe hshows₁ ⊢
      rw [← hvs.frame.rest, hframe₁.rest, hframe.rest] at hrest
      have hhead : (mem.drop q).head? ≠ some closeBracket := by
        intro h
        rw [← hframe.rest] at h
        exact hbracket (hc.2 _ h).symm
      refine ⟨by dsimp only; omega, v :: vs, hframe₁, .item hparses hhead hrest, fun m hm => ?_⟩
      have hvalue' := (hshows.mono (Nat.le_of_lt hqe) hvs.frame.front) m hm
      have hvs' := hshows₁ m hm
      dsimp only at hvalue' hvs' ⊢
      obtain ⟨g, rfl, hg⟩ := Option.map_eq_some_iff.1 hvalue'
      rw [hvs', ← hg]
      rfl

/-- The three functions, by the rounds that are left. -/
theorem sat_parse (fuel : ℕ) :
    (∀ mem p, p ≤ mem.length → 2 * (mem.length - p) < fuel →
      Sat (parseValue strtol fuel mem p) (fun r => ∃ v, ValueRead strtol mem p r v) Refused) ∧
    (∀ mem p, p ≤ mem.length → 2 * (mem.length - p) < fuel →
      Sat (parseMembers strtol fuel mem p)
        (fun r => p < r.2.2 ∧ ∃ ms, ListRead strtol .members mem p r ms) Refused) ∧
    (∀ mem p, p ≤ mem.length → 2 * (mem.length - p) + 1 < fuel →
      Sat (parseItems strtol fuel mem p)
        (fun r => p < r.2.2 ∧ ∃ vs, ListRead strtol .items mem p r vs) Refused) := by
  induction fuel with
  | zero =>
      exact ⟨fun _ _ _ h => absurd h (Nat.not_lt_zero _),
        fun _ _ _ h => absurd h (Nat.not_lt_zero _), fun _ _ _ h => absurd h (Nat.not_lt_zero _)⟩
  | succ fuel ih =>
      obtain ⟨hvalue, hmembers, hitems⟩ := ih
      exact ⟨fun _ _ => sat_parseValue_step hstrtol hmembers hitems,
        fun _ _ => sat_parseMembers_step hvalue hmembers,
        fun _ _ => sat_parseItems_step hvalue hitems⟩

/-- A parse leaves the text nowhere and ends; what it returns is what the text stands for. -/
theorem sat_nxJsonParse (text : List UInt8) :
    Sat (nxJsonParse strtol text) (fun v => ∃ rest, Parses strtol (.value v) text rest) Refused := by
  unfold nxJsonParse
  refine ((sat_parse hstrtol (2 * text.length + 2)).1 text 0 (Nat.zero_le _) (by omega)).bind
    fun r hr => ?_
  obtain ⟨mem, node, p⟩ := r
  obtain ⟨v, hv⟩ := hr
  have hnode := hv.shows mem rfl
  dsimp only at hnode ⊢
  rw [sat_pure, hnode]
  exact ⟨_, hv.parses⟩

end Sound

end Tbq.Nx
