/-
# What nxjson has to accept

A text that stands for a tree is parsed to it.
-/
import OpenwrtAc.NxJsonSound

open CString LzWindow Outcome

namespace Tbq.Nx

variable {strtol : Strtol}

/-! ## Keys -/

theorem parseKey_closed {mem l rest : List UInt8} {p : ℕ}
    (h : Blank isKeyBlank l (closeBrace :: rest)) (hl : mem.drop p = l) (hp : p ≤ mem.length)
    (hzero : 0 ∉ l) :
    ∃ q, parseKey mem p = .ok (mem, none, q) ∧ mem.drop q = closeBrace :: rest := by
  obtain ⟨q, hq, -, -, hdrop⟩ := skipBlank_eq (by decide) (by decide) (by decide) h
    (mem.length + 1) p rfl hl hp hzero (by omega)
  refine ⟨q, ?_, hdrop⟩
  unfold parseKey
  rw [hq]
  show peek mem q >>= _ = _
  rw [peek_cons hdrop]
  rfl

theorem parseKey_key {mem key l rest : List UInt8} {p : ℕ} (h : Key key l rest)
    (hl : mem.drop p = l) (hp : p ≤ mem.length) (hzero : 0 ∉ l) :
    ∃ mem' s q, parseKey mem p = .ok (mem', some s, q) ∧ mem.drop q = rest ∧
      Frame mem p mem' q ∧ p < q ∧ Shows mem' q (fun mem => stringAt mem s) key := by
  obtain ⟨hblank, hquoted, hspaces⟩ := h
  rename_i out m spaces
  obtain ⟨s, hs, hps, hslen, hdrop⟩ := skipBlank_eq (by decide) (by decide) (by decide) hblank
    (mem.length + 1) p rfl hl hp hzero (by omega)
  obtain ⟨mem', e, hread, hun, hrest⟩ := unescapeLoop_writes hquoted (mem.length + 1) mem (s + 1)
    (s + 1) (drop_succ hdrop) (Nat.le_refl _) (by omega)
  have hframe := hun.frame
  have hahead := hun.ahead.lt
  have hrest' : mem'.drop e = spaces ++ colon :: rest := hframe.rest.trans hrest
  have hlen := congrArg List.length hrest'
  rw [List.length_drop, List.length_append, List.length_cons] at hlen
  have hcolon := drop_append hrest'
  have hmem := hframe.length
  have hframe' := hframe.trans
    (@Frame.refl mem' _ _ (by omega : e ≤ e + spaces.length + 1) (by omega))
  refine ⟨mem', s + 1, e + spaces.length + 1, ?_, ?_, hframe'.widen (by omega), by omega,
    hun.shows.mono (by omega) rfl⟩
  · unfold parseKey
    rw [hs]
    show peek mem s >>= _ = _
    rw [peek_cons hdrop]
    show unescapeString mem (s + 1) >>= _ = _
    rw [show unescapeString mem (s + 1) = .ok (mem', e) from hread]
    show skipSpaces mem' (mem'.length + 1) e >>= _ = _
    rw [skipSpaces_eq (by decide) spaces (mem'.length + 1) e hspaces hrest' (by omega)]
    show peek mem' (e + spaces.length) >>= _ = _
    rw [peek_cons hcolon]
    rfl
  · rw [← hframe'.rest, drop_succ hcolon]

/-! ## Values -/

/-- What comes behind the blanks. -/
theorem parseValue_eq {mem : List UInt8} {p q fuel : ℕ} {c : UInt8}
    (hskip : skipBlank mem isBlank (mem.length + 1) p = .ok q) (hpeek : peek mem q = .ok c) :
    parseValue strtol (fuel + 1) mem p =
      if c = openBrace then (parseMembers strtol fuel mem (q + 1)).map
        fun r => (r.1, some fun mem => .object (r.2.1 mem), r.2.2)
      else if c = openBracket then (parseItems strtol fuel mem (q + 1)).map
        fun r => (r.1, some fun mem => .array (r.2.1 mem), r.2.2)
      else if c = closeBracket then .ok (mem, none, q)
      else parseLeaf strtol mem q c := by
  rw [parseValue, hskip]
  show peek mem q >>= _ = _
  rw [hpeek]
  show (if c = openBrace then _ else if c = openBracket then _ else _) = _
  split
  · cases parseMembers strtol fuel mem (q + 1) <;> rfl
  · split
    · cases parseItems strtol fuel mem (q + 1) <;> rfl
    · rfl

/-- The piece is read, and what is left is known. -/
def Accepts (strtol : Strtol) (mem : List UInt8) (p fuel : ℕ) (rest : List UInt8) : Piece → Prop
  | .value v => 2 * (mem.length - p) < fuel → ∃ mem' node q,
      parseValue strtol fuel mem p = .ok (mem', node, q) ∧ mem.drop q = rest ∧
      Shows mem' q (fun mem => node.map fun f => f mem) v
  | .members ms => 2 * (mem.length - p) < fuel → ∃ mem' members q,
      parseMembers strtol fuel mem p = .ok (mem', members, q) ∧ mem.drop q = rest ∧
      Shows mem' q members ms
  | .items vs => 2 * (mem.length - p) + 1 < fuel → ∃ mem' items q,
      parseItems strtol fuel mem p = .ok (mem', items, q) ∧ mem.drop q = rest ∧
      Shows mem' q items vs

/-- A leaf of the tree: the blanks, and what stands behind them. -/
theorem accepts_leaf {mem l m rest : List UInt8} {p fuel : ℕ} {c : UInt8} {v : NxJson}
    (hblank : Blank isBlank l (c :: m)) (hl : mem.drop p = l) (hp : p ≤ mem.length)
    (hzero : 0 ∉ l) (hc : ¬ isBlank c) (hc' : c ≠ slash) (hbrace : c ≠ openBrace)
    (hbracket : c ≠ openBracket) (hclose : c ≠ closeBracket)
    (hleaf : ∀ q, mem.drop q = c :: m → ∃ mem' node r, parseLeaf strtol mem q c = .ok (mem', node, r) ∧
      mem.drop r = rest ∧ Shows mem' r (fun mem => node.map fun f => f mem) (some v)) :
    Accepts strtol mem p fuel rest (.value (some v)) := by
  intro hfuel
  obtain ⟨fuel, rfl⟩ : ∃ k, fuel = k + 1 := ⟨fuel - 1, by omega⟩
  obtain ⟨q, hq, -, -, hdrop⟩ := skipBlank_eq (by decide) hc hc' hblank (mem.length + 1) p rfl hl
    hp hzero (by omega)
  obtain ⟨mem', node, r, hrun, hrest, hshows⟩ := hleaf q hdrop
  refine ⟨mem', node, r, ?_, hrest, hshows⟩
  rw [parseValue_eq hq (peek_cons hdrop), if_neg hbrace, if_neg hbracket, if_neg hclose, hrun]

theorem parseLeaf_string {mem m out rest : List UInt8} {q : ℕ} (hl : mem.drop q = quote :: m)
    (h : Quoted out m rest) :
    ∃ mem' node r, parseLeaf strtol mem q quote = .ok (mem', node, r) ∧ mem.drop r = rest ∧
      Shows mem' r (fun mem => node.map fun f => f mem) (some (.string (cut out))) := by
  have hlt := lt_length hl
  obtain ⟨mem', e, hread, hun, hrest⟩ := unescapeLoop_writes h (mem.length + 1) mem (q + 1) (q + 1)
    (drop_succ hl) (Nat.le_refl _) (by omega)
  refine ⟨mem', some fun mem => .string (stringAt mem (q + 1)), e, ?_, hrest,
    fun m hm => congrArg (fun s => some (NxJson.string s)) (hun.shows m hm)⟩
  unfold parseLeaf
  rw [if_pos rfl]
  show unescapeString mem (q + 1) >>= _ = _
  rw [show unescapeString mem (q + 1) = .ok (mem', e) from hread]
  rfl

theorem not_other_of_digit {c : UInt8} (h : c = minus ∨ isDigit c) :
    c ≠ quote ∧ ¬ isBlank c ∧ c ≠ slash ∧ c ≠ openBrace ∧ c ≠ openBracket ∧ c ≠ closeBracket := by
  rcases h with rfl | ⟨hlo, hhi⟩
  · decide
  · have hne : ∀ a : UInt8, ¬ (48 ≤ a ∧ a ≤ 57) → c ≠ a := fun a ha hca => ha (hca ▸ ⟨hlo, hhi⟩)
    refine ⟨hne _ (by decide), ?_, hne _ (by decide), hne _ (by decide), hne _ (by decide),
      hne _ (by decide)⟩
    rintro (h | h | h | h | h)
    all_goals exact hne _ (by decide) h

theorem parseLeaf_integer {mem m : List UInt8} {q : ℕ} {c : UInt8} (hl : mem.drop q = c :: m)
    (hc : c = minus ∨ isDigit c) (hpos : (strtol (c :: m)).2 ≠ 0) :
    ∃ mem' node r, parseLeaf strtol mem q c = .ok (mem', node, r) ∧
      mem.drop r = (c :: m).drop (strtol (c :: m)).2 ∧
      Shows mem' r (fun mem => node.map fun f => f mem)
        (some (.integer (strtol (c :: m)).1)) := by
  refine ⟨mem, some fun _ => .integer (strtol (c :: m)).1, q + (strtol (c :: m)).2, ?_, ?_,
    fun _ _ => rfl⟩
  · unfold parseLeaf
    rw [if_neg (not_other_of_digit hc).1, if_pos hc, hl]
    show stopIf ((strtol (c :: m)).2 = 0) Stop.refused >>= _ = _
    rw [stopIf_of_not hpos]
    rfl
  · rw [← List.drop_drop, hl]

/-- The three words are told apart by their first letters. -/
theorem parseLeaf_word {mem rest : List UInt8} {q : ℕ} {c : UInt8} {word : List UInt8} {v : NxJson}
    (hword : (c, word, v) ∈ [(116, asciiBytes "true", NxJson.bool 1),
      (102, asciiBytes "false", NxJson.bool 0), (110, asciiBytes "null", NxJson.null)])
    (hl : mem.drop q = word ++ rest) :
    ∃ mem' node r, parseLeaf strtol mem q c = .ok (mem', node, r) ∧ mem.drop r = rest ∧
      Shows mem' r (fun mem => node.map fun f => f mem) (some v) := by
  refine ⟨mem, some fun _ => v, q + word.length, ?_, drop_append hl, fun _ _ => rfl⟩
  have hno : ∀ (a b : UInt8) (u w : List UInt8), a ≠ b → ¬ (a :: u) <+: (b :: w) ++ rest :=
    fun a b u w hab h => hab (List.cons_prefix_cons.1 h).1
  have hfalse : ¬ asciiBytes "true" <+: asciiBytes "false" ++ rest := hno 116 102 _ _ (by decide)
  have hnull : ¬ asciiBytes "true" <+: asciiBytes "null" ++ rest := hno 116 110 _ _ (by decide)
  have hnull' : ¬ asciiBytes "false" <+: asciiBytes "null" ++ rest := hno 102 110 _ _ (by decide)
  have hyes : ∀ u : List UInt8, u <+: u ++ rest := fun u => List.prefix_append u rest
  unfold parseLeaf
  rw [hl]
  simp only [List.mem_cons, Prod.mk.injEq, List.not_mem_nil, or_false] at hword
  rcases hword with ⟨rfl, rfl, rfl⟩ | ⟨rfl, rfl, rfl⟩ | ⟨rfl, rfl, rfl⟩
  · rw [if_neg (by decide), if_neg (by decide), if_pos (hyes _)]
    rfl
  · rw [if_neg (by decide), if_neg (by decide), if_neg hfalse, if_pos (hyes _)]
    rfl
  · rw [if_neg (by decide), if_neg (by decide), if_neg hnull, if_neg hnull',
      if_pos (hyes _)]
    rfl

/-! ## The parser -/

theorem accepts_nothing {mem l rest : List UInt8} {p fuel : ℕ}
    (h : Blank isBlank l (closeBracket :: rest)) (hl : mem.drop p = l) (hp : p ≤ mem.length)
    (hzero : 0 ∉ l) : Accepts strtol mem p fuel (closeBracket :: rest) (.value none) := by
  intro hfuel
  obtain ⟨fuel, rfl⟩ : ∃ k, fuel = k + 1 := ⟨fuel - 1, by omega⟩
  obtain ⟨q, hq, -, -, hdrop⟩ := skipBlank_eq (by decide) (by decide) (by decide) h
    (mem.length + 1) p rfl hl hp hzero (by omega)
  refine ⟨mem, none, q, ?_, hdrop, fun _ _ => rfl⟩
  rw [parseValue_eq hq (peek_cons hdrop), if_neg (by decide), if_neg (by decide), if_pos rfl]

theorem not_mem_drop {mem : List UInt8} {p q : ℕ} (h : 0 ∉ mem.drop p) (hq : p ≤ q) :
    (0 : UInt8) ∉ mem.drop q := by
  obtain ⟨k, rfl⟩ : ∃ k, q = p + k := ⟨q - p, by omega⟩
  rw [← List.drop_drop]
  exact fun h' => h (List.mem_of_mem_drop h')

theorem peek_ne {mem : List UInt8} {p : ℕ} {a : UInt8} (hp : p ≤ mem.length) (ha : a ≠ 0)
    (h : (mem.drop p).head? ≠ some a) : ∃ c, peek mem p = .ok c ∧ c ≠ a := by
  rcases peek_cases hp with ⟨c, l, hl, hc⟩ | ⟨-, hc⟩
  · rw [hl] at h
    exact ⟨c, hc, fun hca => h (congrArg some hca)⟩
  · exact ⟨0, hc, Ne.symm ha⟩

/-- The piece is read wherever the text stands in memory. -/
def ReadAs (strtol : Strtol) (piece : Piece) (l rest : List UInt8) : Prop :=
  ∀ (fuel : ℕ) (mem : List UInt8) (p : ℕ), mem.drop p = l → p ≤ mem.length → 0 ∉ l →
    Accepts strtol mem p fuel rest piece

/-- An object is its opening brace and what is behind it. -/
theorem reads_object {ms : List (List UInt8 × NxJson)} {l m rest : List UInt8}
    (hblank : Blank isBlank l (openBrace :: m)) (ih : ReadAs strtol (.members ms) m rest) :
    ReadAs strtol (.value (some (.object ms))) l rest := by
  intro fuel mem p hl hp hzero hfuel
  obtain ⟨fuel, rfl⟩ : ∃ k, fuel = k + 1 := ⟨fuel - 1, by omega⟩
  obtain ⟨q, hq, hpq, hqlen, hdrop⟩ := skipBlank_eq (by decide) (by decide) (by decide) hblank
    (mem.length + 1) p rfl hl hp hzero (by omega)
  have hzero' := not_mem_drop (hl ▸ hzero) (by omega : p ≤ q + 1)
  rw [drop_succ hdrop] at hzero'
  obtain ⟨mem', members, r, hrun, hrest, hshows⟩ :=
    ih fuel mem (q + 1) (drop_succ hdrop) hqlen hzero' (by omega)
  refine ⟨mem', some fun mem => .object (members mem), r, ?_, hrest,
    fun m hm => congrArg (fun ms => some (NxJson.object ms)) (hshows m hm)⟩
  rw [parseValue_eq hq (peek_cons hdrop), if_pos rfl, hrun]
  rfl

/-- An array is its opening bracket and what is behind it. -/
theorem reads_array {vs : List NxJson} {l m rest : List UInt8}
    (hblank : Blank isBlank l (openBracket :: m)) (ih : ReadAs strtol (.items vs) m rest) :
    ReadAs strtol (.value (some (.array vs))) l rest := by
  intro fuel mem p hl hp hzero hfuel
  obtain ⟨fuel, rfl⟩ : ∃ k, fuel = k + 1 := ⟨fuel - 1, by omega⟩
  obtain ⟨q, hq, hpq, hqlen, hdrop⟩ := skipBlank_eq (by decide) (by decide) (by decide) hblank
    (mem.length + 1) p rfl hl hp hzero (by omega)
  have hzero' := not_mem_drop (hl ▸ hzero) (by omega : p ≤ q + 1)
  rw [drop_succ hdrop] at hzero'
  obtain ⟨mem', items, r, hrun, hrest, hshows⟩ :=
    ih fuel mem (q + 1) (drop_succ hdrop) hqlen hzero' (by omega)
  refine ⟨mem', some fun mem => .array (items mem), r, ?_, hrest,
    fun m hm => congrArg (fun vs => some (NxJson.array vs)) (hshows m hm)⟩
  rw [parseValue_eq hq (peek_cons hdrop), if_neg (by decide), if_pos rfl, hrun]
  rfl

/-- No member is left before the closing brace. -/
theorem reads_closed {l rest : List UInt8} (hblank : Blank isKeyBlank l (closeBrace :: rest)) :
    ReadAs strtol (.members []) l rest := by
  intro fuel mem p hl hp hzero hfuel
  obtain ⟨fuel, rfl⟩ : ∃ k, fuel = k + 1 := ⟨fuel - 1, by omega⟩
  obtain ⟨q, hq, hdrop⟩ := parseKey_closed hblank hl hp hzero
  refine ⟨mem, fun _ => [], q + 1, ?_, drop_succ hdrop, fun _ _ => rfl⟩
  rw [parseMembers, hq]
  show peek mem q >>= _ = _
  rw [peek_cons hdrop]
  rfl

/-- A key without a value ends the object, and is left out. -/
theorem reads_valueless {key l rest : List UInt8} (hkey : Key key l (closeBrace :: rest)) :
    ReadAs strtol (.members []) l rest := by
  intro fuel mem p hl hp hzero hfuel
  obtain ⟨fuel, rfl⟩ : ∃ k, fuel = k + 1 := ⟨fuel - 1, by omega⟩
  obtain ⟨mem', s, q, hq, hdrop, hframe, -, -⟩ := parseKey_key hkey hl hp hzero
  refine ⟨mem', fun _ => [], q + 1, ?_, drop_succ hdrop, fun _ _ => rfl⟩
  rw [← hframe.rest] at hdrop
  rw [parseMembers, hq]
  show peek mem' q >>= _ = _
  rw [peek_cons hdrop]
  rfl

section Complete

variable (hstrtol : ∀ l, (strtol l).2 ≤ l.length)
include hstrtol

/-- What is known of a value that has been read. -/
theorem frame_value {mem mem' : List UInt8} {p q fuel : ℕ} {node : Option Node}
    (hrun : parseValue strtol fuel mem p = .ok (mem', node, q)) (hp : p ≤ mem.length)
    (hfuel : 2 * (mem.length - p) < fuel) :
    Frame mem p mem' q ∧ (node ≠ none → p < q) := by
  obtain ⟨v, hv⟩ := ((sat_parse hstrtol fuel).1 mem p hp hfuel).of_ok hrun
  refine ⟨hv.frame, fun hnode => hv.lt fun hnone => hnode ?_⟩
  have := hv.shows mem' rfl
  rw [hnone] at this
  exact Option.map_eq_none_iff.1 this

theorem frame_members {mem mem' : List UInt8} {p q fuel : ℕ} {members : Members}
    (hrun : parseMembers strtol fuel mem p = .ok (mem', members, q)) (hp : p ≤ mem.length)
    (hfuel : 2 * (mem.length - p) < fuel) : Frame mem p mem' q := by
  obtain ⟨-, ms, hms⟩ := ((sat_parse hstrtol fuel).2.1 mem p hp hfuel).of_ok hrun
  exact hms.frame

theorem frame_items {mem mem' : List UInt8} {p q fuel : ℕ} {items : Items}
    (hrun : parseItems strtol fuel mem p = .ok (mem', items, q)) (hp : p ≤ mem.length)
    (hfuel : 2 * (mem.length - p) + 1 < fuel) : Frame mem p mem' q := by
  obtain ⟨-, vs, hvs⟩ := ((sat_parse hstrtol fuel).2.2 mem p hp hfuel).of_ok hrun
  exact hvs.frame

/-- A key and its value stand before the other members. -/
theorem reads_member {key : List UInt8} {v : NxJson} {ms : List (List UInt8 × NxJson)}
    {l m m' rest : List UInt8} (hkey : Key key l m) (hhead : m.head? ≠ some closeBrace)
    (ih : ReadAs strtol (.value (some v)) m m') (ih' : ReadAs strtol (.members ms) m' rest) :
    ReadAs strtol (.members ((key, v) :: ms)) l rest := by
  intro fuel mem p hl hp hzero hfuel
  obtain ⟨fuel, rfl⟩ : ∃ k, fuel = k + 1 := ⟨fuel - 1, by omega⟩
  obtain ⟨mem₁, s, q, hq, hdrop, hframe₁, hpq, hkeyed⟩ := parseKey_key hkey hl hp hzero
  have hzero₁ := not_mem_drop (hl ▸ hzero) hframe₁.le
  rw [hdrop] at hzero₁
  rw [← hframe₁.rest] at hdrop
  have hlen₁ := hframe₁.length
  have hqlen := hframe₁.le_length
  obtain ⟨mem₂, node, e, hvalue, hdrop₂, hvalued⟩ :=
    ih fuel mem₁ q hdrop (by omega) hzero₁ (by omega)
  have hframe₂ := (frame_value hstrtol hvalue (by omega) (by omega)).1
  have hzero₂ := not_mem_drop (hdrop.symm ▸ hzero₁) hframe₂.le
  rw [hdrop₂] at hzero₂
  rw [← hframe₂.rest] at hdrop₂
  have hlen₂ := hframe₂.length
  have helen := hframe₂.le_length
  have hqe := hframe₂.le
  obtain ⟨mem₃, members, f, hmembers, hrest, hlisted⟩ :=
    ih' fuel mem₂ e hdrop₂ (by omega) hzero₂ (by omega)
  have hframe₃ := frame_members hstrtol hmembers (by omega) (by omega)
  obtain ⟨c, hc, hne⟩ := peek_ne (by omega : q ≤ mem₁.length) (by decide)
    (hdrop.symm ▸ hhead)
  refine ⟨mem₃, fun mem => (node.toList.map fun v => (stringAt mem s, v mem)) ++ members mem, f,
    ?_, ?_, fun m hm => ?_⟩
  · rw [parseMembers, hq]
    show peek mem₁ q >>= _ = _
    rw [hc]
    show (if c = closeBrace then _ else parseValue strtol fuel mem₁ q >>= _) = _
    rw [if_neg hne, hvalue]
    show parseMembers strtol fuel mem₂ e >>= _ = _
    rw [hmembers]
    rfl
  · rw [← (hframe₁.trans (hframe₂.trans hframe₃)).rest, hframe₃.rest]
    exact hrest
  · have hkey' := ((hkeyed.mono hframe₂.le hframe₂.front).mono hframe₃.le hframe₃.front) m hm
    have hvalue' := (hvalued.mono hframe₃.le hframe₃.front) m hm
    obtain ⟨g, rfl, hg⟩ := Option.map_eq_some_iff.1 hvalue'
    dsimp only at hkey' ⊢
    rw [hlisted m hm, ← hkey', ← hg]
    rfl

/-- The closing bracket is read behind the last value, or without one. -/
theorem reads_last {v : Option NxJson} {l rest : List UInt8}
    (ih : ReadAs strtol (.value v) l (closeBracket :: rest)) :
    ReadAs strtol (.items v.toList) l rest := by
  intro fuel mem p hl hp hzero hfuel
  obtain ⟨fuel, rfl⟩ : ∃ k, fuel = k + 1 := ⟨fuel - 1, by omega⟩
  obtain ⟨mem', node, q, hrun, hdrop, hshows⟩ := ih fuel mem p hl hp hzero (by omega)
  have hframe := (frame_value hstrtol hrun hp (by omega)).1
  have hdrop' := drop_succ hdrop
  rw [← hframe.rest] at hdrop
  refine ⟨mem', fun mem => node.toList.map fun f => f mem, q + 1, ?_, hdrop', fun m hm => ?_⟩
  · rw [parseItems, hrun]
    show peek mem' q >>= _ = _
    rw [peek_cons hdrop]
    rfl
  · dsimp only
    rw [← (hshows.mono (Nat.le_succ q) rfl) m hm, Option.toList_map]

/-- A value stands before the other items. -/
theorem reads_item {v : NxJson} {vs : List NxJson} {l m rest : List UInt8}
    (ih : ReadAs strtol (.value (some v)) l m) (hhead : m.head? ≠ some closeBracket)
    (ih' : ReadAs strtol (.items vs) m rest) :
    ReadAs strtol (.items (v :: vs)) l rest := by
  intro fuel mem p hl hp hzero hfuel
  obtain ⟨fuel, rfl⟩ : ∃ k, fuel = k + 1 := ⟨fuel - 1, by omega⟩
  obtain ⟨mem₁, node, q, hvalue, hdrop, hvalued⟩ := ih fuel mem p hl hp hzero (by omega)
  obtain ⟨hframe₁, hlt⟩ := frame_value hstrtol hvalue hp (by omega)
  have hnode : node ≠ none := by
    rintro rfl
    exact absurd (hvalued mem₁ rfl).symm (Option.some_ne_none v)
  have hpq := hlt hnode
  have hzero₁ := not_mem_drop (hl ▸ hzero) hframe₁.le
  rw [hdrop] at hzero₁
  rw [← hframe₁.rest] at hdrop
  have hlen₁ := hframe₁.length
  have hqlen := hframe₁.le_length
  obtain ⟨mem₂, items, e, hitems, hrest, hlisted⟩ :=
    ih' fuel mem₁ q hdrop (by omega) hzero₁ (by omega)
  have hframe₂ := frame_items hstrtol hitems (by omega) (by omega)
  obtain ⟨c, hc, hne⟩ := peek_ne (by omega : q ≤ mem₁.length) (by decide)
    (hdrop.symm ▸ hhead)
  refine ⟨mem₂, fun mem => (node.toList.map fun v => v mem) ++ items mem, e, ?_, ?_,
    fun m hm => ?_⟩
  · rw [parseItems, hvalue]
    show peek mem₁ q >>= _ = _
    rw [hc]
    show (if c = closeBracket then _ else parseItems strtol fuel mem₁ q >>= _) = _
    rw [if_neg hne, hitems]
    rfl
  · rw [← (hframe₁.trans hframe₂).rest, hframe₂.rest]
    exact hrest
  · have hvalue' := (hvalued.mono hframe₂.le hframe₂.front) m hm
    obtain ⟨g, rfl, hg⟩ := Option.map_eq_some_iff.1 hvalue'
    dsimp only
    rw [hlisted m hm, ← hg]
    rfl

/-- A text that stands for a piece is read as it. -/
theorem reads_of_parses {piece : Piece} {l rest : List UInt8} (h : Parses strtol piece l rest) :
    ReadAs strtol piece l rest := by
  induction h with
  | object hblank _ ih => exact reads_object hblank ih
  | array hblank _ ih => exact reads_array hblank ih
  | nothing hblank =>
      intro fuel mem p hl hp hzero
      exact accepts_nothing hblank hl hp hzero
  | string hblank hquoted =>
      intro fuel mem p hl hp hzero
      exact accepts_leaf hblank hl hp hzero (by decide) (by decide) (by decide) (by decide)
        (by decide) fun q hq => parseLeaf_string hq hquoted
  | integer hblank hc hpos =>
      intro fuel mem p hl hp hzero
      obtain ⟨-, h₁, h₂, h₃, h₄, h₅⟩ := not_other_of_digit hc
      exact accepts_leaf hblank hl hp hzero h₁ h₂ h₃ h₄ h₅ fun q hq => parseLeaf_integer hq hc hpos
  | true hblank =>
      intro fuel mem p hl hp hzero
      exact accepts_leaf (c := 116) hblank hl hp hzero (by decide) (by decide) (by decide)
        (by decide) (by decide) fun q hq =>
          @parseLeaf_word _ _ _ _ _ (asciiBytes "true") _ (by simp) hq
  | false hblank =>
      intro fuel mem p hl hp hzero
      exact accepts_leaf (c := 102) hblank hl hp hzero (by decide) (by decide) (by decide)
        (by decide) (by decide) fun q hq =>
          @parseLeaf_word _ _ _ _ _ (asciiBytes "false") _ (by simp) hq
  | null hblank =>
      intro fuel mem p hl hp hzero
      exact accepts_leaf (c := 110) hblank hl hp hzero (by decide) (by decide) (by decide)
        (by decide) (by decide) fun q hq =>
          @parseLeaf_word _ _ _ _ _ (asciiBytes "null") _ (by simp) hq
  | closed hblank => exact reads_closed hblank
  | valueless hkey => exact reads_valueless hkey
  | member hkey hhead _ _ ih ih' => exact reads_member hstrtol hkey hhead ih ih'
  | last _ ih => exact reads_last hstrtol ih
  | item _ hhead _ ih ih' => exact reads_item hstrtol ih hhead ih'

end Complete

/-- The parser returns what the text stands for. -/
theorem nxJsonParse_ok_iff (hstrtol : ∀ l, (strtol l).2 ≤ l.length) {text : List UInt8}
    (hzero : 0 ∉ text) {v : Option NxJson} :
    nxJsonParse strtol text = .ok v ↔ ∃ rest, Parses strtol (.value v) text rest := by
  refine ⟨fun h => (sat_nxJsonParse hstrtol text).of_ok h, fun ⟨rest, h⟩ => ?_⟩
  obtain ⟨mem, node, q, hrun, -, hshows⟩ := reads_of_parses hstrtol h (2 * text.length + 2)
    text 0 rfl (Nat.zero_le _) hzero (by omega)
  unfold nxJsonParse
  rw [hrun]
  exact congrArg Except.ok (hshows mem rfl)

/-- The parser returns a tree exactly when the text stands for it, and refuses a text that stands
    for none; it never leaves the text. -/
theorem nxJsonParse_iff (hstrtol : ∀ l, (strtol l).2 ≤ l.length) {text : List UInt8}
    (hzero : 0 ∉ text) :
    (∀ v, nxJsonParse strtol text = .ok v ↔ ∃ rest, Parses strtol (.value v) text rest) ∧
      ((¬ ∃ v rest, Parses strtol (.value v) text rest) ↔
        nxJsonParse strtol text = .error .refused) := by
  have hok : ∀ v, nxJsonParse strtol text = .ok v ↔ ∃ rest, Parses strtol (.value v) text rest :=
    fun v => nxJsonParse_ok_iff hstrtol hzero
  refine ⟨hok, ?_, ?_⟩
  · intro hnone
    cases h : nxJsonParse strtol text with
    | ok v => exact absurd ⟨v, (hok v).1 h⟩ hnone
    | error e => rw [show e = .refused from (sat_nxJsonParse hstrtol text).of_error h]
  · rintro h ⟨v, hv⟩
    rw [(hok v).2 hv] at h
    cases h

/-- `strtol` on the decimal digits of a number. -/
def digitsOnly : Strtol := fun l =>
  let digits := l.takeWhile fun c => decide (isDigit c)
  (digits.foldl (fun n c => 10 * n + (c.toNat - 48)) 0, digits.length)

/-- An array of two numbers, with no comma between them. -/
theorem nxJsonParse_iff_two :
    (∀ v, nxJsonParse digitsOnly (asciiBytes "[12 3]") = .ok v ↔
        ∃ rest, Parses digitsOnly (.value v) (asciiBytes "[12 3]") rest) ∧
      ((¬ ∃ v rest, Parses digitsOnly (.value v) (asciiBytes "[12 3]") rest) ↔
        nxJsonParse digitsOnly (asciiBytes "[12 3]") = .error .refused) :=
  nxJsonParse_iff (fun l => (List.takeWhile_sublist _).length_le) (by decide)

end Tbq.Nx
