/-
# The two engines of the multi-pattern search

`mwmSearch` takes the single searches or the common one by the number of patterns.  Here both
are run over the same patterns, with a callback that records whose pattern was found and lets
the search go on, and compared with what a pattern asks for: to occur at a position of its
window.
-/
import Mathlib.Data.List.Nodup
import Mathlib.Data.Nat.Find
import OpenwrtAc.Mwm

open SkipSearch

namespace Mwm

/-! ## The patterns that are asked for -/

/-- What `mwmAddPatternEx` is called with. -/
structure Asked where
  patt : List UInt8
  offset : ℤ
  deep : ℤ

/-- The pattern is at the position, not before its offset, and ends inside its depth; depth 0
    is no limit. -/
def Asked.StandsAt (a : Asked) (text : List UInt8) (s : ℕ) : Prop :=
  occursAt a.patt text s = true ∧ a.offset ≤ s
    ∧ (a.deep = 0 ∨ s + a.patt.length ≤ a.offset + a.deep)

/-- The patterns are added one after the other, each with its place in the list as its datum. -/
def addPatterns (asked : List Asked) : List (Patt ℕ) :=
  asked.zipIdx.foldl
    (fun plist a => (mwmAddPatternEx plist a.1.patt a.1.offset a.1.deep a.2).2) []

/-- What `qsort` can make of the list. -/
structure SortedFrom (plist arr : List (Patt ℕ)) : Prop where
  perm : arr.Perm plist
  sorted : arr.Pairwise fun p q => bcompare p.psPat q.psPat ≤ 0

theorem addPatterns_append_singleton (asked : List Asked) (a : Asked) :
    addPatterns (asked ++ [a]) =
      (mwmAddPatternEx (addPatterns asked) a.patt a.offset a.deep asked.length).2 := by
  rw [addPatterns, List.zipIdx_append, List.foldl_append]
  simp [addPatterns]

/-- A pattern is added at the end, or not at all. -/
theorem mwmAddPatternEx_cases (plist : List (Patt ℕ)) (a : Asked) (i : ℕ) :
    (mwmAddPatternEx plist a.patt a.offset a.deep i).2 = plist ∨
      ∃ p : Patt ℕ, (mwmAddPatternEx plist a.patt a.offset a.deep i).2 = plist ++ [p]
        ∧ p.psPat = a.patt ∧ p.psOffset = a.offset
        ∧ p.psDepth = (if a.deep = 0 then 32767 else a.deep) ∧ p.psData = i := by
  unfold mwmAddPatternEx mwmAddPattern
  split
  next hlen =>
    split
    · exact .inl rfl
    · simp only [Bool.false_and, Bool.false_eq_true, if_false]
      exact .inr ⟨_, rfl, rfl, rfl, rfl, rfl⟩
  · exact .inl rfl

/-- The pattern with the datum `i` is the one asked for at `i`. -/
theorem asked_of_mem {asked : List Asked} {p : Patt ℕ} (hp : p ∈ addPatterns asked) :
    ∃ a, asked[p.psData]? = some a ∧ p.psPat = a.patt ∧ p.psOffset = a.offset
      ∧ p.psDepth = (if a.deep = 0 then 32767 else a.deep) := by
  induction asked using List.reverseRecOn with
  | nil => cases hp
  | append_singleton asked b ih =>
    rw [addPatterns_append_singleton] at hp
    have hold : p ∈ addPatterns asked → ∃ a, (asked ++ [b])[p.psData]? = some a
        ∧ p.psPat = a.patt ∧ p.psOffset = a.offset
        ∧ p.psDepth = (if a.deep = 0 then 32767 else a.deep) := by
      intro hp
      obtain ⟨a, ha, hrest⟩ := ih hp
      have hlt := (List.getElem?_eq_some_iff.1 ha).1
      exact ⟨a, by rw [List.getElem?_append_left hlt, ha], hrest⟩
    rcases mwmAddPatternEx_cases (addPatterns asked) b asked.length with
      hsame | ⟨q, hq, hpat, hoff, hdepth, hdata⟩
    · rw [hsame] at hp
      exact hold hp
    · rw [hq, List.mem_append, List.mem_singleton] at hp
      rcases hp with hp | rfl
      · exact hold hp
      · exact ⟨b, by rw [hdata, List.getElem?_concat_length], hpat, hoff, hdepth⟩

/-- No two patterns have one datum. -/
theorem addPatterns_nodup (asked : List Asked) : ((addPatterns asked).map Patt.psData).Nodup := by
  induction asked using List.reverseRecOn with
  | nil => exact List.nodup_nil
  | append_singleton asked b ih =>
    rw [addPatterns_append_singleton]
    rcases mwmAddPatternEx_cases (addPatterns asked) b asked.length with
      hsame | ⟨q, hq, -, -, -, hdata⟩
    · rwa [hsame]
    · rw [hq, List.map_append, List.map_singleton, hdata]
      refine List.nodup_append.2 ⟨ih, List.nodup_singleton _, ?_⟩
      intro d hd e he hde
      obtain ⟨p, hp, rfl⟩ := List.mem_map.1 hd
      obtain ⟨a, ha, -⟩ := asked_of_mem hp
      have := (List.getElem?_eq_some_iff.1 ha).1
      rw [List.mem_singleton] at he
      omega

/-! ## What an engine reports -/

/-- The callback: it records the datum, and its 0 lets the search go on. -/
def record : Callback ℕ (List ℕ) := fun d _ reported => (0, reported ++ [d])

/-- What an engine reports of the patterns of an array. -/
def reported (method : Method) (arr : List (Patt ℕ)) (text : List UInt8) : List ℕ :=
  match method with
  | .bm => mwmSearchBM text record arr []
  | .mwm => mwmSearchExBW arr text record []

/-- `mwmSearch` takes the engine of the number of patterns. -/
theorem mwmSearch_record (m : Prepared ℕ) (text : List UInt8) :
    mwmSearch m text record [] = reported (Method.ofNum m.patArray.length) m.patArray text := by
  unfold mwmSearch reported
  cases Method.ofNum m.patArray.length <;> rfl

theorem record_single (a : ℕ × Option ℕ) (l : List ℕ) :
    record.single a l = (false, l ++ [a.1]) := rfl

theorem record_common (a : ℕ × Option ℕ) (l : List ℕ) :
    record.common a l = (false, l ++ [a.1]) := rfl

/-- A visitor that never ends the search visits everything. -/
theorem visit_record {act : ℕ × Option ℕ → List ℕ → Bool × List ℕ}
    (hact : ∀ a l, act a l = (false, l ++ [a.1])) (hits : List (ℕ × Option ℕ)) (l : List ℕ) :
    visit act hits l = l ++ hits.map Prod.fst := by
  induction hits generalizing l with
  | nil => simp
  | cons a hits ih =>
    rw [visit_cons, hact, if_neg Bool.false_ne_true, ih]
    simp

theorem mem_reported_bm {arr : List (Patt ℕ)} {text : List UInt8} {i : ℕ} :
    i ∈ reported .bm arr text ↔ ∃ p ∈ arr, p.psData = i ∧
      ∃ s, firstAt p.psPat text = some s ∧ p.psOffset ≤ s
        ∧ s + p.psLen < p.psOffset + p.psDepth := by
  rw [reported, mwmSearchBM_eq, visit_record record_single, List.nil_append, ← mem_singleHits]
  simp

theorem mem_reported_mwm {arr : List (Patt ℕ)}
    (hsort : arr.Pairwise fun p q => bcompare p.psPat q.psPat ≤ 0) {text : List UInt8} {i : ℕ} :
    i ∈ reported .mwm arr text ↔ ∃ p ∈ arr, p.psData = i ∧
      ∃ s, arr.find? (standsAt text s) = some p := by
  rw [reported, mwmSearchExBW_eq hsort, visit_record record_common, List.nil_append,
    List.mem_map]
  constructor
  · rintro ⟨⟨d, o⟩, hhit, rfl⟩
    obtain ⟨s, -, p, hp, hdata, -⟩ := mem_commonHits.1 hhit
    exact ⟨p, List.mem_of_find?_eq_some hp, hdata, s, hp⟩
  · rintro ⟨p, -, rfl, s, hp⟩
    have hle := standsAt_le (List.find?_some hp)
    have hlen : 2 ≤ p.psLen := p.two_le
    exact ⟨(p.psData, _), mem_commonHits.2 ⟨s, by omega, p, hp, rfl, rfl⟩, rfl⟩

/-! ## When the engines report what was asked for -/

/-- The window of the pattern holds it at the position. -/
def Patt.InWindow {δ : Type} (p : Patt δ) (s : ℕ) : Prop :=
  p.psOffset ≤ s ∧ s + p.psLen ≤ p.psOffset + p.psDepth

/-- Another pattern of the array comes first at the position: the pattern begins with it, and
    its own window holds it there. -/
def Shadowed (arr : List (Patt ℕ)) (p : Patt ℕ) (s : ℕ) : Prop :=
  ∃ q ∈ arr.takeWhile (fun q => q.psData != p.psData), q.psPat <+: p.psPat ∧ q.InWindow s

/-- The text is plain for a pattern: none of its occurrences is before its offset, one ends
    before the end of its window, and at one inside the window no other pattern comes first. -/
structure Plain (arr : List (Patt ℕ)) (text : List UInt8) (p : Patt ℕ) : Prop where
  none_before : ∀ s, occursAt p.psPat text s = true → p.psOffset ≤ s
  ends_inside : ∃ s, occursAt p.psPat text s = true ∧ s + p.psLen < p.psOffset + p.psDepth
  in_front : ∃ s, occursAt p.psPat text s = true ∧ p.InWindow s ∧ ¬ Shadowed arr p s

theorem standsAt_iff {text : List UInt8} {s : ℕ} {p : Patt ℕ} :
    standsAt text s p = true ↔ occursAt p.psPat text s = true ∧ p.InWindow s := by
  simp [standsAt, Patt.InWindow, and_assoc]

theorem firstAt_eq_some {pat text : List UInt8} {s : ℕ} (hne : pat ≠ []) :
    firstAt pat text = some s ↔ occursAt pat text s = true
      ∧ ∀ j < s, occursAt pat text j = false := by
  rw [firstAt, head?_found_eq_some]
  constructor
  · rintro ⟨t, -, -, ht, hfirst⟩
    split at ht
    next hocc =>
      cases ht
      refine ⟨hocc, fun j hj => ?_⟩
      have := hfirst j (Nat.zero_le j) hj
      split at this
      · cases this
      next hno => exact Bool.eq_false_iff.2 hno
    · cases ht
  · rintro ⟨hocc, hfirst⟩
    have hle := occursAt_le hocc hne
    have hpos := List.length_pos_iff.2 hne
    refine ⟨s, Nat.zero_le s, by omega, if_pos hocc, fun j _ hj => ?_⟩
    rw [hfirst j hj]
    rfl

/-- A pattern that occurs has a first occurrence. -/
theorem exists_firstAt {pat text : List UInt8} (hne : pat ≠ []) {s : ℕ}
    (hocc : occursAt pat text s = true) : ∃ i ≤ s, firstAt pat text = some i := by
  have hex : ∃ i, occursAt pat text i = true := ⟨s, hocc⟩
  refine ⟨Nat.find hex, Nat.find_min' hex hocc, (firstAt_eq_some hne).2 ⟨Nat.find_spec hex, ?_⟩⟩
  intro j hj
  exact Bool.eq_false_iff.2 (Nat.find_min hex hj)

/-- The single search for a pattern, in terms of all its occurrences. -/
theorem firstAt_inside_iff {p : Patt ℕ} {text : List UInt8} :
    (∃ s, firstAt p.psPat text = some s ∧ p.psOffset ≤ s
      ∧ s + p.psLen < p.psOffset + p.psDepth) ↔
    (∀ s, occursAt p.psPat text s = true → p.psOffset ≤ s)
      ∧ ∃ s, occursAt p.psPat text s = true ∧ s + p.psLen < p.psOffset + p.psDepth := by
  constructor
  · rintro ⟨i, hi, hoff, hend⟩
    obtain ⟨hocc, hfirst⟩ := (firstAt_eq_some p.psPat_ne_nil).1 hi
    refine ⟨fun s hs => ?_, i, hocc, hend⟩
    have hle : i ≤ s := by
      by_contra hlt
      rw [hfirst s (not_le.1 hlt)] at hs
      cases hs
    omega
  · rintro ⟨hbefore, s, hs, hend⟩
    obtain ⟨i, hle, hi⟩ := exists_firstAt p.psPat_ne_nil hs
    exact ⟨i, hi, hbefore i ((firstAt_eq_some p.psPat_ne_nil).1 hi).1, by omega⟩

/-- Of two patterns with one beginning the other begins with the one that is sorted first. -/
theorem prefix_of_bcompare {a b : List UInt8} (h : bcompare a b ≤ 0)
    (hab : a <+: b ∨ b <+: a) : a <+: b := by
  induction a generalizing b with
  | nil => exact List.nil_prefix
  | cons x a ih =>
    cases b with
    | nil => simp [bcompare] at h
    | cons y b =>
      have hxy : x = y := by
        rcases hab with hab | hab
        · exact (List.cons_prefix_cons.1 hab).1
        · exact (List.cons_prefix_cons.1 hab).1.symm
      subst hxy
      rw [bcompare, if_neg (UInt8.lt_irrefl x), if_neg (UInt8.lt_irrefl x)] at h
      simp only [List.cons_prefix_cons, true_and] at hab ⊢
      exact ih h hab

/-- A pattern before another one, where both stand, is one the other begins with. -/
theorem standsAt_of_before {text : List UInt8} {s : ℕ} {p q : Patt ℕ}
    (hle : bcompare q.psPat p.psPat ≤ 0) (hp : occursAt p.psPat text s = true) :
    standsAt text s q = true ↔ q.psPat <+: p.psPat ∧ q.InWindow s := by
  have hp' := List.isPrefixOf_iff_prefix.1 hp
  rw [standsAt_iff]
  refine and_congr_left fun _ => ⟨fun hq => ?_, fun hpre => ?_⟩
  · have hq' := List.isPrefixOf_iff_prefix.1 hq
    exact prefix_of_bcompare hle (List.prefix_or_prefix_of_prefix hq' hp')
  · exact List.isPrefixOf_iff_prefix.2 (hpre.trans hp')

/-- The patterns before one, when no other has its datum. -/
theorem takeWhile_data {before after : List (Patt ℕ)} {p : Patt ℕ}
    (hnodup : ((before ++ p :: after).map Patt.psData).Nodup) :
    (before ++ p :: after).takeWhile (fun q => q.psData != p.psData) = before := by
  rw [List.takeWhile_append_of_pos, List.takeWhile_cons_of_neg (by simp), List.append_nil]
  intro q hq
  rw [List.map_append, List.map_cons] at hnodup
  have hne := (List.nodup_append.1 hnodup).2.2 q.psData (List.mem_map_of_mem hq) p.psData
    List.mem_cons_self
  simpa using hne

/-- The common search finds a pattern at a position where it stands and no other comes first. -/
theorem find?_standsAt_iff {arr : List (Patt ℕ)}
    (hsort : arr.Pairwise fun p q => bcompare p.psPat q.psPat ≤ 0)
    (hnodup : (arr.map Patt.psData).Nodup) {p : Patt ℕ} (hp : p ∈ arr) {text : List UInt8}
    {s : ℕ} :
    arr.find? (standsAt text s) = some p ↔
      occursAt p.psPat text s = true ∧ p.InWindow s ∧ ¬ Shadowed arr p s := by
  obtain ⟨before, after, rfl⟩ := List.append_of_mem hp
  have htake := takeWhile_data hnodup
  have hle : ∀ q ∈ before, bcompare q.psPat p.psPat ≤ 0 := by
    intro q hq
    exact (List.pairwise_append.1 hsort).2.2 q hq p List.mem_cons_self
  -- the datum tells where the pattern is in the array
  rw [List.find?_eq_some_iff_append, ← and_assoc, ← standsAt_iff]
  refine and_congr_right fun hst => ?_
  have hocc := (standsAt_iff.1 hst).1
  constructor
  · rintro ⟨as, bs, heq, has⟩ ⟨q, hq, hpre, hwin⟩
    rw [heq, takeWhile_data (heq ▸ hnodup)] at hq
    have hqle : bcompare q.psPat p.psPat ≤ 0 := by
      rw [heq] at hsort
      exact (List.pairwise_append.1 hsort).2.2 q hq p List.mem_cons_self
    have := has q hq
    rw [(standsAt_of_before hqle hocc).2 ⟨hpre, hwin⟩] at this
    cases this
  · intro hfree
    refine ⟨before, after, rfl, fun q hq => ?_⟩
    rw [Bool.not_eq_true', Bool.eq_false_iff]
    intro hq'
    obtain ⟨hpre, hwin⟩ := (standsAt_of_before (hle q hq) hocc).1 hq'
    exact hfree ⟨q, by rwa [htake], hpre, hwin⟩

/-- A datum in an array tells the pattern. -/
theorem exists_data_iff {arr : List (Patt ℕ)} (hnodup : (arr.map Patt.psData).Nodup) {p : Patt ℕ}
    (hp : p ∈ arr) {P : Patt ℕ → Prop} :
    (∃ q ∈ arr, q.psData = p.psData ∧ P q) ↔ P p := by
  constructor
  · rintro ⟨q, hq, hdata, hP⟩
    rwa [← List.inj_on_of_nodup_map hnodup hq hp hdata]
  · exact fun hP => ⟨p, hp, rfl, hP⟩

/-- The single search reports a pattern none of whose occurrences is before its offset and one
    of whose ends before the end of the window. -/
theorem reported_bm_iff {asked : List Asked} {p : Patt ℕ} (hp : p ∈ addPatterns asked)
    {text : List UInt8} :
    p.psData ∈ reported .bm (addPatterns asked) text ↔
      (∀ s, occursAt p.psPat text s = true → p.psOffset ≤ s)
        ∧ ∃ s, occursAt p.psPat text s = true ∧ s + p.psLen < p.psOffset + p.psDepth := by
  rw [mem_reported_bm, exists_data_iff (addPatterns_nodup asked) hp, firstAt_inside_iff]

/-- The common search reports a pattern that comes first at a position of its window. -/
theorem reported_mwm_iff {asked : List Asked} {arr : List (Patt ℕ)}
    (harr : SortedFrom (addPatterns asked) arr) {p : Patt ℕ} (hp : p ∈ addPatterns asked)
    {text : List UInt8} :
    p.psData ∈ reported .mwm arr text ↔
      ∃ s, occursAt p.psPat text s = true ∧ p.InWindow s ∧ ¬ Shadowed arr p s := by
  have hnodup : (arr.map Patt.psData).Nodup :=
    (harr.perm.map _).nodup_iff.2 (addPatterns_nodup asked)
  have hp' := harr.perm.mem_iff.2 hp
  rw [mem_reported_mwm harr.sorted, exists_data_iff hnodup hp']
  exact exists_congr fun s => find?_standsAt_iff harr.sorted hnodup hp'

/-- A pattern that occurs inside its window stands where it was asked for. -/
theorem standsAt_of_inWindow {asked : List Asked} {p : Patt ℕ} (hp : p ∈ addPatterns asked)
    {a : Asked} (ha : asked[p.psData]? = some a) {text : List UInt8} {s : ℕ}
    (hocc : occursAt p.psPat text s = true) (hwin : p.InWindow s) : a.StandsAt text s := by
  obtain ⟨hoff, hend⟩ := hwin
  obtain ⟨b, hb, hpat, hpoff, hdepth⟩ := asked_of_mem hp
  obtain rfl : a = b := Option.some.inj (ha.symm.trans hb)
  rw [hpat] at hocc
  rw [hpoff] at hoff hend
  refine ⟨hocc, hoff, ?_⟩
  by_cases hdeep : a.deep = 0
  · exact .inl hdeep
  · rw [hdepth, if_neg hdeep, Patt.psLen, hpat] at hend
    exact .inr hend

/-- The two engines report the same patterns of a text, and these are the ones that stand where
    they were asked for. -/
structure EnginesAgree (asked : List Asked) (arr : List (Patt ℕ)) (text : List UInt8) : Prop where
  same : ∀ i, i ∈ reported .bm (addPatterns asked) text ↔ i ∈ reported .mwm arr text
  bm : ∀ p ∈ addPatterns asked, ∀ a, asked[p.psData]? = some a →
    (p.psData ∈ reported .bm (addPatterns asked) text ↔ ∃ s, a.StandsAt text s)
  mwm : ∀ p ∈ addPatterns asked, ∀ a, asked[p.psData]? = some a →
    (p.psData ∈ reported .mwm arr text ↔ ∃ s, a.StandsAt text s)

/-- What both report rightly they report alike: a datum that is reported is that of a pattern. -/
theorem EnginesAgree.of_right {asked : List Asked} {arr : List (Patt ℕ)} {text : List UInt8}
    (harr : SortedFrom (addPatterns asked) arr)
    (hbm : ∀ p ∈ addPatterns asked, ∀ a, asked[p.psData]? = some a →
      (p.psData ∈ reported .bm (addPatterns asked) text ↔ ∃ s, a.StandsAt text s))
    (hmwm : ∀ p ∈ addPatterns asked, ∀ a, asked[p.psData]? = some a →
      (p.psData ∈ reported .mwm arr text ↔ ∃ s, a.StandsAt text s)) :
    EnginesAgree asked arr text := by
  refine ⟨fun i => ?_, hbm, hmwm⟩
  constructor
  · intro hi
    obtain ⟨p, hp, rfl, -⟩ := mem_reported_bm.1 hi
    obtain ⟨a, ha, -⟩ := asked_of_mem hp
    exact (hmwm p hp a ha).2 ((hbm p hp a ha).1 hi)
  · intro hi
    obtain ⟨p, hp, rfl, -⟩ := (mem_reported_mwm harr.sorted).1 hi
    have hp' := harr.perm.mem_iff.1 hp
    obtain ⟨a, ha, -⟩ := asked_of_mem hp'
    exact (hbm p hp' a ha).2 ((hmwm p hp' a ha).1 hi)

/-- Both engines report what was asked for exactly when the text is plain for every pattern that
    stands where it was asked for. -/
theorem engines_agree_iff (asked : List Asked) (arr : List (Patt ℕ)) (text : List UInt8)
    (harr : SortedFrom (addPatterns asked) arr) :
    EnginesAgree asked arr text ↔ ∀ p ∈ addPatterns asked, ∀ a, asked[p.psData]? = some a →
      (∃ s, a.StandsAt text s) → Plain arr text p := by
  constructor
  · intro hagree p hp a ha hst
    obtain ⟨hbefore, hend⟩ := (reported_bm_iff hp).1 ((hagree.bm p hp a ha).2 hst)
    exact ⟨hbefore, hend, (reported_mwm_iff harr hp).1 ((hagree.mwm p hp a ha).2 hst)⟩
  · intro hplain
    -- an occurrence that an engine counts is one in the window
    refine EnginesAgree.of_right harr (fun p hp a ha => ?_) fun p hp a ha => ?_
    · rw [reported_bm_iff hp]
      constructor
      · rintro ⟨hbefore, s, hocc, hend⟩
        exact ⟨s, standsAt_of_inWindow hp ha hocc ⟨hbefore s hocc, Int.le_of_lt hend⟩⟩
      · intro hst
        have := hplain p hp a ha hst
        exact ⟨this.none_before, this.ends_inside⟩
    · rw [reported_mwm_iff harr hp]
      constructor
      · rintro ⟨s, hocc, hwin, -⟩
        exact ⟨s, standsAt_of_inWindow hp ha hocc hwin⟩
      · exact fun hst => (hplain p hp a ha hst).in_front

/-- `abc` anywhere, and `ab` in the first three bytes. -/
def nestedAsked : List Asked := [⟨[97, 98, 99], 0, 0⟩, ⟨[97, 98], 0, 3⟩]

/-- In `ababc` the window of `ab` is over when `abc` comes. -/
theorem engines_agree_nested :
    EnginesAgree nestedAsked (addPatterns nestedAsked).reverse [97, 98, 97, 98, 99]
      ∧ reported .bm (addPatterns nestedAsked) [97, 98, 97, 98, 99] = [0, 1]
      ∧ reported .mwm (addPatterns nestedAsked).reverse [97, 98, 97, 98, 99] = [1, 0] := by
  have harr : SortedFrom (addPatterns nestedAsked) (addPatterns nestedAsked).reverse :=
    ⟨List.reverse_perm _, by decide⟩
  refine ⟨(engines_agree_iff nestedAsked _ [97, 98, 97, 98, 99] harr).2 ?_, by decide, by decide⟩
  intro p hp a ha _
  have hp' : p = ⟨[97, 98, 99], 0, 32767, 0, by decide⟩ ∨ p = ⟨[97, 98], 0, 3, 1, by decide⟩ := by
    simpa [addPatterns, nestedAsked, mwmAddPatternEx, mwmAddPattern, hashTableSize] using hp
  rcases hp' with rfl | rfl
  · refine ⟨fun s _ => Int.natCast_nonneg s, ⟨2, by decide⟩, 2, by decide, ?_⟩
    refine ⟨by unfold Patt.InWindow; decide, ?_⟩
    rintro ⟨q, hq, -, hwin⟩
    obtain rfl : q = ⟨[97, 98], 0, 3, 1, by decide⟩ := by
      simpa [addPatterns, nestedAsked, mwmAddPatternEx, mwmAddPattern, hashTableSize] using hq
    revert hwin
    unfold Patt.InWindow
    decide
  · refine ⟨fun s _ => Int.natCast_nonneg s, ⟨0, by decide⟩, 0, by decide, ?_⟩
    refine ⟨by unfold Patt.InWindow; decide, ?_⟩
    rintro ⟨q, hq, -⟩
    simp [addPatterns, nestedAsked, mwmAddPatternEx, mwmAddPattern, hashTableSize] at hq

/-- `ab` in the first two bytes. -/
def fillingAsked : List Asked := [⟨[97, 98], 0, 2⟩]

/-- `ab` from the second byte on. -/
def laterAsked : List Asked := [⟨[97, 98], 1, 0⟩]

/-- `ab` and `abc`. -/
def begunAsked : List Asked := [⟨[97, 98], 0, 0⟩, ⟨[97, 98, 99], 0, 0⟩]

/-- The engines do not agree on a pattern that fills its window, on one that occurs before its
    offset as well, and on one that begins with another one. -/
theorem engines_disagree :
    (SortedFrom (addPatterns fillingAsked) (addPatterns fillingAsked)
      ∧ reported .bm (addPatterns fillingAsked) [97, 98] = []
      ∧ reported .mwm (addPatterns fillingAsked) [97, 98] = [0]
      ∧ ¬ EnginesAgree fillingAsked (addPatterns fillingAsked) [97, 98])
    ∧ (SortedFrom (addPatterns laterAsked) (addPatterns laterAsked)
      ∧ reported .bm (addPatterns laterAsked) [97, 98, 97, 98] = []
      ∧ reported .mwm (addPatterns laterAsked) [97, 98, 97, 98] = [0]
      ∧ ¬ EnginesAgree laterAsked (addPatterns laterAsked) [97, 98, 97, 98])
    ∧ SortedFrom (addPatterns begunAsked) (addPatterns begunAsked)
      ∧ reported .bm (addPatterns begunAsked) [97, 98, 99] = [0, 1]
      ∧ reported .mwm (addPatterns begunAsked) [97, 98, 99] = [0]
      ∧ ¬ EnginesAgree begunAsked (addPatterns begunAsked) [97, 98, 99] := by
  refine ⟨⟨⟨.refl _, by decide⟩, by decide, by decide, fun h => ?_⟩,
    ⟨⟨.refl _, by decide⟩, by decide, by decide, fun h => ?_⟩,
    ⟨.refl _, by decide⟩, by decide, by decide, fun h => ?_⟩
  · exact absurd ((h.same 0).2 (by decide)) (by decide)
  · exact absurd ((h.same 0).2 (by decide)) (by decide)
  · exact absurd ((h.same 1).1 (by decide)) (by decide)

end Mwm
