/-
# The multi-pattern search

`mwm.c`: patterns of at least two bytes are collected in a list.  Up to four of them
are searched one by one with Boyer-Moore-Horspool tables; from five on they are sorted
and searched together, with a table of word shifts and groups of patterns by their
first word.  A find is handed to a callback.  The number of finds that the searches
return is read by no caller and left out.
-/
import OpenwrtAc.SkipSearch

open SkipSearch

namespace Mwm

variable {δ σ : Type}

/-! ## Patterns -/

/-- `mwm_patt_t`: the pattern, its window and the datum of its owner. -/
structure Patt (δ : Type) where
  psPat : List UInt8
  psOffset : ℤ
  psDepth : ℤ
  psData : δ
  two_le : 2 ≤ psPat.length

/-- `psLen`. -/
def Patt.psLen (p : Patt δ) : ℕ := p.psPat.length

/-- `HASH_TABLE_SIZE`. -/
def hashTableSize : ℕ := 65536

/-- `mwmAddPattern`: what it returns, and the list of patterns. -/
def mwmAddPattern (plist : List (Patt δ)) (patt : List UInt8) (offset deep : ℤ) (userData : δ)
    (unique : Bool) : ℤ × List (Patt δ) :=
  if h : 2 ≤ patt.length then
    if ¬ plist.length < hashTableSize - 1 then (-1, plist)
    else if unique && plist.any (fun p => p.psPat == patt) then (0, plist)
    else (1, plist ++ [⟨patt, offset, if deep = 0 then 32767 else deep, userData, h⟩])
  else (-2, plist)

/-- `mwmAddPatternEx`. -/
def mwmAddPatternEx (plist : List (Patt δ)) (patt : List UInt8) (offset deep : ℤ) (userData : δ) :
    ℤ × List (Patt δ) := mwmAddPattern plist patt offset deep userData false

/-- `mwmAddPatternUnique`. -/
def mwmAddPatternUnique (plist : List (Patt δ)) (patt : List UInt8) (offset deep : ℤ)
    (userData : δ) : ℤ × List (Patt δ) := mwmAddPattern plist patt offset deep userData true

/-- The sign of `bcompare`: byte by byte, a proper start of a sequence comes before it. -/
def bcompare : List UInt8 → List UInt8 → ℤ
  | [], [] => 0
  | [], _ :: _ => -1
  | _ :: _, [] => 1
  | a :: as, b :: bs => if a < b then -1 else if b < a then 1 else bcompare as bs

/-- `MTH_BM` and `MTH_MWM`. -/
inductive Method where
  | bm
  | mwm
deriving DecidableEq, Repr

/-- The method `mwmPrepPatterns` chooses for a number of patterns. -/
def Method.ofNum (n : ℕ) : Method := if n < 5 then .bm else .mwm

/-- `mwm_t` after `mwmPrepPatterns`: from five patterns on, the array is sorted. -/
structure Prepared (δ : Type) where
  patArray : List (Patt δ)
  sorted : Method.ofNum patArray.length = .mwm →
    patArray.Pairwise fun p q => bcompare p.psPat q.psPat ≤ 0

/-- `mwmPrepPatterns` can make this of the list: in which order `qsort` leaves equal patterns is
    open. -/
structure PreparedFrom (plist : List (Patt δ)) (m : Prepared δ) : Prop where
  perm : m.patArray.Perm plist
  bm : Method.ofNum plist.length = .bm → m.patArray = plist

/-! ## The tables -/

/-- `HASH16` at a position. -/
def hash16 (text : List UInt8) (i : ℕ) : ℕ := (text.getD i 0).toNat * 256 + (text.getD (i + 1) 0).toNat

/-- `MAX_PAT_LEN`. -/
def maxPatLen : ℕ := 32000

/-- `msShiftLen`. -/
def shiftLen (pats : List (Patt δ)) : ℕ :=
  min (pats.foldl (fun small p => min small p.psLen) maxPatLen) 255

/-- The entry of a word in `msShift2` after `mwmPrepBadWordTable`. -/
def msShift2 (pats : List (Patt δ)) (word : ℕ) : ℕ :=
  pats.foldl (fun shift p => (List.range (shiftLen pats - 1)).foldl (fun shift k =>
    if hash16 p.psPat k = word ∧ shiftLen pats - 2 - k < shift then shiftLen pats - 2 - k
    else shift) shift) (shiftLen pats - 1)

/-- The group of a word after `mwmPrepHashedPatternGroupsW`, empty for `HASH_EMPTY`: of each run
    of patterns with the word the table keeps the last. -/
def hashGroup (pats : List (Patt δ)) (word : ℕ) : List (Patt δ) :=
  (pats.foldl (fun (r : List (Patt δ) × Bool) p =>
    if hash16 p.psPat 0 = word then (if r.2 then r.1 ++ [p] else [p], true) else (r.1, false))
    ([], false)).1

/-- The entry of a byte in `bcShift` after `bmhPrepBmh`. -/
def bcShift (pat : List UInt8) (c : UInt8) : ℕ :=
  (List.range pat.length).foldl (fun shift k =>
    if pat[k]? = some c then pat.length - k - 1 else shift) pat.length

/-! ## The searches -/

/-- The test of one pattern in `mwmGroupMatch2`: it fits, its window is kept, and the bytes
    behind the hashed ones agree. -/
def pattMatch (p : Patt δ) (text : List UInt8) (t : ℕ) : Bool :=
  p.psLen ≤ text.length - t && p.psOffset ≤ t && t + p.psLen ≤ p.psOffset + p.psDepth
    && (text.drop (t + 2)).take (p.psLen - 2) == p.psPat.drop 2

/-- `mwmGroupMatch2`: the pattern whose callback is called, if any; after the first one that
    agrees the group is left, whatever the callback says. -/
def mwmGroupMatch2 (group : List (Patt δ)) (text : List UInt8) (t : ℕ) : Option (Patt δ) :=
  group.find? fun p => pattMatch p text t

/-- A callback: the datum of the pattern, where the pattern ends in the text, and the state it
    works on.  The searches for single patterns do not tell where they found theirs. -/
abbrev Callback (δ σ : Type) := δ → Option ℕ → σ → ℤ × σ

/-- The callback as a visitor of the common search: a negative answer ends it. -/
def Callback.common (call : Callback δ σ) (hit : δ × Option ℕ) (s : σ) : Bool × σ :=
  (decide ((call hit.1 hit.2 s).1 < 0), (call hit.1 hit.2 s).2)

/-- The callback as a visitor of the single searches: any answer but 0 ends them. -/
def Callback.single (call : Callback δ σ) (hit : δ × Option ℕ) (s : σ) : Bool × σ :=
  (decide ((call hit.1 hit.2 s).1 ≠ 0), (call hit.1 hit.2 s).2)

/-- `mwmSearchExBW`.  Behind the last shift there are at least two bytes left. -/
def mwmSearchExBW (pats : List (Patt δ)) (text : List UInt8) (call : Callback δ σ) (s : σ) : σ :=
  if text.length < shiftLen pats then s
  else skipLoop
    (fun t => (mwmGroupMatch2 (hashGroup pats (hash16 text t)) text t).map fun p =>
      (p.psData, some (t + p.psLen)))
    (fun t => msShift2 pats (hash16 text (t + shiftLen pats - 2)))
    call.common (text.length - (shiftLen pats - 1)) text.length 0 s

/-- `bmhSearch` for a pattern of two bytes or more. -/
def bmhSearch (pat text : List UInt8) : Option ℕ :=
  skipLoop (fun t => if (text.drop t).take pat.length == pat then some t else none)
    (fun t => bcShift pat (text.getD (t + (pat.length - 1)) 0))
    keepFirst (text.length - (pat.length - 1)) text.length 0 none

/-- The loop of `mwmSearch` over the single patterns. -/
def mwmSearchBM (text : List UInt8) (call : Callback δ σ) : List (Patt δ) → σ → σ
  | [], s => s
  | p :: pats, s =>
    match bmhSearch p.psPat text with
    | none => mwmSearchBM text call pats s
    | some i =>
      if p.psOffset ≤ i ∧ i + p.psLen < p.psOffset + p.psDepth then
        let r := call p.psData none s
        if r.1 ≠ 0 then r.2 else mwmSearchBM text call pats r.2
      else mwmSearchBM text call pats s

/-- `mwmSearch`. -/
def mwmSearch (m : Prepared δ) (text : List UInt8) (call : Callback δ σ) (s : σ) : σ :=
  match Method.ofNum m.patArray.length with
  | .bm => mwmSearchBM text call m.patArray s
  | .mwm => mwmSearchExBW m.patArray text call s

/-! ## What the searches find -/

/-- The pattern stands at the position, in its window. -/
def standsAt (text : List UInt8) (t : ℕ) (p : Patt δ) : Bool :=
  occursAt p.psPat text t && p.psOffset ≤ t && t + p.psLen ≤ p.psOffset + p.psDepth

/-- The common search has one find at a position, the first pattern of the array that stands
    there. -/
def commonHits (pats : List (Patt δ)) (text : List UInt8) : List (δ × Option ℕ) :=
  found (fun t => (pats.find? (standsAt text t)).map fun p => (p.psData, some (t + p.psLen)))
    0 text.length

/-- The first position at which a pattern occurs. -/
def firstAt (pat text : List UInt8) : Option ℕ :=
  (found (fun t => if occursAt pat text t then some t else none) 0 text.length).head?

/-- The single searches have one find for a pattern whose first occurrence is in its window and
    does not end with it. -/
def singleHit (text : List UInt8) (p : Patt δ) : Option (δ × Option ℕ) :=
  match firstAt p.psPat text with
  | none => none
  | some i =>
    if p.psOffset ≤ i ∧ i + p.psLen < p.psOffset + p.psDepth then some (p.psData, none) else none

/-- What a search finds, one after the other. -/
def hits (m : Prepared δ) (text : List UInt8) : List (δ × Option ℕ) :=
  match Method.ofNum m.patArray.length with
  | .bm => m.patArray.filterMap (singleHit text)
  | .mwm => commonHits m.patArray text

/-- The callback as a visitor. -/
def Callback.visitor (call : Callback δ σ) : Method → δ × Option ℕ → σ → Bool × σ
  | .bm => call.single
  | .mwm => call.common

/-! ## The table of word shifts -/

theorem Patt.psPat_ne_nil (p : Patt δ) : p.psPat ≠ [] :=
  List.length_pos_iff.1 (lt_of_lt_of_le Nat.zero_lt_two p.two_le)

/-- The least length is below all lengths. -/
theorem foldl_min_le (pats : List (Patt δ)) (n : ℕ) :
    pats.foldl (fun small p => min small p.psLen) n ≤ n
      ∧ ∀ p ∈ pats, pats.foldl (fun small p => min small p.psLen) n ≤ p.psLen := by
  induction pats generalizing n with
  | nil => exact ⟨le_refl _, fun p hp => absurd hp List.not_mem_nil⟩
  | cons q pats ih =>
    obtain ⟨hle, hall⟩ := ih (min n q.psLen)
    rw [List.foldl_cons]
    refine ⟨by omega, fun p hp => ?_⟩
    rcases List.mem_cons.1 hp with rfl | hp
    · omega
    · exact hall p hp

/-- No pattern is shorter than the shift length. -/
theorem shiftLen_le {pats : List (Patt δ)} {p : Patt δ} (hp : p ∈ pats) :
    shiftLen pats ≤ p.psLen := by
  have := (foldl_min_le pats maxPatLen).2 p hp
  unfold shiftLen
  omega

/-- The shift length is two at least. -/
theorem two_le_shiftLen (pats : List (Patt δ)) : 2 ≤ shiftLen pats := by
  have hfold : ∀ n, 2 ≤ n → 2 ≤ pats.foldl (fun small p => min small p.psLen) n := by
    induction pats with
    | nil => exact fun n hn => hn
    | cons q pats ih =>
      intro n hn
      have := q.two_le
      exact ih (min n q.psLen) (le_min hn this)
  have := hfold maxPatLen (by decide)
  unfold shiftLen
  omega

/-- One pattern's turn in the table lowers an entry, to each shift at which its word stands. -/
theorem foldl_shift_le (f : ℕ → ℕ) (g : ℕ → ℕ) (word : ℕ) (l : List ℕ) (n : ℕ) :
    l.foldl (fun shift k => if f k = word ∧ g k < shift then g k else shift) n ≤ n
      ∧ ∀ k ∈ l, f k = word →
        l.foldl (fun shift k => if f k = word ∧ g k < shift then g k else shift) n ≤ g k := by
  induction l generalizing n with
  | nil => exact ⟨le_refl _, fun k hk => absurd hk List.not_mem_nil⟩
  | cons a l ih =>
    rw [List.foldl_cons]
    obtain ⟨hle, hall⟩ := ih (if f a = word ∧ g a < n then g a else n)
    have hstep : (if f a = word ∧ g a < n then g a else n) ≤ n := by
      split
      next h => exact le_of_lt h.2
      · exact le_refl _
    refine ⟨hle.trans hstep, fun k hk hword => ?_⟩
    rcases List.mem_cons.1 hk with rfl | hk
    · refine hle.trans ?_
      split
      · exact le_refl _
      next h => exact not_lt.1 fun hlt => h ⟨hword, hlt⟩
    · exact hall k hk hword

theorem foldl_patts_le (step : ℕ → Patt δ → ℕ) (hstep : ∀ n p, step n p ≤ n)
    (pats : List (Patt δ)) (n : ℕ) : pats.foldl step n ≤ n := by
  induction pats generalizing n with
  | nil => exact le_refl _
  | cons q pats ih => exact (ih _).trans (hstep n q)

/-- A word that stands in a pattern is not shifted past that place. -/
theorem msShift2_le {pats : List (Patt δ)} {p : Patt δ} (hp : p ∈ pats) {k : ℕ}
    (hk : k < shiftLen pats - 1) :
    msShift2 pats (hash16 p.psPat k) ≤ shiftLen pats - 2 - k := by
  unfold msShift2
  have hturn : ∀ n (q : Patt δ), (List.range (shiftLen pats - 1)).foldl (fun shift j =>
      if hash16 q.psPat j = hash16 p.psPat k ∧ shiftLen pats - 2 - j < shift
      then shiftLen pats - 2 - j else shift) n ≤ n :=
    fun n q => (foldl_shift_le (fun j => hash16 q.psPat j) (fun j => shiftLen pats - 2 - j) _ _ n).1
  obtain ⟨before, after, hsplit⟩ := List.append_of_mem hp
  generalize shiftLen pats = m at hk hturn ⊢
  rw [hsplit, List.foldl_append, List.foldl_cons]
  refine (foldl_patts_le _ hturn after _).trans ?_
  exact (foldl_shift_le (fun j => hash16 p.psPat j) (fun j => m - 2 - j) _ _ _).2 k
    (List.mem_range.2 hk) rfl

/-- A shift stays below the shift length. -/
theorem msShift2_le_shiftLen (pats : List (Patt δ)) (word : ℕ) :
    msShift2 pats word ≤ shiftLen pats - 1 :=
  foldl_patts_le _ (fun n q =>
    (foldl_shift_le (fun j => hash16 q.psPat j) (fun j => shiftLen pats - 2 - j) word _ n).1) pats _

/-- Where a pattern occurs the text hashes alike. -/
theorem hash16_occursAt {pat text : List UInt8} {t : ℕ} (h : occursAt pat text t = true) {k : ℕ}
    (hk : k + 1 < pat.length) : hash16 text (t + k) = hash16 pat k := by
  have h0 := occursAt_iff.1 h k (by omega)
  have h1 := occursAt_iff.1 h (k + 1) hk
  rw [show t + (k + 1) = t + k + 1 by omega] at h1
  unfold hash16
  simp only [List.getD_eq_getElem?_getD, h0, h1]

/-- Nothing stands where the common search shifts past. -/
theorem shift_sound {pats : List (Patt δ)} {text : List UInt8} {t j : ℕ}
    (hj : j < msShift2 pats (hash16 text (t + shiftLen pats - 2))) {p : Patt δ} (hp : p ∈ pats) :
    occursAt p.psPat text (t + j) = false := by
  by_contra hocc
  rw [Bool.not_eq_false] at hocc
  have htwo := two_le_shiftLen pats
  have hle := msShift2_le_shiftLen pats (hash16 text (t + shiftLen pats - 2))
  have hlen : shiftLen pats ≤ p.psPat.length := shiftLen_le hp
  -- the word at the end of the window stands in the pattern
  have hword := hash16_occursAt hocc (k := shiftLen pats - 2 - j) (by omega)
  rw [show t + j + (shiftLen pats - 2 - j) = t + shiftLen pats - 2 by omega] at hword
  have hshift := msShift2_le hp (k := shiftLen pats - 2 - j) (by omega)
  rw [← hword] at hshift
  omega

/-! ## The groups -/

/-- The order of the array is an order of the first words. -/
theorem hash16_le_of_bcompare {a b : List UInt8} (ha : 2 ≤ a.length) (hb : 2 ≤ b.length)
    (h : bcompare a b ≤ 0) : hash16 a 0 ≤ hash16 b 0 := by
  match a, b, ha, hb with
  | a0 :: a1 :: as, b0 :: b1 :: bs, _, _ =>
    have ha1 := a1.toNat_lt
    have hb1 := b1.toNat_lt
    have hword : ∀ (x y : UInt8) (l : List UInt8), hash16 (x :: y :: l) 0 = x.toNat * 256 + y.toNat :=
      fun _ _ _ => rfl
    rw [hword, hword]
    by_cases h0 : a0 < b0
    · have := UInt8.lt_iff_toNat_lt.1 h0
      omega
    · by_cases h0' : b0 < a0
      · simp [bcompare, h0, h0'] at h
      · have heq : a0 = b0 := UInt8.le_antisymm (UInt8.not_lt.1 h0') (UInt8.not_lt.1 h0)
        subst heq
        by_cases h1' : b1 < a1
        · have h1 : ¬ a1 < b1 := UInt8.lt_asymm h1'
          simp [bcompare, h1, h1'] at h
        · have := UInt8.le_iff_toNat_le.1 (UInt8.not_lt.1 h1')
          omega

/-- In a sorted array the patterns with one first word stand together, and the group of the
    word is all of them. -/
theorem hashGroup_eq {pats : List (Patt δ)}
    (hsort : pats.Pairwise fun p q => hash16 p.psPat 0 ≤ hash16 q.psPat 0) (word : ℕ) :
    hashGroup pats word = pats.filter fun p => hash16 p.psPat 0 = word := by
  suffices h : pats.foldl (fun (r : List (Patt δ) × Bool) p =>
      if hash16 p.psPat 0 = word then (if r.2 then r.1 ++ [p] else [p], true) else (r.1, false))
      ([], false) = (pats.filter fun p => hash16 p.psPat 0 = word,
        (pats.getLast?.map fun p => decide (hash16 p.psPat 0 = word)).getD false) by
    rw [hashGroup, h]
  -- one pattern after the other, with whether the last one had the word
  induction pats using List.reverseRecOn with
  | nil => rfl
  | append_singleton pats p ih =>
    rw [List.pairwise_append] at hsort
    obtain ⟨hsort, -, hlast⟩ := hsort
    have hle : ∀ q ∈ pats, hash16 q.psPat 0 ≤ hash16 p.psPat 0 :=
      fun q hq => hlast q hq p (List.mem_singleton_self p)
    rw [List.foldl_append, ih hsort]
    simp only [List.foldl_cons, List.foldl_nil, List.filter_append, List.getLast?_append,
      List.getLast?_singleton, Option.some_or, Option.map_some, Option.getD_some]
    by_cases hp : hash16 p.psPat 0 = word
    · simp only [hp, if_true, List.filter_cons, decide_true, List.filter_nil]
      rcases List.eq_nil_or_concat pats with rfl | ⟨init, q, rfl⟩
      · rfl
      · rw [List.concat_eq_append, List.getLast?_append]
        simp only [List.getLast?_singleton, Option.some_or, Option.map_some, Option.getD_some]
        by_cases hq : hash16 q.psPat 0 = word
        · simp [hq]
        · -- a run that has ended is not taken up again
          have hnone : (init ++ [q]).filter (fun p => decide (hash16 p.psPat 0 = word)) = [] := by
            rw [List.filter_eq_nil_iff]
            intro r hr
            have hrq : hash16 r.psPat 0 ≤ hash16 q.psPat 0 := by
              rcases List.mem_append.1 hr with hr | hr
              · rw [List.concat_eq_append, List.pairwise_append] at hsort
                exact hsort.2.2 r hr q (List.mem_singleton_self q)
              · rw [List.mem_singleton.1 hr]
            have hqp := hle q (by simp)
            simp only [decide_eq_true_eq]
            omega
          simp [hq, hnone]
    · simp [hp]

/-- The hashed word and the bytes behind it are the pattern. -/
theorem occursAt_iff_hash16 {pat text : List UInt8} (hpat : 2 ≤ pat.length) {t : ℕ}
    (ht : t + 2 ≤ text.length) :
    occursAt pat text t = true ↔ hash16 pat 0 = hash16 text t
      ∧ (text.drop (t + 2)).take (pat.length - 2) = pat.drop 2 := by
  match pat, hpat with
  | p0 :: p1 :: rest, _ =>
    have hp0 := p0.toNat_lt
    have hp1 := p1.toNat_lt
    have ht0 := (text[t]).toNat_lt
    have ht1 := (text[t + 1]).toNat_lt
    have hdrop : text.drop t = text[t] :: text[t + 1] :: text.drop (t + 2) := by
      rw [List.drop_eq_getElem_cons (by omega), List.drop_eq_getElem_cons (by omega)]
    have hword : hash16 text t = text[t].toNat * 256 + text[t + 1].toNat := by
      unfold hash16
      rw [List.getD_eq_getElem?_getD, List.getD_eq_getElem?_getD,
        List.getElem?_eq_getElem (by omega), List.getElem?_eq_getElem (by omega)]
      rfl
    rw [occursAt, List.isPrefixOf_iff_prefix, hdrop, List.cons_prefix_cons, List.cons_prefix_cons,
      List.prefix_iff_eq_take, hword]
    change _ ↔ p0.toNat * 256 + p1.toNat = _ ∧ (text.drop (t + 2)).take rest.length = rest
    constructor
    · rintro ⟨h0, h1, hrest⟩
      exact ⟨by rw [h0, h1], hrest.symm⟩
    · rintro ⟨hhash, hrest⟩
      exact ⟨UInt8.toNat_inj.1 (by omega), UInt8.toNat_inj.1 (by omega), hrest.symm⟩

/-- In a group that is looked up by the word at a position, the test is whether the pattern
    stands there. -/
theorem pattMatch_eq {p : Patt δ} {text : List UInt8} {t : ℕ} (ht : t + 2 ≤ text.length) :
    (decide (hash16 p.psPat 0 = hash16 text t) && pattMatch p text t) = standsAt text t p := by
  have hiff := occursAt_iff_hash16 p.two_le ht
  rw [Bool.eq_iff_iff]
  unfold pattMatch standsAt Patt.psLen
  simp only [Bool.and_eq_true, decide_eq_true_eq, beq_iff_eq]
  rw [hiff]
  constructor
  · rintro ⟨hhash, ⟨⟨-, hoff⟩, hend⟩, htail⟩
    exact ⟨⟨⟨hhash, htail⟩, hoff⟩, hend⟩
  · rintro ⟨⟨⟨hhash, htail⟩, hoff⟩, hend⟩
    have hle := occursAt_le (hiff.2 ⟨hhash, htail⟩) p.psPat_ne_nil
    exact ⟨hhash, ⟨⟨by omega, hoff⟩, hend⟩, htail⟩

/-! ## The searches find what there is -/

/-- A pattern that stands ends inside the text. -/
theorem standsAt_le {text : List UInt8} {t : ℕ} {p : Patt δ} (h : standsAt text t p = true) :
    t + p.psLen ≤ text.length := by
  rw [standsAt, Bool.and_eq_true, Bool.and_eq_true] at h
  exact occursAt_le h.1.1 p.psPat_ne_nil

/-- The group of a position holds the pattern that stands there first. -/
theorem mwmGroupMatch2_eq {pats : List (Patt δ)}
    (hsort : pats.Pairwise fun p q => hash16 p.psPat 0 ≤ hash16 q.psPat 0) {text : List UInt8}
    {t : ℕ} (ht : t + 2 ≤ text.length) :
    mwmGroupMatch2 (hashGroup pats (hash16 text t)) text t = pats.find? (standsAt text t) := by
  rw [mwmGroupMatch2, hashGroup_eq hsort, List.find?_filter]
  congr 1
  funext p
  rw [← pattMatch_eq ht, Bool.decide_and, Bool.decide_eq_true, Bool.decide_eq_true]

/-- The common search hands over the first pattern at each position. -/
theorem mwmSearchExBW_eq {pats : List (Patt δ)}
    (hsort : pats.Pairwise fun p q => bcompare p.psPat q.psPat ≤ 0) (text : List UInt8)
    (call : Callback δ σ) (s : σ) :
    mwmSearchExBW pats text call s = visit call.common (commonHits pats text) s := by
  have htwo := two_le_shiftLen pats
  have hword : pats.Pairwise fun p q => hash16 p.psPat 0 ≤ hash16 q.psPat 0 :=
    hsort.imp fun {p q} h => hash16_le_of_bcompare p.two_le q.two_le h
  -- behind the last window no pattern fits
  have hhits : commonHits pats text = found (fun t => (pats.find? (standsAt text t)).map fun p =>
      (p.psData, some (t + p.psLen))) 0 (text.length - (shiftLen pats - 1)) := by
    refine found_shorten (by omega) fun t ht _ => ?_
    rw [Option.map_eq_none_iff, List.find?_eq_none]
    intro p hp hst
    have hle := standsAt_le hst
    have hlen : shiftLen pats ≤ p.psLen := shiftLen_le hp
    omega
  rw [mwmSearchExBW, hhits]
  by_cases hshort : text.length < shiftLen pats
  · rw [if_pos hshort, found_of_le (by omega)]
    rfl
  · rw [if_neg hshort]
    -- up to there the group of the position is the test
    have htest : ∀ t, 0 ≤ t → t < text.length - (shiftLen pats - 1) →
        (mwmGroupMatch2 (hashGroup pats (hash16 text t)) text t).map
          (fun p => (p.psData, some (t + p.psLen))) =
        (pats.find? (standsAt text t)).map (fun p => (p.psData, some (t + p.psLen))) := by
      intro t _ ht
      rw [mwmGroupMatch2_eq hword (by omega)]
    rw [skipLoop_eq ?_ (by omega), found_congr htest]
    intro t ht j hj hlt
    rw [htest (t + j) (Nat.zero_le _) hlt, Option.map_eq_none_iff, List.find?_eq_none]
    intro p hp hst
    rw [standsAt, shift_sound hj hp] at hst
    cases hst

/-! ## Single patterns -/

/-- A byte that stands in a pattern is not shifted past that place. -/
theorem bcShift_le {pat : List UInt8} {c : UInt8} {k : ℕ} (hk : k < pat.length)
    (hc : pat[k]? = some c) : bcShift pat c ≤ pat.length - k - 1 :=
  lastPlace_le (le_refl _) hk hc

/-- A shift of one pattern takes its length at most. -/
theorem bcShift_le_length (pat : List UInt8) (c : UInt8) : bcShift pat c ≤ pat.length := by
  unfold bcShift
  have hfold : ∀ (l : List ℕ) (n : ℕ), n ≤ pat.length →
      l.foldl (fun shift k => if pat[k]? = some c then pat.length - k - 1 else shift) n
        ≤ pat.length := by
    intro l
    induction l with
    | nil => exact fun n hn => hn
    | cons k l ih =>
      intro n hn
      rw [List.foldl_cons]
      refine ih _ ?_
      split
      · omega
      · exact hn
  exact hfold _ _ (le_refl _)

/-- The pattern does not occur where the search shifts past. -/
theorem bcShift_sound {pat text : List UInt8} (hpat : 2 ≤ pat.length) {t j : ℕ}
    (hj : j < bcShift pat (text.getD (t + (pat.length - 1)) 0)) :
    occursAt pat text (t + j) = false := by
  by_contra hocc
  rw [Bool.not_eq_false] at hocc
  have hle := bcShift_le_length pat (text.getD (t + (pat.length - 1)) 0)
  have hbyte := occursAt_iff.1 hocc (pat.length - 1 - j) (by omega)
  rw [show t + j + (pat.length - 1 - j) = t + (pat.length - 1) by omega] at hbyte
  have hget : pat[pat.length - 1 - j]? = some (text.getD (t + (pat.length - 1)) 0) := by
    rw [List.getD_eq_getElem?_getD, hbyte, List.getElem?_eq_getElem (by omega)]
    rfl
  have := bcShift_le (by omega) hget
  omega

/-- Comparing the bytes is asking for an occurrence. -/
theorem take_eq_iff_occursAt {pat text : List UInt8} {t : ℕ} :
    ((text.drop t).take pat.length == pat) = occursAt pat text t := by
  rw [Bool.eq_iff_iff, beq_iff_eq, occursAt, List.isPrefixOf_iff_prefix, List.prefix_iff_eq_take]
  exact eq_comm

/-- A single search finds the first occurrence. -/
theorem bmhSearch_eq {pat : List UInt8} (hpat : 2 ≤ pat.length) (text : List UInt8) :
    bmhSearch pat text = firstAt pat text := by
  have hne : pat ≠ [] := List.length_pos_iff.1 (by omega)
  have hfirst : firstAt pat text = (found (fun t => if occursAt pat text t then some t else none) 0
      (text.length - (pat.length - 1))).head? := by
    rw [firstAt, found_shorten (by omega : text.length - (pat.length - 1) ≤ text.length)]
    intro t ht _
    refine if_neg fun hocc => ?_
    have := occursAt_le hocc hne
    omega
  rw [hfirst, ← visit_keepFirst, bmhSearch, skipLoop_eq ?_ (by omega)]
  · simp only [take_eq_iff_occursAt]
  · intro t _ j hj _
    rw [take_eq_iff_occursAt, bcShift_sound hpat hj]
    rfl

/-- The search by single patterns visits the first hit of each. -/
theorem mwmSearchBM_eq (text : List UInt8) (call : Callback δ σ) (pats : List (Patt δ)) (s : σ) :
    mwmSearchBM text call pats s = visit call.single (pats.filterMap (singleHit text)) s := by
  induction pats generalizing s with
  | nil => rfl
  | cons p pats ih =>
    rw [mwmSearchBM, bmhSearch_eq p.two_le, List.filterMap_cons, singleHit]
    cases firstAt p.psPat text with
    | none => exact ih s
    | some i =>
      by_cases hwin : p.psOffset ≤ i ∧ i + p.psLen < p.psOffset + p.psDepth
      · simp only [if_pos hwin, visit_cons, Callback.single, decide_eq_true_eq, ih]
      · simp only [if_neg hwin, ih]

/-- A search hands what it finds to the callback, one after the other, until the callback ends
    it. -/
theorem mwmSearch_eq (m : Prepared δ) (text : List UInt8) (call : Callback δ σ) (s : σ) :
    mwmSearch m text call s =
      visit (call.visitor (Method.ofNum m.patArray.length)) (hits m text) s := by
  unfold mwmSearch hits
  cases hmethod : Method.ofNum m.patArray.length with
  | bm => exact mwmSearchBM_eq text call m.patArray s
  | mwm => exact mwmSearchExBW_eq (m.sorted hmethod) text call s

/-- An automaton sees a pattern of the owner in a text: with few patterns the first occurrence
    has to be inside the window, with many the pattern has to be the first of the array that
    stands at a position. -/
def Prepared.Sees (m : Prepared δ) (text : List UInt8) (d : δ) : Prop :=
  ∃ p ∈ m.patArray, p.psData = d ∧
    match Method.ofNum m.patArray.length with
    | .bm => ∃ i, firstAt p.psPat text = some i
        ∧ p.psOffset ≤ i ∧ i + p.psLen < p.psOffset + p.psDepth
    | .mwm => ∃ t < text.length, m.patArray.find? (standsAt text t) = some p

/-- Which rules it visits. -/
theorem mem_singleHits {pats : List (Patt δ)} {text : List UInt8} {d : δ} :
    (∃ o, (d, o) ∈ pats.filterMap (singleHit text)) ↔ ∃ p ∈ pats, p.psData = d ∧
      ∃ i, firstAt p.psPat text = some i ∧ p.psOffset ≤ i
        ∧ i + p.psLen < p.psOffset + p.psDepth := by
  constructor
  · rintro ⟨o, ho⟩
    obtain ⟨p, hp, hhit⟩ := List.mem_filterMap.1 ho
    unfold singleHit at hhit
    split at hhit
    · cases hhit
    next i hi =>
      split at hhit
      next hwin =>
        cases hhit
        exact ⟨p, hp, rfl, i, hi, hwin⟩
      · cases hhit
  · rintro ⟨p, hp, rfl, i, hi, hwin⟩
    refine ⟨none, List.mem_filterMap.2 ⟨p, hp, ?_⟩⟩
    rw [singleHit, hi]
    exact if_pos hwin

/-- Which rules the search by groups visits. -/
theorem mem_commonHits {pats : List (Patt δ)} {text : List UInt8} {d : δ} {o : Option ℕ} :
    (d, o) ∈ commonHits pats text ↔ ∃ t < text.length, ∃ p,
      pats.find? (standsAt text t) = some p ∧ p.psData = d ∧ o = some (t + p.psLen) := by
  unfold commonHits
  rw [mem_found]
  constructor
  · rintro ⟨t, -, ht, hhit⟩
    obtain ⟨p, hp, heq⟩ := Option.map_eq_some_iff.1 hhit
    cases heq
    exact ⟨t, ht, p, hp, rfl, rfl⟩
  · rintro ⟨t, ht, p, hp, rfl, rfl⟩
    exact ⟨t, t.zero_le, ht, by rw [hp]; rfl⟩

/-- What is seen is what the search finds. -/
theorem mem_hits_iff_sees {m : Prepared δ} {text : List UInt8} {d : δ} :
    d ∈ (hits m text).map Prod.fst ↔ m.Sees text d := by
  have hmap : d ∈ (hits m text).map Prod.fst ↔ ∃ o, (d, o) ∈ hits m text := by
    simp
  rw [hmap]
  unfold hits Prepared.Sees
  cases Method.ofNum m.patArray.length with
  | bm => exact mem_singleHits
  | mwm =>
    simp only [mem_commonHits]
    constructor
    · rintro ⟨-, t, ht, p, hp, rfl, -⟩
      exact ⟨p, List.mem_of_find?_eq_some hp, rfl, t, ht, hp⟩
    · rintro ⟨p, -, rfl, t, ht, hp⟩
      exact ⟨_, t, ht, p, hp, rfl, rfl⟩

end Mwm
