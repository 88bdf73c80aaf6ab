/-
# The search for one pattern (`nproto/src/bmh.c`)

`BMHInit` makes a table of shifts for a pattern, and `BMHChr` compares the pattern from the
right, at positions that the table lets it jump to.  The memory and the `int`s of the two
functions are explicit here: an access outside of the pattern or of the buffer and a sum that
is no `int` are not defined.
-/
import OpenwrtAc.NprotoHttp
import OpenwrtAc.Outcome

open SkipSearch Outcome

namespace Bmh

/-- Why a run gives no result; `fuel` is the bound on the rounds of its loops. -/
inductive Stop
  | undefined
  | fuel
  deriving DecidableEq

/-- `area[i]`, where the memory behind the pointer has these bytes. -/
def readAt (area : List UInt8) (i : ℤ) : Except Stop UInt8 :=
  if 0 ≤ i then
    match area[i.toNat]? with
    | some c => .ok c
    | none => .error .undefined
  else .error .undefined

/-- The sum of two `int`s. -/
def addInt (x y : ℤ) : Except Stop ℤ :=
  if -2 ^ 31 ≤ x + y ∧ x + y < 2 ^ 31 then .ok (x + y) else .error .undefined

/-- `struct BMH`; the table has an entry for each byte. -/
structure BMH where
  m : ℤ
  patt : List UInt8
  d : UInt8 → ℤ

/-- The second loop of `BMHInit`. -/
def fillTable (m : ℤ) (patt : List UInt8) : ℕ → ℤ → (UInt8 → ℤ) → Except Stop (UInt8 → ℤ)
  | 0, _, _ => .error .fuel
  | fuel + 1, k, d =>
    if k < m - 1 then do
      let c ← readAt patt k
      fillTable m patt fuel (k + 1) fun c' => if c = c' then m - k - 1 else d c'
    else .ok d

/-- `BMHInit`. -/
def bmhInit (fuel : ℕ) (patt : List UInt8) (nlen : ℤ) : Except Stop BMH := do
  let d ← fillTable nlen patt fuel 0 fun _ => nlen
  return { m := nlen, patt, d }

/-- The inner loop of `BMHChr`, with its `i` and `j`. -/
def compareBack (bmh : BMH) (buf : List UInt8) : ℕ → ℤ → ℤ → Except Stop (ℤ × ℤ)
  | 0, _, _ => .error .fuel
  | fuel + 1, i, j =>
    if 0 ≤ j then do
      let b ← readAt buf i
      let p ← readAt bmh.patt j
      if b = p then compareBack bmh buf fuel (i - 1) (j - 1) else .ok (i, j)
    else .ok (i, j)

/-- The outer loop; a position is the index in the buffer. -/
def searchFrom (bmh : BMH) (buf : List UInt8) (nlen : ℤ) (rounds : ℕ) :
    ℕ → ℤ → Except Stop (Option ℤ)
  | 0, _ => .error .fuel
  | fuel + 1, k =>
    if k < nlen then do
      let (i, j) ← compareBack bmh buf rounds k (bmh.m - 1)
      if j = -1 then .ok (some (i + 1))
      else do
        let c ← readAt buf k
        let k' ← addInt k (bmh.d c)
        searchFrom bmh buf nlen rounds fuel k'
    else .ok none

/-- `BMHChr`. -/
def bmhChr (fuel : ℕ) (bmh : BMH) (buf : List UInt8) (nlen : ℤ) : Except Stop (Option ℤ) :=
  if nlen < bmh.m then .ok none else searchFrom bmh buf nlen fuel fuel (bmh.m - 1)

/-- `BMHInit` for a pattern and `BMHChr` after it. -/
def find (fuel : ℕ) (patt buf : List UInt8) (nlen : ℤ) : Except Stop (Option ℤ) := do
  let bmh ← bmhInit fuel patt patt.length
  bmhChr fuel bmh buf nlen

/-! ## Memory -/

theorem ok_bind {α β : Type} (a : α) (f : α → Except Stop β) : (.ok a >>= f) = f a := rfl

/-- Reading at an index where a byte stands. -/
theorem readAt_natCast {area : List UInt8} {i : ℕ} {c : UInt8} (h : area[i]? = some c) :
    readAt area i = .ok c := by
  rw [readAt, if_pos (Int.natCast_nonneg i), Int.toNat_natCast, h]

/-- Reading inside the area. -/
theorem readAt_lt {area : List UInt8} {i : ℕ} (h : i < area.length) :
    readAt area i = .ok area[i] :=
  readAt_natCast (List.getElem?_eq_getElem h)

/-- A sum below the bound is that of the integers. -/
theorem addInt_of_lt {x y : ℤ} (hx : 0 ≤ x) (hy : 0 ≤ y) (h : x + y < 2 ^ 31) :
    addInt x y = .ok (x + y) := if_pos ⟨by omega, h⟩

/-- A sum from the bound on is undefined. -/
theorem addInt_of_le {x y : ℤ} (h : 2 ^ 31 ≤ x + y) : addInt x y = .error .undefined :=
  if_neg (by omega)

/-! ## The table -/

/-- The entry of a byte when the loop has gone through the first places of the pattern. -/
def entry (patt : List UInt8) (n : ℕ) (c : UInt8) : ℕ :=
  (List.range n).foldl (fun d k => if patt[k]? = some c then patt.length - k - 1 else d)
    patt.length

/-- One more byte of the pattern changes the entry of that byte only. -/
theorem entry_succ (patt : List UInt8) (n : ℕ) (c : UInt8) :
    entry patt (n + 1) c =
      if patt[n]? = some c then patt.length - n - 1 else entry patt n c := by
  rw [entry, List.range_succ, List.foldl_append]
  rfl

/-- The loop over the pattern fills the table with the shifts. -/
theorem fillTable_eq {patt : List UInt8} (hne : patt ≠ []) {fuel k : ℕ}
    (hk : k ≤ patt.length - 1) (hfuel : patt.length - 1 - k < fuel) :
    fillTable patt.length patt fuel k (fun c => entry patt k c) =
      .ok fun c => NpRules.bmhShift patt c := by
  have hpos := List.length_pos_iff.2 hne
  induction fuel generalizing k with
  | zero => omega
  | succ fuel ih =>
    rw [fillTable]
    by_cases hlast : k = patt.length - 1
    · rw [if_neg (by omega), hlast]
      rfl
    · have hlt : k < patt.length := by omega
      have hnext : (fun c' => if patt[k] = c' then (patt.length : ℤ) - k - 1 else entry patt k c') =
          fun c' => (entry patt (k + 1) c' : ℤ) := by
        funext c'
        rw [entry_succ, List.getElem?_eq_getElem hlt]
        by_cases hc : patt[k] = c'
        · rw [if_pos hc, if_pos (congrArg some hc)]
          omega
        · rw [if_neg hc, if_neg fun h => hc (Option.some.inj h)]
      rw [if_pos (by omega), readAt_lt hlt]
      show fillTable patt.length patt fuel ((k + 1 : ℕ) : ℤ) _ = _
      rw [hnext]
      exact ih (by omega) (by omega)

/-- A pattern with the table of its shifts. -/
def prepared (patt : List UInt8) : BMH where
  m := patt.length
  patt := patt
  d c := NpRules.bmhShift patt c

@[simp] theorem prepared_m (patt : List UInt8) : (prepared patt).m = patt.length := rfl

@[simp] theorem prepared_d (patt : List UInt8) (c : UInt8) :
    (prepared patt).d c = NpRules.bmhShift patt c := rfl

/-- What the initialisation leaves. -/
theorem bmhInit_eq {patt : List UInt8} (hne : patt ≠ []) {fuel : ℕ} (hfuel : patt.length ≤ fuel) :
    bmhInit fuel patt patt.length = .ok (prepared patt) := by
  have hpos := List.length_pos_iff.2 hne
  have htable : fillTable patt.length patt fuel 0 (fun _ => patt.length) =
      .ok fun c => NpRules.bmhShift patt c := fillTable_eq hne (Nat.zero_le _) (by omega)
  rw [bmhInit, htable]
  rfl

/-! ## Comparing at a position -/

/-- The pattern from its first place up to one stands at the position. -/
def agrees (patt buf : List UInt8) (t n : ℕ) : Prop := ∀ i < n, buf[t + i]? = patt[i]?

/-- The comparison runs back until the bytes differ. -/
theorem compareBack_eq (bmh : BMH) {buf : List UInt8} {t n fuel : ℕ}
    (hn : n ≤ bmh.patt.length) (hbuf : t + n ≤ buf.length) (hfuel : n < fuel) :
    ∃ r : ℕ, compareBack bmh buf fuel (t + n - 1) (n - 1) = .ok (t + r - 1, r - 1) ∧
      (r = 0 ↔ agrees bmh.patt buf t n) := by
  induction n generalizing fuel with
  | zero =>
    obtain ⟨fuel, rfl⟩ := Nat.exists_eq_add_of_lt hfuel
    refine ⟨0, ?_, iff_of_true rfl fun i hi => absurd hi (Nat.not_lt_zero i)⟩
    rw [compareBack, if_neg (by omega)]
  | succ n ih =>
    obtain ⟨fuel, rfl⟩ := Nat.exists_eq_add_of_lt hfuel
    have hi : (t : ℤ) + (n + 1 : ℕ) - 1 = (t + n : ℕ) := by omega
    have hj : ((n + 1 : ℕ) : ℤ) - 1 = n := by omega
    rw [compareBack, hi, hj, if_pos (Int.natCast_nonneg n), readAt_lt (by omega),
      readAt_lt (by omega), ok_bind, ok_bind]
    by_cases heq : buf[t + n] = bmh.patt[n]
    · obtain ⟨r, hr, hiff⟩ := ih (by omega) (by omega) (show n < n + 1 + fuel by omega)
      refine ⟨r, ?_, hiff.trans ?_⟩
      · rw [if_pos heq, ← hr]
        congr 1
      · constructor
        · intro h i hin
          rcases Nat.lt_succ_iff_lt_or_eq.mp hin with hin | rfl
          · exact h i hin
          · rw [List.getElem?_eq_getElem (by omega), List.getElem?_eq_getElem (by omega), heq]
        · exact fun h i hin => h i (by omega)
    · refine ⟨n + 1, ?_, iff_of_false (Nat.succ_ne_zero n) fun h => heq ?_⟩
      · rw [if_neg heq, hi, hj]
      · have := h n (Nat.lt_succ_self n)
        rw [List.getElem?_eq_getElem (by omega), List.getElem?_eq_getElem (by omega)] at this
        exact Option.some.inj this

/-- It runs to the start exactly where the pattern occurs. -/
theorem compareBack_prepared {patt buf : List UInt8} {t fuel : ℕ}
    (hbuf : t + patt.length ≤ buf.length) (hfuel : patt.length < fuel) :
    ∃ r : ℕ, compareBack (prepared patt) buf fuel (t + patt.length - 1) (patt.length - 1) =
        .ok (t + r - 1, r - 1) ∧ (r = 0 ↔ occursAt patt buf t = true) := by
  obtain ⟨r, hr, hiff⟩ := compareBack_eq (prepared patt) (Nat.le_refl patt.length) hbuf hfuel
  exact ⟨r, hr, hiff.trans occursAt_iff.symm⟩

/-! ## The search -/

/-- A round at a position where the pattern does not stand. -/
theorem searchFrom_miss {patt buf : List UInt8} (hne : patt ≠ []) {rounds fuel t : ℕ}
    (hrounds : patt.length < rounds) (hbuf : t + patt.length ≤ buf.length)
    (hocc : occursAt patt buf t = false) :
    searchFrom (prepared patt) buf buf.length rounds (fuel + 1) (t + patt.length - 1) =
      addInt (t + patt.length - 1) (NpRules.bmhShift patt (buf.getD (t + (patt.length - 1)) 0))
        >>= searchFrom (prepared patt) buf buf.length rounds fuel := by
  have hpos := List.length_pos_iff.2 hne
  obtain ⟨r, hr, hiff⟩ := compareBack_prepared hbuf hrounds
  have hr0 : r ≠ 0 := by
    intro h
    rw [hiff.mp h] at hocc
    cases hocc
  have hk : ((t : ℤ) + patt.length - 1) = (t + (patt.length - 1) : ℕ) := by omega
  have hread : readAt buf (t + (patt.length - 1) : ℕ) =
      .ok (buf.getD (t + (patt.length - 1)) 0) := by
    rw [List.getD_eq_getElem?_getD, List.getElem?_eq_getElem (by omega)]
    exact readAt_lt (by omega)
  rw [searchFrom, if_pos (by omega), prepared_m, hr]
  rw [ok_bind]
  dsimp only
  rw [if_neg (by omega), hk, hread, ok_bind, prepared_d]

/-- The search ends at an occurrence. -/
theorem searchFrom_hit {patt buf : List UInt8} (hne : patt ≠ []) {rounds fuel t : ℕ}
    (hrounds : patt.length < rounds) (hbuf : t + patt.length ≤ buf.length)
    (hocc : occursAt patt buf t = true) :
    searchFrom (prepared patt) buf buf.length rounds (fuel + 1) (t + patt.length - 1) =
      .ok (some t) := by
  have hpos := List.length_pos_iff.2 hne
  obtain ⟨r, hr, hiff⟩ := compareBack_prepared hbuf hrounds
  obtain rfl : r = 0 := hiff.mpr hocc
  rw [searchFrom, if_pos (by omega), prepared_m, hr]
  rw [ok_bind]
  dsimp only
  rw [if_pos (by omega), show (t : ℤ) + (0 : ℕ) - 1 + 1 = t by omega]

/-- What the test at the positions finds. -/
def stands (patt buf : List UInt8) (t : ℕ) : Option ℕ :=
  if occursAt patt buf t then some t else none

/-- Between two positions of the search the pattern does not occur. -/
theorem stands_skip {patt buf : List UInt8} (hne : patt ≠ []) {t j : ℕ} (hjpos : 0 < j)
    (hj : j < NpRules.bmhShift patt (buf.getD (t + (patt.length - 1)) 0)) :
    stands patt buf (t + j) = none := by
  rw [stands, NpRules.bmhShift_sound hne hjpos hj]
  rfl

/-- The search finds what the test of all the positions finds first, where its sums are all
`int`s. -/
theorem searchFrom_eq {patt buf : List UInt8} (hne : patt ≠ [])
    (hint : patt.length + buf.length ≤ 2 ^ 31) {rounds fuel t : ℕ}
    (hrounds : patt.length < rounds) (hfuel : buf.length - (patt.length - 1) - t < fuel) :
    searchFrom (prepared patt) buf buf.length rounds fuel (t + patt.length - 1) =
      .ok ((found (stands patt buf) t (buf.length - (patt.length - 1))).head?.map Nat.cast) := by
  have hpos := List.length_pos_iff.2 hne
  induction fuel generalizing t with
  | zero => omega
  | succ fuel ih =>
    by_cases hlt : t < buf.length - (patt.length - 1)
    · cases hocc : occursAt patt buf t with
      | true =>
        rw [searchFrom_hit hne hrounds (by omega) hocc, found_of_lt hlt, stands, if_pos hocc]
        rfl
      | false =>
        have hshift := NpRules.bmhShift_bounds hne (buf.getD (t + (patt.length - 1)) 0)
        have hskip : ∀ j < NpRules.bmhShift patt (buf.getD (t + (patt.length - 1)) 0),
            t + j < buf.length - (patt.length - 1) → stands patt buf (t + j) = none := by
          intro j hj _
          rcases Nat.eq_zero_or_pos j with rfl | hjpos
          · rw [stands, Nat.add_zero, hocc]
            rfl
          · exact stands_skip hne hjpos hj
        have hadd : addInt (t + patt.length - 1)
            (NpRules.bmhShift patt (buf.getD (t + (patt.length - 1)) 0)) =
              .ok ((t + NpRules.bmhShift patt (buf.getD (t + (patt.length - 1)) 0) : ℕ) +
                patt.length - 1) := by
          rw [addInt_of_lt (by omega) (by omega) (by omega)]
          congr 1
          omega
        rw [searchFrom_miss hne hrounds (by omega) hocc, found_skip hskip, hadd]
        exact ih (by omega)
    · rw [searchFrom, if_neg (by omega), found_of_le (by omega)]
      rfl

/-! ## `BMHChr` after `BMHInit` -/

/-- A search with a fresh table is a search with the prepared one. -/
theorem find_eq_bmhChr {patt : List UInt8} (hne : patt ≠ []) {fuel : ℕ}
    (hfuel : patt.length ≤ fuel) (buf : List UInt8) (nlen : ℤ) :
    find fuel patt buf nlen = bmhChr fuel (prepared patt) buf nlen := by
  rw [find, bmhInit_eq hne hfuel, ok_bind]

/-- The search over positions is the one that the rules use. -/
theorem head?_found_stands {patt : List UInt8} (hne : patt ≠ []) (buf : List UInt8) :
    (found (stands patt buf) 0 (buf.length - (patt.length - 1))).head? =
      NpRules.bmhChr patt buf := by
  have hpos := List.length_pos_iff.2 hne
  rw [NpRules.bmhChr]
  split
  · rw [found_of_le (by omega)]
    rfl
  · simp only [Mwm.take_eq_iff_occursAt]
    exact (hopLoop_eq (fun t _ => (NpRules.bmhShift_bounds hne _).1)
      (fun t _ j hjpos hj _ => stands_skip hne hjpos hj) (by omega)).symm

/-- Where the sums fit, the code finds the first occurrence. -/
theorem find_eq {patt buf : List UInt8} (hne : patt ≠ []) {nlen : ℤ}
    (hlen : buf.length = nlen.toNat)
    (hfit : nlen < patt.length ∨ patt.length + nlen ≤ 2 ^ 31) {fuel : ℕ}
    (hfuel : patt.length + buf.length < fuel) :
    find fuel patt buf nlen = .ok ((NpRules.bmhChr patt buf).map Nat.cast) := by
  have hpos := List.length_pos_iff.2 hne
  rw [find_eq_bmhChr hne (by omega), bmhChr, prepared_m, ← head?_found_stands hne]
  by_cases hshort : nlen < patt.length
  · rw [if_pos hshort, found_of_le (by omega)]
    rfl
  · have hstart : ((patt.length : ℤ) - 1) = (0 : ℕ) + patt.length - 1 := by omega
    rw [if_neg hshort, hstart, show nlen = buf.length by omega]
    exact searchFrom_eq hne (by omega) (by omega) (by omega)

/-- The run that a pattern and a buffer with its length shall have: it ends, and it reads
nothing outside of the two, with the leftmost position where the pattern stands. -/
def Finds (patt buf : List UInt8) (nlen : ℤ) : Prop :=
  ∃ r : Option ℕ,
    (∀ fuel, patt.length + buf.length < fuel → find fuel patt buf nlen = .ok (r.map Nat.cast)) ∧
    (∀ t, r = some t ↔ occursAt patt buf t = true ∧ ∀ t' < t, occursAt patt buf t' = false) ∧
    (r = none ↔ ∀ t, occursAt patt buf t = false)

/-- So the condition is enough. -/
theorem finds_of_fit {patt buf : List UInt8} (hne : patt ≠ []) {nlen : ℤ}
    (hlen : buf.length = nlen.toNat)
    (hfit : nlen < patt.length ∨ patt.length + nlen ≤ 2 ^ 31) : Finds patt buf nlen := by
  refine ⟨NpRules.bmhChr patt buf, fun fuel => find_eq hne hlen hfit,
    fun t => NpRules.bmhChr_eq_some hne, ?_⟩
  constructor
  · intro hnone
    by_contra hex
    push Not at hex
    have hleast := Nat.find_spec hex
    have hsome : NpRules.bmhChr patt buf = some (Nat.find hex) := by
      refine (NpRules.bmhChr_eq_some hne).mpr ⟨by simpa using hleast, fun t' ht' => ?_⟩
      simpa using Nat.find_min hex ht'
    rw [hnone] at hsome
    cases hsome
  · intro hall
    cases hr : NpRules.bmhChr patt buf with
    | none => rfl
    | some t =>
      have := ((NpRules.bmhChr_eq_some hne).mp hr).1
      rw [hall t] at this
      cases this

/-! ## A sum that is no `int` -/

/-- Zeros and another byte behind them. -/
def endsIn (n : ℕ) (c : UInt8) : List UInt8 := List.replicate n 0 ++ [c]

@[simp] theorem length_endsIn (n : ℕ) (c : UInt8) : (endsIn n c).length = n + 1 := by
  simp [endsIn]

/-- The bytes of the sample area. -/
theorem mem_endsIn {n : ℕ} {c x : UInt8} (h : x ∈ endsIn n c) : x = 0 ∨ x = c := by
  simp only [endsIn, List.mem_append, List.mem_replicate, List.mem_singleton] at h
  rcases h with ⟨-, h⟩ | h
  · exact .inl h
  · exact .inr h

/-- Before its end the area holds zeroes. -/
theorem getElem?_endsIn_lt {n i : ℕ} {c : UInt8} (h : i < n) : (endsIn n c)[i]? = some 0 := by
  rw [endsIn, List.getElem?_append_left (by simpa using h), List.getElem?_replicate, if_pos h]

/-- At its end it holds the given byte. -/
theorem getElem?_endsIn_self (n : ℕ) (c : UInt8) : (endsIn n c)[n]? = some c := by
  rw [endsIn, List.getElem?_append_right (by simp)]
  simp

/-- A byte that is not in the pattern lets it jump over it. -/
theorem bmhShift_of_not_mem {patt : List UInt8} {c : UInt8} (hc : c ∉ patt) :
    NpRules.bmhShift patt c = patt.length := by
  show entry patt (patt.length - 1) c = patt.length
  generalize patt.length - 1 = n
  induction n with
  | zero => rfl
  | succ n ih =>
    rw [entry_succ, if_neg, ih]
    exact fun h => hc (List.mem_of_getElem? h)

/-- A zero shifts the pattern of the sample by one. -/
theorem bmhShift_endsIn_zero (p : ℕ) (c : UInt8) : NpRules.bmhShift (endsIn (p + 1) c) 0 = 1 := by
  show entry (endsIn (p + 1) c) ((endsIn (p + 1) c).length - 1) 0 = 1
  rw [length_endsIn, Nat.add_sub_cancel, entry_succ, if_pos (getElem?_endsIn_lt (by omega)),
    length_endsIn]
  omega

/-- The pattern of the sample occurs nowhere. -/
theorem occursAt_endsIn {p n : ℕ} (t : ℕ) : occursAt (endsIn p 1) (endsIn n 2) t = false := by
  by_contra h
  rw [Bool.not_eq_false] at h
  have hlast := occursAt_iff.mp h p (by simp)
  rw [getElem?_endsIn_self] at hlast
  rcases mem_endsIn (List.mem_of_getElem? hlast) with h | h
  · cases h
  · cases h

/-- The pattern goes over the zeros byte by byte, and from the last byte on it would go behind
the largest `int`. -/
theorem searchFrom_endsIn_ne {p n rounds : ℕ} (hover : 2 ^ 31 ≤ p + n + 2)
    (hrounds : p + 2 < rounds) {fuel t : ℕ} (ht : t + (p + 1) ≤ n) (r : Option ℤ) :
    searchFrom (prepared (endsIn (p + 1) 1)) (endsIn n 2) (endsIn n 2).length rounds fuel
      (t + (endsIn (p + 1) 1).length - 1) ≠ .ok r := by
  have hne : endsIn (p + 1) 1 ≠ [] := by simp [endsIn]
  induction fuel generalizing t with
  | zero => exact nofun
  | succ fuel ih =>
    have hroom : t + (endsIn (p + 1) 1).length ≤ (endsIn n 2).length := by
      rw [length_endsIn, length_endsIn]
      omega
    rw [searchFrom_miss hne (by simpa using hrounds) hroom (occursAt_endsIn t)]
    rcases Nat.lt_or_ge (t + (p + 1)) n with hlt | hge
    · have hbyte : (endsIn n 2).getD (t + ((endsIn (p + 1) 1).length - 1)) 0 = 0 := by
        rw [List.getD_eq_getElem?_getD, length_endsIn, Nat.add_sub_cancel,
          getElem?_endsIn_lt hlt]
        rfl
      rw [hbyte, bmhShift_endsIn_zero]
      intro hok
      obtain ⟨k, hk, hrun⟩ := bind_eq_ok.mp hok
      have hk : k = ((t + 1 : ℕ) : ℤ) + (endsIn (p + 1) 1).length - 1 := by
        rw [addInt] at hk
        split at hk
        · rw [← Except.ok.inj hk]
          omega
        · cases hk
      rw [hk] at hrun
      exact ih (by omega) hrun
    · obtain rfl : n = t + (p + 1) := by omega
      have hbyte : (endsIn (t + (p + 1)) 2).getD (t + ((endsIn (p + 1) 1).length - 1)) 0 = 2 := by
        rw [List.getD_eq_getElem?_getD, length_endsIn, Nat.add_sub_cancel, getElem?_endsIn_self]
        rfl
      have hmem : (2 : UInt8) ∉ endsIn (p + 1) 1 := by
        intro h
        rcases mem_endsIn h with h | h
        · cases h
        · cases h
      rw [hbyte, bmhShift_of_not_mem hmem, length_endsIn, addInt_of_le (by omega)]
      exact nofun

/-- Where the last sum exceeds an int, the search is undefined. -/
theorem not_finds_endsIn {p n : ℕ} (hle : p + 1 ≤ n) (hover : 2 ^ 31 ≤ p + n + 2) {nlen : ℤ}
    (hlen : nlen = n + 1) : ¬ Finds (endsIn (p + 1) 1) (endsIn n 2) nlen := by
  rintro ⟨r, hrun, -⟩
  have hne : endsIn (p + 1) 1 ≠ [] := by simp [endsIn]
  have hfuel : (endsIn (p + 1) 1).length + (endsIn n 2).length < p + n + 4 := by
    rw [length_endsIn, length_endsIn]
    omega
  have h := hrun (p + n + 4) hfuel
  have hm : ((endsIn (p + 1) 1).length : ℤ) = p + 2 := by
    rw [length_endsIn]
    omega
  have hstart : ((p : ℤ) + 2 - 1) = (0 : ℕ) + (endsIn (p + 1) 1).length - 1 := by
    rw [hm]
    omega
  rw [find_eq_bmhChr hne (by rw [length_endsIn]; omega), bmhChr, prepared_m, hm,
    if_neg (by omega), hstart,
    show nlen = (endsIn n 2).length by rw [length_endsIn, hlen]; omega] at h
  exact searchFrom_endsIn_ne hover (by omega) (by omega) _ h

/-- For a buffer that is not shorter than the pattern, the search is right for all patterns and
all buffers of two lengths where these are together at most `2 ^ 31`. -/
theorem finds_iff {m : ℕ} {nlen : ℤ} (hpos : 0 < m) (hint : nlen < 2 ^ 31) :
    (∀ patt buf, patt.length = m → buf.length = nlen.toNat → Finds patt buf nlen) ↔
      nlen < m ∨ m + nlen ≤ 2 ^ 31 := by
  constructor
  · intro h
    by_contra hfit
    push Not at hfit
    obtain ⟨p, rfl⟩ : ∃ p, m = p + 2 := ⟨m - 2, by omega⟩
    obtain ⟨n, rfl⟩ : ∃ n : ℕ, nlen = n + 1 := ⟨(nlen - 1).toNat, by omega⟩
    refine not_finds_endsIn (by omega) (by omega) rfl (h (endsIn (p + 1) 1) (endsIn n 2) ?_ ?_)
    · rw [length_endsIn]
    · rw [length_endsIn]
      omega
  · rintro hfit patt buf rfl hlen
    exact finds_of_fit (List.length_pos_iff.1 hpos) hlen hfit

/-- A line end in a request. -/
theorem finds_iff_crlf : Finds [13, 10] [71, 69, 84, 13, 10, 72] 6 :=
  (finds_iff (m := 2) (by decide) (by decide)).mpr (.inr (by decide)) _ _ rfl rfl

/-- The pattern `00 01` in zeros as long as an `int` says, with `02` at the end. -/
theorem not_finds_longest : ¬ Finds (endsIn 1 1) (endsIn (2 ^ 31 - 2) 2) (2 ^ 31 - 1) :=
  not_finds_endsIn (by omega) (by omega) (by omega)

end Bmh
