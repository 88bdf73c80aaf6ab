/-
# Groups of address ranges (`lualib-ac/ipops.lua`)

A group is a list of ranges.  `ipgroup_add` takes a range through the list: it swallows
what it meets, and what it does not meet is put before or behind it.
-/
import OpenwrtAc.Intervals
import OpenwrtAc.IpOps

open Intervals

namespace IpOps

/-- `{s, e}`. -/
abbrev Range := ℕ × ℕ

/-- `ipstr2range`, without the variable that it leaves the parts in. -/
def ipstr2range (ipstr : List Char) : Option Range :=
  match getPartsAsNumber ipstr with
  | [a, b, c, d] =>
    let i := ofParts a b c d
    some (i, i)
  | [a, b, c, d, n] =>
    if 1 ≤ n ∧ n ≤ 32 then
      let i := ofParts a b c d
      let m := cidr2int n
      some (band i m, bor i (bnot m))
    else
      none
  | [a, b, c, d, a', b', c', d'] =>
    let s := ofParts a b c d
    let e := ofParts a' b' c' d'
    if s ≤ e then some (s, e) else none
  | _ => none

/-- One round of the loop of `ipgroup_add`, on `ipgrp_new` and `range`. -/
def addRound (st : List Range × Range) (r : Range) : List Range × Range :=
  let ipgrpNew := st.1
  let range := st.2
  if range.1 < r.1 then
    if range.2 < r.1 then (ipgrpNew ++ [range], r)
    else if r.1 ≤ range.2 ∧ range.2 ≤ r.2 then (ipgrpNew, (range.1, r.2))
    else (ipgrpNew, range)
  else if r.1 ≤ range.1 ∧ range.1 ≤ r.2 then
    if range.2 ≤ r.2 then (ipgrpNew, (r.1, r.2))
    else if r.2 < range.2 then (ipgrpNew, (r.1, range.2))
    else (ipgrpNew, range)
  else (ipgrpNew ++ [r], range)

/-- `ipgroup_add`; the group can be `nil`. -/
def ipgroupAdd (ipgrp : Option (List Range)) (ipstr : List Char) : Option (List Range) :=
  match ipstr2range ipstr with
  | none => ipgrp
  | some range =>
    let ipgrp := ipgrp.getD []
    if ipgrp = [] then some [range]
    else
      let st := ipgrp.foldl addRound ([], range)
      some (st.1 ++ [st.2])

def ipranges2ipgroup (ipranges : List (List Char)) : Option (List Range) :=
  ipranges.foldl ipgroupAdd (some [])

/-- `%s-%s` of the ends. -/
def formatRange (range : Range) : List Char := int2ipstr range.1 ++ '-' :: int2ipstr range.2

def ipgroup2ipranges (ipgrp : List Range) : List (List Char) := ipgrp.map formatRange

/-! ## Strings of ranges -/

/-- The strings of ranges that are valid, with the addresses that they stand for. -/
inductive Denotes : List Char → Set ℕ → Prop
  | quad {s : List Char} {i : ℕ} (hs : Quad s i) : Denotes s {i}
  | cidr {s d : List Char} {i n : ℕ} (hs : Quad s i) (hd : Numeral d n) (hpos : 1 ≤ n)
    (hle : n ≤ 32) : Denotes (s ++ '/' :: d) {x | x / 2 ^ (32 - n) = i / 2 ^ (32 - n)}
  | span {s t : List Char} {i j : ℕ} (hs : Quad s i) (ht : Quad t j) (hle : i ≤ j) :
    Denotes (s ++ '-' :: t) (Set.Icc i j)

def Valid (s : List Char) : Prop := ∃ S, Denotes s S

/-- What the strings stand for together. -/
def addresses (strs : List (List Char)) : Set ℕ := {x | ∃ s ∈ strs, ∃ S, Denotes s S ∧ x ∈ S}

theorem ipstr2range_quad {s : List Char} {i : ℕ} (hs : Quad s i) :
    ipstr2range s = some (i, i) := by
  obtain ⟨x, y, z, w, rfl, hparts, -⟩ := hs.parts
  rw [ipstr2range, hparts]

theorem ipstr2range_cidr {s d : List Char} {i n : ℕ} (hs : Quad s i) (hd : Numeral d n)
    (hpos : 1 ≤ n) (hle : n ≤ 32) :
    ipstr2range (s ++ '/' :: d) = some (i / 2 ^ (32 - n) * 2 ^ (32 - n),
      i / 2 ^ (32 - n) * 2 ^ (32 - n) + (2 ^ (32 - n) - 1)) := by
  have hlt := hs.lt
  obtain ⟨x, y, z, w, rfl, -, hparts⟩ := hs.parts
  rw [ipstr2range, hparts '/' rfl, hd.parts]
  refine (if_pos ⟨hpos, hle⟩).trans ?_
  show some (band _ _, bor _ _) = _
  rw [band_cidr2int hlt hle, bor_bnot_cidr2int hlt hle]

theorem ipstr2range_span {s t : List Char} {i j : ℕ} (hs : Quad s i) (ht : Quad t j)
    (hle : i ≤ j) : ipstr2range (s ++ '-' :: t) = some (i, j) := by
  obtain ⟨x, y, z, w, rfl, -, hparts⟩ := hs.parts
  obtain ⟨x', y', z', w', rfl, hparts', -⟩ := ht.parts
  rw [ipstr2range, hparts '-' rfl, hparts']
  exact if_pos hle

/-- The addresses with the same first bits are an interval. -/
theorem icc_cidr (i k : ℕ) :
    Set.Icc (i / 2 ^ k * 2 ^ k) (i / 2 ^ k * 2 ^ k + (2 ^ k - 1)) =
      {x | x / 2 ^ k = i / 2 ^ k} := by
  have hpos : 0 < 2 ^ k := Nat.two_pow_pos k
  ext x
  rw [Set.mem_Icc, Set.mem_ofPred_eq, Nat.div_eq_iff hpos]
  omega

/-- A valid string is read as the interval of its addresses. -/
theorem Denotes.range {s : List Char} {S : Set ℕ} (h : Denotes s S) :
    ∃ r, ipstr2range s = some r ∧ r.1 ≤ r.2 ∧ Set.Icc r.1 r.2 = S := by
  cases h with
  | quad hs => exact ⟨_, ipstr2range_quad hs, le_rfl, Set.Icc_self _⟩
  | cidr hs hd hpos hle =>
    exact ⟨_, ipstr2range_cidr hs hd hpos hle, Nat.le_add_right _ _, icc_cidr _ _⟩
  | span hs ht hle => exact ⟨_, ipstr2range_span hs ht hle, hle, rfl⟩

/-! ## Adding a range -/

/-- What a round does: it leaves the range behind, takes in the other or skips it. -/
theorem addRound_cases (ipgrpNew : List Range) {range r : Range} (hrange : range.1 ≤ range.2)
    (hr : r.1 ≤ r.2) :
    (Before range r ∧ addRound (ipgrpNew, range) r = (ipgrpNew ++ [range], r)) ∨
    (r.1 ≤ range.2 ∧ range.1 ≤ r.2 ∧ addRound (ipgrpNew, range) r =
      (ipgrpNew, (min range.1 r.1, max range.2 r.2))) ∨
    (Before r range ∧ addRound (ipgrpNew, range) r = (ipgrpNew ++ [r], range)) := by
  unfold addRound
  by_cases hlt : range.1 < r.1
  · rw [if_pos hlt, min_eq_left hlt.le]
    by_cases hbefore : range.2 < r.1
    · exact .inl ⟨hbefore, if_pos hbefore⟩
    · rw [if_neg hbefore]
      have hmeet := not_lt.mp hbefore
      refine .inr (.inl ⟨hmeet, hlt.le.trans hr, ?_⟩)
      by_cases hle : range.2 ≤ r.2
      · rw [if_pos ⟨hmeet, hle⟩, max_eq_right hle]
      · rw [if_neg fun h => hle h.2, max_eq_left (not_le.mp hle).le]
  · rw [if_neg hlt]
    have hge := not_lt.mp hlt
    by_cases hmeet : range.1 ≤ r.2
    · rw [if_pos ⟨hge, hmeet⟩, min_eq_right hge]
      refine .inr (.inl ⟨hge.trans hrange, hmeet, ?_⟩)
      by_cases hle : range.2 ≤ r.2
      · rw [if_pos hle, max_eq_right hle]
      · rw [if_neg hle, if_pos (not_le.mp hle), max_eq_left (not_le.mp hle).le]
    · rw [if_neg fun h => hmeet h.2]
      exact .inr (.inr ⟨not_le.mp hmeet, rfl⟩)

/-- The whole loop. -/
theorem sweep (st : List Range × Range) {rest : List Range} (h : Sweeping st.1 st.2 rest) :
    Ordered ((rest.foldl addRound st).1 ++ [(rest.foldl addRound st).2]) ∧
      cover ((rest.foldl addRound st).1 ++ [(rest.foldl addRound st).2]) =
        swept st.1 st.2 rest := by
  induction rest generalizing st with
  | nil => exact ⟨h.ordered, swept_nil.symm⟩
  | cons r rest ih =>
    rw [List.foldl_cons]
    obtain ⟨hbefore, he⟩ | ⟨hr, hcur, he⟩ | ⟨hbefore, he⟩ :=
      addRound_cases st.1 h.proper h.todo.head
    · rw [he, ← swept_leave]
      exact ih (st.1 ++ [st.2], r) (h.leave hbefore)
    · rw [he, ← swept_absorb hr hcur]
      exact ih (st.1, (min st.2.1 r.1, max st.2.2 r.2)) h.absorb
    · rw [he, ← swept_skip]
      exact ih (st.1 ++ [r], st.2) (h.skip hbefore)

/-- A range whose string is added to a group in order. -/
theorem ipgroupAdd_ordered {g : List Range} (hg : Ordered g) {s : List Char} {range : Range}
    (hs : ipstr2range s = some range) (hrange : range.1 ≤ range.2) :
    ∃ g', ipgroupAdd (some g) s = some g' ∧ Ordered g' ∧
      cover g' = cover g ∪ Set.Icc range.1 range.2 := by
  have hsweep := sweep ([], range) (sweeping_nil hrange hg)
  have hadd : ipgroupAdd (some g) s = some
      ((g.foldl addRound ([], range)).1 ++ [(g.foldl addRound ([], range)).2]) := by
    rw [ipgroupAdd, hs]
    by_cases hnil : g = []
    · subst hnil
      rfl
    · exact if_neg hnil
  refine ⟨_, hadd, hsweep.1, hsweep.2.trans ?_⟩
  rw [swept, cover_nil, Set.empty_union, Set.union_comm]

theorem addresses_nil : addresses [] = ∅ := by
  ext x
  simp [addresses]

theorem Denotes.addresses_cons {s : List Char} {S : Set ℕ} (h : Denotes s S)
    (strs : List (List Char)) : addresses (s :: strs) = S ∪ addresses strs := by
  -- a string denotes one set only, which its range has
  have hone : ∀ T, Denotes s T → T = S := by
    intro T hT
    obtain ⟨r, hr, -, rfl⟩ := h.range
    obtain ⟨r', hr', -, rfl⟩ := hT.range
    rw [hr] at hr'
    rw [Option.some.inj hr']
  ext x
  constructor
  · rintro ⟨t, ht, T, hT, hx⟩
    rcases List.mem_cons.mp ht with rfl | ht
    · exact .inl (hone T hT ▸ hx)
    · exact .inr ⟨t, ht, T, hT, hx⟩
  · rintro (hx | ⟨t, ht, T, hT, hx⟩)
    · exact ⟨s, List.mem_cons_self, S, h, hx⟩
    · exact ⟨t, List.mem_cons_of_mem s ht, T, hT, hx⟩

/-- All of a list of valid strings. -/
theorem foldl_ipgroupAdd {strs : List (List Char)} (hstrs : ∀ s ∈ strs, Valid s)
    {g : List Range} (hg : Ordered g) :
    ∃ g', strs.foldl ipgroupAdd (some g) = some g' ∧ Ordered g' ∧
      cover g' = cover g ∪ addresses strs := by
  induction strs generalizing g with
  | nil => exact ⟨g, rfl, hg, by rw [addresses_nil, Set.union_empty]⟩
  | cons s strs ih =>
    obtain ⟨S, hS⟩ := hstrs s List.mem_cons_self
    obtain ⟨r, hr, hproper, rfl⟩ := hS.range
    obtain ⟨g₁, hadd, hg₁, hcover₁⟩ := ipgroupAdd_ordered hg hr hproper
    obtain ⟨g₂, hfold, hg₂, hcover₂⟩ := ih (fun t ht => hstrs t (List.mem_cons_of_mem s ht)) hg₁
    refine ⟨g₂, ?_, hg₂, ?_⟩
    · rw [List.foldl_cons, hadd, hfold]
    · rw [hcover₂, hcover₁, hS.addresses_cons, Set.union_assoc]

theorem ipranges2ipgroup_valid {strs : List (List Char)} (hstrs : ∀ s ∈ strs, Valid s) :
    ∃ g, ipranges2ipgroup strs = some g ∧ Ordered g ∧ cover g = addresses strs := by
  obtain ⟨g, hfold, hg, hcover⟩ := foldl_ipgroupAdd hstrs ordered_nil
  refine ⟨g, hfold, hg, ?_⟩
  rw [hcover, cover_nil, Set.empty_union]

/-! ## Reading a group back -/

theorem ipstr2range_formatRange {r : Range} (hle : r.1 ≤ r.2) (hlt : r.2 < 2 ^ 32) :
    ipstr2range (formatRange r) = some r :=
  ipstr2range_span (quad_int2ipstr (lt_of_le_of_lt hle hlt)) (quad_int2ipstr hlt) hle

/-- A range behind all others skips them. -/
theorem foldl_addRound_before {rest : List Range} {range : Range}
    (h : ∀ s ∈ rest, s.1 ≤ s.2 ∧ Before s range) (ipgrpNew : List Range) :
    rest.foldl addRound (ipgrpNew, range) = (ipgrpNew ++ rest, range) := by
  induction rest generalizing ipgrpNew with
  | nil => rw [List.append_nil, List.foldl_nil]
  | cons s rest ih =>
    obtain ⟨hproper, hbefore⟩ := h s List.mem_cons_self
    have hround : addRound (ipgrpNew, range) s = (ipgrpNew ++ [s], range) := by
      unfold addRound
      rw [if_neg (hproper.trans hbefore.le).not_gt, if_neg fun hm => hm.2.not_gt hbefore]
    rw [List.foldl_cons, hround, ih fun t ht => h t (List.mem_cons_of_mem s ht),
      List.append_assoc]
    rfl

theorem foldl_formatRange (done : List Range) {rest : List Range} (hg : Ordered (done ++ rest))
    (hlt : ∀ r ∈ rest, r.2 < 2 ^ 32) :
    (rest.map formatRange).foldl ipgroupAdd (some done) = some (done ++ rest) := by
  induction rest generalizing done with
  | nil => rw [List.append_nil, List.map_nil, List.foldl_nil]
  | cons r rest ih =>
    have hproper : r.1 ≤ r.2 := hg.proper r (List.mem_append_right _ List.mem_cons_self)
    have hbefore := (List.pairwise_append.mp hg.before).2.2
    have hadd : ipgroupAdd (some done) (formatRange r) = some (done ++ [r]) := by
      rw [ipgroupAdd, ipstr2range_formatRange hproper (hlt r List.mem_cons_self)]
      by_cases hnil : done = []
      · subst hnil
        rfl
      · refine (if_neg hnil).trans ?_
        rw [foldl_addRound_before]
        · rfl
        · intro s hs
          exact ⟨hg.proper s (List.mem_append_left _ hs), hbefore s hs r List.mem_cons_self⟩
    rw [List.map_cons, List.foldl_cons, hadd, ih (done ++ [r])]
    · rw [List.append_assoc]
      rfl
    · rw [List.append_assoc]
      exact hg
    · exact fun s hs => hlt s (List.mem_cons_of_mem r hs)

/-- Groups are in order and apart and have the addresses of the strings they are made of,
whatever the order of these; and a group that is in order and apart is read back from its
strings as it was. -/
theorem ipgroup_normal :
    (∀ strs, (∀ s ∈ strs, Valid s) → ∃ g, ipranges2ipgroup strs = some g ∧
      (∀ r ∈ g, r.1 ≤ r.2) ∧
      g.Pairwise (fun r s => r.1 ≤ s.1 ∧ Disjoint (Set.Icc r.1 r.2) (Set.Icc s.1 s.2)) ∧
      cover g = addresses strs) ∧
    (∀ strs strs', (∀ s ∈ strs, Valid s) → strs.Perm strs' → ∃ g g',
      ipranges2ipgroup strs = some g ∧ ipranges2ipgroup strs' = some g' ∧ cover g = cover g') ∧
    ∀ g : List Range, (∀ r ∈ g, r.1 ≤ r.2 ∧ r.2 < 2 ^ 32) →
      g.Pairwise (fun r s => r.1 ≤ s.1 ∧ Disjoint (Set.Icc r.1 r.2) (Set.Icc s.1 s.2)) →
      ipranges2ipgroup (ipgroup2ipranges g) = some g := by
  refine ⟨?_, ?_, ?_⟩
  · intro strs hstrs
    obtain ⟨g, hfold, hg, hcover⟩ := ipranges2ipgroup_valid hstrs
    exact ⟨g, hfold, hg.proper, (ordered_iff hg.proper).mp hg, hcover⟩
  · intro strs strs' hstrs hperm
    obtain ⟨g, hfold, -, hcover⟩ := ipranges2ipgroup_valid hstrs
    obtain ⟨g', hfold', -, hcover'⟩ :=
      ipranges2ipgroup_valid fun s hs => hstrs s (hperm.mem_iff.mpr hs)
    refine ⟨g, g', hfold, hfold', ?_⟩
    rw [hcover, hcover']
    ext x
    exact exists_congr fun s => and_congr_left' hperm.mem_iff
  · intro g hr hg
    have hordered := (ordered_iff fun r h => (hr r h).1).mpr hg
    exact foldl_formatRange [] hordered fun r h => (hr r h).2

/-- `10.0.0.0/8` and `9.9.9.9-10.0.0.1`, and two ranges side by side. -/
theorem ipgroup_normal_sample :
    (∃ g, ipranges2ipgroup
        [int2ipstr 0x0A000000 ++ '/' :: formatU 8, formatRange (0x09090909, 0x0A000001)] = some g ∧
      cover g = addresses
        [int2ipstr 0x0A000000 ++ '/' :: formatU 8, formatRange (0x09090909, 0x0A000001)]) ∧
    ipranges2ipgroup (ipgroup2ipranges [(1, 2), (3, 3)]) = some [(1, 2), (3, 3)] := by
  obtain ⟨hnormal, -, hread⟩ := ipgroup_normal
  constructor
  · have hcidr : Valid (int2ipstr 0x0A000000 ++ '/' :: formatU 8) :=
      ⟨_, .cidr (quad_int2ipstr (by decide)) (numeral_formatU 8) (by decide) (by decide)⟩
    have hspan : Valid (formatRange (0x09090909, 0x0A000001)) :=
      ⟨_, .span (quad_int2ipstr (by decide)) (quad_int2ipstr (by decide)) (by decide)⟩
    obtain ⟨g, hg, -, -, hcover⟩ := hnormal [_, _] (List.forall_mem_cons.mpr ⟨hcidr,
      List.forall_mem_cons.mpr ⟨hspan, nofun⟩⟩)
    exact ⟨g, hg, hcover⟩
  · refine hread [(1, 2), (3, 3)] (by decide) ?_
    refine .cons ?_ (List.pairwise_singleton _ _)
    intro s hs
    rw [List.mem_singleton.mp hs]
    exact ⟨by decide, Set.disjoint_left.mpr fun x hx hx' => by
      have := hx.2.trans_lt (show 2 < 3 by decide)
      exact absurd hx'.1 (not_le.mpr this)⟩

end IpOps
