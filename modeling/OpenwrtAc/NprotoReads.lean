/-
# What matching reads of a payload

`ctm_do` and `len_info_match` with the addresses that they read.  A pattern is looked for in
the window that a rule gives; where the window begins at the first byte, or the numbers of a
rule do not fit a short payload, this goes wrong.
-/
import OpenwrtAc.NprotoExtract

open SkipSearch

namespace NpRules

/-! ## Reads -/

/-- What was examined of a payload: the addresses of bytes, and the texts that the regex engine
    got, with their lengths as an `int`. -/
structure Seen where
  reads : List ℤ
  texts : List (ℤ × ℤ)

section Pcre

variable (pcreFind : List UInt8 → (ℤ → UInt8) → ℤ → ℤ → Option ℕ)

/-- `ctm_do` and what it examines, where `dump` is that `np_dump` is to print. -/
def ctmDoSeen (dump : Bool) (ctm : Match) (mem : ℤ → UInt8) (data dlen : ℤ) : Option ℤ × Seen :=
  let offset := if ctm.offset < 0 then ctm.offset + dlen else ctm.offset
  if ctm.offset < 0 ∧ offset ≤ 0 then (none, ⟨[], []⟩)
  else
    let mlen := if ctm.deep ≠ 0 ∧ dlen - offset > ctm.deep then (ctm.deep : ℤ) else dlen - offset
    match ctm.type with
    | .offset =>
      if mlen < ctm.patt.length then (none, ⟨[], []⟩)
      -- `memcmp`
      else if slice mem (data + offset) ctm.patt.length == ctm.patt then
        (some (data + offset), ⟨addrs (data + offset) ctm.patt.length, []⟩)
      else (none, ⟨addrs (data + offset) ctm.patt.length, []⟩)
    | .regexp =>
      match pcreFind ctm.patt mem (data + offset) mlen with
      | some m => (some (data + offset + m), ⟨[], [(data + offset, mlen)]⟩)
      | none => (none, ⟨if dump then addrs (data + offset) 16 else [], [(data + offset, mlen)]⟩)
    | .search =>
      let buf := slice mem (data + offset) mlen
      ((bmhChr ctm.patt buf).map fun m => data + offset + m,
        ⟨(bmhReads ctm.patt buf).map fun (i : ℕ) => data + offset + i, []⟩)

/-- It is `ctm_do`. -/
theorem ctmDoSeen_fst (dump : Bool) (ctm : Match) (mem : ℤ → UInt8) (data dlen : ℤ) :
    (ctmDoSeen pcreFind dump ctm mem data dlen).1 = ctmDo pcreFind ctm mem data dlen := by
  unfold ctmDoSeen ctmDo
  dsimp only
  generalize (if ctm.offset < 0 then ctm.offset + dlen else ctm.offset) = offset
  generalize (if ctm.deep ≠ 0 ∧ dlen - offset > ctm.deep then (ctm.deep : ℤ) else dlen - offset) = mlen
  by_cases hlow : ctm.offset < 0 ∧ offset ≤ 0
  · rw [if_pos hlow, if_pos hlow]
  rw [if_neg hlow, if_neg hlow]
  cases ctm.type with
  | offset =>
    dsimp only
    split
    · rfl
    · split <;> rfl
  | regexp => cases pcreFind ctm.patt mem (data + offset) mlen <;> rfl
  | search => rfl

end Pcre

/-- The addresses that `len_info_match` reads. -/
def lenInfoReads (lnm : LenMatch) (pkt : Packet) : List ℤ :=
  match lnm with
  | .match' offset _ width =>
    match width with
    | 1 => addrs (pkt.l7Ptr + offset) 1
    | 2 => addrs (pkt.l7Ptr + offset) 2
    | 4 => addrs (pkt.l7Ptr + offset) 4
    | _ => []
  | _ => []

/-- All of it is in a payload, and no length is negative. -/
structure Seen.Within (s : Seen) (data dlen : ℤ) : Prop where
  reads : ∀ a ∈ s.reads, data ≤ a ∧ a < data + dlen
  texts : ∀ t ∈ s.texts, 0 ≤ t.2 ∧ data ≤ t.1 ∧ t.1 + t.2 ≤ data + dlen

theorem addrs_within_iff {start data dlen : ℤ} {n : ℕ} (hn : 0 < n) :
    (∀ a ∈ addrs start n, data ≤ a ∧ a < data + dlen) ↔ data ≤ start ∧ start + n ≤ data + dlen := by
  simp only [mem_addrs]
  constructor
  · intro h
    have h0 := h start (by omega)
    have h1 := h (start + n - 1) (by omega)
    omega
  · rintro ⟨hlo, hhi⟩ a ⟨ha, ha'⟩
    omega

/-! ## Windows -/

/-- Where the window of a match begins in a payload of a length; a negative offset counts from the
    end. -/
def Match.start (ctm : Match) (dlen : ℤ) : ℤ := if ctm.offset < 0 then ctm.offset + dlen else ctm.offset

/-- Where it ends; a depth of 0 is none. -/
def Match.stop (ctm : Match) (dlen : ℤ) : ℤ := if ctm.deep = 0 then dlen else min dlen (ctm.start dlen + ctm.deep)

/-- The pattern stands at a position of the payload, in the window; that of a fixed match where
    the window begins. -/
structure Match.StandsAt (ctm : Match) (mem : ℤ → UInt8) (data dlen p : ℤ) : Prop where
  payload : 0 ≤ p
  start : ctm.start dlen ≤ p
  stop : p + ctm.patt.length ≤ ctm.stop dlen
  bytes : slice mem (data + p) ctm.patt.length = ctm.patt
  fixed : ctm.type = .offset → p = ctm.start dlen

/-- The address of the first such position, or none if there is none. -/
def Match.First (ctm : Match) (mem : ℤ → UInt8) (data dlen : ℤ) : Option ℤ → Prop
  | none => ∀ p, ¬ ctm.StandsAt mem data dlen p
  | some a => ∃ p, a = data + p ∧ ctm.StandsAt mem data dlen p ∧ ∀ q, ctm.StandsAt mem data dlen q → p ≤ q

/-- The length that is left behind the start of the window. -/
theorem Match.stop_sub_start (ctm : Match) (dlen : ℤ) :
    (if ctm.deep ≠ 0 ∧ dlen - ctm.start dlen > ctm.deep then (ctm.deep : ℤ) else dlen - ctm.start dlen) =
      ctm.stop dlen - ctm.start dlen := by
  unfold Match.stop
  by_cases h0 : ctm.deep = 0
  · rw [if_neg (fun h => h.1 h0), if_pos h0]
  · rw [if_neg h0]
    split <;> omega

theorem Match.stop_le (ctm : Match) (dlen : ℤ) : ctm.stop dlen ≤ dlen := by
  unfold Match.stop
  split
  · exact le_refl _
  · exact min_le_left _ _

/-- An occurrence in a part of the memory. -/
theorem occursAt_slice_iff {patt : List UInt8} (hne : patt ≠ [])
    {mem : ℤ → UInt8} {start len : ℤ} {i : ℕ} :
    occursAt patt (slice mem start len) i = true ↔
      (i : ℤ) + patt.length ≤ len ∧ slice mem (start + i) patt.length = patt := by
  have hpos := List.length_pos_iff.2 hne
  have hslice : slice mem (start + i) patt.length = patt ↔
      ∀ k < patt.length, some (mem (start + i + k)) = patt[k]? := by
    constructor
    · intro h k hk
      have := getElem?_slice mem (start + i) patt.length k
      rw [h, if_pos (by omega)] at this
      exact this.symm
    · intro h
      refine List.ext_getElem? fun k => ?_
      rw [getElem?_slice]
      by_cases hk : k < patt.length
      · rw [if_pos (by omega)]
        exact h k hk
      · rw [if_neg (by omega), List.getElem?_eq_none (by omega)]
  constructor
  · intro h
    have hle := occursAt_le h hne
    rw [length_slice] at hle
    refine ⟨by omega, hslice.2 fun k hk => ?_⟩
    have := occursAt_iff.1 h k hk
    rw [getElem?_slice, if_pos (by omega), Int.natCast_add, ← Int.add_assoc] at this
    exact this
  · rintro ⟨hle, h⟩
    refine occursAt_iff.2 fun k hk => ?_
    rw [getElem?_slice, if_pos (by omega), ← hslice.1 h k hk, Int.natCast_add, ← Int.add_assoc]

/-- What `BMHChr` finds behind the start of the window is the first occurrence in it. -/
theorem search_first {ctm : Match} (hne : ctm.patt ≠ []) (htype : ctm.type ≠ .offset)
    {mem : ℤ → UInt8}
    {data dlen : ℤ} (hlow : 0 ≤ ctm.start dlen) :
    ctm.First mem data dlen
      ((bmhChr ctm.patt (slice mem (data + ctm.start dlen) (ctm.stop dlen - ctm.start dlen))).map
        fun m => data + ctm.start dlen + m) := by
  have hstands : ∀ p, ctm.StandsAt mem data dlen p ↔ ∃ i : ℕ, p = ctm.start dlen + i ∧
      occursAt ctm.patt (slice mem (data + ctm.start dlen) (ctm.stop dlen - ctm.start dlen)) i = true := by
    intro p
    constructor
    · rintro ⟨hp, hstart, hstop, hbytes, -⟩
      refine ⟨(p - ctm.start dlen).toNat, by omega, (occursAt_slice_iff hne).2 ⟨by omega, ?_⟩⟩
      rw [show data + ctm.start dlen + ((p - ctm.start dlen).toNat : ℤ) = data + p by omega]
      exact hbytes
    · rintro ⟨i, rfl, hocc⟩
      obtain ⟨hle, hbytes⟩ := (occursAt_slice_iff hne).1 hocc
      rw [Int.add_assoc] at hbytes
      exact ⟨by omega, by omega, by omega, hbytes, fun h => absurd h htype⟩
  cases hfind : bmhChr ctm.patt (slice mem (data + ctm.start dlen) (ctm.stop dlen - ctm.start dlen)) with
  | none =>
    intro p hp
    obtain ⟨i, -, hocc⟩ := (hstands p).1 hp
    -- the first occurrence would have been found
    have hex : ∃ i, occursAt ctm.patt (slice mem (data + ctm.start dlen) (ctm.stop dlen - ctm.start dlen)) i = true :=
      ⟨i, hocc⟩
    have hsome := (bmhChr_eq_some hne).2 ⟨Nat.find_spec hex, fun j hj => by simpa using Nat.find_min hex hj⟩
    rw [hfind] at hsome
    cases hsome
  | some i =>
    obtain ⟨hocc, hmin⟩ := (bmhChr_eq_some hne).1 hfind
    refine ⟨ctm.start dlen + i, by simp [Int.add_assoc], (hstands _).2 ⟨i, rfl, hocc⟩, fun q hq => ?_⟩
    obtain ⟨j, rfl, hj⟩ := (hstands q).1 hq
    by_contra hlt
    rw [hmin j (by omega)] at hj
    cases hj

/-- What a fixed match compares is the start of the window. -/
theorem fixed_first {ctm : Match}
    (htype : ctm.type = .offset) (mem : ℤ → UInt8) (data : ℤ) {dlen : ℤ}
    (hlow : 0 ≤ ctm.start dlen) :
    ctm.First mem data dlen
      (if ctm.stop dlen - ctm.start dlen < ctm.patt.length then none
      else if slice mem (data + ctm.start dlen) ctm.patt.length == ctm.patt then some (data + ctm.start dlen)
      else none) := by
  by_cases hshort : ctm.stop dlen - ctm.start dlen < ctm.patt.length
  · rw [if_pos hshort]
    rintro p ⟨-, hstart, hstop, -, -⟩
    omega
  rw [if_neg hshort]
  by_cases hbytes : slice mem (data + ctm.start dlen) ctm.patt.length = ctm.patt
  · rw [if_pos (beq_iff_eq.2 hbytes)]
    exact ⟨ctm.start dlen, rfl, ⟨hlow, le_refl _, by omega, hbytes, fun _ => rfl⟩, fun q hq => hq.start⟩
  · rw [if_neg (by simpa using hbytes)]
    rintro p ⟨-, -, -, hp, hfixed⟩
    rw [hfixed htype] at hp
    exact hbytes hp

/-! ## When it goes right -/

section Pcre

variable (pcreFind : List UInt8 → (ℤ → UInt8) → ℤ → ℤ → Option ℕ)

/-- `ctm_do` reads the payload only, and finds the first occurrence of a pattern that is not a
    regular expression. -/
structure CtmRight (dump : Bool) (ctm : Match) (mem : ℤ → UInt8) (data dlen : ℤ) : Prop where
  within : (ctmDoSeen pcreFind dump ctm mem data dlen).2.Within data dlen
  first : ctm.type ≠ .regexp → ctm.First mem data dlen (ctmDo pcreFind ctm mem data dlen)

/-- `len_info_match` reads the payload only. -/
def LenRight (lnm : LenMatch) (pkt : Packet) : Prop :=
  ∀ a ∈ lenInfoReads lnm pkt, pkt.l7Ptr ≤ a ∧ a < pkt.l7Ptr + pkt.l7Len

/-- No harm is done.  A pattern: where its window would begin at the first byte of the payload or
    in front of it, it does not stand there.  A regular expression: its window does not begin
    behind the payload, and if it is not found and the bytes from there on are to be printed,
    there are 16 of them. -/
def CtmHarmless (dump : Bool) (ctm : Match) (mem : ℤ → UInt8) (data dlen : ℤ) : Prop :=
  match ctm.type with
  | .regexp =>
    ctm.offset ≤ dlen ∧ (dump = true → 0 < ctm.offset + dlen →
      pcreFind ctm.patt mem (data + ctm.start dlen) (ctm.stop dlen - ctm.start dlen) = none →
      ctm.start dlen + 16 ≤ dlen)
  | _ => ctm.offset + dlen ≤ 0 → ∀ p, ¬ ctm.StandsAt mem data dlen p

/-- A field of one, two or four bytes lies in the payload. -/
def LenHarmless (lnm : LenMatch) (pkt : Packet) : Prop :=
  match lnm with
  | .match' offset _ width => width = 1 ∨ width = 2 ∨ width = 4 → 0 ≤ offset ∧ offset + width ≤ pkt.l7Len
  | _ => True

theorem lenRight_iff (lnm : LenMatch) (pkt : Packet) : LenRight lnm pkt ↔ LenHarmless lnm pkt := by
  unfold LenRight LenHarmless lenInfoReads
  cases lnm with
  | none => simp
  | list lens => simp
  | range ranges => simp
  | match' offset fixed width =>
    dsimp only
    split
    · rw [addrs_within_iff (by omega)]
      omega
    · rw [addrs_within_iff (by omega)]
      omega
    · rw [addrs_within_iff (by omega)]
      omega
    next h1 h2 h4 =>
      refine iff_of_true (by simp) ?_
      rintro (rfl | rfl | rfl)
      · exact absurd rfl h1
      · exact absurd rfl h2
      · exact absurd rfl h4

/-- Where the window would begin at the first byte or in front of it, nothing is looked at. -/
theorem ctmDoSeen_low (dump : Bool) {ctm : Match}
    (mem : ℤ → UInt8) (data : ℤ) {dlen : ℤ} (hd : 1 ≤ dlen)
    (hlow : ctm.offset + dlen ≤ 0) :
    ctmDoSeen pcreFind dump ctm mem data dlen = (none, ⟨[], []⟩) := by
  have hneg : ctm.offset < 0 := by omega
  unfold ctmDoSeen
  dsimp only
  rw [if_pos hneg, if_pos ⟨hneg, hlow⟩]

theorem ctmDoSeen_high (dump : Bool) {ctm : Match} (mem : ℤ → UInt8) (data : ℤ) {dlen : ℤ}
    (hhigh : 0 < ctm.offset + dlen) :
    ctmDoSeen pcreFind dump ctm mem data dlen =
      match ctm.type with
      | .offset =>
        if ctm.stop dlen - ctm.start dlen < ctm.patt.length then (none, ⟨[], []⟩)
        else if slice mem (data + ctm.start dlen) ctm.patt.length == ctm.patt then
          (some (data + ctm.start dlen), ⟨addrs (data + ctm.start dlen) ctm.patt.length, []⟩)
        else (none, ⟨addrs (data + ctm.start dlen) ctm.patt.length, []⟩)
      | .regexp =>
        match pcreFind ctm.patt mem (data + ctm.start dlen) (ctm.stop dlen - ctm.start dlen) with
        | some m => (some (data + ctm.start dlen + m),
            ⟨[], [(data + ctm.start dlen, ctm.stop dlen - ctm.start dlen)]⟩)
        | none => (none, ⟨if dump then addrs (data + ctm.start dlen) 16 else [],
            [(data + ctm.start dlen, ctm.stop dlen - ctm.start dlen)]⟩)
      | .search =>
        let buf := slice mem (data + ctm.start dlen) (ctm.stop dlen - ctm.start dlen)
        ((bmhChr ctm.patt buf).map fun m => data + ctm.start dlen + m,
          ⟨(bmhReads ctm.patt buf).map fun (i : ℕ) => data + ctm.start dlen + i, []⟩) := by
  rw [← ctm.stop_sub_start dlen]
  unfold ctmDoSeen Match.start
  dsimp only
  rw [if_neg]
  rintro ⟨hneg, hle⟩
  rw [if_pos hneg] at hle
  omega

theorem Match.start_nonneg {ctm : Match} {dlen : ℤ} (hhigh : 0 < ctm.offset + dlen) :
    0 ≤ ctm.start dlen := by
  unfold Match.start
  split <;> omega

/-- The window has a length if and only if the offset is none behind the payload. -/
theorem Match.start_le_stop_iff (ctm : Match) {dlen : ℤ} (hd : 1 ≤ dlen) :
    ctm.start dlen ≤ ctm.stop dlen ↔ ctm.offset ≤ dlen := by
  unfold Match.stop Match.start
  split <;> split <;> omega

theorem ctmRight_iff (dump : Bool) {ctm : Match}
    (hc : ctm.type = .search → ctm.patt ≠ []) (mem : ℤ → UInt8)
    (data : ℤ) {dlen : ℤ} (hd : 1 ≤ dlen) :
    CtmRight pcreFind dump ctm mem data dlen ↔ CtmHarmless pcreFind dump ctm mem data dlen := by
  have hright : CtmRight pcreFind dump ctm mem data dlen ↔
      (ctmDoSeen pcreFind dump ctm mem data dlen).2.Within data dlen ∧
      (ctm.type ≠ .regexp → ctm.First mem data dlen (ctmDoSeen pcreFind dump ctm mem data dlen).1) := by
    rw [ctmDoSeen_fst]
    exact ⟨fun h => ⟨h.1, h.2⟩, fun h => ⟨h.1, h.2⟩⟩
  have hwithin : ∀ s : Seen, s.Within data dlen ↔ (∀ a ∈ s.reads, data ≤ a ∧ a < data + dlen) ∧
      ∀ t ∈ s.texts, 0 ≤ t.2 ∧ data ≤ t.1 ∧ t.1 + t.2 ≤ data + dlen :=
    fun s => ⟨fun h => ⟨h.1, h.2⟩, fun h => ⟨h.1, h.2⟩⟩
  have hstop := ctm.stop_le dlen
  have hle := ctm.start_le_stop_iff hd
  rw [hright, hwithin]
  unfold CtmHarmless
  by_cases hlow : ctm.offset + dlen ≤ 0
  · rw [ctmDoSeen_low pcreFind dump mem data hd hlow]
    cases htype : ctm.type with
    | offset | search =>
      exact ⟨fun h _ => h.2 nofun, fun h => ⟨⟨nofun, nofun⟩, fun _ => h hlow⟩⟩
    | regexp =>
      refine iff_of_true ⟨⟨nofun, nofun⟩, fun h => absurd rfl h⟩ ⟨by omega, fun _ hpos => ?_⟩
      exact absurd hpos (by omega)
  have hstart := Match.start_nonneg (show 0 < ctm.offset + dlen by omega)
  rw [ctmDoSeen_high pcreFind dump mem data (by omega)]
  cases htype : ctm.type with
  | offset =>
    refine iff_of_true ⟨⟨?_, ?_⟩, fun _ => ?_⟩ fun h => absurd h hlow
    · dsimp only
      split
      · exact nofun
      · -- what is compared is shorter than the window
        intro a ha
        have hmem : a ∈ addrs (data + ctm.start dlen) ctm.patt.length := by
          split at ha <;> exact ha
        obtain ⟨i, hi, rfl⟩ := List.mem_map.1 hmem
        have := List.mem_range.1 hi
        omega
    · dsimp only
      split
      · exact nofun
      · split <;> exact nofun
    · have h := fixed_first htype mem data hstart
      dsimp only
      split
      next hshort =>
        rw [if_pos hshort] at h
        exact h
      next hshort =>
        rw [if_neg hshort] at h
        split at h
        next hbytes =>
          rw [if_pos hbytes]
          exact h
        next hbytes =>
          rw [if_neg hbytes]
          exact h
  | search =>
    refine iff_of_true ⟨⟨fun a ha => ?_, nofun⟩, fun _ => ?_⟩ fun h => absurd h hlow
    · obtain ⟨i, hi, rfl⟩ := List.mem_map.1 ha
      have := bmhReads_lt hi
      rw [length_slice] at this
      omega
    · exact search_first (hc htype) (by rw [htype]; exact nofun) hstart
  | regexp =>
    dsimp only
    cases hm : pcreFind ctm.patt mem (data + ctm.start dlen) (ctm.stop dlen - ctm.start dlen) with
    | some m =>
      simp only [List.mem_singleton, forall_eq]
      constructor
      · rintro ⟨⟨-, h0, -⟩, -⟩
        exact ⟨hle.1 (by omega), fun _ _ => nofun⟩
      · rintro ⟨hoff, -⟩
        have := hle.2 hoff
        exact ⟨⟨nofun, by omega, by omega, by omega⟩, fun h => absurd rfl h⟩
    | none =>
      simp only [List.mem_singleton, forall_eq]
      constructor
      · rintro ⟨⟨hreads, h0, -⟩, -⟩
        refine ⟨hle.1 (by omega), fun hdump _ _ => ?_⟩
        rw [if_pos hdump, addrs_within_iff (by omega)] at hreads
        omega
      · rintro ⟨hoff, hprint⟩
        have := hle.2 hoff
        refine ⟨⟨?_, by omega, by omega, by omega⟩, fun h => absurd rfl h⟩
        cases dump with
        | false => exact nofun
        | true =>
          have := hprint rfl (by omega) trivial
          rw [if_pos rfl, addrs_within_iff (by omega)]
          omega

/-- Matching reads the payload only and finds the first occurrence if and only if no harm is done.
    -/
theorem payload_reads_iff (dump : Bool) {ctm : Match}
    (hc : ctm.type = .search → ctm.patt ≠ []) (mem : ℤ → UInt8)
    (data : ℤ) {dlen : ℤ} (hd : 1 ≤ dlen) (lnm : LenMatch) (pkt : Packet) :
    CtmRight pcreFind dump ctm mem data dlen ∧ LenRight lnm pkt ↔
      CtmHarmless pcreFind dump ctm mem data dlen ∧ LenHarmless lnm pkt :=
  and_congr (ctmRight_iff pcreFind dump hc mem data hd) (lenRight_iff lnm pkt)

end Pcre

/-- A packet with the payload `ab`. -/
def packetAb : Packet where
  mem a := if a = 0 then 97 else 98
  l7Ptr := 0
  l7Len := 2
  dir := .c2s
  l4Proto := ipprotoTcp
  saddr := 0
  daddr := 0
  source := 0
  dest := 80
  duType := .other
  headersRange _ := (0, 0)

/-- Its last byte is found from the end, and its first is a field. -/
theorem payload_reads_iff_ab :
    CtmRight (fun _ _ _ _ => none) true ⟨.search, -1, 0, [98]⟩ packetAb.mem 0 2 ∧
    LenRight (.match' 0 0 1) packetAb :=
  (payload_reads_iff _ true (fun _ => List.cons_ne_nil _ _) packetAb.mem 0 (by decide) _ packetAb).mpr
    ⟨fun h => absurd h (by decide), fun _ => by decide⟩

/-- Its first byte is not found from the end; a regular expression of a later window gets a text
    of -3 bytes, one that is not found has 16 bytes printed, and a field of four bytes is read
    behind the payload. -/
theorem payload_reads_wrong :
    (ctmDo (fun _ _ _ _ => none) ⟨.search, -2, 0, [97]⟩ packetAb.mem 0 2 = none ∧
      Match.StandsAt ⟨.search, -2, 0, [97]⟩ packetAb.mem 0 2 0 ∧
      ¬ CtmRight (fun _ _ _ _ => none) false ⟨.search, -2, 0, [97]⟩ packetAb.mem 0 2) ∧
    (5, -3) ∈ (ctmDoSeen (fun _ _ _ _ => none) false ⟨.regexp, 5, 0, [97]⟩ packetAb.mem 0 2).2.texts ∧
    15 ∈ (ctmDoSeen (fun _ _ _ _ => none) true ⟨.regexp, 0, 0, [99]⟩ packetAb.mem 0 2).2.reads ∧
    ¬ LenRight (.match' 4 0 4) packetAb := by
  have hstands : Match.StandsAt ⟨.search, -2, 0, [97]⟩ packetAb.mem 0 2 0 :=
    ⟨le_refl _, by decide, by decide, by decide, nofun⟩
  refine ⟨⟨by decide, hstands, fun h => ?_⟩, by decide, by decide, fun h => ?_⟩
  · have hnone := h.first nofun
    rw [show ctmDo (fun _ _ _ _ => none) ⟨.search, -2, 0, [97]⟩ packetAb.mem 0 2 = none by decide] at hnone
    exact hnone 0 hstands
  · exact absurd (h 4 (by decide)) (by decide)

end NpRules
