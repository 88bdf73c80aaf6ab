/-
# What the http parser extracts

What `np_http_hdr` should return behind `on_http_hdr` is said on the bytes of the
payload: the value of a header reaches from its name to the next line end.  The
search of the parser is followed position by position, and the payloads are told for
which it is right.
-/
import OpenwrtAc.NprotoHttp
import OpenwrtAc.NprotoSearch

open SkipSearch Mwm MachineInt CString

namespace NpRules

/-! ## Headers of a payload -/

/-- The blank line. -/
def blankLine : List UInt8 := asciiBytes "\r\n\r\n"

/-- The name of a header that is parsed. -/
def IsHeader (h : ℕ) (name : List UInt8) : Prop := h ≠ npHttpEnd ∧ httpHeaders h = some name

/-- The first line end from a position on. -/
def FirstCrlf (text : List UInt8) (from' n : ℕ) : Prop :=
  occursAt crlf text n = true ∧ from' ≤ n ∧ ∀ j, from' ≤ j → occursAt crlf text j = true → n ≤ j

/-- The search for a line end behind a name that ends at the position goes over the end of the
    text: no line end comes from the second byte on, and the hops of the search from there come
    to the byte behind the text. -/
def Overruns (text : List UInt8) (e : ℕ) : Prop :=
  (∀ j, e < j → occursAt crlf text j = false) ∧ e + 2 ≤ text.length
    ∧ hopsToEnd (text.drop (e + 2)) = true

/-- The blanks around the URL: the first two of the first line, but for one at its start. -/
structure UrlAt (text : List UInt8) (s u : ℕ) : Prop where
  pos : 0 < s
  lt : s < u
  start : text[s]? = some 0x20
  fin : text[u]? = some 0x20
  line : ∀ i < u, text[i]? ≠ some 13 ∧ text[i]? ≠ some 10
  first : ∀ i, 0 < i → i < u → i ≠ s → text[i]? ≠ some 0x20

/-- A packet as `nproto_pkt_init` leaves it. -/
structure Packet.Fresh (pkt : Packet) : Prop where
  l7Ptr : pkt.l7Ptr = 0
  pos : 0 < pkt.l7Len
  le : pkt.l7Len ≤ 32767
  headersRange : ∀ h, pkt.headersRange h = (0, 0)

section Run

variable {pkt : Packet} {dump : Bool}

@[simp] theorem length_slice (mem : ℤ → UInt8) (start len : ℤ) :
    (slice mem start len).length = len.toNat := by
  simp [slice]

/-- The payload is as long as its length field says. -/
theorem Packet.Fresh.length (h : pkt.Fresh) : (pkt.payload.length : ℤ) = pkt.l7Len := by
  have := h.pos
  rw [Packet.payload, length_slice]
  omega

/-- A payload is no longer than a `short` counts. -/
theorem Packet.Fresh.length_le (h : pkt.Fresh) : pkt.payload.length ≤ 32767 := by
  have := h.length
  have := h.le
  omega

/-! ## One line -/

/-- The bytes in which the line end is looked for. -/
def lineBuf (pkt : Packet) (e : ℕ) : List UInt8 := slice pkt.mem (e + 1) (pkt.l7Len - e)

/-- The line end that is found. -/
def lineEnd (pkt : Packet) (e : ℕ) : Option ℕ := (bmhChr crlf (lineBuf pkt e)).map (e + 1 + ·)

/-- The addresses that are read for it. -/
def lineReads (pkt : Packet) (e : ℕ) : List ℕ := (bmhReads crlf (lineBuf pkt e)).map (e + 1 + ·)

/-- The bytes of a slice are those of the memory. -/
theorem getElem?_slice (mem : ℤ → UInt8) (start len : ℤ) (i : ℕ) :
    (slice mem start len)[i]? = if i < len.toNat then some (mem (start + i)) else none := by
  unfold slice
  split
  next hlt => rw [List.getElem?_map, List.getElem?_range hlt, Option.map_some]
  next hge => exact List.getElem?_eq_none (by simpa using hge)

/-- The buffer is shifted by a byte against the rest of the payload. -/
theorem lineBuf_eq (h : pkt.Fresh) {e : ℕ} (he : e < pkt.payload.length) :
    lineBuf pkt e = pkt.payload.drop (e + 1) ++ [pkt.mem pkt.payload.length] := by
  have hlen := h.length
  have hptr := h.l7Ptr
  refine List.ext_getElem? fun i => ?_
  rw [lineBuf, getElem?_slice]
  by_cases hi : i < pkt.payload.length - (e + 1)
  · rw [if_pos (by omega), List.getElem?_append_left (by rw [List.length_drop]; omega),
      List.getElem?_drop, Packet.payload, getElem?_slice, if_pos (by omega), hptr]
    congr 2
    push_cast
    omega
  · rw [List.getElem?_append_right (by rw [List.length_drop]; omega), List.length_drop]
    by_cases hlast : i = pkt.payload.length - (e + 1)
    · rw [if_pos (by omega), hlast, Nat.sub_self, List.getElem?_cons_zero]
      congr 2
      omega
    · rw [if_neg (by omega)]
      exact (List.getElem?_eq_none (by simp; omega)).symm

/-- A line end of the rest is one of the text. -/
theorem crlf_occursAt_drop {text : List UInt8} {k j : ℕ} :
    occursAt crlf (text.drop k) j = occursAt crlf text (k + j) := by
  rw [occursAt, occursAt, List.drop_drop]

/-- A line end behind the name that is not at once there is found. -/
theorem lineEnd_of_firstCrlf (h : pkt.Fresh) {e n : ℕ} (hn : FirstCrlf pkt.payload (e + 1) n) :
    lineEnd pkt e = some n := by
  obtain ⟨hocc, hle, hfirst⟩ := hn
  have hlt : n + 2 ≤ pkt.payload.length := occursAt_le hocc (by decide)
  have hfind : bmhChr crlf (lineBuf pkt e) = some (n - (e + 1)) := by
    rw [lineBuf_eq h (by omega), bmhChr_crlf_eq_some]
    have hsame : ∀ j ≤ n - (e + 1), occursAt crlf
        (pkt.payload.drop (e + 1) ++ [pkt.mem pkt.payload.length]) j =
          occursAt crlf pkt.payload (e + 1 + j) := fun j hj => by
      rw [crlf_occursAt_append (by rw [List.length_drop]; omega), crlf_occursAt_drop]
    refine ⟨?_, fun j hj => ?_⟩
    · rw [hsame _ (Nat.le_refl _), Nat.add_sub_cancel' hle]
      exact hocc
    · rw [hsame j hj.le]
      by_contra hj'
      have := hfirst (e + 1 + j) (by omega) (by simpa using hj')
      omega
  rw [lineEnd, hfind, Option.map_some, Nat.add_sub_cancel' hle]

/-- The byte behind the payload is read exactly in an overrun. -/
theorem length_mem_lineReads (h : pkt.Fresh) {e : ℕ} :
    pkt.payload.length ∈ lineReads pkt e ↔ Overruns pkt.payload e := by
  unfold lineReads Overruns
  by_cases he : e < pkt.payload.length
  · rw [lineBuf_eq h he]
    have hlen : (pkt.payload.drop (e + 1)).length = pkt.payload.length - (e + 1) := List.length_drop
    have hmem : pkt.payload.length ∈ (bmhReads crlf (pkt.payload.drop (e + 1) ++
        [pkt.mem pkt.payload.length])).map (e + 1 + ·) ↔
        (pkt.payload.drop (e + 1)).length ∈ bmhReads crlf (pkt.payload.drop (e + 1) ++
          [pkt.mem pkt.payload.length]) := by
      rw [List.mem_map]
      constructor
      · rintro ⟨i, hi, heq⟩
        rwa [show (pkt.payload.drop (e + 1)).length = i by omega]
      · exact fun hi => ⟨_, hi, by omega⟩
    rw [hmem, length_mem_bmhReads, List.drop_drop]
    have hne : pkt.payload.drop (e + 1) ≠ [] ↔ e + 2 ≤ pkt.payload.length := by
      rw [Ne, List.drop_eq_nil_iff]
      omega
    have hnone : (∀ j, occursAt crlf (pkt.payload.drop (e + 1)) j = false) ↔
        ∀ j, e < j → occursAt crlf pkt.payload j = false := by
      simp only [crlf_occursAt_drop]
      refine ⟨fun hj j hlt => ?_, fun hj j => hj _ (by omega)⟩
      have := hj (j - (e + 1))
      rwa [Nat.add_sub_cancel' hlt] at this
    rw [hne, hnone]
    tauto
  · refine iff_of_false ?_ fun h => ?_
    · have hnil : lineBuf pkt e = [] := by
        have := h.length
        rw [lineBuf, slice, show (pkt.l7Len - e).toNat = 0 by omega]
        rfl
      rw [hnil]
      simp [bmhReads, crlf, asciiBytes]
    · omega

/-- Reading a line reads one byte behind the payload at most. -/
theorem lineReads_le (h : pkt.Fresh) {e i : ℕ} (hi : i ∈ lineReads pkt e) :
    i ≤ pkt.payload.length := by
  obtain ⟨k, hk, rfl⟩ := List.mem_map.1 hi
  have hlt := bmhReads_lt hk
  have := h.length
  rw [lineBuf, length_slice] at hlt
  omega

/-- Where there is a line end there is a first one. -/
theorem exists_firstCrlf {text : List UInt8} {k j : ℕ} (hj : k ≤ j)
    (hocc : occursAt crlf text j = true) : ∃ n, FirstCrlf text k n := by
  have hex : ∃ j, k ≤ j ∧ occursAt crlf text j = true := ⟨j, hj, hocc⟩
  exact ⟨Nat.find hex, (Nat.find_spec hex).2, (Nat.find_spec hex).1, fun j hj hocc =>
    Nat.find_min' hex ⟨hj, hocc⟩⟩

/-- A line end behind the name leads to one that is found. -/
theorem exists_lineEnd (h : pkt.Fresh) {e j : ℕ} (hj : e < j)
    (hocc : occursAt crlf pkt.payload j = true) : ∃ n, lineEnd pkt e = some n := by
  obtain ⟨n, hn⟩ := exists_firstCrlf hj hocc
  exact ⟨n, lineEnd_of_firstCrlf h hn⟩

/-- A line end that is found is the first behind the name, or the search has overrun. -/
theorem firstCrlf_of_lineEnd (h : pkt.Fresh) {e n : ℕ} (hn : lineEnd pkt e = some n)
    (hover : ¬ Overruns pkt.payload e) : FirstCrlf pkt.payload (e + 1) n := by
  by_cases hex : ∃ j, e + 1 ≤ j ∧ occursAt crlf pkt.payload j = true
  · obtain ⟨j, hj, hocc⟩ := hex
    obtain ⟨m, hfirst⟩ := exists_firstCrlf hj hocc
    rw [lineEnd_of_firstCrlf h hfirst] at hn
    rwa [← Option.some.inj hn]
  · -- the line end that is found reaches over the end of the payload
    push Not at hex
    obtain ⟨i, hi, rfl⟩ := Option.map_eq_some_iff.1 hn
    have hocc := (bmhChr_crlf_eq_some.1 hi).1
    have hle : i + 2 ≤ (lineBuf pkt e).length := occursAt_le hocc (by decide)
    have hlen := h.length
    have hbuf : (lineBuf pkt e).length = (pkt.l7Len - e).toNat := by rw [lineBuf, length_slice]
    refine absurd ((length_mem_lineReads h).1 (List.mem_map.2 ⟨i + 1, succ_mem_bmhReads hi, ?_⟩))
      hover
    by_contra hne
    rw [lineBuf_eq h (by omega), crlf_occursAt_append (by rw [List.length_drop]; omega),
      crlf_occursAt_drop] at hocc
    exact hex _ (by omega) hocc

/-! ## The run of the search -/

/-- The ranges with that of a line, if its end is found. -/
def storeLine (pkt : Packet) (ranges : ℕ → ℤ × ℤ) (idx e : ℕ) : ℕ → ℤ × ℤ :=
  match lineEnd pkt e with
  | none => ranges
  | some n => Function.update ranges idx (e, n)

/-- What is printed of a line whose end is not found. -/
def lineDump (dump : Bool) (pkt : Packet) (e : ℕ) : List ℤ :=
  if dump = true ∧ lineEnd pkt e = none then addrs e 16 else []

/-- A packet with other ranges, and what was read and printed for them. -/
def withRanges (pkt : Packet) (ranges : ℕ → ℤ × ℤ) (reads dumped : List ℤ) : HttpState :=
  ⟨{ pkt with headersRange := ranges }, reads, dumped⟩

/-- What the callback does for a name that ends at a position. -/
theorem mwmHttpMatch_name (h : pkt.Fresh) {idx e : ℕ} (hidx : idx ≠ npHttpEnd)
    (he : e ≤ pkt.payload.length) (ranges : ℕ → ℤ × ℤ) (reads dumped : List ℤ) :
    mwmHttpMatch dump idx e (withRanges pkt ranges reads dumped) = (1, withRanges pkt
      (storeLine pkt ranges idx e) (reads ++ (lineReads pkt e).map fun (i : ℕ) => (i : ℤ))
      (dumped ++ lineDump dump pkt e)) := by
  have hlen := h.length
  have hle := h.le
  have hstart : i16 ((e : ℤ) - 0) = e := by
    rw [i16_of_range] <;> omega
  have hlasted : i16 (pkt.l7Len - e) = pkt.l7Len - e := by
    rw [i16_of_range] <;> omega
  have hreads : (bmhReads crlf (lineBuf pkt e)).map (fun (i : ℕ) => (e : ℤ) + 1 + i) =
      (lineReads pkt e).map fun (i : ℕ) => (i : ℤ) := by
    rw [lineReads, List.map_map]
    refine List.map_congr_left fun i _ => ?_
    simp
  unfold mwmHttpMatch withRanges
  rw [if_neg hidx]
  simp only [h.l7Ptr, hstart, hlasted]
  rw [← lineBuf, hreads, storeLine, lineDump, lineEnd]
  cases hfind : bmhChr crlf (lineBuf pkt e) with
  | none =>
    simp only [HttpState.npDump, Option.map_none, and_true]
  | some i =>
    have hbuf : i + 2 ≤ (lineBuf pkt e).length :=
      occursAt_le (bmhChr_crlf_eq_some.1 hfind).1 (by decide)
    rw [lineBuf, length_slice] at hbuf
    have hfin : i16 ((e : ℤ) + 1 + i - 0) = ((e + 1 + i : ℕ) : ℤ) := by
      rw [i16_of_range] <;> omega
    simp only [Option.map_some, hfin, reduceCtorEq, and_false, if_false, List.append_nil]

/-- What the search has stored when it comes to a position: of a header's name, the last place
    where a line end was found, and the addresses read; there was no blank line. -/
structure ParsedTo (dump : Bool) (pkt : Packet) (t : ℕ) (ranges : ℕ → ℤ × ℤ)
    (reads dumped : List ℤ) : Prop where
  blank : ∀ b < t, occursAt blankLine pkt.payload b = false
  url : ranges npHttpUrl = (saveUrl pkt).headersRange npHttpUrl
  ranges : ∀ h name, IsHeader h name →
    (ranges h = (0, 0) ∧ ∀ s < t, occursAt name pkt.payload s = true →
      lineEnd pkt (s + name.length) = none) ∨
    ∃ s < t, ∃ n, occursAt name pkt.payload s = true ∧ lineEnd pkt (s + name.length) = some n
      ∧ ranges h = (((s + name.length : ℕ) : ℤ), (n : ℤ))
      ∧ ∀ s' < t, s < s' → occursAt name pkt.payload s' = true →
        lineEnd pkt (s' + name.length) = none
  reads_le : ∀ r ∈ reads, 0 ≤ r ∧ r ≤ pkt.payload.length
  reads_end : (pkt.payload.length : ℤ) ∈ reads ↔ ∃ h name, IsHeader h name ∧
    ∃ s < t, occursAt name pkt.payload s = true ∧ Overruns pkt.payload (s + name.length)
  dumped : ∀ r, r ∈ dumped ↔ ∃ h name, IsHeader h name ∧
    ∃ s < t, occursAt name pkt.payload s = true ∧ r ∈ lineDump dump pkt (s + name.length)

/-- Positions where nothing is found do not count. -/
theorem ParsedTo.skip {t : ℕ} {ranges : ℕ → ℤ × ℤ} {reads dumped : List ℤ}
    (hpt : ParsedTo dump pkt t ranges reads dumped)
    (hnone : ∀ h name, httpHeaders h = some name → occursAt name pkt.payload t = false) :
    ParsedTo dump pkt (t + 1) ranges reads dumped := by
  have hlt : ∀ {h name s}, httpHeaders h = some name → s < t + 1 →
      occursAt name pkt.payload s = true → s < t := by
    intro h name s hname hs hocc
    refine lt_of_le_of_ne (Nat.lt_succ_iff.1 hs) ?_
    rintro rfl
    rw [hnone h name hname] at hocc
    cases hocc
  have hmono {P : List UInt8 → ℕ → Prop} :
      (∃ h name, IsHeader h name ∧ ∃ s < t, occursAt name pkt.payload s = true ∧ P name s) ↔
        ∃ h name, IsHeader h name ∧ ∃ s < t + 1, occursAt name pkt.payload s = true ∧ P name s := by
    constructor
    · rintro ⟨h, name, hh, s, hs, hrest⟩
      exact ⟨h, name, hh, s, by omega, hrest⟩
    · rintro ⟨h, name, hh, s, hs, hocc, hP⟩
      exact ⟨h, name, hh, s, hlt hh.2 hs hocc, hocc, hP⟩
  refine ⟨fun b hb => ?_, hpt.url, fun h name hh => ?_, hpt.reads_le, ?_, fun r => ?_⟩
  · rcases Nat.lt_succ_iff_lt_or_eq.1 hb with hb | rfl
    · exact hpt.blank b hb
    · exact hnone npHttpEnd _ rfl
  · rcases hpt.ranges h name hh with ⟨hrange, hall⟩ | ⟨s, hs, n, hocc, hend, hrange, hall⟩
    · exact .inl ⟨hrange, fun s hs hocc => hall s (hlt hh.2 hs hocc) hocc⟩
    · exact .inr ⟨s, by omega, n, hocc, hend, hrange, fun s' hs' hss hocc' =>
        hall s' (hlt hh.2 hs' hocc') hss hocc'⟩
  · rw [hpt.reads_end]
    exact hmono
  · rw [hpt.dumped]
    exact hmono

/-- A name is stored if the end of its line is found. -/
theorem ParsedTo.name (h : pkt.Fresh) {t : ℕ} {ranges : ℕ → ℤ × ℤ} {reads dumped : List ℤ}
    (hpt : ParsedTo dump pkt t ranges reads dumped) {idx : ℕ} {name : List UInt8}
    (hidx : IsHeader idx name)
    (hocc : occursAt name pkt.payload t = true) :
    ParsedTo dump pkt (t + 1) (storeLine pkt ranges idx (t + name.length))
      (reads ++ (lineReads pkt (t + name.length)).map fun (i : ℕ) => (i : ℤ))
      (dumped ++ lineDump dump pkt (t + name.length)) := by
  -- at the position stands no other pattern
  have hother : ∀ {h' name' s}, httpHeaders h' = some name' → h' ≠ idx → s < t + 1 →
      occursAt name' pkt.payload s = true → s < t := by
    intro h' name' s hname' hne hs hocc'
    refine lt_of_le_of_ne (Nat.lt_succ_iff.1 hs) ?_
    rintro rfl
    exact hne (httpHeaders_unique hname' hidx.2 hocc' hocc)
  have hstore : ∀ k, k ≠ idx → storeLine pkt ranges idx (t + name.length) k = ranges k := by
    intro k hk
    unfold storeLine
    cases lineEnd pkt (t + name.length) with
    | none => rfl
    | some n => exact Function.update_of_ne hk _ _
  -- what is added for the name here, beside what the names before led to
  have hadd {P : ℕ → Prop} :
      ((∃ h' name', IsHeader h' name' ∧ ∃ s < t, occursAt name' pkt.payload s = true ∧
          P (s + name'.length)) ∨ P (t + name.length)) ↔
        ∃ h' name', IsHeader h' name' ∧ ∃ s < t + 1, occursAt name' pkt.payload s = true ∧
          P (s + name'.length) := by
    constructor
    · rintro (⟨h', name', hh, s, hs, hrest⟩ | hP)
      · exact ⟨h', name', hh, s, by omega, hrest⟩
      · exact ⟨idx, name, hidx, t, by omega, hocc, hP⟩
    · rintro ⟨h', name', hh, s, hs, hocc', hP⟩
      rcases Nat.lt_succ_iff_lt_or_eq.1 hs with hs | rfl
      · exact .inl ⟨h', name', hh, s, hs, hocc', hP⟩
      · obtain rfl := httpHeaders_unique hh.2 hidx.2 hocc' hocc
        obtain rfl : name = name' := Option.some.inj (hidx.2.symm.trans hh.2)
        exact .inr hP
  refine ⟨fun b hb => ?_, ?_, fun h' name' hh => ?_, fun r hr => ?_, ?_, fun r => ?_⟩
  · by_contra hblank
    have hname : httpHeaders npHttpEnd = some blankLine := rfl
    have hb' := hother hname hidx.1.symm hb (by simpa using hblank)
    exact hblank (hpt.blank b hb')
  · rw [hstore _ (httpHeaders_spec hidx.2).2.1.symm]
    exact hpt.url
  · by_cases heq : h' = idx
    · subst heq
      obtain rfl : name = name' := Option.some.inj (hidx.2.symm.trans hh.2)
      unfold storeLine
      cases hend : lineEnd pkt (t + name.length) with
      | none =>
        rcases hpt.ranges h' name hh with ⟨hrange, hall⟩ | ⟨s, hs, n, hocc', hend', hrange, hall⟩
        · refine .inl ⟨hrange, fun s hs hocc' => ?_⟩
          rcases Nat.lt_succ_iff_lt_or_eq.1 hs with hs | rfl
          · exact hall s hs hocc'
          · exact hend
        · refine .inr ⟨s, by omega, n, hocc', hend', hrange, fun s' hs' hss hocc'' => ?_⟩
          rcases Nat.lt_succ_iff_lt_or_eq.1 hs' with hs' | rfl
          · exact hall s' hs' hss hocc''
          · exact hend
      | some n =>
        exact .inr ⟨t, by omega, n, hocc, hend, Function.update_self .., fun s' hs' hss => by omega⟩
    · rw [hstore h' heq]
      rcases hpt.ranges h' name' hh with ⟨hrange, hall⟩ | ⟨s, hs, n, hocc', hend, hrange, hall⟩
      · exact .inl ⟨hrange, fun s hs hocc' => hall s (hother hh.2 heq hs hocc') hocc'⟩
      · exact .inr ⟨s, by omega, n, hocc', hend, hrange, fun s' hs' hss hocc'' =>
          hall s' (hother hh.2 heq hs' hocc'') hss hocc''⟩
  · rcases List.mem_append.1 hr with hr | hr
    · exact hpt.reads_le r hr
    · obtain ⟨i, hi, rfl⟩ := List.mem_map.1 hr
      have := lineReads_le h hi
      omega
  · have hmem : (pkt.payload.length : ℤ) ∈ (lineReads pkt (t + name.length)).map
        (fun (i : ℕ) => (i : ℤ)) ↔ Overruns pkt.payload (t + name.length) := by
      rw [← length_mem_lineReads h, List.mem_map]
      constructor
      · rintro ⟨i, hi, heq⟩
        rwa [← Int.ofNat.inj heq]
      · exact fun hi => ⟨_, hi, rfl⟩
    rw [List.mem_append, hpt.reads_end, hmem]
    exact hadd
  · rw [List.mem_append, hpt.dumped]
    exact @hadd fun e => r ∈ lineDump dump pkt e

/-- The search for the names stays in its text. -/
theorem mwmReads_lt {pats : List (Patt ℕ)} {text : List UInt8} {i : ℕ}
    (h : i ∈ mwmReads pats text) : i < text.length := by
  obtain ⟨t, ht, hi⟩ := List.mem_flatMap.1 h
  have hshift := two_le_shiftLen pats
  have hlt := List.mem_range.1 ht
  rcases List.mem_append.1 hi with hi | hi
  · simp only [List.mem_cons, List.not_mem_nil, or_false] at hi
    omega
  · obtain ⟨p, -, hi⟩ := List.mem_flatMap.1 hi
    split at hi
    · have := List.mem_range'_1.1 hi
      omega
    · cases hi

/-- Saving the url changes the ranges only. -/
theorem saveUrl_eq (pkt : Packet) :
    saveUrl pkt = { pkt with headersRange := (saveUrl pkt).headersRange } := by
  unfold saveUrl
  dsimp only
  split <;> rfl

/-- It leaves the ranges of the headers. -/
theorem saveUrl_range (h : pkt.Fresh) {k : ℕ} (hk : k ≠ npHttpUrl) :
    (saveUrl pkt).headersRange k = (0, 0) := by
  unfold saveUrl
  dsimp only
  split
  · exact (Function.update_of_ne hk _ _).trans (h.headersRange k)
  · exact h.headersRange k

/-- At the start. -/
theorem parsedTo_zero (h : pkt.Fresh) : ParsedTo dump pkt 0 (saveUrl pkt).headersRange
    ((List.range pkt.payload.length ++ mwmReads mwmParser.patArray pkt.payload).map
      fun (i : ℕ) => pkt.l7Ptr + i) [] := by
  have hscan : ∀ r ∈ (List.range pkt.payload.length ++ mwmReads mwmParser.patArray
      pkt.payload).map (fun (i : ℕ) => pkt.l7Ptr + i), 0 ≤ r ∧ r < pkt.payload.length := by
    intro r hr
    obtain ⟨i, hi, rfl⟩ := List.mem_map.1 hr
    have hlt : i < pkt.payload.length := by
      rcases List.mem_append.1 hi with hi | hi
      · exact List.mem_range.1 hi
      · exact mwmReads_lt hi
    rw [h.l7Ptr]
    omega
  refine ⟨fun b hb => absurd hb (Nat.not_lt_zero b), rfl, fun k name hk => .inl
    ⟨saveUrl_range h (httpHeaders_spec hk.2).2.1, fun s hs => absurd hs (Nat.not_lt_zero s)⟩,
    fun r hr => ?_, iff_of_false (fun hmem => ?_) ?_,
    fun r => iff_of_false List.not_mem_nil ?_⟩
  · have := hscan r hr
    omega
  · have := hscan _ hmem
    omega
  · rintro ⟨-, -, -, s, hs, -⟩
    exact absurd hs (Nat.not_lt_zero s)
  · rintro ⟨-, -, -, s, hs, -⟩
    exact absurd hs (Nat.not_lt_zero s)

/-- The search has come to a position. -/
def Parsing (dump : Bool) (pkt : Packet) (t : ℕ) (st : HttpState) : Prop :=
  ∃ ranges reads dumped, st = withRanges pkt ranges reads dumped ∧
    ParsedTo dump pkt t ranges reads dumped

/-- The packet behind a blank line at a position. -/
def behindBlank (pkt : Packet) (b : ℕ) (ranges : ℕ → ℤ × ℤ) : Packet :=
  { pkt with
    headersRange := Function.update ranges npHttpEnd (((b + 4 : ℕ) : ℤ), ((b + 4 : ℕ) : ℤ))
    l7Len := pkt.l7Len - (b + 4 : ℕ)
    l7Ptr := (b + 4 : ℕ) }

/-- What is printed behind a blank line. -/
def blankDump (dump : Bool) (b : ℕ) : List ℤ := if dump then addrs (b + 4 : ℕ) 16 else []

/-- The search has come to a blank line. -/
def EndsAtBlank (dump : Bool) (pkt : Packet) (st : HttpState) : Prop :=
  ∃ b ranges reads dumped, occursAt blankLine pkt.payload b = true ∧
    ParsedTo dump pkt b ranges reads dumped ∧
    st = ⟨behindBlank pkt b ranges, reads, dumped ++ blankDump dump b⟩

/-- What the callback does for a blank line. -/
theorem mwmHttpMatch_blank (h : pkt.Fresh) {b : ℕ}
    (hocc : occursAt blankLine pkt.payload b = true) (ranges : ℕ → ℤ × ℤ)
    (reads dumped : List ℤ) :
    mwmHttpMatch dump npHttpEnd (b + 4 : ℕ) (withRanges pkt ranges reads dumped) =
      (-1, ⟨behindBlank pkt b ranges, reads, dumped ++ blankDump dump b⟩) := by
  have hlen := h.length
  have hle := h.le
  have hb : b + 4 ≤ pkt.payload.length := occursAt_le hocc (by decide)
  have hfin : i16 (((b + 4 : ℕ) : ℤ) - 0) = (b + 4 : ℕ) := by
    rw [i16_of_range] <;> omega
  have hnlen : i16 (pkt.l7Len - (b + 4 : ℕ)) = pkt.l7Len - (b + 4 : ℕ) := by
    rw [i16_of_range] <;> omega
  unfold mwmHttpMatch withRanges behindBlank blankDump
  simp only [HttpState.npDump, h.l7Ptr, hfin, hnlen, if_true]
  rw [if_neg (by omega), Int.zero_add]

/-- One position of the search. -/
theorem Parsing.step (h : pkt.Fresh) {t : ℕ} {hit : ℕ × Option ℕ} {st : HttpState}
    (hhit : httpHitAt pkt.payload t = some hit) (hst : Parsing dump pkt t st) :
    (((httpCall dump pkt).common hit st).1 = false ∧ Parsing dump pkt (t + 1) ((httpCall dump pkt).common hit st).2) ∨
    (((httpCall dump pkt).common hit st).1 = true ∧ EndsAtBlank dump pkt ((httpCall dump pkt).common hit st).2) := by
  obtain ⟨idx, name, hname, hocc, rfl⟩ := httpHitAt_some h.length_le hhit
  obtain ⟨ranges, reads, dumped, rfl, hpt⟩ := hst
  unfold Callback.common httpCall
  simp only [Option.getD_some, h.l7Ptr, Int.zero_add]
  by_cases hidx : idx = npHttpEnd
  · subst hidx
    obtain rfl : blankLine = name := Option.some.inj hname
    right
    rw [show t + blankLine.length = t + 4 from rfl, mwmHttpMatch_blank h hocc]
    exact ⟨rfl, t, ranges, reads, dumped, hocc, hpt, rfl⟩
  · have hne : name ≠ [] := by
      have := (httpHeaders_spec hname).2.2.1
      exact List.length_pos_iff.1 (by omega)
    left
    rw [mwmHttpMatch_name h hidx (occursAt_le hocc hne)]
    exact ⟨rfl, _, _, _, rfl, hpt.name h ⟨hidx, hname⟩ hocc⟩

/-- What `on_http_hdr` leaves: without a blank line, what the search has stored at the end of the
    payload; with one, what it has stored there, and the payload begins behind it. -/
theorem onHttpHdr_run (h : pkt.Fresh) :
    (∃ b ranges reads dumped, occursAt blankLine pkt.payload b = true
      ∧ ParsedTo dump pkt b ranges reads dumped
      ∧ onHttpHdr dump pkt = ⟨{ behindBlank pkt b ranges with duType := .httpReq }, reads,
        dumped ++ blankDump dump b⟩) ∨
    ∃ ranges reads dumped, ParsedTo dump pkt pkt.payload.length ranges reads dumped
      ∧ onHttpHdr dump pkt =
        ⟨{ pkt with headersRange := ranges, duType := .httpReq }, reads, dumped⟩ := by
  have hstart : Parsing dump pkt 0 ⟨saveUrl pkt, (List.range pkt.payload.length ++
      mwmReads mwmParser.patArray pkt.payload).map fun (i : ℕ) => pkt.l7Ptr + i, []⟩ :=
    ⟨_, _, _, by rw [withRanges, ← saveUrl_eq], parsedTo_zero h⟩
  have hskip : ∀ t st, t < pkt.payload.length → httpHitAt pkt.payload t = none →
      Parsing dump pkt t st → Parsing dump pkt (t + 1) st := by
    rintro t - - hnone ⟨ranges, reads, dumped, rfl, hpt⟩
    exact ⟨ranges, reads, dumped, rfl, hpt.skip fun k name hname => httpHitAt_none h.length_le hnone hname⟩
  have hgo : ∀ t hit st, t < pkt.payload.length → httpHitAt pkt.payload t = some hit →
      Parsing dump pkt t st → ((httpCall dump pkt).common hit st).1 = false →
        Parsing dump pkt (t + 1) ((httpCall dump pkt).common hit st).2 := by
    intro t hit st _ hhit hst hgo
    rcases Parsing.step h hhit hst with ⟨-, hstep⟩ | ⟨hend, -⟩
    · exact hstep
    · rw [hend] at hgo
      cases hgo
  have hend : ∀ t hit st, t < pkt.payload.length → httpHitAt pkt.payload t = some hit →
      Parsing dump pkt t st → ((httpCall dump pkt).common hit st).1 = true →
        EndsAtBlank dump pkt ((httpCall dump pkt).common hit st).2 := by
    intro t hit st _ hhit hst hend
    rcases Parsing.step h hhit hst with ⟨hgo, -⟩ | ⟨-, hstep⟩
    · rw [hgo] at hend
      cases hend
    · exact hstep
  unfold onHttpHdr
  dsimp only
  rw [mwmSearch_mwmParser]
  rcases visit_found_induct (Nat.zero_le _) hstart hskip hgo hend with
    ⟨b, ranges, reads, dumped, hocc, hpt, heq⟩ | ⟨ranges, reads, dumped, heq, hpt⟩
  · refine .inl ⟨b, ranges, reads, dumped, hocc, hpt, ?_⟩
    rw [heq]
  · refine .inr ⟨ranges, reads, dumped, hpt, ?_⟩
    rw [heq]
    rfl

/-! ## The URL -/

/-- A request has one url. -/
theorem UrlAt.unique {text : List UInt8} {s u s' u' : ℕ} (h : UrlAt text s u)
    (h' : UrlAt text s' u') : s = s' ∧ u = u' := by
  have hs : s = s' := by
    rcases Nat.lt_trichotomy s s' with hlt | heq | hlt
    · exact absurd h.start (h'.first s h.pos (hlt.trans h'.lt) (Nat.ne_of_lt hlt))
    · exact heq
    · exact absurd h'.start (h.first s' h'.pos (hlt.trans h.lt) (Nat.ne_of_lt hlt))
  subst hs
  refine ⟨rfl, ?_⟩
  rcases Nat.lt_trichotomy u u' with hlt | heq | hlt
  · exact absurd h.fin (h'.first u (h.pos.trans h.lt) hlt (Nat.ne_of_gt h.lt))
  · exact heq
  · exact absurd h'.fin (h.first u' (h'.pos.trans h'.lt) hlt (Nat.ne_of_gt h'.lt))

/-- What the scan for the URL knows of the bytes before a position. -/
structure UrlScanned (text : List UInt8) (i start : ℕ) : Prop where
  line : ∀ k < i, text[k]? ≠ some 13 ∧ text[k]? ≠ some 10
  blank : ∀ k, 0 < k → k < i → k ≠ start → text[k]? ≠ some 0x20
  start : start ≠ 0 → start < i ∧ text[start]? = some 0x20

/-- The second blank comes from the position on, and if the first is not known, it does. -/
theorem UrlScanned.late {text : List UInt8} {i start s u : ℕ} (h : UrlScanned text i start)
    (hurl : UrlAt text s u) : (start = 0 → i ≤ s) ∧ (start ≠ 0 → s = start) ∧ i ≤ u := by
  have hpos := hurl.pos
  have hlt := hurl.lt
  have hfirst : s < i → s = start := fun hsi => by
    by_contra hne
    exact h.blank s hpos hsi hne hurl.start
  have hknown : start ≠ 0 → s = start := fun hzero => by
    by_contra hne
    obtain ⟨hsi, hbyte⟩ := h.start hzero
    have hle : i ≤ s := Nat.le_of_not_lt fun hlt => hne (hfirst hlt)
    exact hurl.first start (by omega) (by omega) (Ne.symm hne) hbyte
  refine ⟨fun hzero => ?_, hknown, ?_⟩
  · by_contra hsi
    have := hfirst (by omega)
    omega
  · by_contra hui
    have hs := hfirst (by omega)
    exact h.blank u (by omega) (by omega) (by omega) hurl.fin

/-- The scan finds the blanks around the URL if there are any. -/
theorem urlLoop_spec {text rest : List UInt8} {i start : ℕ} (hrest : text.drop i = rest)
    (h : UrlScanned text i start) :
    UrlAt text (urlLoop rest i start).1 (urlLoop rest i start).2 ∨
    (((urlLoop rest i start).1 = 0 ∨ (urlLoop rest i start).2 = 0) ∧ ∀ s u, ¬ UrlAt text s u) := by
  induction rest generalizing i start with
  | nil =>
    refine .inr ⟨.inr rfl, fun s u hurl => ?_⟩
    have hle := (h.late hurl).2.2
    have hnil : text.length ≤ i := List.drop_eq_nil_iff.1 hrest
    have := hurl.fin
    rw [List.getElem?_eq_none (by omega)] at this
    cases this
  | cons c rest ih =>
    have hbyte : text[i]? = some c := by
      have : (text.drop i)[0]? = some c := by rw [hrest]; rfl
      rwa [List.getElem?_drop, Nat.add_zero] at this
    have hdrop : text.drop (i + 1) = rest := by
      rw [← List.drop_drop, hrest]
      rfl
    -- a byte that ends no line leaves the scanned part without line ends
    have hline : c ≠ 13 → c ≠ 10 → ∀ k < i + 1, text[k]? ≠ some 13 ∧ text[k]? ≠ some 10 := by
      intro hcr hlf k hk
      rcases Nat.lt_succ_iff_lt_or_eq.1 hk with hk | rfl
      · exact h.line k hk
      · simp [hbyte, hcr, hlf]
    rw [urlLoop]
    split
    next hfirst =>
      -- the first blank, behind which the address starts
      obtain ⟨hzero, rfl⟩ := hfirst
      refine ih hdrop ⟨hline (by decide) (by decide), fun k hpos hk hne => ?_, fun _ => ⟨by omega, hbyte⟩⟩
      exact h.blank k hpos (by omega) (by omega)
    next hfirst =>
      split
      next hsp =>
        -- the second blank ends the address
        subst hsp
        have hne : start ≠ 0 := fun hzero => hfirst ⟨hzero, rfl⟩
        obtain ⟨hlt, hstart⟩ := h.start hne
        exact .inl ⟨by omega, hlt, hstart, hbyte, h.line, fun k hpos hk hks => h.blank k hpos hk hks⟩
      next hsp =>
        split
        next hcr =>
          -- an end of line before the second blank
          refine .inr ⟨.inr rfl, fun s u hurl => ?_⟩
          have hle := (h.late hurl).2.2
          have hne : i ≠ u := by
            rintro rfl
            exact hsp (Option.some.inj (hbyte.symm.trans hurl.fin))
          have := hurl.line i (by omega)
          rw [hbyte] at this
          rcases hcr with rfl | rfl
          · exact this.1 rfl
          · exact this.2 rfl
        next hcr =>
          push Not at hcr
          refine ih hdrop ⟨hline hcr.1 hcr.2, fun k hpos hk hks => ?_, fun hne => ?_⟩
          · rcases Nat.lt_succ_iff_lt_or_eq.1 hk with hk | rfl
            · exact h.blank k hpos hk hks
            · simpa [hbyte] using hsp
          · obtain ⟨hlt, hstart⟩ := h.start hne
            exact ⟨by omega, hstart⟩

/-- The range that is stored for the URL. -/
theorem saveUrl_url (h : pkt.Fresh) :
    (∃ s u, UrlAt pkt.payload s u ∧ (saveUrl pkt).headersRange npHttpUrl = ((s : ℤ), (u : ℤ))) ∨
    ((∀ s u, ¬ UrlAt pkt.payload s u) ∧ (saveUrl pkt).headersRange npHttpUrl = (0, 0)) := by
  have hscan : UrlScanned pkt.payload 0 0 := ⟨by simp, by simp, by simp⟩
  have hspec := urlLoop_spec List.drop_zero hscan
  unfold saveUrl
  dsimp only
  rcases hspec with hurl | ⟨hzero, hnone⟩
  · have hpos := hurl.pos
    have hlt := hurl.lt
    refine .inl ⟨_, _, hurl, ?_⟩
    rw [if_pos ⟨by omega, by omega⟩]
    exact Function.update_self npHttpUrl _ pkt.headersRange
  · refine .inr ⟨hnone, ?_⟩
    rw [if_neg (by omega)]
    exact h.headersRange npHttpUrl

/-! ## What is right -/

/-- The name ends at `e`, before any blank line, and the next line end is at `n`. -/
def HasValue (text name : List UInt8) (e n : ℕ) : Prop :=
  (∃ t, occursAt name text t = true ∧ e = t + name.length)
    ∧ (∀ b, occursAt blankLine text b = true → e ≤ b) ∧ FirstCrlf text e n

/-- The last value of a name. -/
def LastValue (text name : List UInt8) (e n : ℕ) : Prop :=
  HasValue text name e n ∧ ∀ e' n', HasValue text name e' n' → e' ≤ e

/-- The parser does what it should on a packet: `np_http_hdr` returns the value of every header
    that has one (the last, where there are several; null for no bytes), and neither the parser
    nor `np_http_hdr` refers to bytes outside of the payload. -/
structure Extracts (dump : Bool) (pkt : Packet) : Prop where
  value : ∀ h name, IsHeader h name → ∀ e n, LastValue pkt.payload name e n →
    npHttpHdr (onHttpHdr dump pkt).pkt h = if e < n then some ((e : ℤ), (n : ℤ) - e) else none
  reads : ∀ r ∈ (onHttpHdr dump pkt).reads, 0 ≤ r ∧ r < pkt.payload.length
  dumped : ∀ r ∈ (onHttpHdr dump pkt).dumped, 0 ≤ r ∧ r < pkt.payload.length
  inside : ∀ h data len, npHttpHdr (onHttpHdr dump pkt).pkt h = some (data, len) →
    0 ≤ data ∧ data + len ≤ pkt.payload.length

/-- Before a blank line stands no name of a header, and what stands for the URL before the cut is
    inside of the payload behind it, as is what is printed. -/
def CleanBefore (dump : Bool) (text : List UInt8) (b : ℕ) : Prop :=
  (∀ h name, IsHeader h name → ∀ t, occursAt name text t = true → b ≤ t)
    ∧ (∀ s u, UrlAt text s u → b + 4 + u ≤ text.length)
    ∧ (dump = true → b + 4 + 16 ≤ text.length)

/-- Without a blank line: no search for a line end goes over the end, and the last value of a
    name is not empty, but for a name that stands only there, in the last line that ends; and
    what is printed behind a name without a line end is inside of the payload. -/
def CleanLines (dump : Bool) (text : List UInt8) : Prop :=
  ∀ h name, IsHeader h name →
    (∀ t, occursAt name text t = true → ¬ Overruns text (t + name.length)
      ∧ (dump = true → (∀ j, t + name.length < j → occursAt crlf text j = false) →
        t + name.length + 16 ≤ text.length))
      ∧ ∀ e n, LastValue text name e n → e < n ∨
        ((∀ j, n < j → occursAt crlf text j = false)
          ∧ ∀ t, occursAt name text t = true → e ≤ t + name.length)

/-- The payloads for which the parser is right. -/
def Clean (dump : Bool) (text : List UInt8) : Prop :=
  (∀ b, occursAt blankLine text b = true → (∀ j < b, occursAt blankLine text j = false) →
    CleanBefore dump text b) ∧
    ((∀ b, occursAt blankLine text b = false) → CleanLines dump text)

/-- What the accessor returns for a range. -/
theorem npHttpHdr_eq {pkt' : Packet} {h : ℕ} {name : List UInt8} (hh : IsHeader h name)
    {lo hi : ℤ} (hrange : pkt'.headersRange h = (lo, hi)) :
    npHttpHdr pkt' h = if hi - lo ≤ 0 then none else some (pkt'.l7Ptr + lo, hi - lo) := by
  have hspec := httpHeaders_spec hh.2
  have hne : ¬ (h = 0 ∨ npHttpMax ≤ h) := by
    rintro (rfl | hle)
    · exact hh.1 rfl
    · omega
  unfold npHttpHdr
  rw [if_neg hne, hrange]

/-- A line ends behind where it begins. -/
theorem lt_of_lineEnd {e n : ℕ} (h : lineEnd pkt e = some n) : e < n := by
  obtain ⟨i, -, rfl⟩ := Option.map_eq_some_iff.1 h
  omega

/-- A name cannot reach into a blank line. -/
theorem name_le_blank {h : ℕ} {name text : List UInt8} (hh : IsHeader h name) {t b : ℕ}
    (hname : occursAt name text t = true) (hblank : occursAt blankLine text b = true)
    (hlt : t < b) : t + name.length ≤ b := by
  by_contra hle
  have hcr : text[b]? = some 13 := (occursAt_iff.1 hblank) 0 (by decide)
  have hin := occursAt_iff.1 hname (b - t) (by omega)
  rw [Nat.add_sub_cancel' hlt.le, hcr] at hin
  exact (httpHeaders_spec hh.2).2.2.2 hh.1 (List.mem_of_getElem? hin.symm)

/-- A header, the URL or none: the ranges that `np_http_hdr` can read. -/
theorem npHttpHdr_cases {pkt' : Packet} {h : ℕ} {data len : ℤ}
    (hres : npHttpHdr pkt' h = some (data, len)) :
    (h = npHttpUrl ∨ ∃ name, IsHeader h name) ∧ data = pkt'.l7Ptr + (pkt'.headersRange h).1
      ∧ len = (pkt'.headersRange h).2 - (pkt'.headersRange h).1 ∧ 0 < len := by
  unfold npHttpHdr at hres
  split at hres
  · cases hres
  next hh =>
    dsimp only at hres
    split at hres
    · cases hres
    next hpos =>
      cases hres
      refine ⟨?_, rfl, rfl, by omega⟩
      have hall : ∀ h < npHttpMax, h ≠ 0 → h ≠ npHttpUrl → (httpHeaders h).isSome := by decide
      push Not at hh
      by_cases hurl : h = npHttpUrl
      · exact .inl hurl
      · obtain ⟨name, hname⟩ := Option.isSome_iff_exists.1 (hall h hh.2 hh.1 hurl)
        exact .inr ⟨name, hh.1, hname⟩

/-! ## With a blank line -/

/-- The line end in a blank line. -/
theorem crlf_of_blank {text : List UInt8} {b : ℕ} (h : occursAt blankLine text b = true) :
    occursAt crlf text b = true ∧ occursAt crlf text (b + 2) = true := by
  have hbyte := occursAt_iff.1 h
  exact ⟨crlf_occursAt_iff.2 ⟨hbyte 0 (by decide), hbyte 1 (by decide)⟩,
    crlf_occursAt_iff.2 ⟨hbyte 2 (by decide), hbyte 3 (by decide)⟩⟩

/-- Behind the blank line only the end's range is new. -/
theorem behindBlank_range {b k : ℕ} {ranges : ℕ → ℤ × ℤ} (hk : k ≠ npHttpEnd) :
    ({ behindBlank pkt b ranges with duType := .httpReq } : Packet).headersRange k = ranges k :=
  Function.update_of_ne hk _ _

/-- Behind a blank line, the range of a name before it is read from the wrong place. -/
theorem not_extracts_of_name (h : pkt.Fresh) {b : ℕ} {ranges : ℕ → ℤ × ℤ} {reads dumped : List ℤ}
    (hblank : occursAt blankLine pkt.payload b = true) (hpt : ParsedTo dump pkt b ranges reads dumped)
    (hrun : onHttpHdr dump pkt =
      ⟨{ behindBlank pkt b ranges with duType := .httpReq }, reads, dumped ++ blankDump dump b⟩)
    {k : ℕ} {name : List UInt8} (hk : IsHeader k name) {t : ℕ}
    (hocc : occursAt name pkt.payload t = true) (hlt : t < b) : ¬ Extracts dump pkt := by
  intro hext
  have hcrlf := crlf_of_blank hblank
  -- of every name before it, the line end is found
  have hfound : ∀ {s}, s < b → occursAt name pkt.payload s = true →
      s + name.length ≤ b ∧ lineEnd pkt (s + name.length) ≠ none := by
    intro s hs hocc'
    have hle := name_le_blank hk hocc' hblank hs
    obtain ⟨n, hn⟩ := exists_lineEnd h (show s + name.length < b + 2 by omega) hcrlf.2
    exact ⟨hle, by simp [hn]⟩
  rcases hpt.ranges k name hk with ⟨-, hall⟩ | ⟨s, hs, n, hocc', hend, hrange, hall⟩
  · exact (hfound hlt hocc).2 (hall t hlt hocc)
  · have hle := (hfound hs hocc').1
    obtain ⟨m, hm⟩ := exists_firstCrlf hle hcrlf.1
    have hlast : LastValue pkt.payload name (s + name.length) m := by
      refine ⟨⟨⟨s, hocc', rfl⟩, fun b' hb' => ?_, hm⟩, ?_⟩
      · by_contra hlt'
        have := hpt.blank b' (by omega)
        rw [hb'] at this
        cases this
      · rintro e' n' ⟨⟨t', ht', rfl⟩, hbefore, -⟩
        have hlen := (httpHeaders_spec hk.2).2.2.1
        have ht'b := hbefore b hblank
        by_contra hlt'
        exact (hfound (by omega) ht').2 (hall t' (by omega) (by omega) ht')
    have hvalue := hext.value k name hk _ m hlast
    rw [hrun, npHttpHdr_eq hk ((behindBlank_range hk.1).trans hrange)] at hvalue
    have hpos := lt_of_lineEnd hend
    rw [if_neg (by omega)] at hvalue
    split at hvalue
    · have hptr : ((b + 4 : ℕ) : ℤ) + ((s + name.length : ℕ) : ℤ) = ((s + name.length : ℕ) : ℤ) :=
        congrArg Prod.fst (Option.some.inj hvalue)
      omega
    · cases hvalue

/-- The values that are extracted where the header ends at a blank line. -/
theorem extracts_blank_iff (h : pkt.Fresh) {b : ℕ} {ranges : ℕ → ℤ × ℤ} {reads dumped : List ℤ}
    (hblank : occursAt blankLine pkt.payload b = true) (hpt : ParsedTo dump pkt b ranges reads dumped)
    (hrun : onHttpHdr dump pkt =
      ⟨{ behindBlank pkt b ranges with duType := .httpReq }, reads, dumped ++ blankDump dump b⟩) :
    Extracts dump pkt ↔ CleanBefore dump pkt.payload b := by
  have hurlNe : npHttpUrl ≠ npHttpEnd := by decide
  constructor
  · intro hext
    refine ⟨fun k name hk t hocc => ?_, fun s u hurl => ?_, fun hdump => ?_⟩
    · -- a name behind the blank line has been stored, or read beyond it
      by_contra hlt
      exact not_extracts_of_name h hblank hpt hrun hk hocc (by omega) hext
    · rcases saveUrl_url h with ⟨s', u', hurl', hrange⟩ | ⟨hnone, -⟩
      · -- the address is given relative to the first line but taken from behind the headers
        obtain ⟨rfl, rfl⟩ := hurl.unique hurl'
        have hlt := hurl.lt
        have hres : npHttpHdr (onHttpHdr dump pkt).pkt npHttpUrl =
            some (((b + 4 : ℕ) : ℤ) + s, (u : ℤ) - s) := by
          rw [hrun, npHttpHdr, if_neg (by decide), behindBlank_range hurlNe, hpt.url, hrange]
          dsimp only
          rw [if_neg (by omega)]
          rfl
        have := (hext.inside _ _ _ hres).2
        omega
      · exact absurd hurl (hnone s u)
    · have hin : ((b + 4 + 15 : ℕ) : ℤ) ∈ (onHttpHdr dump pkt).dumped := by
        rw [hrun, blankDump, if_pos hdump]
        exact List.mem_append_right _ (mem_addrs.2 (by omega))
      have := (hext.dumped _ hin).2
      omega
  · rintro ⟨hnames, hfits, hdump⟩
    refine ⟨?_, fun r hr => ?_, fun r hr => ?_, fun k data len hres => ?_⟩
    · rintro k name hk e n ⟨⟨⟨t, hocc, rfl⟩, hbefore, -⟩, -⟩
      have := hnames k name hk t hocc
      have := hbefore b hblank
      have := (httpHeaders_spec hk.2).2.2.1
      omega
    · rw [hrun] at hr
      have hle := hpt.reads_le r hr
      refine ⟨hle.1, lt_of_le_of_ne hle.2 ?_⟩
      rintro rfl
      obtain ⟨k, name, hk, s, hs, hocc, -⟩ := hpt.reads_end.1 hr
      have := hnames k name hk s hocc
      omega
    · rw [hrun] at hr
      rcases List.mem_append.1 hr with hr | hr
      · obtain ⟨k, name, hk, s, hs, hocc, -⟩ := (hpt.dumped r).1 hr
        have := hnames k name hk s hocc
        omega
      · unfold blankDump at hr
        split at hr
        next hd =>
          have := hdump hd
          have := mem_addrs.1 hr
          omega
        · cases hr
    · rw [hrun] at hres
      obtain ⟨hk, hdata, hlen, hpos⟩ := npHttpHdr_cases hres
      have hptr : ({ behindBlank pkt b ranges with duType := .httpReq } : Packet).l7Ptr =
        (b + 4 : ℕ) := rfl
      rw [hptr] at hdata
      rcases hk with rfl | ⟨name, hk⟩
      · rw [behindBlank_range hurlNe, hpt.url] at hdata hlen
        rcases saveUrl_url h with ⟨s, u, hurl, hrange⟩ | ⟨-, hrange⟩
        · have := hfits s u hurl
          rw [hrange] at hdata hlen
          omega
        · rw [hrange] at hlen
          omega
      · rw [behindBlank_range hk.1] at hdata hlen
        rcases hpt.ranges k name hk with ⟨hrange, -⟩ | ⟨s, hs, -, hocc, -⟩
        · rw [hrange] at hlen
          omega
        · have := hnames k name hk s hocc
          omega

/-! ## Without a blank line -/

/-- Without overruns, what is stored of a name is its last value, unless that is empty. -/
theorem value_of_lines (h : pkt.Fresh) {ranges : ℕ → ℤ × ℤ} {reads dumped : List ℤ}
    (hpt : ParsedTo dump pkt pkt.payload.length ranges reads dumped)
    (hrun : onHttpHdr dump pkt =
      ⟨{ pkt with headersRange := ranges, duType := .httpReq }, reads, dumped⟩)
    (hno : ∀ b, occursAt blankLine pkt.payload b = false) {k : ℕ} {name : List UInt8}
    (hk : IsHeader k name)
    (hover : ∀ t, occursAt name pkt.payload t = true → ¬ Overruns pkt.payload (t + name.length))
    {e n : ℕ} (hlast : LastValue pkt.payload name e n) (hcond : e < n ∨
      ((∀ j, n < j → occursAt crlf pkt.payload j = false)
        ∧ ∀ t, occursAt name pkt.payload t = true → e ≤ t + name.length)) :
    npHttpHdr (onHttpHdr dump pkt).pkt k = if e < n then some ((e : ℤ), (n : ℤ) - e) else none := by
  obtain ⟨⟨⟨t, hocc, rfl⟩, -, hcrlf⟩, hmax⟩ := hlast
  have hpos := (httpHeaders_spec hk.2).2.2.1
  have hne : name ≠ [] := List.length_pos_iff.1 (by omega)
  have htlt := occursAt_le hocc hne
  rcases hpt.ranges k name hk with ⟨hrange, hall⟩ | ⟨s, hs, m, hocc', hend, hrange, hall⟩
  · rw [hrun, npHttpHdr_eq hk hrange]
    refine (if_pos (by omega)).trans (if_neg fun hlt => ?_).symm
    -- a value that is not empty would have been stored
    obtain ⟨m, hm⟩ := exists_lineEnd h hlt hcrlf.1
    rw [hall t (by omega) hocc] at hm
    cases hm
  · have hfirst := firstCrlf_of_lineEnd h hend (hover s hocc')
    have hsm := lt_of_lineEnd hend
    by_cases hlt : t + name.length < n
    · have hendt : lineEnd pkt (t + name.length) = some n :=
        lineEnd_of_firstCrlf h ⟨hcrlf.1, hlt, fun j hj hj' => hcrlf.2.2 j (by omega) hj'⟩
      obtain ⟨m', hm'⟩ := exists_firstCrlf (Nat.le_of_succ_le hfirst.2.1) hfirst.1
      have hst : s + name.length ≤ t + name.length :=
        hmax _ m' ⟨⟨s, hocc', rfl⟩, fun b hb => absurd hb (by simp [hno b]), hm'⟩
      obtain rfl : s = t := by
        by_contra hneq
        have := hall t (by omega) (by omega) hocc
        rw [hendt] at this
        cases this
      obtain rfl : n = m := Option.some.inj (hendt.symm.trans hend)
      rw [hrun, npHttpHdr_eq hk hrange, if_neg (by omega), if_pos hlt]
      dsimp only
      rw [h.l7Ptr, Int.zero_add]
    · -- no line end behind the empty value
      obtain ⟨hlate, honly⟩ := hcond.resolve_left hlt
      have := honly s hocc'
      have hm := hlate m (by omega)
      rw [hfirst.1] at hm
      cases hm

/-- Unless the search for it goes over the end, no line end is found exactly where there is none. -/
theorem lineEnd_eq_none_iff (h : pkt.Fresh) {e : ℕ} (hover : ¬ Overruns pkt.payload e) :
    lineEnd pkt e = none ↔ ∀ j, e < j → occursAt crlf pkt.payload j = false := by
  constructor
  · intro hnone j hj
    by_contra hocc
    obtain ⟨n, hn⟩ := exists_lineEnd h hj (by simpa using hocc)
    rw [hnone] at hn
    cases hn
  · intro hlate
    cases hend : lineEnd pkt e with
    | none => rfl
    | some n =>
      have hfirst := firstCrlf_of_lineEnd h hend hover
      have hocc := hlate n hfirst.2.1
      rw [hfirst.1] at hocc
      cases hocc

/-- A position of a name lies in the payload. -/
theorem lt_of_isHeader {k t : ℕ} {name text : List UInt8} (hk : IsHeader k name)
    (hocc : occursAt name text t = true) : t < text.length := by
  have hpos := (httpHeaders_spec hk.2).2.2.1
  have := occursAt_le hocc (List.length_pos_iff.1 (by omega))
  omega

/-- Where the last value of a name is returned, it is not empty, or the name stands only there, in
    the last line that ends. -/
theorem last_of_value (h : pkt.Fresh) {ranges : ℕ → ℤ × ℤ} {reads dumped : List ℤ}
    (hpt : ParsedTo dump pkt pkt.payload.length ranges reads dumped)
    (hrun : onHttpHdr dump pkt =
      ⟨{ pkt with headersRange := ranges, duType := .httpReq }, reads, dumped⟩)
    {k : ℕ} {name : List UInt8} (hk : IsHeader k name) {e n : ℕ}
    (hlast : LastValue pkt.payload name e n)
    (hvalue : npHttpHdr (onHttpHdr dump pkt).pkt k =
      if e < n then some ((e : ℤ), (n : ℤ) - e) else none) :
    e < n ∨ ((∀ j, n < j → occursAt crlf pkt.payload j = false)
      ∧ ∀ t, occursAt name pkt.payload t = true → e ≤ t + name.length) := by
  obtain ⟨⟨⟨t, hocc, rfl⟩, -, hcrlf⟩, -⟩ := hlast
  by_contra hcond
  push Not at hcond
  have heq : t + name.length = n := Nat.le_antisymm hcrlf.2.1 hcond.1
  rcases hpt.ranges k name hk with ⟨-, hall⟩ | ⟨s, hs, m, -, hend, hrange, -⟩
  · by_cases hlate : ∀ j, n < j → occursAt crlf pkt.payload j = false
    · -- an earlier place of the name would have been stored
      obtain ⟨t', hocc', hlt⟩ := hcond.2 hlate
      obtain ⟨m, hm⟩ := exists_lineEnd h (show t' + name.length < n by omega) hcrlf.1
      rw [hall t' (lt_of_isHeader hk hocc') hocc'] at hm
      cases hm
    · push Not at hlate
      obtain ⟨j, hj, hjocc⟩ := hlate
      obtain ⟨m, hm⟩ := exists_lineEnd h (show t + name.length < j by omega) (by simpa using hjocc)
      rw [hall t (lt_of_isHeader hk hocc) hocc] at hm
      cases hm
  · have hpos := lt_of_lineEnd hend
    rw [hrun, npHttpHdr_eq hk hrange, if_neg (by omega), if_neg (by omega)] at hvalue
    cases hvalue

/-- The values that are extracted where the payload ends first. -/
theorem extracts_lines_iff (h : pkt.Fresh) {ranges : ℕ → ℤ × ℤ} {reads dumped : List ℤ}
    (hpt : ParsedTo dump pkt pkt.payload.length ranges reads dumped)
    (hrun : onHttpHdr dump pkt =
      ⟨{ pkt with headersRange := ranges, duType := .httpReq }, reads, dumped⟩)
    (hno : ∀ b, occursAt blankLine pkt.payload b = false) :
    Extracts dump pkt ↔ CleanLines dump pkt.payload := by
  constructor
  · intro hext k name hk
    have hover : ∀ t, occursAt name pkt.payload t = true →
        ¬ Overruns pkt.payload (t + name.length) := by
      intro t hocc hover
      have hmem := hpt.reads_end.2 ⟨k, name, hk, t, lt_of_isHeader hk hocc, hocc, hover⟩
      have := hext.reads _ (by rw [hrun]; exact hmem)
      omega
    refine ⟨fun t hocc => ⟨hover t hocc, fun hdump hlate => ?_⟩, fun e n hlast =>
      last_of_value h hpt hrun hk hlast (hext.value k name hk e n hlast)⟩
    -- the line end is not found, and what follows the name is printed
    have hin : ((t + name.length + 15 : ℕ) : ℤ) ∈ (onHttpHdr dump pkt).dumped := by
      rw [hrun]
      refine (hpt.dumped _).2 ⟨k, name, hk, t, lt_of_isHeader hk hocc, hocc, ?_⟩
      rw [lineDump, if_pos ⟨hdump, (lineEnd_eq_none_iff h (hover t hocc)).2 hlate⟩]
      exact mem_addrs.2 (by omega)
    have := (hext.dumped _ hin).2
    omega
  · intro hclean
    have hover : ∀ {k name t}, IsHeader k name → occursAt name pkt.payload t = true →
        ¬ Overruns pkt.payload (t + name.length) := fun hk hocc => ((hclean _ _ hk).1 _ hocc).1
    refine ⟨fun k name hk e n hlast => ?_, fun r hr => ?_, fun r hr => ?_,
      fun k data len hres => ?_⟩
    · exact value_of_lines h hpt hrun hno hk (fun t hocc => hover hk hocc) hlast
        ((hclean k name hk).2 e n hlast)
    · rw [hrun] at hr
      have hle := hpt.reads_le r hr
      refine ⟨hle.1, lt_of_le_of_ne hle.2 ?_⟩
      rintro rfl
      obtain ⟨k, name, hk, s, -, hocc, hover'⟩ := hpt.reads_end.1 hr
      exact hover hk hocc hover'
    · rw [hrun] at hr
      obtain ⟨k, name, hk, s, -, hocc, hr⟩ := (hpt.dumped r).1 hr
      unfold lineDump at hr
      split at hr
      next hd =>
        have hlate := (lineEnd_eq_none_iff h (hover hk hocc)).1 hd.2
        have := ((hclean k name hk).1 s hocc).2 hd.1 hlate
        have := mem_addrs.1 hr
        omega
      · cases hr
    · rw [hrun] at hres
      obtain ⟨hk, hdata, hlen, hpos⟩ := npHttpHdr_cases hres
      dsimp only at hdata hlen
      rw [h.l7Ptr] at hdata
      rcases hk with rfl | ⟨name, hk⟩
      · rw [hpt.url] at hdata hlen
        rcases saveUrl_url h with ⟨s, u, hurl, hrange⟩ | ⟨-, hrange⟩
        · have hu : u < pkt.payload.length := (List.getElem?_eq_some_iff.1 hurl.fin).1
          rw [hrange] at hdata hlen
          omega
        · rw [hrange] at hlen
          omega
      · rcases hpt.ranges k name hk with ⟨hrange, -⟩ | ⟨s, -, m, hocc, hend, hrange, -⟩
        · rw [hrange] at hlen
          omega
        · have hfirst := firstCrlf_of_lineEnd h hend (hover hk hocc)
          have : m + 2 ≤ pkt.payload.length := occursAt_le hfirst.1 (by decide)
          rw [hrange] at hdata hlen
          omega

/-- The parser is right for a packet exactly when its payload is clean. -/
theorem extracts_iff (h : pkt.Fresh) (dump : Bool) :
    Extracts dump pkt ↔ Clean dump pkt.payload := by
  unfold Clean
  rcases onHttpHdr_run h with ⟨b, ranges, reads, dumped, hblank, hpt, hrun⟩ |
    ⟨ranges, reads, dumped, hpt, hrun⟩
  · rw [extracts_blank_iff h hblank hpt hrun]
    constructor
    · refine fun hclean => ⟨fun b' hb' hfirst => ?_, fun hno => ?_⟩
      · obtain rfl : b' = b := by
          rcases Nat.lt_trichotomy b b' with hlt | heq | hlt
          · rw [hfirst b hlt] at hblank
            cases hblank
          · exact heq.symm
          · rw [hpt.blank b' hlt] at hb'
            cases hb'
        exact hclean
      · rw [hno b] at hblank
        cases hblank
    · exact fun hclean => hclean.1 b hblank hpt.blank
  · have hno : ∀ b, occursAt blankLine pkt.payload b = false := by
      intro b
      by_contra hocc
      have hle : b + 4 ≤ pkt.payload.length := occursAt_le (by simpa using hocc) (by decide)
      exact hocc (hpt.blank b (by omega))
    rw [extracts_lines_iff h hpt hrun hno]
    constructor
    · refine fun hclean => ⟨fun b hb => ?_, fun _ => hclean⟩
      rw [hno b] at hb
      cases hb
    · exact fun hclean => hclean.2 hno

end Run

/-- A packet made of a payload is fresh. -/
theorem packetOf_fresh {payload : List UInt8} (hpos : payload ≠ []) (hle : payload.length ≤ 32767) :
    (packetOf payload).Fresh := by
  have := List.length_pos_iff.2 hpos
  exact ⟨rfl, by simp only [packetOf]; omega, by simp only [packetOf]; omega, fun _ => rfl⟩

/-- A packet that ends with the line of its only header. -/
def hostLine : Packet := packetOf (asciiBytes "Host: a\r\n")

/-- The sample's host is extracted. -/
theorem extracts_hostLine : hostLine.Fresh ∧ Extracts true hostLine := by
  have hfresh : hostLine.Fresh := packetOf_fresh (by decide) (by decide)
  have hpay : hostLine.payload = asciiBytes "Host: a\r\n" := by decide +kernel
  -- the only name stands at the start
  have hnames : ∀ p ∈ httpPatts, p.psData ≠ npHttpEnd → ∀ t < 9,
      occursAt p.psPat (asciiBytes "Host: a\r\n") t = true → t + p.psPat.length = 5 := by
    decide +kernel
  have hname : ∀ {h name t}, IsHeader h name → occursAt name hostLine.payload t = true →
      t + name.length = 5 := by
    intro h name t hh hocc
    have hspec := httpHeaders_spec hh.2
    have hlen : t + name.length ≤ hostLine.payload.length :=
      occursAt_le hocc (List.length_pos_iff.1 (by omega))
    rw [hpay] at hlen hocc
    obtain ⟨p, hp, rfl, rfl⟩ := exists_httpPatt h hspec.1 name hh.2
    exact hnames p hp hh.1 t (lt_of_lt_of_le (by omega) hlen) hocc
  refine ⟨hfresh, (extracts_iff hfresh true).2 ⟨fun b hb => ?_, fun _ h name hh =>
    ⟨fun t hocc => ⟨fun hover => ?_, fun _ hlate => ?_⟩, ?_⟩⟩⟩
  · have hle : b + 4 ≤ hostLine.payload.length := occursAt_le hb (by decide)
    rw [hpay] at hle hb
    have hnone : ∀ b < 9, occursAt blankLine (asciiBytes "Host: a\r\n") b = false := by decide
    rw [hnone b (lt_of_lt_of_le (by omega) hle)] at hb
    cases hb
  · rw [hname hh hocc, hpay] at hover
    exact absurd (hover.1 7 (by decide)) (by decide)
  · rw [hname hh hocc, hpay] at hlate
    exact absurd (hlate 7 (by decide)) (by decide)
  · rintro e n ⟨⟨⟨t, hocc, rfl⟩, -, hcrlf⟩, -⟩
    rw [hname hh hocc] at hcrlf ⊢
    refine .inl (lt_of_le_of_ne hcrlf.2.1 ?_)
    rintro rfl
    rw [hpay] at hcrlf
    exact absurd hcrlf.1 (by decide)

/-- A request with its blank line. -/
def getRequest : Packet := packetOf (asciiBytes "GET / HTTP/1.0\r\nHost: a\r\n\r\n")

/-- The Host header of the request is read from behind its end. -/
theorem getRequest_not_extracts : getRequest.Fresh ∧ ¬ Extracts false getRequest := by
  refine ⟨packetOf_fresh (by decide) (by decide), fun hext => ?_⟩
  have hhost : npHttpHdr (onHttpHdr false getRequest).pkt npHttpHost = some (48, 2) := by decide +kernel
  have hlen : getRequest.payload.length = 27 := by decide +kernel
  have := (hext.inside _ _ _ hhost).2
  rw [hlen] at this
  omega

end NpRules
