/-
# The http header parser of nproto

`rules/http.c`: a packet that one of the two http rules accepts is searched for the
names of headers and for the blank line behind them.  For a name, the range up to the
end of its line is stored as offsets from the payload; at the blank line, the payload
is cut to what follows it.  `np_http_hdr` reads the ranges.
-/
import Mathlib.Data.List.Sort
import OpenwrtAc.CString
import OpenwrtAc.MachineInt
import OpenwrtAc.NprotoSets

open SkipSearch Mwm MachineInt CString

namespace NpRules

/-! ## Patterns -/

/-- The end of a line, the pattern of `bmhLine`. -/
def crlf : List UInt8 := asciiBytes "\r\n"

/-- `NP_HTTP_URL`. -/
def npHttpUrl : ℕ := 1

/-- `http_headers`; the first is the blank line. -/
def httpHeaders : ℕ → Option (List UInt8)
  | 0 => some (asciiBytes "\r\n\r\n")
  | 2 => some (asciiBytes "Host:")
  | 3 => some (asciiBytes "Referer:")
  | 4 => some (asciiBytes "Content:")
  | 5 => some (asciiBytes "Accept:")
  | 6 => some (asciiBytes "User-Agent:")
  | 7 => some (asciiBytes "Http-Encoding:")
  | 8 => some (asciiBytes "Transfer-Encoding:")
  | 9 => some (asciiBytes "Content-Len:")
  | 10 => some (asciiBytes "Cookie:")
  | 11 => some (asciiBytes "X-Session-Type:")
  | 12 => some (asciiBytes "Method:")
  | 13 => some (asciiBytes "Response:")
  | 14 => some (asciiBytes "Server:")
  | 15 => some (asciiBytes "End-Header:")
  | 16 => some (asciiBytes "Content-Type:")
  | _ => none

/-- The loop of `http_init` over the headers; the datum of a pattern is its index. -/
def httpInit (plist : List (Patt ℕ)) : List (Patt ℕ) :=
  (List.range npHttpMax).foldl (fun plist i =>
    match httpHeaders i with
    | some x => if 4 ≤ x.length then (mwmAddPatternUnique plist x 0 0 i).2 else plist
    | none => plist) plist

/-- The patterns of `mwmParser`: both http rules call `http_init`. -/
def httpPatts : List (Patt ℕ) := httpInit (httpInit [])

/-- `mwmParser`, with its patterns sorted. -/
def mwmParser : Prepared ℕ where
  patArray := httpPatts.insertionSort fun p q => bcompare p.psPat q.psPat ≤ 0
  sorted _ := by decide +kernel

/-- The number of header patterns. -/
theorem length_httpPatts : httpPatts.length = 16 := by decide +kernel

/-- The parser is prepared from the header patterns. -/
theorem mwmParser_prepared : PreparedFrom httpPatts mwmParser := by
  refine ⟨?_, fun h => ?_⟩
  · unfold mwmParser
    dsimp only
    generalize httpPatts = plist
    exact List.perm_insertionSort _ plist
  · rw [length_httpPatts] at h
    cases h

/-! ## The parser -/

/-- The positions that `BMHChr` compares with the pattern put at a position: from the last byte
    on to the left, as long as the bytes agree. -/
def comparedAt (patt buf : List UInt8) (t : ℕ) : List ℕ :=
  ((List.range patt.length).filter fun j =>
    (buf.drop (t + j + 1)).take (patt.length - (j + 1)) == patt.drop (j + 1)).map (t + ·)

/-- The positions of a buffer that `BMHChr` reads. -/
def bmhReads (patt buf : List UInt8) : List ℕ :=
  if buf.length < patt.length then []
  else (hopVisits (fun t => if (buf.drop t).take patt.length == patt then some t else none)
    (fun t => bmhShift patt (buf.getD (t + (patt.length - 1)) 0))
    (buf.length - (patt.length - 1)) buf.length 0).flatMap (comparedAt patt buf)

/-- The positions of a text that `mwmSearchExBW` can read: the two words at a place where it
    stops, and the bytes of the patterns of the group that are not too long. -/
def mwmReads (pats : List (Patt ℕ)) (text : List UInt8) : List ℕ :=
  (List.range (text.length - (shiftLen pats - 1))).flatMap fun t =>
    [t + shiftLen pats - 2, t + shiftLen pats - 1, t, t + 1] ++
      (hashGroup pats (hash16 text t)).flatMap fun p =>
        if p.psLen ≤ text.length - t then List.range' (t + 2) (p.psLen - 2) else []

/-- The addresses of bytes that follow each other. -/
def addrs (start : ℤ) (n : ℕ) : List ℤ := (List.range n).map fun (i : ℕ) => start + i

/-- The addresses of a stretch of memory. -/
theorem mem_addrs {start r : ℤ} {n : ℕ} : r ∈ addrs start n ↔ start ≤ r ∧ r < start + n := by
  rw [addrs, List.mem_map]
  constructor
  · rintro ⟨i, hi, rfl⟩
    have := List.mem_range.1 hi
    omega
  · rintro ⟨hle, hlt⟩
    exact ⟨(r - start).toNat, List.mem_range.2 (by omega), by omega⟩

/-- The packet, the addresses that the parser reads or can have read, and those that `np_dump`
    prints of it. -/
structure HttpState where
  pkt : Packet
  reads : List ℤ
  dumped : List ℤ

/-- `np_dump` of 16 bytes, where `dump` is that it is to print. -/
def HttpState.npDump (dump : Bool) (out : ℤ) (st : HttpState) : HttpState :=
  { st with dumped := st.dumped ++ if dump then addrs out 16 else [] }

/-- `mwm_http_match`: behind a name, the line end is looked for from the second byte on. -/
def mwmHttpMatch (dump : Bool) (idx : ℕ) (out : ℤ) (st : HttpState) : ℤ × HttpState :=
  if idx = npHttpEnd then
    let fin := i16 (out - st.pkt.l7Ptr)
    let st := st.npDump dump out
    let pkt := { st.pkt with headersRange := Function.update st.pkt.headersRange idx (fin, fin) }
    let nlen := i16 (pkt.l7Len - fin)
    if nlen < 0 then (-1, { st with pkt := pkt })
    else (-1, { st with pkt := { pkt with l7Len := nlen, l7Ptr := pkt.l7Ptr + fin } })
  else
    let start := i16 (out - st.pkt.l7Ptr)
    let lasted := i16 (st.pkt.l7Len - start)
    let buf := slice st.pkt.mem (out + 1) lasted
    let reads := st.reads ++ (bmhReads crlf buf).map fun (i : ℕ) => out + 1 + i
    match bmhChr crlf buf with
    | none => (1, { st with reads := reads }.npDump dump out)
    | some i =>
      let fin := i16 (out + 1 + i - st.pkt.l7Ptr)
      (1, ⟨{ st.pkt with headersRange := Function.update st.pkt.headersRange idx (start, fin) },
        reads, st.dumped⟩)

/-- The scan for the blanks around the URL: where they are, with 0 for one that is not found.  A
    blank at the very start does not count. -/
def urlLoop : List UInt8 → ℕ → ℕ → ℕ × ℕ
  | [], _, start => (start, 0)
  | c :: rest, i, start =>
    if start = 0 ∧ c = 0x20 then urlLoop rest (i + 1) i
    else if c = 0x20 then (start, i)
    else if c = 13 ∨ c = 10 then (start, 0)
    else urlLoop rest (i + 1) start

/-- The payload of a packet. -/
def Packet.payload (pkt : Packet) : List UInt8 := slice pkt.mem pkt.l7Ptr pkt.l7Len

/-- `on_http_hdr` up to the search: the range of the URL, whose dump is of bytes that have been
    read. -/
def saveUrl (pkt : Packet) : Packet :=
  let url := urlLoop pkt.payload 0 0
  if url.1 ≠ 0 ∧ url.2 ≠ 0 then
    { pkt with headersRange := Function.update pkt.headersRange npHttpUrl (url.1, url.2) }
  else pkt

/-- The callback of the search, which has enough patterns to tell where it found one. -/
def httpCall (dump : Bool) (pkt : Packet) : Callback ℕ HttpState :=
  fun idx out => mwmHttpMatch dump idx (pkt.l7Ptr + (out.getD 0 : ℕ))

/-- `on_http_hdr`. -/
def onHttpHdr (dump : Bool) (pkt : Packet) : HttpState :=
  let scanned := List.range pkt.payload.length ++ mwmReads mwmParser.patArray pkt.payload
  let st := mwmSearch mwmParser pkt.payload (httpCall dump pkt)
    ⟨saveUrl pkt, scanned.map fun (i : ℕ) => pkt.l7Ptr + i, []⟩
  { st with pkt := { st.pkt with duType := .httpReq } }

/-! ## What the search for headers finds -/

/-- Every pattern has at least four bytes, and that of a name is not of line ends. -/
theorem httpHeaders_spec {h : ℕ} {name : List UInt8} (hname : httpHeaders h = some name) :
    h < npHttpMax ∧ h ≠ npHttpUrl ∧ 4 ≤ name.length ∧ (h ≠ npHttpEnd → 13 ∉ name) := by
  unfold httpHeaders at hname
  split at hname <;> first | cases hname; decide | cases hname

/-- Every pattern is the name of its header, at any place. -/
theorem httpPatts_spec : ∀ p ∈ httpPatts,
    httpHeaders p.psData = some p.psPat ∧ p.psOffset = 0 ∧ p.psDepth = 32767 := by
  decide +kernel

/-- Every header's name is a pattern. -/
theorem exists_httpPatt : ∀ h < npHttpMax, ∀ name ∈ httpHeaders h,
    ∃ p ∈ httpPatts, p.psData = h ∧ p.psPat = name := by
  decide +kernel

/-- None of the patterns is the start of another. -/
theorem httpPatts_prefixFree : ∀ p ∈ httpPatts, ∀ q ∈ httpPatts,
    p.psPat.isPrefixOf q.psPat = true → p.psData = q.psData := by
  decide +kernel

/-- The parser holds the header patterns. -/
theorem mem_patArray {p : Patt ℕ} : p ∈ mwmParser.patArray ↔ p ∈ httpPatts :=
  mwmParser_prepared.perm.mem_iff

/-- In a payload of a packet, a pattern is in its window wherever it stands. -/
theorem standsAt_httpPatt {p : Patt ℕ} (hp : p ∈ httpPatts) {text : List UInt8}
    (htext : text.length ≤ 32767) (t : ℕ) : standsAt text t p = occursAt p.psPat text t := by
  obtain ⟨-, hoff, hdepth⟩ := httpPatts_spec p hp
  unfold standsAt
  cases hocc : occursAt p.psPat text t with
  | false => rfl
  | true =>
    have hle := occursAt_le hocc p.psPat_ne_nil
    rw [hoff, hdepth, Patt.psLen]
    simp only [Bool.true_and, Bool.and_eq_true, decide_eq_true_eq]
    omega

/-- Patterns that stand at the same position are the same. -/
theorem httpHeaders_unique {h h' : ℕ} {name name' text : List UInt8} {t : ℕ}
    (hname : httpHeaders h = some name) (hname' : httpHeaders h' = some name')
    (hocc : occursAt name text t = true) (hocc' : occursAt name' text t = true) : h = h' := by
  obtain ⟨p, hp, rfl, rfl⟩ := exists_httpPatt h (httpHeaders_spec hname).1 name hname
  obtain ⟨q, hq, rfl, rfl⟩ := exists_httpPatt h' (httpHeaders_spec hname').1 name' hname'
  rw [occursAt, List.isPrefixOf_iff_prefix] at hocc hocc'
  rcases List.prefix_or_prefix_of_prefix hocc hocc' with hpre | hpre
  · exact httpPatts_prefixFree p hp q hq (List.isPrefixOf_iff_prefix.2 hpre)
  · exact (httpPatts_prefixFree q hq p hp (List.isPrefixOf_iff_prefix.2 hpre)).symm

/-- What the search finds at a position. -/
def httpHitAt (text : List UInt8) (t : ℕ) : Option (ℕ × Option ℕ) :=
  (mwmParser.patArray.find? (standsAt text t)).map fun p => (p.psData, some (t + p.psLen))

/-- Where nothing is hit no name occurs. -/
theorem httpHitAt_none {text : List UInt8} (htext : text.length ≤ 32767) {t : ℕ}
    (hhit : httpHitAt text t = none) {h : ℕ} {name : List UInt8}
    (hname : httpHeaders h = some name) : occursAt name text t = false := by
  obtain ⟨p, hp, rfl, rfl⟩ := exists_httpPatt h (httpHeaders_spec hname).1 name hname
  have hnone := List.find?_eq_none.1 (Option.map_eq_none_iff.1 hhit) p (mem_patArray.2 hp)
  rw [standsAt_httpPatt hp htext] at hnone
  simpa using hnone

/-- Where something is hit a name occurs. -/
theorem httpHitAt_some {text : List UInt8} (htext : text.length ≤ 32767) {t : ℕ}
    {hit : ℕ × Option ℕ} (hhit : httpHitAt text t = some hit) : ∃ h name,
      httpHeaders h = some name ∧ occursAt name text t = true
        ∧ hit = (h, some (t + name.length)) := by
  obtain ⟨p, hfind, rfl⟩ := Option.map_eq_some_iff.1 hhit
  have hp := mem_patArray.1 (List.mem_of_find?_eq_some hfind)
  have hstands := List.find?_some hfind
  rw [standsAt_httpPatt hp htext] at hstands
  exact ⟨p.psData, p.psPat, (httpPatts_spec p hp).1, hstands, rfl⟩

/-- The search visits the hits in order. -/
theorem mwmSearch_mwmParser {σ : Type} (text : List UInt8) (call : Callback ℕ σ) (s : σ) :
    mwmSearch mwmParser text call s =
      visit call.common (found (httpHitAt text) 0 text.length) s := by
  have hmethod : Method.ofNum mwmParser.patArray.length = .mwm := by
    rw [mwmParser_prepared.perm.length_eq, length_httpPatts]
    rfl
  rw [mwmSearch_eq, hits, hmethod]
  rfl

/-! ## `BMHChr` -/

/-- A shift takes one byte at least and the pattern at most. -/
theorem bmhShift_bounds {patt : List UInt8} (hne : patt ≠ []) (c : UInt8) :
    0 < bmhShift patt c ∧ bmhShift patt c ≤ patt.length := by
  have hpos := List.length_pos_iff.2 hne
  unfold bmhShift
  have hfold : ∀ (l : List ℕ) (n : ℕ), (∀ k ∈ l, k < patt.length - 1) → 0 < n ∧ n ≤ patt.length →
      0 < l.foldl (fun d k => if patt[k]? = some c then patt.length - k - 1 else d) n ∧
        l.foldl (fun d k => if patt[k]? = some c then patt.length - k - 1 else d) n ≤ patt.length := by
    intro l
    induction l with
    | nil => exact fun n _ hn => hn
    | cons k l ih =>
      intro n hl hn
      rw [List.foldl_cons]
      refine ih _ (fun x hx => hl x (List.mem_cons_of_mem k hx)) ?_
      have := hl k List.mem_cons_self
      split
      · omega
      · exact hn
  exact hfold _ _ (fun k hk => List.mem_range.1 hk) ⟨hpos, le_refl _⟩

/-- Where the search goes on, it has jumped over no occurrence. -/
theorem bmhShift_sound {patt buf : List UInt8} (hne : patt ≠ []) {t j : ℕ} (hpos : 0 < j)
    (hj : j < bmhShift patt (buf.getD (t + (patt.length - 1)) 0)) :
    occursAt patt buf (t + j) = false := by
  by_contra hocc
  rw [Bool.not_eq_false] at hocc
  have hle := (bmhShift_bounds hne (buf.getD (t + (patt.length - 1)) 0)).2
  have hbyte := occursAt_iff.1 hocc (patt.length - 1 - j) (by omega)
  rw [show t + j + (patt.length - 1 - j) = t + (patt.length - 1) by omega] at hbyte
  have hget : patt[patt.length - 1 - j]? = some (buf.getD (t + (patt.length - 1)) 0) := by
    rw [List.getD_eq_getElem?_getD, hbyte, List.getElem?_eq_getElem (by omega)]
    rfl
  have : bmhShift patt (buf.getD (t + (patt.length - 1)) 0) ≤ patt.length - (patt.length - 1 - j) - 1 :=
    lastPlace_le (Nat.sub_le _ _) (by omega) hget
  omega

/-- `BMHChr` finds the first occurrence. -/
theorem bmhChr_eq_some {patt buf : List UInt8} (hne : patt ≠ []) {i : ℕ} :
    bmhChr patt buf = some i ↔
      occursAt patt buf i = true ∧ ∀ j < i, occursAt patt buf j = false := by
  have hlen := List.length_pos_iff.2 hne
  have hle : ∀ {j}, occursAt patt buf j = true → j + patt.length ≤ buf.length := fun h => occursAt_le h hne
  unfold bmhChr
  split
  next hshort =>
    refine iff_of_false (by simp) fun h => ?_
    have := hle h.1
    omega
  next hlong =>
    simp only [take_eq_iff_occursAt]
    rw [hopLoop_eq, head?_found_eq_some]
    · constructor
      · rintro ⟨k, -, -, hk, hfirst⟩
        split at hk
        next hocc =>
          cases hk
          refine ⟨hocc, fun j hj => ?_⟩
          simpa using hfirst j (Nat.zero_le j) hj
        · cases hk
      · rintro ⟨hocc, hfirst⟩
        have := hle hocc
        refine ⟨i, Nat.zero_le i, by omega, if_pos hocc, fun j _ hj => ?_⟩
        rw [hfirst j hj]
        rfl
    · exact fun t _ => (bmhShift_bounds hne _).1
    · intro t _ j hpos hj _
      rw [bmhShift_sound hne hpos hj]
      rfl
    · omega

/-- A comparison reads below the pattern only. -/
theorem mem_comparedAt_lt {patt buf : List UInt8} {t i : ℕ} (h : i ∈ comparedAt patt buf t) :
    t ≤ i ∧ i < t + patt.length := by
  obtain ⟨j, hj, rfl⟩ := List.mem_map.1 h
  have := List.mem_range.1 (List.mem_filter.1 hj).1
  omega

/-- The search stays in its buffer. -/
theorem bmhReads_lt {patt buf : List UInt8} {i : ℕ} (h : i ∈ bmhReads patt buf) :
    i < buf.length := by
  unfold bmhReads at h
  split at h
  · cases h
  · obtain ⟨t, ht, hi⟩ := List.mem_flatMap.1 h
    have := hopVisits_lt ht
    have := mem_comparedAt_lt hi
    omega

/-! ## The search for a line end -/

/-- The shifts of the line end. -/
theorem bmhShift_crlf (c : UInt8) : bmhShift crlf c = if c = 13 then 1 else 2 := by
  have hlist : crlf = [13, 10] := rfl
  rw [hlist, bmhShift]
  simp only [List.length_cons, List.length_nil, Nat.zero_add, Nat.reduceAdd, Nat.reduceSub,
    List.range_one, List.foldl_cons, List.foldl_nil, List.getElem?_cons_zero, Option.some.injEq,
    Nat.sub_zero, eq_comm]

/-- A line end is a return and a newline. -/
theorem crlf_occursAt_iff {text : List UInt8} {t : ℕ} :
    occursAt crlf text t = true ↔ text[t]? = some 13 ∧ text[t + 1]? = some 10 := by
  have hlist : crlf = [13, 10] := rfl
  rw [occursAt_iff, hlist]
  constructor
  · exact fun h => ⟨h 0 (by decide), h 1 (by decide)⟩
  · rintro ⟨h₀, h₁⟩ k hk
    match k, hk with
    | 0, _ => exact h₀
    | 1, _ => exact h₁

/-- `BMHChr` finds the first line end. -/
theorem bmhChr_crlf_eq_some {buf : List UInt8} {i : ℕ} :
    bmhChr crlf buf = some i ↔
      occursAt crlf buf i = true ∧ ∀ j < i, occursAt crlf buf j = false :=
  bmhChr_eq_some (by decide)

/-- The comparison begins with the second byte of the line end. -/
theorem succ_mem_comparedAt (buf : List UInt8) (t : ℕ) : t + 1 ∈ comparedAt crlf buf t := by
  refine List.mem_map.2 ⟨1, List.mem_filter.2 ⟨by decide, ?_⟩, rfl⟩
  have hlist : crlf.drop (1 + 1) = [] := rfl
  rw [hlist]
  simp [crlf, asciiBytes]

/-- It has read the line end that it finds. -/
theorem succ_mem_bmhReads {buf : List UInt8} {i : ℕ} (h : bmhChr crlf buf = some i) :
    i + 1 ∈ bmhReads crlf buf := by
  unfold bmhChr at h
  unfold bmhReads
  split at h
  · cases h
  next hlong =>
    rw [if_neg hlong]
    obtain ⟨t, ht, htest⟩ := hopLoop_visits h
    split at htest
    · cases htest
      exact List.mem_flatMap.2 ⟨i, ht, succ_mem_comparedAt buf i⟩
    · cases htest

/-- Hopping over some bytes, over a carriage return alone and over any other byte together with
    the next, ends exactly behind the last of them. -/
def hopsToEnd : List UInt8 → Bool
  | [] => true
  | [c] => c == 13
  | c :: d :: rest => if c == 13 then hopsToEnd (d :: rest) else hopsToEnd rest

/-- The hops of the search over one more byte. -/
theorem hopsToEnd_cons (c : UInt8) {l : List UInt8} (hl : l ≠ []) :
    hopsToEnd (c :: l) = if c = 13 then hopsToEnd l else hopsToEnd (l.drop 1) := by
  match l, hl with
  | d :: rest, _ => simp [hopsToEnd]

/-- A byte behind the value ends no line before it. -/
theorem crlf_occursAt_append {val : List UInt8} {x : UInt8} {t : ℕ} (ht : t + 1 < val.length) :
    occursAt crlf (val ++ [x]) t = occursAt crlf val t := by
  rw [Bool.eq_iff_iff, crlf_occursAt_iff, crlf_occursAt_iff, List.getElem?_append_left (by omega),
    List.getElem?_append_left (by omega)]

/-- The search for a line end reads the last byte of its buffer if there is no line end before
    it and the hops come to it. -/
theorem length_mem_hopVisits {val : List UInt8} {x : UInt8} {fuel t : ℕ} (ht : t < val.length)
    (hfuel : val.length - t ≤ fuel) :
    (∃ i ∈ hopVisits (fun t => if occursAt crlf (val ++ [x]) t then some t else none)
      (fun t => bmhShift crlf ((val ++ [x]).getD (t + 1) 0)) val.length fuel t,
        val.length ∈ comparedAt crlf (val ++ [x]) i) ↔
      (∀ j, t ≤ j → occursAt crlf val j = false) ∧ hopsToEnd (val.drop (t + 1)) = true := by
  have hle : ∀ {j}, occursAt crlf val j = true → j + 2 ≤ val.length := fun h =>
    occursAt_le h (by decide)
  induction fuel generalizing t with
  | zero => omega
  | succ fuel ih =>
    rw [hopVisits, if_pos ht]
    by_cases hlast : t + 1 = val.length
    · -- the pattern is put over the last two bytes
      refine iff_of_true ⟨t, by split <;> simp, hlast ▸ succ_mem_comparedAt _ t⟩ ⟨fun j hj => ?_, ?_⟩
      · by_contra hocc
        have := hle (by simpa using hocc)
        omega
      · rw [hlast, List.drop_length]
        rfl
    · have hnot : ∀ i ≤ t, val.length ∉ comparedAt crlf (val ++ [x]) i := fun i hi h => by
        have := mem_comparedAt_lt h
        have hlen : crlf.length = 2 := rfl
        omega
      have hdrop := List.drop_eq_getElem_cons (show t + 1 < val.length by omega)
      have hbyte : (val ++ [x]).getD (t + 1) 0 = val[t + 1] := by
        rw [List.getD_eq_getElem?_getD, List.getElem?_append_left (by omega),
          List.getElem?_eq_getElem (by omega)]
        rfl
      rw [crlf_occursAt_append (by omega), hbyte, bmhShift_crlf, hdrop]
      cases hocc : occursAt crlf val t with
      | true =>
        refine iff_of_false ?_ fun h => ?_
        · rintro ⟨i, hi, hmem⟩
          exact hnot i (List.mem_singleton.1 hi).le hmem
        · have := h.1 t (Nat.le_refl t)
          rw [hocc] at this
          cases this
      | false =>
        simp only [Bool.false_eq_true, if_false, List.mem_cons, exists_eq_or_imp,
          hnot t (Nat.le_refl t), false_or]
        -- what is jumped over is no line end
        have hall : ∀ d, (∀ j, t < j → j < t + d → occursAt crlf val j = false) →
            ((∀ j, t ≤ j → occursAt crlf val j = false) ↔
              ∀ j, t + d ≤ j → occursAt crlf val j = false) := by
          intro d hd
          refine ⟨fun h j hj => h j (by omega), fun h j hj => ?_⟩
          rcases Nat.eq_or_lt_of_le hj with rfl | hlt
          · exact hocc
          · by_cases hjd : j < t + d
            · exact hd j hlt hjd
            · exact h j (by omega)
        by_cases hcr : val[t + 1] = 13
        · have hrest := ih (t := t + 1) (by omega) (by omega)
          rw [if_pos hcr, hall 1 fun j h₁ h₂ => by omega]
          refine hrest.trans (and_congr_right fun _ => ?_)
          by_cases hnil : val.drop (t + 1 + 1) = []
          · rw [hnil, hcr]
            simp [hopsToEnd]
          · rw [hopsToEnd_cons _ hnil, if_pos hcr]
        · have hnext : occursAt crlf val (t + 1) = false := by
            by_contra h
            have := (crlf_occursAt_iff.1 (by simpa using h)).1
            rw [List.getElem?_eq_getElem (by omega)] at this
            exact hcr (Option.some.inj this)
          rw [if_neg hcr, hall 2 fun j h₁ h₂ => by
            obtain rfl : j = t + 1 := by omega
            exact hnext]
          by_cases hend : t + 2 = val.length
          · refine iff_of_false ?_ fun h => ?_
            · rintro ⟨i, hi, -⟩
              have := hopVisits_lt hi
              rw [hend] at hi
              cases fuel with
              | zero => cases hi
              | succ fuel => simp [hopVisits] at hi
            · rw [hend, List.drop_length] at h
              simp [hopsToEnd, hcr] at h
          · have hne : val.drop (t + 1 + 1) ≠ [] := by
              rw [Ne, List.drop_eq_nil_iff]
              omega
            have hrest := ih (t := t + 2) (by omega) (by omega)
            rw [hopsToEnd_cons _ hne, if_neg hcr, List.drop_drop]
            exact hrest

/-- When the search reads the byte behind the value. -/
theorem length_mem_bmhReads {val : List UInt8} {x : UInt8} :
    val.length ∈ bmhReads crlf (val ++ [x]) ↔ val ≠ [] ∧ (∀ j, occursAt crlf val j = false)
      ∧ hopsToEnd (val.drop 1) = true := by
  have hlen : crlf.length = 2 := rfl
  have hbuf : (val ++ [x]).length = val.length + 1 := by simp
  unfold bmhReads
  rw [hbuf, hlen]
  split
  next hshort =>
    refine iff_of_false (by simp) fun h => ?_
    have := List.length_pos_iff.2 h.1
    omega
  next hlong =>
    have hpos : 0 < val.length := by omega
    have hwalk := length_mem_hopVisits (x := x) hpos (show val.length - 0 ≤ val.length + 1 by omega)
    rw [← hlen]
    simp only [take_eq_iff_occursAt]
    rw [List.mem_flatMap, and_iff_right (List.length_pos_iff.1 hpos)]
    refine hwalk.trans ?_
    simp

end NpRules
