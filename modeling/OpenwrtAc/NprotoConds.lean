/-
# The conditions of a rule

`http_match` goes through the conditions of a rule and keeps the result of the last one, which
is one of three; `cont_match` looks for the wrapper of a content before it looks for the
content.  What a rule asks for is said beside them, and the packets are told on which they
answer that.
-/
import OpenwrtAc.MachineInt
import OpenwrtAc.NprotoSearch

open MachineInt

namespace NpRules

variable (pcreFind : List UInt8 → (ℤ → UInt8) → ℤ → ℤ → Option ℕ)

/-! ## Http conditions -/

/-- Where a condition looks: in the payload, or in the value of a header, which only a packet
    that was parsed as http has. -/
def HttpM.buffer (htpm : HttpM) (pkt : Packet) : Option (ℤ × ℤ) :=
  if htpm.hdr = npHttpEnd then some (pkt.l7Ptr, pkt.l7Len)
  else if pkt.duType = .other then none
  else npHttpHdr pkt htpm.hdr

/-- The condition holds: the pattern is found where it looks. -/
def HttpM.Holds (htpm : HttpM) (pkt : Packet) : Prop :=
  ∃ data dlen, htpm.buffer pkt = some (data, dlen)
    ∧ (ctmDo pcreFind htpm.match' pkt.mem data dlen).isSome

/-- The condition is passed over: it asks a packet without headers for a header. -/
def HttpM.Skipped (htpm : HttpM) (pkt : Packet) : Prop :=
  htpm.hdr ≠ npHttpEnd ∧ pkt.duType = .other

instance (htpm : HttpM) (pkt : Packet) : Decidable (htpm.Skipped pkt) :=
  inferInstanceAs (Decidable (_ ∧ _))

/-- The conditions of a rule end before the first without a pattern. -/
def conditions (htpm : List HttpM) : List HttpM := htpm.takeWhile fun c => !c.match'.patt.isEmpty

/-- What the http part of a rule asks for. -/
def HttpMatch.Truth (http : HttpMatch) (pkt : Packet) : Prop :=
  match http.relation with
  | .or => ∃ c ∈ conditions http.htpm, c.Holds pcreFind pkt
  | .and => ∀ c ∈ conditions http.htpm, c.Holds pcreFind pkt

/-- The conditions tell what the http part is: of an OR rule, one of them holds or the last one
    is not passed over; of an AND rule, none is passed over or one fails that is not. -/
def HttpMatch.Telling (http : HttpMatch) (pkt : Packet) : Prop :=
  match http.relation with
  | .or => (∃ c ∈ conditions http.htpm, c.Holds pcreFind pkt)
      ∨ ∃ c, (conditions http.htpm).getLast? = some c ∧ ¬ c.Skipped pkt
  | .and => (∀ c ∈ conditions http.htpm, ¬ c.Skipped pkt)
      ∨ ∃ c ∈ conditions http.htpm, ¬ c.Skipped pkt ∧ ¬ c.Holds pcreFind pkt

/-- A condition that is passed over does not hold. -/
theorem HttpM.Skipped.not_holds {c : HttpM} {pkt : Packet} (h : c.Skipped pkt) :
    ¬ c.Holds pcreFind pkt := by
  rintro ⟨data, dlen, hbuf, -⟩
  rw [HttpM.buffer, if_neg h.1, if_pos h.2] at hbuf
  cases hbuf

/-- What `http_do_match` answers to a condition that is not passed over. -/
theorem httpDoMatch_of_buffer {c : HttpM} {pkt : Packet} (hskip : ¬ c.Skipped pkt) :
    httpDoMatch pcreFind c pkt =
      match c.buffer pkt with
      | none => .false
      | some (data, dlen) =>
        if (ctmDo pcreFind c.match' pkt.mem data dlen).isSome then .true else .false := by
  unfold httpDoMatch HttpM.buffer
  by_cases hend : c.hdr = npHttpEnd
  · cases hdu : pkt.duType <;> simp [hend]
  · cases hdu : pkt.duType with
    | other => exact absurd ⟨hend, hdu⟩ hskip
    | httpReq => cases npHttpHdr pkt c.hdr <;> simp [hend]
    | httpRep => cases npHttpHdr pkt c.hdr <;> simp [hend]

theorem httpDoMatch_of_skipped {c : HttpM} {pkt : Packet} (hskip : c.Skipped pkt) :
    httpDoMatch pcreFind c pkt = .cont := by
  unfold httpDoMatch
  rw [hskip.2]
  exact if_pos hskip.1

/-- Its answer is yes where the condition holds, and no where it fails. -/
theorem httpDoMatch_eq_true {c : HttpM} {pkt : Packet} :
    httpDoMatch pcreFind c pkt = .true ↔ c.Holds pcreFind pkt := by
  by_cases hskip : c.Skipped pkt
  · rw [httpDoMatch_of_skipped pcreFind hskip]
    exact iff_of_false (by simp) (hskip.not_holds pcreFind)
  · rw [httpDoMatch_of_buffer pcreFind hskip, HttpM.Holds]
    cases c.buffer pkt with
    | none => simp
    | some buf =>
      obtain ⟨data, dlen⟩ := buf
      simp [Option.isSome_iff_ne_none]

theorem httpDoMatch_eq_false {c : HttpM} {pkt : Packet} :
    httpDoMatch pcreFind c pkt = .false ↔ ¬ c.Skipped pkt ∧ ¬ c.Holds pcreFind pkt := by
  by_cases hskip : c.Skipped pkt
  · rw [httpDoMatch_of_skipped pcreFind hskip]
    exact iff_of_false (by simp) fun h => h.1 hskip
  · rw [← httpDoMatch_eq_true, httpDoMatch_of_buffer pcreFind hskip]
    cases c.buffer pkt with
    | none => simp [hskip]
    | some buf => simp [hskip]

/-! ## The fold over the conditions -/

theorem conditions_cons_of_pos {c : HttpM} (hc : c.match'.patt.isEmpty = true) (l : List HttpM) :
    conditions (c :: l) = [] := by
  simp [conditions, hc]

theorem conditions_cons_of_neg {c : HttpM} (hc : ¬ c.match'.patt.isEmpty = true) (l : List HttpM) :
    conditions (c :: l) = c :: conditions l := by
  simp [conditions, hc]

theorem httpMatchLoop_of_pos {c : HttpM} (hc : c.match'.patt.isEmpty = true)
    (relation : Relation) (pkt : Packet) (rest : List HttpM) (m : Result) :
    httpMatchLoop pcreFind relation pkt (c :: rest) m = m := by
  simp [httpMatchLoop, hc]

theorem httpMatchLoop_of_neg {c : HttpM} (hc : ¬ c.match'.patt.isEmpty = true)
    (relation : Relation) (pkt : Packet) (rest : List HttpM) (m : Result) :
    httpMatchLoop pcreFind relation pkt (c :: rest) m =
      match httpDoMatch pcreFind c pkt, relation with
      | .true, .or => .true
      | .false, .and => .false
      | m, _ => httpMatchLoop pcreFind relation pkt rest m := by
  refine (if_neg hc).trans ?_
  cases httpDoMatch pcreFind c pkt <;> cases relation <;> rfl

/-- An OR rule is matched by the first condition that holds. -/
theorem httpMatchLoop_or_of_holds {pkt : Packet} {htpm : List HttpM}
    (h : ∃ c ∈ conditions htpm, c.Holds pcreFind pkt) (m : Result) :
    httpMatchLoop pcreFind .or pkt htpm m = .true := by
  induction htpm generalizing m with
  | nil =>
    obtain ⟨c, hc, -⟩ := h
    cases hc
  | cons c rest ih =>
    by_cases hempty : c.match'.patt.isEmpty = true
    · rw [conditions_cons_of_pos hempty] at h
      obtain ⟨c, hc, -⟩ := h
      cases hc
    · rw [conditions_cons_of_neg hempty] at h
      rw [httpMatchLoop_of_neg pcreFind hempty]
      cases hres : httpDoMatch pcreFind c pkt with
      | true => rfl
      | _ =>
        refine ih ?_ _
        obtain ⟨d, hd, hholds⟩ := h
        rcases List.mem_cons.1 hd with rfl | hd
        · rw [(httpDoMatch_eq_true pcreFind).2 hholds] at hres
          cases hres
        · exact ⟨d, hd, hholds⟩

/-- Where none holds, the answer is the one to the last condition. -/
theorem httpMatchLoop_or_of_none {pkt : Packet} {htpm : List HttpM}
    (h : ∀ c ∈ conditions htpm, ¬ c.Holds pcreFind pkt) (m : Result) :
    httpMatchLoop pcreFind .or pkt htpm m =
      ((conditions htpm).getLast?.map fun c => httpDoMatch pcreFind c pkt).getD m := by
  induction htpm generalizing m with
  | nil => rfl
  | cons c rest ih =>
    by_cases hempty : c.match'.patt.isEmpty = true
    · rw [conditions_cons_of_pos hempty, httpMatchLoop_of_pos pcreFind hempty]
      rfl
    · rw [conditions_cons_of_neg hempty] at h ⊢
      have hrest := fun d hd => h d (List.mem_cons_of_mem c hd)
      have hlast : ((c :: conditions rest).getLast?.map fun c => httpDoMatch pcreFind c pkt).getD m =
          ((conditions rest).getLast?.map fun c => httpDoMatch pcreFind c pkt).getD
            (httpDoMatch pcreFind c pkt) := by
        rw [List.getLast?_cons]
        cases (conditions rest).getLast? <;> rfl
      rw [httpMatchLoop_of_neg pcreFind hempty, hlast]
      cases hres : httpDoMatch pcreFind c pkt with
      | true =>
        exact absurd ((httpDoMatch_eq_true pcreFind).1 hres) (h c List.mem_cons_self)
      | _ => exact ih hrest _

/-- An AND rule is matched unless a condition is answered with no. -/
theorem httpMatchLoop_and {pkt : Packet} {htpm : List HttpM} {m : Result} (hm : m ≠ .false) :
    httpMatchLoop pcreFind .and pkt htpm m ≠ .false ↔
      ∀ c ∈ conditions htpm, httpDoMatch pcreFind c pkt ≠ .false := by
  induction htpm generalizing m with
  | nil => simpa [httpMatchLoop, conditions] using hm
  | cons c rest ih =>
    by_cases hempty : c.match'.patt.isEmpty = true
    · rw [conditions_cons_of_pos hempty, httpMatchLoop_of_pos pcreFind hempty]
      simpa using hm
    · rw [conditions_cons_of_neg hempty, httpMatchLoop_of_neg pcreFind hempty, List.forall_mem_cons]
      cases hres : httpDoMatch pcreFind c pkt with
      | false => simp
      | true =>
        rw [ih (by simp)]
        simp
      | cont =>
        rw [ih (by simp)]
        simp

/-! ## What an http rule accepts -/

/-- The parts of a rule that are asked before the http part. -/
def Rule.restMatches (rule : Rule) (pkt : Packet) : Bool :=
  (rule.l4.all fun l4 => l4Match l4 pkt) && rule.l7.all fun l7 => l7Match pcreFind l7 pkt

/-- The fold of an OR rule: the answer to the last condition counts where none holds, and it is
    no unless that is passed over. -/
theorem or_ne_false_iff (pkt : Packet) (htpm : List HttpM) :
    httpMatchLoop pcreFind .or pkt htpm .true ≠ .false ↔
      (∃ c ∈ conditions htpm, c.Holds pcreFind pkt)
        ∨ ∀ c, (conditions htpm).getLast? = some c → c.Skipped pkt := by
  by_cases hholds : ∃ c ∈ conditions htpm, c.Holds pcreFind pkt
  · rw [httpMatchLoop_or_of_holds pcreFind hholds]
    exact iff_of_true (by simp) (.inl hholds)
  · have hnone : ∀ c ∈ conditions htpm, ¬ c.Holds pcreFind pkt := by
      simpa using hholds
    rw [httpMatchLoop_or_of_none pcreFind hnone]
    simp only [hholds, false_or]
    cases hlast : (conditions htpm).getLast? with
    | none => simp
    | some c =>
      have hc := hnone c (List.mem_of_getLast? hlast)
      simp [httpDoMatch_eq_false, hc]

/-- The fold of an AND rule: every condition holds or is passed over. -/
theorem and_ne_false_iff (pkt : Packet) (htpm : List HttpM) :
    httpMatchLoop pcreFind .and pkt htpm .true ≠ .false ↔
      ∀ c ∈ conditions htpm, c.Skipped pkt ∨ c.Holds pcreFind pkt := by
  rw [httpMatchLoop_and pcreFind (by simp)]
  simp only [ne_eq, httpDoMatch_eq_false, not_and_or, not_not]

/-- The http part is taken for matched rightly exactly when the conditions are telling. -/
theorem httpMatch_iff_telling (http : HttpMatch) (pkt : Packet) :
    (httpMatch pcreFind http pkt = true ↔ http.Truth pcreFind pkt) ↔
      http.Telling pcreFind pkt := by
  rw [httpMatch, bne_iff_ne]
  unfold HttpMatch.Truth HttpMatch.Telling
  cases http.relation with
  | or =>
    rw [or_ne_false_iff]
    by_cases hholds : ∃ c ∈ conditions http.htpm, c.Holds pcreFind pkt
    · simp [hholds]
    · simp [hholds]
  | and =>
    rw [and_ne_false_iff]
    constructor
    · intro h
      by_cases hfail : ∃ c ∈ conditions http.htpm, ¬ c.Skipped pkt ∧ ¬ c.Holds pcreFind pkt
      · exact .inr hfail
      · refine .inl fun c hc hskip => ?_
        have hall := h.1 fun d hd => by
          by_contra hd'
          exact hfail ⟨d, hd, not_or.1 hd'⟩
        exact hskip.not_holds pcreFind (hall c hc)
    · rintro (hseen | ⟨c, hc, hskip, hfail⟩)
      · exact ⟨fun h c hc => (h c hc).resolve_left (hseen c hc), fun h c hc => .inr (h c hc)⟩
      · refine iff_of_false (fun h => ?_) fun h => hfail (h c hc)
        exact (h c hc).elim hskip hfail

/-- A rule with an http part is matched when the parts before are and the http part is true of
    the packet; this is so exactly if the conditions are telling where they are asked. -/
theorem http_truth_iff (rule : Rule) (http : HttpMatch) (pkt : Packet)
    (hhttp : rule.http = some http) :
    ((ruleOneMatch pcreFind rule pkt).isSome = true ↔
        rule.restMatches pcreFind pkt = true ∧ http.Truth pcreFind pkt) ↔
      (rule.restMatches pcreFind pkt = true → http.Telling pcreFind pkt) := by
  have hrule : (ruleOneMatch pcreFind rule pkt).isSome = true ↔
      rule.restMatches pcreFind pkt = true ∧ httpMatch pcreFind http pkt = true := by
    rw [← Bool.and_eq_true]
    unfold ruleOneMatch ruleAccepts Rule.restMatches
    rw [hhttp]
    split
    next h => simpa using h
    next h => simpa using h
  rw [hrule, and_congr_right_iff, httpMatch_iff_telling]

/-- A rule with nothing but conditions. -/
def condRule (relation : Relation) (htpm : List HttpM) : Rule where
  id := 100
  priority := 0
  isBase := false
  l4 := none
  l7 := none
  http := some ⟨relation, htpm⟩
  protoCb pkt := pkt

/-- `abcd` in the payload. -/
def payloadCond : HttpM := ⟨npHttpEnd, ⟨.search, 0, 0, abcd⟩⟩

/-- `abcd` in the host. -/
def hostCond : HttpM := ⟨npHttpHost, ⟨.search, 0, 0, abcd⟩⟩

/-- A packet of the flow without headers, which has what the payload is asked for. -/
theorem http_truth_payload :
    ((ruleOneMatch noPcre (condRule .or [hostCond, payloadCond]) (packetOf abcd)).isSome = true ↔
        (condRule .or [hostCond, payloadCond]).restMatches noPcre (packetOf abcd) = true
          ∧ HttpMatch.Truth noPcre ⟨.or, [hostCond, payloadCond]⟩ (packetOf abcd))
      ∧ (ruleOneMatch noPcre (condRule .or [hostCond, payloadCond]) (packetOf abcd)).isSome
        = true := by
  refine ⟨(http_truth_iff noPcre (condRule .or [hostCond, payloadCond])
    ⟨.or, [hostCond, payloadCond]⟩ (packetOf abcd) rfl).2 fun _ => ?_, by decide⟩
  exact .inl ⟨payloadCond, by decide, (httpDoMatch_eq_true noPcre).1 (by decide)⟩

/-- A packet without headers that has nothing a rule asks for is taken for matched when the last
    condition asks for a header, and it is not with the same conditions in the other order; an
    AND rule that asks for a header takes it too, and an OR rule without conditions takes every
    packet. -/
theorem http_not_truth :
    ((ruleOneMatch noPcre (condRule .or [payloadCond, hostCond]) (packetOf [0])).isSome = true
      ∧ ¬ HttpMatch.Truth noPcre ⟨.or, [payloadCond, hostCond]⟩ (packetOf [0]))
    ∧ (ruleOneMatch noPcre (condRule .or [hostCond, payloadCond]) (packetOf [0])).isSome = false
    ∧ (ruleOneMatch noPcre (condRule .and [hostCond]) (packetOf [0])).isSome = true
    ∧ ¬ HttpMatch.Truth noPcre ⟨.and, [hostCond]⟩ (packetOf [0])
    ∧ (ruleOneMatch noPcre (condRule .or []) { packetOf [0] with duType := .httpReq }).isSome = true
    ∧ ¬ HttpMatch.Truth noPcre ⟨.or, []⟩ { packetOf [0] with duType := .httpReq } := by
  have hpayload : ¬ payloadCond.Holds noPcre (packetOf [0]) := by
    rw [← httpDoMatch_eq_true]
    decide
  have hhost : ¬ hostCond.Holds noPcre (packetOf [0]) := by
    rw [← httpDoMatch_eq_true]
    decide
  refine ⟨⟨by decide, ?_⟩, by decide, by decide, fun h => hhost (h hostCond (by decide)),
    by decide, fun ⟨c, hc, _⟩ => List.not_mem_nil hc⟩
  rintro ⟨c, hc, hholds⟩
  have hc' : c = payloadCond ∨ c = hostCond := by
    simpa [conditions, payloadCond, hostCond, abcd] using hc
  rcases hc' with rfl | rfl
  · exact hpayload hholds
  · exact hhost hholds

/-! ## Wrapped contents -/

/-- `cont_match` with the buffers it hands to `ctm_do`; `addr` is the address of the payload in
    the machine. -/
def contMatchCalls (addr : ℕ) (cont : ContentMatch) (pkt : Packet) : Bool × List (ℤ × ℤ) :=
  let whole := (pkt.l7Ptr, pkt.l7Len)
  let inner (buf : ℤ × ℤ) := (ctmDo pcreFind cont.match' pkt.mem buf.1 buf.2).isSome
  if cont.specLen ≠ 0 ∧ (cont.specLen : ℤ) ≠ pkt.l7Len then (false, [])
  else if cont.wrap.type = .offset then (inner whole, [whole])
  else
    match ctmDo pcreFind cont.wrap pkt.mem pkt.l7Ptr pkt.l7Len with
    -- the test is for a wrapper that is not found: one that is leaves the buffer as it is
    | some _ => (inner whole, [whole, whole])
    -- the buffer is null then, and the length loses the difference of null and the payload
    | none =>
      let null := (pkt.l7Ptr - addr, i32 (pkt.l7Len + addr))
      if null.2 ≤ 0 then (false, [whole]) else (inner null, [whole, null])

/-- `spec_len` lets the payload pass. -/
def ContentMatch.Passes (cont : ContentMatch) (pkt : Packet) : Prop :=
  cont.specLen = 0 ∨ (cont.specLen : ℤ) = pkt.l7Len

instance (cont : ContentMatch) (pkt : Packet) : Decidable (cont.Passes pkt) :=
  inferInstanceAs (Decidable (_ ∨ _))

/-- Where the wrapper is found. -/
def ContentMatch.wrapAt (cont : ContentMatch) (pkt : Packet) : Option ℤ :=
  ctmDo pcreFind cont.wrap pkt.mem pkt.l7Ptr pkt.l7Len

/-- The content is found from an address of the payload to its end. -/
def ContentMatch.foundFrom (cont : ContentMatch) (pkt : Packet) (w : ℤ) : Bool :=
  (ctmDo pcreFind cont.match' pkt.mem w (pkt.l7Len - (w - pkt.l7Ptr))).isSome

/-- The buffer lies in the payload. -/
def Packet.Contains (pkt : Packet) (buf : ℤ × ℤ) : Prop :=
  pkt.l7Ptr ≤ buf.1 ∧ buf.1 + buf.2 ≤ pkt.l7Ptr + pkt.l7Len

theorem ContentMatch.foundFrom_l7Ptr (cont : ContentMatch) (pkt : Packet) :
    cont.foundFrom pcreFind pkt pkt.l7Ptr =
      (ctmDo pcreFind cont.match' pkt.mem pkt.l7Ptr pkt.l7Len).isSome := by
  rw [ContentMatch.foundFrom, Int.sub_self, Int.sub_zero]

/-- A content that `spec_len` keeps out is not looked for. -/
theorem contMatchCalls_of_not_passes {cont : ContentMatch} {pkt : Packet}
    (hspec : ¬ cont.Passes pkt) (addr : ℕ) :
    contMatchCalls pcreFind addr cont pkt = (false, []) :=
  if_pos (not_or.1 hspec)

/-- Behind a wrapper that is found the whole payload is searched. -/
theorem contMatchCalls_of_some {cont : ContentMatch} (hwrap : cont.wrap.type ≠ .offset)
    {pkt : Packet} (hspec : cont.Passes pkt) {w : ℤ} (hw : cont.wrapAt pcreFind pkt = some w)
    (addr : ℕ) :
    contMatchCalls pcreFind addr cont pkt =
      (cont.foundFrom pcreFind pkt pkt.l7Ptr, [(pkt.l7Ptr, pkt.l7Len), (pkt.l7Ptr, pkt.l7Len)]) := by
  rw [ContentMatch.wrapAt] at hw
  rw [contMatchCalls, ContentMatch.foundFrom_l7Ptr]
  simp only [if_neg fun h => not_or.2 h hspec, if_neg hwrap, hw]

/-- Without a wrapper the length decides, to which the address was added. -/
theorem contMatchCalls_of_none {cont : ContentMatch} (hwrap : cont.wrap.type ≠ .offset)
    {pkt : Packet} (hspec : cont.Passes pkt) (hw : cont.wrapAt pcreFind pkt = none) (addr : ℕ) :
    contMatchCalls pcreFind addr cont pkt =
      if i32 (pkt.l7Len + addr) ≤ 0 then (false, [(pkt.l7Ptr, pkt.l7Len)])
      else ((ctmDo pcreFind cont.match' pkt.mem (pkt.l7Ptr - addr)
          (i32 (pkt.l7Len + addr))).isSome,
        [(pkt.l7Ptr, pkt.l7Len), (pkt.l7Ptr - addr, i32 (pkt.l7Len + addr))]) := by
  rw [ContentMatch.wrapAt] at hw
  rw [contMatchCalls]
  simp only [if_neg fun h => not_or.2 h hspec, if_neg hwrap, hw]

/-- A payload that ends in the upper half of 32 bits of addresses, where the kernel is. -/
theorem i32_kernel {addr : ℕ} {len : ℤ} (hlo : 2 ^ 31 ≤ addr) (hhi : len + addr ≤ 2 ^ 32)
    (hlen : 0 ≤ len) : i32 (len + addr) ≤ 0 := by
  unfold i32
  rw [Int.bmod_def]
  omega

/-- There `cont_match` answers what it does when a wrapper that is not found is a miss. -/
theorem contMatchCalls_fst {cont : ContentMatch} {pkt : Packet} {addr : ℕ}
    (haddr : i32 (pkt.l7Len + addr) ≤ 0) :
    (contMatchCalls pcreFind addr cont pkt).1 = contMatch pcreFind cont pkt := by
  unfold contMatchCalls contMatch
  by_cases hspec : cont.specLen ≠ 0 ∧ (cont.specLen : ℤ) ≠ pkt.l7Len
  · simp only [if_pos hspec]
  · simp only [if_neg hspec]
    by_cases hwrap : cont.wrap.type = .offset
    · simp [hwrap]
    · cases hw : ctmDo pcreFind cont.wrap pkt.mem pkt.l7Ptr pkt.l7Len with
      | none => simp [hwrap, haddr]
      | some w => simp [hwrap]

/-- What a wrapped content asks for: the wrapper is found and the content behind it.  Where the
    wrapper is not found the answer is no, and no buffer outside the payload is handed on. -/
structure WrappedRight (addr : ℕ) (cont : ContentMatch) (pkt : Packet) : Prop where
  truth : (contMatchCalls pcreFind addr cont pkt).1 = true ↔
    ∃ w, cont.wrapAt pcreFind pkt = some w ∧ cont.foundFrom pcreFind pkt w = true
  absent : cont.wrapAt pcreFind pkt = none →
    (contMatchCalls pcreFind addr cont pkt).1 = false
      ∧ ∀ buf ∈ (contMatchCalls pcreFind addr cont pkt).2, pkt.Contains buf

/-- The wrapper makes no difference: the content is found from the wrapper on just when it is
    found in the whole of a payload that `spec_len` lets pass; or there is no wrapper, and the
    address of the payload, added to its length, is no positive `int`. -/
def WrapHarmless (addr : ℕ) (cont : ContentMatch) (pkt : Packet) : Prop :=
  (∀ w, cont.wrapAt pcreFind pkt = some w →
      (cont.foundFrom pcreFind pkt w = true ↔
        cont.Passes pkt ∧ cont.foundFrom pcreFind pkt pkt.l7Ptr = true))
    ∧ (cont.wrapAt pcreFind pkt = none → cont.Passes pkt → i32 (pkt.l7Len + addr) ≤ 0)

section Wrapped

variable {addr : ℕ} {cont : ContentMatch} {pkt : Packet}

theorem wrapped_right_of_not_passes (hspec : ¬ cont.Passes pkt) :
    WrappedRight pcreFind addr cont pkt ↔ WrapHarmless pcreFind addr cont pkt := by
  have hcalls := contMatchCalls_of_not_passes pcreFind hspec addr
  constructor
  · intro h
    refine ⟨fun w hw => iff_of_false (fun hfound => ?_) fun h' => hspec h'.1,
      fun _ h' => absurd h' hspec⟩
    have := h.truth.2 ⟨w, hw, hfound⟩
    rw [hcalls] at this
    cases this
  · intro h
    refine ⟨iff_of_false (by simp [hcalls]) ?_, fun _ => by simp [hcalls]⟩
    rintro ⟨w, hw, hfound⟩
    exact hspec ((h.1 w hw).1 hfound).1

theorem wrapped_right_of_some (hwrap : cont.wrap.type ≠ .offset) (hspec : cont.Passes pkt) {w : ℤ}
    (hw : cont.wrapAt pcreFind pkt = some w) :
    WrappedRight pcreFind addr cont pkt ↔ WrapHarmless pcreFind addr cont pkt := by
  have hcalls := contMatchCalls_of_some pcreFind hwrap hspec hw addr
  constructor
  · intro h
    have htruth := h.truth
    simp only [hcalls, hw, Option.some.injEq, exists_eq_left'] at htruth
    refine ⟨fun w' hw' => ?_, fun hnone => ?_⟩
    · rw [hw] at hw'
      cases hw'
      rw [htruth, and_iff_right hspec]
    · rw [hw] at hnone
      cases hnone
  · intro h
    refine ⟨?_, fun hnone => by rw [hw] at hnone; cases hnone⟩
    simp only [hcalls, hw, Option.some.injEq, exists_eq_left', h.1 w hw, hspec, true_and]

theorem wrapped_right_of_none (haddr : 0 < addr) (hwrap : cont.wrap.type ≠ .offset)
    (hspec : cont.Passes pkt) (hw : cont.wrapAt pcreFind pkt = none) :
    WrappedRight pcreFind addr cont pkt ↔ WrapHarmless pcreFind addr cont pkt := by
  have hcalls := contMatchCalls_of_none pcreFind hwrap hspec hw addr
  by_cases hpos : i32 (pkt.l7Len + addr) ≤ 0
  · rw [if_pos hpos] at hcalls
    refine iff_of_true ⟨by simp [hcalls, hw], fun _ => ?_⟩ ⟨fun w hw' => ?_, fun _ _ => hpos⟩
    · simp [hcalls, Packet.Contains]
    · rw [hw] at hw'
      cases hw'
  · rw [if_neg hpos] at hcalls
    refine iff_of_false (fun h => ?_) fun h => hpos (h.2 hw hspec)
    -- the null pointer is handed on
    have hnull := (h.absent hw).2 (pkt.l7Ptr - addr, i32 (pkt.l7Len + addr))
    rw [hcalls] at hnull
    have := (hnull (by simp)).1
    simp only at this
    omega

end Wrapped

/-- `cont_match` answers what a wrapped content asks for exactly when the wrapper makes no
    difference. -/
theorem wrapped_right_iff (addr : ℕ) (haddr : 0 < addr) (cont : ContentMatch)
    (hwrap : cont.wrap.type ≠ .offset) (pkt : Packet) :
    WrappedRight pcreFind addr cont pkt ↔ WrapHarmless pcreFind addr cont pkt := by
  by_cases hspec : cont.Passes pkt
  · cases hw : cont.wrapAt pcreFind pkt with
    | some w => exact wrapped_right_of_some pcreFind hwrap hspec hw
    | none => exact wrapped_right_of_none pcreFind haddr hwrap hspec hw
  · exact wrapped_right_of_not_passes pcreFind hspec

/-- A place that is counted from the end is the same one behind a start that is not past it. -/
theorem ctmDo_from_end {ctm : Match} (hneg : ctm.offset < 0) (mem : ℤ → UInt8)
    (data : ℤ) {dlen d : ℤ} (hd : 0 ≤ d) (hlt : d < ctm.offset + dlen) :
    ctmDo pcreFind ctm mem (data + d) (dlen - d) = ctmDo pcreFind ctm mem data dlen := by
  have hstart : data + d + (ctm.offset + (dlen - d)) = data + (ctm.offset + dlen) := by omega
  have hlen : dlen - d - (ctm.offset + (dlen - d)) = dlen - (ctm.offset + dlen) := by omega
  have hfrom : ¬ (ctm.offset < 0 ∧ ctm.offset + (dlen - d) ≤ 0) := by omega
  have hwhole : ¬ (ctm.offset < 0 ∧ ctm.offset + dlen ≤ 0) := by omega
  unfold ctmDo
  simp only [if_pos hneg, if_neg hfrom, if_neg hwhole, hstart, hlen]

/-- The wrapper makes no difference to a content that is counted from the end, when it starts
    before that place. -/
theorem wrapHarmless_of_from_end {cont : ContentMatch} {pkt : Packet} {addr : ℕ}
    (hspec : cont.Passes pkt) (hneg : cont.match'.offset < 0)
    (hw : ∀ w, cont.wrapAt pcreFind pkt = some w →
      pkt.l7Ptr ≤ w ∧ w - pkt.l7Ptr < cont.match'.offset + pkt.l7Len)
    (haddr : i32 (pkt.l7Len + addr) ≤ 0) : WrapHarmless pcreFind addr cont pkt := by
  refine ⟨fun w hat => ?_, fun _ _ => haddr⟩
  obtain ⟨hle, hlt⟩ := hw w hat
  have hfrom := ctmDo_from_end pcreFind hneg pkt.mem pkt.l7Ptr (Int.sub_nonneg.2 hle) hlt
  rw [show pkt.l7Ptr + (w - pkt.l7Ptr) = w by omega] at hfrom
  rw [and_iff_right hspec, ContentMatch.foundFrom_l7Ptr, ContentMatch.foundFrom, hfrom]

/-- "ab", and "cd" at the end. -/
def endCont : ContentMatch := ⟨0, ⟨.search, 0, 0, [97, 98]⟩, ⟨.offset, -2, 0, [99, 100]⟩⟩

/-- "ab", and "ab" at the start of what is behind it. -/
def startCont : ContentMatch := ⟨0, ⟨.search, 0, 0, [97, 98]⟩, ⟨.offset, 0, 0, [97, 98]⟩⟩

/-- An address of the kernel. -/
def kernelAddr : ℕ := 0x80001000

/-- A content that is counted from the end is found behind its wrapper. -/
theorem wrapped_right_end :
    WrappedRight noPcre kernelAddr endCont (packetOf (0 :: abcd))
      ∧ (contMatchCalls noPcre kernelAddr endCont (packetOf (0 :: abcd))).1 = true := by
  refine ⟨(wrapped_right_iff noPcre kernelAddr (by decide) endCont (by decide) _).2 ?_, by decide⟩
  refine wrapHarmless_of_from_end noPcre (.inl rfl) (by decide) (fun w hw => ?_) (by decide)
  have hat : endCont.wrapAt noPcre (packetOf (0 :: abcd)) = some 1 := by decide
  rw [hat] at hw
  cases hw
  decide

/-- The wrapper stands at the second byte of the payload, and the content right there; but it is
    looked for at the first byte. -/
theorem wrapped_not_right :
    startCont.wrapAt noPcre (packetOf (0 :: abcd)) = some 1
      ∧ startCont.foundFrom noPcre (packetOf (0 :: abcd)) 1 = true
      ∧ (contMatchCalls noPcre kernelAddr startCont (packetOf (0 :: abcd))).1 = false
      ∧ ¬ WrappedRight noPcre kernelAddr startCont (packetOf (0 :: abcd)) := by
  have hat : startCont.wrapAt noPcre (packetOf (0 :: abcd)) = some 1 := by decide
  have hfrom : startCont.foundFrom noPcre (packetOf (0 :: abcd)) 1 = true := by decide
  refine ⟨hat, hfrom, by decide, fun h => ?_⟩
  exact absurd (h.truth.2 ⟨1, hat, hfrom⟩) (by decide)

end NpRules
