/-
# Matching one rule of nproto

`rule_one_match` of `rules.c` with all it calls: the transport header, the payload
and the parsed http headers of a packet are compared with what a rule asks for.  The
regular expressions are a parameter; memory around the payload can be read, since
some offsets of a rule are not checked against its length.
-/
import Mathlib.Algebra.Group.Int.Defs
import Mathlib.Algebra.Group.Nat.Defs
import OpenwrtAc.SkipSearch

open SkipSearch

namespace NpRules

/-! ## Packets -/

/-- The `du_type` of a packet as far as it is asked for; a cleared one is that of a request. -/
inductive DuType where
  | httpReq
  | httpRep
  | other
deriving DecidableEq, Repr

/-- `NP_FLOW_DIR_ANY`, `NP_FLOW_DIR_C2S` and `NP_FLOW_DIR_S2C`. -/
inductive FlowDir where
  | any
  | c2s
  | s2c
deriving DecidableEq, Repr

/-- The fields of `nt_packet_t` and its parser results that matching reads.  Addresses are
    relative to where the payload began at first; `headersRange` is the `headers_range` of the
    http parser. -/
structure Packet where
  mem : ℤ → UInt8
  l7Ptr : ℤ
  l7Len : ℤ
  dir : FlowDir
  l4Proto : UInt8
  saddr : ℕ
  daddr : ℕ
  source : ℕ
  dest : ℕ
  duType : DuType
  headersRange : ℕ → ℤ × ℤ

/-- The bytes from an address on. -/
def slice (mem : ℤ → UInt8) (start len : ℤ) : List UInt8 :=
  (List.range len.toNat).map fun (i : ℕ) => mem (start + i)

/-- `IPPROTO_TCP`. -/
def ipprotoTcp : UInt8 := 6

/-- `IPPROTO_UDP`. -/
def ipprotoUdp : UInt8 := 17

/-- `NP_HTTP_END`. -/
def npHttpEnd : ℕ := 0

/-- `NP_HTTP_Host`. -/
def npHttpHost : ℕ := 2

/-- `NP_HTTP_MAX`. -/
def npHttpMax : ℕ := 17

/-- `np_http_hdr`: the address and the length of a header's value. -/
def npHttpHdr (pkt : Packet) (emHdr : ℕ) : Option (ℤ × ℤ) :=
  if emHdr = 0 ∨ npHttpMax ≤ emHdr then none
  else
    let range := pkt.headersRange emHdr
    if range.2 - range.1 ≤ 0 then none else some (pkt.l7Ptr + range.1, range.2 - range.1)

/-! ## `BMHChr` -/

/-- The entry of a byte in the table that `BMHInit` makes. -/
def bmhShift (patt : List UInt8) (c : UInt8) : ℕ :=
  (List.range (patt.length - 1)).foldl (fun d k =>
    if patt[k]? = some c then patt.length - k - 1 else d) patt.length

/-- `BMHChr` on the bytes of a buffer. -/
def bmhChr (patt buf : List UInt8) : Option ℕ :=
  if buf.length < patt.length then none
  else hopLoop (fun t => if (buf.drop t).take patt.length == patt then some t else none)
    (fun t => bmhShift patt (buf.getD (t + (patt.length - 1)) 0))
    (buf.length - (patt.length - 1)) buf.length 0

/-! ## Rules -/

/-- `MHTP_OFFSET`, `MHTP_REGEXP` and `MHTP_SEARCH`. -/
inductive MatchType where
  | offset
  | regexp
  | search
deriving DecidableEq, Repr

/-- `match_t`; the pattern has as many bytes as `length` says. -/
structure Match where
  type : MatchType
  offset : ℤ
  deep : ℕ
  patt : List UInt8
deriving DecidableEq, Repr

/-- `content_match_t`. -/
structure ContentMatch where
  specLen : ℕ
  wrap : Match
  match' : Match
deriving DecidableEq, Repr

/-- `l4_match_t`; the lists end where the arrays have their first 0. -/
structure L4Match where
  addrs : List ℕ
  ports : List ℕ
  proto : UInt16
deriving DecidableEq, Repr

/-- `len_match_t`; the lists end where the arrays have their first 0. -/
inductive LenMatch where
  | none
  | list (lens : List ℕ)
  | match' (offset fixed : ℤ) (width : ℕ)
  | range (ranges : List (ℕ × ℕ))
deriving DecidableEq, Repr

/-- `NP_CTM_OR` and `NP_CTM_AND`. -/
inductive Relation where
  | or
  | and
deriving DecidableEq, Repr

/-- `l7_match_t`. -/
structure L7Match where
  dir : FlowDir
  lnm : LenMatch
  relation : Relation
  ctm : List ContentMatch
deriving DecidableEq, Repr

/-- `httpm_t`. -/
structure HttpM where
  hdr : ℕ
  match' : Match
deriving DecidableEq, Repr

/-- `http_match_t`. -/
structure HttpMatch where
  relation : Relation
  htpm : List HttpM
deriving DecidableEq, Repr

/-- The fields of `np_rule_t` that registering and matching read.  A part that is not enabled
    is `none`; `protoCb` is what the rule's parser does to a packet that matches. -/
structure Rule where
  id : ℕ
  priority : ℕ
  isBase : Bool
  l4 : Option L4Match
  l7 : Option L7Match
  http : Option HttpMatch
  protoCb : Packet → Packet

/-! ## Matching -/

/-- `l4_match`. -/
def l4Match (l4 : L4Match) (pkt : Packet) : Bool :=
  let hasPorts := pkt.l4Proto == ipprotoTcp || pkt.l4Proto == ipprotoUdp
  let sport := if hasPorts then pkt.source else 0
  let dport := if hasPorts then pkt.dest else 0
  (l4.proto == 0 || l4.proto == pkt.l4Proto.toUInt16)
    && (l4.ports.isEmpty || l4.ports.any fun p => sport == p || dport == p)
    && (l4.addrs.isEmpty || l4.addrs.any fun a => pkt.saddr == a || pkt.daddr == a)

/-- The number that some bytes are in the order of the machine, which has the low byte first. -/
def littleEndian (bytes : List UInt8) : ℤ := bytes.foldr (fun b n => b.toNat + 256 * n) 0

/-- `len_info_match`.  The sums are of 32 bits without sign, but for the swapped word of two
    bytes, which is an `int`. -/
def lenInfoMatch (lnm : LenMatch) (pkt : Packet) : Bool :=
  match lnm with
  | .none => false
  | .list lens => lens.any fun n => (n : ℤ) == pkt.l7Len
  | .range ranges => ranges.any fun r => (r.1 : ℤ) ≤ pkt.l7Len && pkt.l7Len ≤ r.2
  | .match' offset fixed width =>
    let bytes := slice pkt.mem (pkt.l7Ptr + offset) width
    let n := littleEndian bytes
    let swapped := littleEndian bytes.reverse
    match width with
    | 1 => (n + fixed) % 2 ^ 32 == pkt.l7Len % 2 ^ 32
    | 2 => swapped + fixed == pkt.l7Len || (n + fixed) % 2 ^ 32 == pkt.l7Len % 2 ^ 32
    | 4 => (swapped + fixed) % 2 ^ 32 == pkt.l7Len % 2 ^ 32
        || (n + fixed) % 2 ^ 32 == pkt.l7Len % 2 ^ 32
    | _ => false

section Pcre

-- `pcre_find`: the pattern, the memory, where to start and how many bytes there are; the
-- position of a match
variable (pcreFind : List UInt8 → (ℤ → UInt8) → ℤ → ℤ → Option ℕ)

/-- `ctm_do`: the address of a match. -/
def ctmDo (ctm : Match) (mem : ℤ → UInt8) (data dlen : ℤ) : Option ℤ :=
  let offset := if ctm.offset < 0 then ctm.offset + dlen else ctm.offset
  if ctm.offset < 0 ∧ offset ≤ 0 then none
  else
    let mlen := if ctm.deep ≠ 0 ∧ dlen - offset > ctm.deep then (ctm.deep : ℤ) else dlen - offset
    match ctm.type with
    | .offset =>
      if mlen < ctm.patt.length then none
      else if slice mem (data + offset) ctm.patt.length == ctm.patt then some (data + offset)
      else none
    | .regexp => (pcreFind ctm.patt mem (data + offset) mlen).map fun m => data + offset + m
    | .search => (bmhChr ctm.patt (slice mem (data + offset) mlen)).map fun m => data + offset + m

/-- `cont_match`.  Where the wrapper is not found, the length has a kernel address added to it,
    which makes it negative; where it is found, the data stay as they are. -/
def contMatch (cont : ContentMatch) (pkt : Packet) : Bool :=
  if cont.specLen ≠ 0 ∧ (cont.specLen : ℤ) ≠ pkt.l7Len then false
  else if cont.wrap.type ≠ .offset ∧ (ctmDo pcreFind cont.wrap pkt.mem pkt.l7Ptr pkt.l7Len).isNone
  then false
  else (ctmDo pcreFind cont.match' pkt.mem pkt.l7Ptr pkt.l7Len).isSome

/-- `l7_match`. -/
def l7Match (l7 : L7Match) (pkt : Packet) : Bool :=
  if pkt.l7Len = 0 then false
  else if l7.dir ≠ .any ∧ pkt.dir ≠ l7.dir then false
  else if l7.lnm ≠ .none ∧ lenInfoMatch l7.lnm pkt = false then false
  else if l7.ctm.isEmpty then true
  else
    match l7.relation with
    | .or => l7.ctm.any fun cont => contMatch pcreFind cont pkt
    | .and => l7.ctm.all fun cont => contMatch pcreFind cont pkt

/-- `NP_CONTINUE`, `NP_FALSE` and `NP_TRUE`. -/
inductive Result where
  | cont
  | false
  | true
deriving DecidableEq, Repr

/-- `http_do_match`. -/
def httpDoMatch (htpm : HttpM) (pkt : Packet) : Result :=
  let search (data dlen : ℤ) : Result :=
    if (ctmDo pcreFind htpm.match' pkt.mem data dlen).isSome then .true else .false
  match pkt.duType with
  | .other => if htpm.hdr ≠ npHttpEnd then .cont else search pkt.l7Ptr pkt.l7Len
  | _ =>
    if htpm.hdr ≠ npHttpEnd then
      match npHttpHdr pkt htpm.hdr with
      | none => .false
      | some (data, dlen) => search data dlen
    else search pkt.l7Ptr pkt.l7Len

/-- The loop of `http_match`, with the result so far; a match without a pattern ends it. -/
def httpMatchLoop (relation : Relation) (pkt : Packet) : List HttpM → Result → Result
  | [], m => m
  | htpm :: rest, m =>
    if htpm.match'.patt.isEmpty then m
    else
      match httpDoMatch pcreFind htpm pkt, relation with
      | .true, .or => .true
      | .false, .and => .false
      | m, _ => httpMatchLoop relation pkt rest m

/-- `http_match`: anything but `NP_FALSE` counts. -/
def httpMatch (http : HttpMatch) (pkt : Packet) : Bool :=
  httpMatchLoop pcreFind http.relation pkt http.htpm .true != .false

/-- `rule_one_match` up to its callbacks: the parts that are enabled all match. -/
def ruleAccepts (rule : Rule) (pkt : Packet) : Bool :=
  (rule.l4.all fun l4 => l4Match l4 pkt) && (rule.l7.all fun l7 => l7Match pcreFind l7 pkt)
    && (rule.http.all fun http => httpMatch pcreFind http pkt)

/-- `rule_one_match` with `rule_matched_cb`: the packet as the rule's parser leaves it, `none`
    for a miss. -/
def ruleOneMatch (rule : Rule) (pkt : Packet) : Option Packet :=
  if ruleAccepts pcreFind rule pkt then some (rule.protoCb pkt) else none

end Pcre

end NpRules
