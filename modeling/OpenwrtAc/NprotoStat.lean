/-
# Traffic accounting

`nproto_pkt_init` checks a frame, adds it to the counters of its flow and of its
two users (`stat_flow`, `stat_user`) and stores where the payload lies.  The
lengths pass through `int16_t` parameters and fields on the way.  What
`stat_realtime` keeps beside the counters is left out.
-/
import OpenwrtAc.MachineInt
import Mathlib.Algebra.BigOperators.Group.List.Basic
import Mathlib.Data.Nat.Basic
import Mathlib.Logic.Function.Basic
import Mathlib.Tactic.Common
import Mathlib.Tactic.NormNum
import Mathlib.Tactic.Ring

open MachineInt

namespace Nproto

/-! ## Frames -/

/-- The fields of `struct iphdr` that are read, in host byte order. -/
structure Iphdr where
  version : ℕ
  ihl : ℕ
  totLen : ℕ
  fragOff : ℕ
  protocol : ℕ
  saddr : ℕ
  daddr : ℕ
deriving DecidableEq, Repr

/-- The flow and the two users a packet is tracked under (`struct nos_track`). -/
structure NosTrack where
  flow : ℕ
  tupleIpDst : ℕ
  user : ℕ
  userIp : ℕ
  peer : ℕ
deriving DecidableEq, Repr

/-- A packet as the hook sees it: the buffer's length, the ip header, the data offset
    of the tcp header behind it, and its tracking nodes. -/
structure Skb where
  len : ℕ
  iph : Iphdr
  tcpDoff : ℕ
  nt : NosTrack
  len_lt : len < 2 ^ 16
deriving DecidableEq, Repr

/-- `IPPROTO_TCP`. -/
def ipprotoTcp : ℕ := 6

/-- `IPPROTO_UDP`. -/
def ipprotoUdp : ℕ := 17

/-- `FLOW_DIR_IS_C2S(nt_flow_dir(..))`. -/
def Skb.isC2S (p : Skb) : Bool := p.iph.saddr != p.nt.tupleIpDst

/-- `USER_DIR_IS_XMIT(nt_user_dir(..))`. -/
def Skb.isXmit (p : Skb) : Bool := p.iph.saddr == p.nt.userIp

/-! ## Counters -/

/-- A pair of a packet and a byte counter. -/
structure Traffic where
  pkts : ℕ
  bytes : ℕ
deriving DecidableEq, Repr

/-- `pkts ++; bytes += nbytes`. -/
def Traffic.add (t : Traffic) (nbytes : ℤ) : Traffic :=
  ⟨t.pkts + 1, u64 (t.bytes + nbytes)⟩

/-- The counters in the header of a flow or a user. -/
structure StatHdr where
  recv : Traffic
  xmit : Traffic
deriving DecidableEq, Repr

/-- The counters of all flows and users. -/
structure Stats where
  flow : ℕ → StatHdr
  user : ℕ → StatHdr

/-- Fresh headers. -/
def Stats.zero : Stats := ⟨fun _ => ⟨⟨0, 0⟩, ⟨0, 0⟩⟩, fun _ => ⟨⟨0, 0⟩, ⟨0, 0⟩⟩⟩

/-- `hdr->recv_pkts ++; hdr->recv_bytes += nbytes`. -/
def bumpRecv (h : ℕ → StatHdr) (id : ℕ) (nbytes : ℤ) : ℕ → StatHdr :=
  Function.update h id { h id with recv := (h id).recv.add nbytes }

/-- `hdr->xmit_pkts ++; hdr->xmit_bytes += nbytes`. -/
def bumpXmit (h : ℕ → StatHdr) (id : ℕ) (nbytes : ℤ) : ℕ → StatHdr :=
  Function.update h id { h id with xmit := (h id).xmit.add nbytes }

/-- `stat_flow`. -/
def statFlow (s : Stats) (fi : ℕ) (dir : Bool) (nbytes : ℤ) : Stats :=
  if dir then { s with flow := bumpRecv s.flow fi nbytes }
  else { s with flow := bumpXmit s.flow fi nbytes }

/-- `stat_user`. -/
def statUser (s : Stats) (ui pi : ℕ) (dir : Bool) (nbytes : ℤ) : Stats :=
  if dir then { s with user := bumpRecv (bumpXmit s.user ui nbytes) pi nbytes }
  else { s with user := bumpRecv (bumpXmit s.user pi nbytes) ui nbytes }

/-! ## `nproto_pkt_init` -/

/-- The lengths and the payload pointer of `nt_packet_t`; the pointer is an offset from the
    ip header, the lengths are `int16_t`. -/
structure NtPacket where
  l4Proto : ℕ
  dir : Bool
  l3Len : ℤ
  l4Len : ℤ
  l7Len : ℤ
  l7Ptr : ℕ
deriving DecidableEq, Repr

/-- The checks on the frame before anything is counted. -/
def Skb.frameOk (p : Skb) : Bool :=
  p.iph.version == 4 && 5 ≤ p.iph.ihl
    && !(p.len < p.iph.ihl * 4 || p.len < p.iph.totLen || p.iph.totLen < p.iph.ihl * 4
      || p.iph.fragOff % 2 ^ 13 != 0)

/-- The length of the layer 4 header that is skipped, where the protocol has a payload at all. -/
def Skb.l4HdrLen (p : Skb) : Option ℕ :=
  if p.iph.protocol = ipprotoTcp then some (p.tcpDoff * 4)
  else if p.iph.protocol = ipprotoUdp then some 8
  else none

/-- `nproto_pkt_init`: the counters after the call, and the packet descriptor unless the
    call failed with `-EINVAL`.  A frame without payload fails after it was counted. -/
def nprotoPktInit (s : Stats) (p : Skb) : Stats × Option NtPacket :=
  if p.frameOk then
    let s := statFlow s p.nt.flow p.isC2S (i16 p.len)
    let s := statUser s p.nt.user p.nt.peer p.isXmit (i16 p.len)
    let l4len : ℤ := p.iph.totLen - p.iph.ihl * 4
    match p.l4HdrLen with
    | some hdr =>
      let l7len : ℤ := l4len - hdr
      if l7len ≤ 0 then (s, none)
      else (s, some {
        l4Proto := p.iph.protocol
        dir := p.isC2S
        l3Len := i16 p.len
        l4Len := i16 l4len
        l7Len := i16 l7len
        l7Ptr := p.iph.ihl * 4 + hdr })
    | none => (s, none)
  else (s, none)

/-- The counters after a sequence of packets. -/
def account (s : Stats) (ps : List Skb) : Stats :=
  ps.foldl (fun s p => (nprotoPktInit s p).1) s

/-- The call returns 0; what it answers does not depend on the counters. -/
def Skb.accepted (p : Skb) : Prop := (nprotoPktInit Stats.zero p).2.isSome = true

/-! ## What the counters are for -/

/-- One of the counter pairs the module keeps. -/
inductive Counter where
  | flowRecv (f : ℕ)
  | flowXmit (f : ℕ)
  | userRecv (u : ℕ)
  | userXmit (u : ℕ)

/-- The pair as it is stored. -/
def Counter.read : Counter → Stats → Traffic
  | .flowRecv f, s => (s.flow f).recv
  | .flowXmit f, s => (s.flow f).xmit
  | .userRecv u, s => (s.user u).recv
  | .userXmit u, s => (s.user u).xmit

/-- The packets of the flow or user in the pair's direction.  A flow counts what its client
    sends as received; a user sends what carries its address and receives the rest. -/
def Counter.sel : Counter → Skb → Bool
  | .flowRecv f, p => p.nt.flow == f && p.isC2S
  | .flowXmit f, p => p.nt.flow == f && !p.isC2S
  | .userRecv u, p => (if p.isXmit then p.nt.peer else p.nt.user) == u
  | .userXmit u, p => (if p.isXmit then p.nt.user else p.nt.peer) == u

/-- The pair holds the number of its packets and the sum of their lengths. -/
def Counter.Exact (c : Counter) (ps : List Skb) : Prop :=
  (c.read (account Stats.zero ps)).pkts = ps.countP c.sel ∧
  (c.read (account Stats.zero ps)).bytes = ((ps.filter c.sel).map Skb.len).sum % 2 ^ 64

/-- The payload by the header lengths: what follows the ip and layer 4 headers up to the ip
    total length. -/
def Skb.payload (p : Skb) : ℕ × ℕ :=
  let hdrs := p.iph.ihl * 4 + (p.l4HdrLen.getD 0)
  (hdrs, p.iph.totLen - hdrs)

/-- The descriptor delimits the payload. -/
def Skb.Delimited (p : Skb) : Prop :=
  ∀ pkt, (nprotoPktInit Stats.zero p).2 = some pkt →
    pkt.l7Ptr = p.payload.1 ∧ pkt.l7Len = p.payload.2

/-! ## What one packet does -/

theorem accepted_iff (p : Skb) :
    p.accepted ↔ p.frameOk = true ∧
      ∃ hdr, p.l4HdrLen = some hdr ∧ p.iph.ihl * 4 + hdr < p.iph.totLen := by
  unfold Skb.accepted nprotoPktInit
  by_cases hf : p.frameOk = true
  · rw [if_pos hf]
    cases hh : p.l4HdrLen with
    | none => simp
    | some hdr =>
      by_cases hl : (p.iph.totLen : ℤ) - p.iph.ihl * 4 - hdr ≤ 0
      · simp only [if_pos hl, Option.some.injEq]
        refine iff_of_false (by simp) ?_
        rintro ⟨-, hdr', rfl, hlt⟩
        omega
      · simp only [if_neg hl, Option.some.injEq]
        exact iff_of_true rfl ⟨hf, hdr, rfl, by omega⟩
  · rw [if_neg hf]
    simp [hf]

/-- A frame that passes the checks is counted, whether or not it has a payload. -/
theorem nprotoPktInit_stats (s : Stats) {p : Skb} (h : p.frameOk = true) :
    (nprotoPktInit s p).1 =
      statUser (statFlow s p.nt.flow p.isC2S (i16 p.len)) p.nt.user p.nt.peer p.isXmit
        (i16 p.len) := by
  unfold nprotoPktInit
  rw [if_pos h]
  cases p.l4HdrLen with
  | none => rfl
  | some hdr =>
    dsimp only
    split <;> rfl

@[simp] theorem bumpRecv_recv (h : ℕ → StatHdr) (id x : ℕ) (n : ℤ) :
    (bumpRecv h id n x).recv = if id = x then (h x).recv.add n else (h x).recv := by
  by_cases hx : id = x
  · subst hx
    simp [bumpRecv]
  · simp [bumpRecv, hx, Function.update_of_ne (Ne.symm hx)]

@[simp] theorem bumpRecv_xmit (h : ℕ → StatHdr) (id x : ℕ) (n : ℤ) :
    (bumpRecv h id n x).xmit = (h x).xmit := by
  by_cases hx : id = x
  · subst hx
    simp [bumpRecv]
  · simp [bumpRecv, Function.update_of_ne (Ne.symm hx)]

@[simp] theorem bumpXmit_xmit (h : ℕ → StatHdr) (id x : ℕ) (n : ℤ) :
    (bumpXmit h id n x).xmit = if id = x then (h x).xmit.add n else (h x).xmit := by
  by_cases hx : id = x
  · subst hx
    simp [bumpXmit]
  · simp [bumpXmit, hx, Function.update_of_ne (Ne.symm hx)]

@[simp] theorem bumpXmit_recv (h : ℕ → StatHdr) (id x : ℕ) (n : ℤ) :
    (bumpXmit h id n x).recv = (h x).recv := by
  by_cases hx : id = x
  · subst hx
    simp [bumpXmit]
  · simp [bumpXmit, Function.update_of_ne (Ne.symm hx)]

/-- Each pair is bumped by the packets of its direction and by no others. -/
theorem read_nprotoPktInit (s : Stats) {p : Skb} (h : p.frameOk = true) (c : Counter) :
    c.read (nprotoPktInit s p).1 =
      if c.sel p then (c.read s).add (i16 p.len) else c.read s := by
  rw [nprotoPktInit_stats s h]
  cases c with
  | flowRecv f => cases hd : p.isC2S <;> cases hx : p.isXmit <;>
      simp [Counter.read, Counter.sel, statFlow, statUser, hd]
  | flowXmit f => cases hd : p.isC2S <;> cases hx : p.isXmit <;>
      simp [Counter.read, Counter.sel, statFlow, statUser, hd]
  | userRecv u => cases hd : p.isC2S <;> cases hx : p.isXmit <;>
      simp [Counter.read, Counter.sel, statFlow, statUser, hx]
  | userXmit u => cases hd : p.isC2S <;> cases hx : p.isXmit <;>
      simp [Counter.read, Counter.sel, statFlow, statUser, hx]

/-! ## What a run does -/

theorem foldl_add_pkts (t : Traffic) (ns : List ℤ) :
    (ns.foldl Traffic.add t).pkts = t.pkts + ns.length := by
  induction ns generalizing t with
  | nil => rfl
  | cons n ns ih =>
    rw [List.foldl_cons, ih, List.length_cons]
    change t.pkts + 1 + ns.length = t.pkts + (ns.length + 1)
    omega

theorem foldl_add_bytes {t : Traffic} (ht : t.bytes < 2 ^ 64) (ns : List ℤ) :
    (ns.foldl Traffic.add t).bytes = u64 (t.bytes + ns.sum) := by
  induction ns generalizing t with
  | nil =>
    rw [List.foldl_nil, List.sum_nil, add_zero, u64_natCast, Nat.mod_eq_of_lt ht]
  | cons n ns ih =>
    have hlt : (t.add n).bytes < 2 ^ 64 := u64_lt _
    rw [List.foldl_cons, ih hlt, List.sum_cons, ← add_assoc]
    exact u64_add_cast _ _

/-- A pair after a run is the pair before it with the lengths of its packets added. -/
theorem read_account (s : Stats) {ps : List Skb} (h : ∀ p ∈ ps, p.frameOk = true) (c : Counter) :
    c.read (account s ps) =
      ((ps.filter c.sel).map fun p => i16 p.len).foldl Traffic.add (c.read s) := by
  induction ps generalizing s with
  | nil => rfl
  | cons p ps ih =>
    have hp := h p List.mem_cons_self
    have hps : ∀ q ∈ ps, q.frameOk = true := fun q hq => h q (List.mem_cons_of_mem p hq)
    unfold account at ih ⊢
    rw [List.foldl_cons, ih _ hps, read_nprotoPktInit s hp]
    by_cases hs : c.sel p = true
    · rw [if_pos hs, List.filter_cons_of_pos hs, List.map_cons, List.foldl_cons]
    · rw [if_neg hs, List.filter_cons_of_neg hs]

/-- The packets whose length does not fit in an `int16_t`. -/
def Skb.big (p : Skb) : Bool := 2 ^ 15 ≤ p.len

theorem sum_i16_len (ps : List Skb) :
    (ps.map fun p => i16 p.len).sum = ((ps.map Skb.len).sum : ℕ) - 2 ^ 16 * (ps.countP Skb.big : ℤ) := by
  induction ps with
  | nil => simp
  | cons p ps ih =>
    rw [List.map_cons, List.sum_cons, ih, i16_natCast p.len_lt, List.map_cons, List.sum_cons,
      List.countP_cons]
    by_cases hb : 2 ^ 15 ≤ p.len
    · rw [if_pos hb, if_pos (by simpa [Skb.big] using hb)]
      push_cast
      ring
    · rw [if_neg hb, if_neg (by simpa [Skb.big] using hb)]
      push_cast
      ring

theorem u64_sub_eq_iff (a k : ℕ) :
    u64 ((a : ℤ) - 2 ^ 16 * (k : ℤ)) = a % 2 ^ 64 ↔ 2 ^ 48 ∣ k := by
  unfold u64
  omega

/-- A pair is exact as long as the packets that do not fit are a multiple of `2 ^ 48`:
    each of them takes `2 ^ 16` too much off a 64-bit sum. -/
theorem Counter.exact_iff (c : Counter) {ps : List Skb} (h : ∀ p ∈ ps, p.frameOk = true) :
    c.Exact ps ↔ 2 ^ 48 ∣ (ps.filter c.sel).countP Skb.big := by
  have hzero : c.read Stats.zero = ⟨0, 0⟩ := by cases c <;> rfl
  unfold Counter.Exact
  rw [read_account Stats.zero h c, hzero, foldl_add_pkts, foldl_add_bytes (by norm_num),
    sum_i16_len, List.length_map, ← List.countP_eq_length_filter]
  simp only [Nat.cast_zero, zero_add, true_and]
  exact u64_sub_eq_iff _ _

/-- The payload is delimited exactly when its length fits. -/
theorem delimited_iff {p : Skb} (h : p.accepted) : p.Delimited ↔ p.payload.2 < 2 ^ 15 := by
  obtain ⟨hf, hdr, hh, hlt⟩ := (accepted_iff p).1 h
  have hle : p.iph.totLen < 2 ^ 16 := by
    have hlen := p.len_lt
    have : ¬ p.len < p.iph.totLen := by
      simp only [Skb.frameOk, Bool.and_eq_true, Bool.not_eq_true', Bool.or_eq_false_iff,
        decide_eq_false_iff_not] at hf
      tauto
    omega
  have hpay : p.payload = (p.iph.ihl * 4 + hdr, p.iph.totLen - (p.iph.ihl * 4 + hdr)) := by
    simp [Skb.payload, hh]
  have hl : ¬ (p.iph.totLen : ℤ) - p.iph.ihl * 4 - hdr ≤ 0 := by omega
  have hcast : (p.iph.totLen : ℤ) - p.iph.ihl * 4 - hdr
      = ((p.iph.totLen - (p.iph.ihl * 4 + hdr) : ℕ) : ℤ) := by omega
  unfold Skb.Delimited
  rw [nprotoPktInit, if_pos hf, hh]
  simp only [if_neg hl, Option.some.injEq, forall_eq', hpay, true_and]
  rw [hcast, i16_natCast (by omega)]
  split <;> omega

/-- The counters of every flow and user are exact and every payload is delimited, exactly
    when no payload is longer than an `int16_t` can say and the packets longer than that
    come to a multiple of `2 ^ 48` in each counter. -/
theorem accounting_exact_iff (ps : List Skb) (h : ∀ p ∈ ps, p.accepted) :
    ((∀ c : Counter, c.Exact ps) ∧ ∀ p ∈ ps, p.Delimited) ↔
      (∀ c : Counter, 2 ^ 48 ∣ (ps.filter c.sel).countP Skb.big) ∧
        ∀ p ∈ ps, p.payload.2 < 2 ^ 15 := by
  have hf : ∀ p ∈ ps, p.frameOk = true := fun p hp => ((accepted_iff p).1 (h p hp)).1
  refine and_congr ?_ ?_
  · exact forall_congr' fun c => c.exact_iff hf
  · exact forall₂_congr fun p hp => delimited_iff (h p hp)

/-- A tcp segment of the given length with no options in either header. -/
def segment (len : ℕ) (h : len < 2 ^ 16) : Skb :=
  ⟨len, ⟨4, 5, len, 0, ipprotoTcp, 1, 2⟩, 5, ⟨7, 2, 3, 1, 4⟩, h⟩

/-- Two ordinary segments of one flow are counted right. -/
theorem accounting_exact_iff_segments :
    (∀ c : Counter, c.Exact [segment 1500 (by decide), segment 60 (by decide)]) ∧
      ∀ p ∈ [segment 1500 (by decide), segment 60 (by decide)], p.Delimited := by
  refine (accounting_exact_iff _ ?_).2 ⟨?_, ?_⟩
  · intro p hp
    rcases List.mem_pair.1 hp with rfl | rfl <;> exact rfl
  · intro c
    have hsmall : ∀ p ∈ [segment 1500 (by decide), segment 60 (by decide)], p.big = false := by
      decide
    rw [List.countP_eq_zero.2 fun p hp => by
      simp [hsmall p (List.mem_of_mem_filter hp)]]
    exact dvd_zero _
  · intro p hp
    rcases List.mem_pair.1 hp with rfl | rfl <;> decide

/-- One aggregated segment of 40000 bytes takes the byte counter of its flow below zero. -/
theorem aggregated_segment_miscounted :
    (segment 40000 (by decide)).accepted ∧
      ¬ (Counter.flowRecv 7).Exact [segment 40000 (by decide)] := by
  refine ⟨rfl, fun h => ?_⟩
  exact absurd h.2 (by decide)

end Nproto
