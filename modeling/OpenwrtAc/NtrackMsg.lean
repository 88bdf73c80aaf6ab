/-
# The kernel's message queue

`ntrack_msg.c`: messages for one cpu are queued as nodes and a worker copies them
into the shared ring.  `nt_msg_enqueue` links a node under the queue's lock and
writes its contents after it has let the lock go; the worker takes the first node
under the lock.  The model interleaves any number of callers with the worker at
these points.
-/
import Mathlib.Data.List.Forall2
import Mathlib.Data.List.GetD
import OpenwrtAc.NtrackRbf

namespace Ntrack

/-- `NCAP_MAX_COUNT`. -/
def ncapMaxCount : ℕ := 2048

/-- `sizeof(nt_msghdr_t)`. -/
def sizeofMsghdr : ℕ := 8

/-- The header and the contents a caller passes. -/
structure Msg where
  hdr : List UInt8
  data : List UInt8
  hdr_len : hdr.length = sizeofMsghdr

/-- What the caller wants to be delivered. -/
def Msg.bytes (m : Msg) : List UInt8 := m.hdr ++ m.data

/-- `nmsg_node_t` behind its link. -/
structure NmsgNode where
  buffSize : ℕ
  buff : ℕ → UInt8

/-- `memcpy(buff + off, src, length)`. -/
def memcpy (buff : ℕ → UInt8) (off : ℕ) (src : List UInt8) : ℕ → UInt8 :=
  fun i => if off ≤ i then src.getD (i - off) (buff i) else buff i

/-- The bytes the worker copies out of a node. -/
def NmsgNode.bytes (nd : NmsgNode) : List UInt8 := (List.range nd.buffSize).map nd.buff

/-- A call of `nt_msg_enqueue` that has linked its node and not finished writing it. -/
structure Filler where
  id : ℕ
  msg : Msg
  stage : ℕ

/-- The queue of one cpu, its nodes and its ring, the calls under way, and what happened:
    the messages in the order their nodes were linked, and the nodes of the ring as its reader
    found them before it released them. -/
structure MsgQueue where
  list : List ℕ
  count : ℕ
  node : ℕ → NmsgNode
  ring : Rbf
  fillers : List Filler
  enqueued : List Msg
  read : List Node

/-- An empty queue on a ring. -/
def MsgQueue.init (ring : Rbf) (node : ℕ → NmsgNode) : MsgQueue := ⟨[], 0, node, ring, [], [], []⟩

/-- `nmsg_fill_buffer`: `none` is the `-ENOMEM` of a full ring. -/
def nmsgFillBuffer (ring : Rbf) (nd : NmsgNode) : Option Rbf :=
  match rbfGetBuff ring with
  | none => none
  | some p => some (rbfReleaseBuff { ring with buffer := memcpy ring.buffer p nd.bytes })

/-- The first part of `nt_msg_enqueue`, up to the end of its locked section.  `id` is the
    node `kmalloc` returns and `junk` what its memory holds.  `none` when the call fails. -/
def msgAdd (q : MsgQueue) (m : Msg) (id : ℕ) (junk : NmsgNode) : Option MsgQueue :=
  if ncapMaxCount < q.count then none
  else if rbfNodeSize < m.data.length + sizeofMsghdr then none
  else if id ∈ q.list then none
  else some { q with
    list := id :: q.list
    count := q.count + 1
    node := Function.update q.node id junk
    fillers := ⟨id, m, 0⟩ :: q.fillers
    enqueued := q.enqueued ++ [m] }

/-- The writes of `nt_msg_enqueue` behind the lock, one for each stage. -/
def Filler.write (f : Filler) (nd : NmsgNode) : NmsgNode :=
  match f.stage with
  | 0 => { nd with buffSize := f.msg.data.length + sizeofMsghdr }
  | 1 => { nd with buff := memcpy nd.buff 0 f.msg.hdr }
  | _ => { nd with buff := memcpy nd.buff sizeofMsghdr f.msg.data }

/-- The `i`-th call under way does its next write; after the third it returns. -/
def msgFill (q : MsgQueue) (i : ℕ) : Option MsgQueue :=
  match q.fillers[i]? with
  | none => none
  | some f => some { q with
      node := Function.update q.node f.id (f.write (q.node f.id))
      fillers := if 2 ≤ f.stage then q.fillers.eraseIdx i
        else q.fillers.set i { f with stage := f.stage + 1 } }

/-- `nmsg_dequeue`: `none` for the `-1` of an empty list.  The node is unlinked and freed
    whether or not the ring took it. -/
def nmsgDequeue (q : MsgQueue) : Option MsgQueue :=
  match q.list with
  | [] => none
  | id :: rest =>
    match nmsgFillBuffer q.ring (q.node id) with
    | none => some { q with list := rest, count := q.count - 1 }
    | some ring => some { q with list := rest, count := q.count - 1, ring := ring }

/-! ## Interleavings -/

/-- What can happen next: a caller links a node, a call under way does its next write, the
    worker dequeues once, or the ring's reader reads a node and releases it. -/
inductive Act where
  | add (m : Msg) (id : ℕ) (junk : NmsgNode)
  | fill (i : ℕ)
  | dequeue
  | release

/-- One such step. -/
def MsgQueue.step (q : MsgQueue) : Act → Option MsgQueue
  | .add m id junk => msgAdd q m id junk
  | .fill i => msgFill q i
  | .dequeue => nmsgDequeue q
  | .release => (rbfGetData q.ring).map fun p =>
    { q with ring := rbfReleaseData q.ring, read := q.read ++ [q.ring.node p] }

/-- The ring has room whenever the worker has something to write. -/
def Room (q : MsgQueue) (a : Act) : Prop :=
  a = .dequeue → q.list ≠ [] → rbfGetBuff q.ring ≠ none

/-- A node is linked only into an empty queue, and taken only after its call has written it. -/
def Apart (q : MsgQueue) (a : Act) : Prop :=
  match a with
  | .add _ _ _ => q.list = []
  | .dequeue => ∀ f ∈ q.fillers, q.list.head? ≠ some f.id
  | _ => True

/-- The states that steps meeting `P` lead to. -/
inductive MsgReach (P : MsgQueue → Act → Prop) (q₀ : MsgQueue) : MsgQueue → Prop where
  | init : MsgReach P q₀ q₀
  | step {q q'} (a : Act) : MsgReach P q₀ q → P q a → q.step a = some q' → MsgReach P q₀ q'

/-- The nodes of the ring from the reader's index up to the writer's. -/
def Rbf.queued (rbp : Rbf) : List Node :=
  (List.range ((rbp.w.toNat + rbp.count.toNat - rbp.r.toNat) % rbp.count.toNat)).map fun i =>
    rbp.node (rbfNodeSize * ((rbp.r.toNat + i) % rbp.count.toNat))

/-- A node of the ring begins with the bytes of the message. -/
def Carries (nd : Node) (m : Msg) : Prop := m.bytes <+: List.ofFn nd

/-- All nodes that were written to the ring: those that its reader has released, and those
    that stand in it. -/
def MsgQueue.delivered (q : MsgQueue) : List Node := q.read ++ q.ring.queued

/-- The nodes written to the ring carry the messages in the order in which their nodes were
    linked, and the rest of these are what the queue still holds. -/
structure MsgQueue.InOrder (q : MsgQueue) : Prop where
  carries : List.Forall₂ Carries q.delivered (q.enqueued.take q.delivered.length)
  rest : q.enqueued.length = q.delivered.length + q.list.length

/-! ## Writing a node -/

/-- A node after the first `k` writes of the message's call. -/
structure Holds (nd : NmsgNode) (m : Msg) (k : ℕ) : Prop where
  size : 1 ≤ k → nd.buffSize = m.data.length + sizeofMsghdr
  hdr : 2 ≤ k → ∀ i (h : i < m.hdr.length), nd.buff i = m.hdr[i]
  data : 3 ≤ k → ∀ i (h : i < m.data.length), nd.buff (sizeofMsghdr + i) = m.data[i]

/-- Nothing is written yet. -/
theorem holds_zero (nd : NmsgNode) (m : Msg) : Holds nd m 0 where
  size h := absurd h (by omega)
  hdr h := absurd h (by omega)
  data h := absurd h (by omega)

/-- What is copied stands in the buffer. -/
theorem memcpy_inside (buff : ℕ → UInt8) (off : ℕ) {src : List UInt8} {i : ℕ} (h : i < src.length) :
    memcpy buff off src (off + i) = src[i] := by
  unfold memcpy
  rw [if_pos (Nat.le_add_right _ _), Nat.add_sub_cancel_left]
  simp [List.getD_eq_getElem?_getD, h]

/-- In front of it nothing changes. -/
theorem memcpy_below (buff : ℕ → UInt8) {off : ℕ} (src : List UInt8) {i : ℕ} (h : i < off) :
    memcpy buff off src i = buff i := by
  unfold memcpy
  rw [if_neg (by omega)]

/-- Each write takes the node one stage further. -/
theorem Holds.write {nd : NmsgNode} {f : Filler} (h : Holds nd f.msg f.stage) (hlt : f.stage < 3) :
    Holds (f.write nd) f.msg (f.stage + 1) := by
  obtain ⟨id, m, stage⟩ := f
  dsimp only at h hlt ⊢
  unfold Filler.write
  match stage, hlt with
  | 0, _ =>
    exact ⟨fun _ => rfl, fun h2 => absurd h2 (by omega), fun h3 => absurd h3 (by omega)⟩
  | 1, _ =>
    refine ⟨fun _ => h.size (le_refl _), fun _ i hi => ?_, fun h3 => absurd h3 (by omega)⟩
    have := memcpy_inside nd.buff 0 hi
    rwa [Nat.zero_add] at this
  | 2, _ =>
    refine ⟨fun _ => h.size (by omega), fun _ i hi => ?_, fun _ i hi => memcpy_inside nd.buff _ hi⟩
    have hlen : i < sizeofMsghdr := m.hdr_len ▸ hi
    exact (memcpy_below nd.buff m.data hlen).trans (h.hdr (le_refl _) i hi)

/-- A node that is written holds the message. -/
theorem Holds.bytes {nd : NmsgNode} {m : Msg} (h : Holds nd m 3) : nd.bytes = m.bytes := by
  have hsize := h.size (by omega)
  have hlen := m.hdr_len
  refine List.ext_getElem ?_ fun i h1 h2 => ?_
  · simp only [NmsgNode.bytes, Msg.bytes, List.length_map, List.length_range, List.length_append]
    omega
  · simp only [NmsgNode.bytes, List.getElem_map, List.getElem_range, Msg.bytes]
    by_cases hi : i < m.hdr.length
    · rw [List.getElem_append_left hi]
      exact h.hdr (by omega) i hi
    · have hge : m.hdr.length ≤ i := Nat.le_of_not_lt hi
      simp only [Msg.bytes, List.length_append] at h2
      rw [List.getElem_append_right hge, ← h.data (le_refl _) _ (by omega)]
      congr 1
      omega

/-! ## The ring -/

/-- The messages whose nodes were written to the ring. -/
def Wrote (q : MsgQueue) (ms : List Msg) : Prop :=
  ∃ nodes, RingQueue q.ring.count.toNat q.ring.slot q.ring.r.toNat q.ring.w.toNat nodes ∧
    List.Forall₂ Carries (q.read ++ nodes.map Prod.snd) ms

/-- The nodes between the indices are the queue that stands in the ring. -/
theorem queued_eq {ring : Rbf} {nodes : List (ℕ × Node)}
    (h : RingQueue ring.count.toNat ring.slot ring.r.toNat ring.w.toNat nodes) :
    ring.queued = nodes.map Prod.snd := by
  have hlen : (ring.w.toNat + ring.count.toNat - ring.r.toNat) % ring.count.toNat =
      nodes.length := by
    have hr := h.r_lt
    have hfits := h.fits
    rw [h.w_eq]
    by_cases hlt : ring.r.toNat + nodes.length < ring.count.toNat
    · have hsum : ring.r.toNat + nodes.length + ring.count.toNat - ring.r.toNat =
          nodes.length + ring.count.toNat := by omega
      rw [Nat.mod_eq_of_lt hlt, hsum, Nat.add_mod_right, Nat.mod_eq_of_lt hfits]
    · have hlow : ring.r.toNat + nodes.length - ring.count.toNat < ring.count.toNat := by omega
      have hsum : ring.r.toNat + nodes.length - ring.count.toNat + ring.count.toNat -
          ring.r.toNat = nodes.length := by omega
      rw [Nat.mod_eq_sub_mod (Nat.le_of_not_lt hlt), Nat.mod_eq_of_lt hlow, hsum,
        Nat.mod_eq_of_lt hfits]
  unfold Rbf.queued
  rw [hlen]
  refine List.ext_getElem (by simp) fun i hi _ => ?_
  simp only [List.length_map, List.length_range] at hi
  simp only [List.getElem_map, List.getElem_range, ← h.holds i hi]
  rfl

/-- Every node that was delivered carries its message. -/
theorem Wrote.forall₂ {q : MsgQueue} {ms : List Msg} (h : Wrote q ms) :
    List.Forall₂ Carries q.delivered ms := by
  obtain ⟨nodes, hring, hall⟩ := h
  rwa [MsgQueue.delivered, queued_eq hring]

/-- A message that fits the node is what the node begins with after the copy. -/
theorem carries_memcpy (buff : ℕ → UInt8) (p : ℕ) {m : Msg} (h : m.bytes.length ≤ rbfNodeSize) :
    Carries (fun k => memcpy buff p m.bytes (p + k)) m := by
  rw [Carries, List.prefix_iff_getElem]
  refine ⟨by rwa [List.length_ofFn], fun i hi => ?_⟩
  rw [List.getElem_ofFn]
  exact (memcpy_inside buff p hi).symm

/-- A copy into one node leaves every other node as it was. -/
theorem slot_memcpy_ne (ring : Rbf) {i j : ℕ} {src : List UInt8} (h : src.length ≤ rbfNodeSize)
    (hne : i ≠ j) :
    ({ ring with buffer := memcpy ring.buffer (rbfNodeSize * j) src } : Rbf).slot i =
      ring.slot i := by
  unfold Rbf.slot
  refine Prod.ext rfl (funext fun l => ?_)
  show memcpy ring.buffer (rbfNodeSize * j) src (rbfNodeSize * i + l) = ring.buffer _
  have hl := l.isLt
  rcases Nat.lt_or_gt_of_ne hne with hlt | hlt
  · refine memcpy_below _ _ ?_
    have := Nat.mul_le_mul_left rbfNodeSize (Nat.succ_le_of_lt hlt)
    rw [Nat.mul_succ] at this
    omega
  · have := Nat.mul_le_mul_left rbfNodeSize (Nat.succ_le_of_lt hlt)
    rw [Nat.mul_succ] at this
    unfold memcpy
    split
    · rw [List.getD_eq_default]
      omega
    · rfl

/-- The message of a node that is written is the next one in the ring. -/
theorem Wrote.fill {q : MsgQueue} {ms : List Msg} {m : Msg} (h : Wrote q ms) {nd : NmsgNode}
    (hnd : nd.bytes = m.bytes) (hm : m.bytes.length ≤ rbfNodeSize) {ring : Rbf}
    (hs : nmsgFillBuffer q.ring nd = some ring) : Wrote { q with ring := ring } (ms ++ [m]) := by
  obtain ⟨nodes, hring, hall⟩ := h
  unfold nmsgFillBuffer at hs
  split at hs
  · cases hs
  next p hp =>
    obtain ⟨rfl, hne⟩ := rbfGetBuff_eq_some hp
    have hpos : 0 < q.ring.count.toNat := lt_of_le_of_lt (Nat.zero_le _) hring.r_lt
    have hroom : nodes.length + 1 < q.ring.count.toNat := by
      refine lt_of_le_of_ne hring.fits fun hfull => hne ?_
      rw [← UInt16.toNat_inj, nextIdx_toNat _ hpos]
      exact hring.succ_eq_iff_full.2 hfull
    cases hs
    have hcopy := hring.congr fun i hi =>
      slot_memcpy_ne q.ring (hnd ▸ hm : nd.bytes.length ≤ rbfNodeSize) hi
    have hpush := hcopy.push hroom
    rw [← nextIdx_toNat _ hpos] at hpush
    refine ⟨_, hpush, ?_⟩
    rw [List.map_append, ← List.append_assoc]
    refine List.rel_append hall (.cons ?_ .nil)
    rw [hnd]
    exact carries_memcpy q.ring.buffer _ hm

/-- What the reader releases is what it has found. -/
theorem Wrote.release {q : MsgQueue} {ms : List Msg} (h : Wrote q ms) {p : ℕ}
    (hs : rbfGetData q.ring = some p) :
    Wrote { q with ring := rbfReleaseData q.ring, read := q.read ++ [q.ring.node p] } ms := by
  obtain ⟨nodes, hring, hall⟩ := h
  obtain ⟨rfl, hne⟩ := rbfGetData_eq_some hs
  have hpos : 0 < q.ring.count.toNat := lt_of_le_of_lt (Nat.zero_le _) hring.r_lt
  cases nodes with
  | nil => exact absurd (UInt16.toNat_inj.1 (hring.eq_iff_empty.2 rfl)) hne
  | cons nd nodes =>
    have hpop := hring.pop
    rw [← nextIdx_toNat _ hpos] at hpop
    refine ⟨nodes, hpop, ?_⟩
    have hhead : q.ring.node (rbfNodeSize * q.ring.r.toNat) = nd.2 := congrArg Prod.snd hring.head
    rw [hhead, List.append_assoc]
    exact hall

/-! ## The queue while calls and worker keep apart -/

/-- The queue is empty and all is written, or it holds the one node of the last message,
    whose call has done `k` of its three writes. -/
inductive MsgInv (q : MsgQueue) : Prop where
  | empty : q.list = [] → q.fillers = [] → Wrote q q.enqueued → MsgInv q
  | one (id : ℕ) (m : Msg) (pre : List Msg) (k : ℕ) : q.list = [id] → q.enqueued = pre ++ [m] →
      m.bytes.length ≤ rbfNodeSize → Wrote q pre → Holds (q.node id) m k →
      (k = 3 ∧ q.fillers = [] ∨ k < 3 ∧ q.fillers = [⟨id, m, k⟩]) → MsgInv q

/-- The invariant implies the order of the ring's nodes. -/
theorem MsgInv.inOrder {q : MsgQueue} (h : MsgInv q) : q.InOrder := by
  cases h with
  | empty hl hf hw =>
    have hall := hw.forall₂
    have hlen := hall.length_eq
    rw [← List.take_length (l := q.enqueued), ← hlen] at hall
    exact ⟨hall, by rw [hl, ← hlen]; rfl⟩
  | one id m pre k hl he hm hw =>
    have hall := hw.forall₂
    have hlen := hall.length_eq
    refine ⟨?_, by rw [he, hl, hlen, List.length_append]; rfl⟩
    rwa [he, hlen, List.take_left]

/-- A message that is put into an empty list keeps the invariant. -/
theorem MsgInv.add {q q' : MsgQueue} {m : Msg} {id : ℕ} {junk : NmsgNode} (h : MsgInv q)
    (hl : q.list = []) (hs : msgAdd q m id junk = some q') : MsgInv q' := by
  cases h with
  | one id' m' pre k hl' => exact absurd hl (by simp [hl'])
  | empty _ hf hw =>
    unfold msgAdd at hs
    split at hs
    · cases hs
    split at hs
    · cases hs
    next hsize =>
    split at hs
    · cases hs
    cases hs
    have hm : m.bytes.length ≤ rbfNodeSize := by
      rw [Msg.bytes, List.length_append, m.hdr_len]
      omega
    refine .one id m q.enqueued 0 (by rw [hl]) rfl hm hw (holds_zero _ _) (Or.inr ⟨by omega, ?_⟩)
    rw [hf]

/-- Filling one more byte keeps the invariant. -/
theorem MsgInv.fill {q q' : MsgQueue} {i : ℕ} (h : MsgInv q) (hs : msgFill q i = some q') :
    MsgInv q' := by
  unfold msgFill at hs
  split at hs
  · cases hs
  next f hfi =>
  cases h with
  | empty _ hf => rw [hf] at hfi; cases hfi
  | one id m pre k hl he hm hw hh hk =>
    rcases hk with ⟨-, hf⟩ | ⟨hk, hf⟩
    · rw [hf] at hfi
      cases hfi
    · -- the only call under way is the one of the queued node
      obtain rfl : i = 0 := by
        by_contra hne
        rw [hf, List.getElem?_eq_none (by simp; omega)] at hfi
        cases hfi
      rw [hf] at hfi
      cases hfi
      cases hs
      have hh' : Holds ((⟨id, m, k⟩ : Filler).write (q.node id)) m (k + 1) :=
        Holds.write hh hk
      refine .one id m pre (k + 1) hl he hm hw (by simpa using hh') ?_
      by_cases hlast : 2 ≤ k
      · exact Or.inl ⟨by omega, by simp [hlast, hf]⟩
      · exact Or.inr ⟨by omega, by simp [hlast, hf]⟩

/-- Moving a node to the ring keeps the invariant. -/
theorem MsgInv.dequeue {q q' : MsgQueue} (h : MsgInv q) (hroom : Room q .dequeue)
    (hapart : Apart q .dequeue) (hs : nmsgDequeue q = some q') : MsgInv q' := by
  cases h with
  | empty hl => simp [nmsgDequeue, hl] at hs
  | one id m pre k hl he hm hw hh hk =>
    have hdone : k = 3 ∧ q.fillers = [] := by
      rcases hk with hk | ⟨-, hf⟩
      · exact hk
      · exact absurd (by rw [hl]; rfl) (hapart ⟨id, m, k⟩ (by rw [hf]; simp))
    obtain ⟨rfl, hf⟩ := hdone
    have hsome : rbfGetBuff q.ring ≠ none := hroom rfl (by simp [hl])
    simp only [nmsgDequeue, hl] at hs
    split at hs
    next hfull =>
      obtain ⟨p, hp⟩ := Option.ne_none_iff_exists'.1 hsome
      simp [nmsgFillBuffer, hp] at hfull
    next ring hfill =>
      cases hs
      refine .empty rfl hf ?_
      rw [he]
      exact hw.fill hh.bytes hm hfill

/-- Every act keeps the invariant. -/
theorem MsgInv.step {q q' : MsgQueue} {a : Act} (h : MsgInv q) (hroom : Room q a)
    (hapart : Apart q a) (hs : q.step a = some q') : MsgInv q' := by
  cases a with
  | add m id junk => exact h.add hapart hs
  | fill i => exact h.fill hs
  | dequeue => exact h.dequeue hroom hapart hs
  | release =>
    obtain ⟨p, hp, rfl⟩ := Option.map_eq_some_iff.1 hs
    cases h with
    | empty hl hf hw => exact .empty hl hf (hw.release hp)
    | one id m pre k hl he hm hw hh hk => exact .one id m pre k hl he hm (hw.release hp) hh hk

/-- On a ring that is empty at any position, while it has room, every node is linked into an
    empty queue and no node is taken before its call has written it, the nodes written to the
    ring carry the messages in order and complete. -/
theorem messages_in_order {ring : Rbf} (heq : ring.r = ring.w) (hr : ring.r < ring.count)
    (node : ℕ → NmsgNode) {q : MsgQueue}
    (h : MsgReach (fun q a => Room q a ∧ Apart q a) (MsgQueue.init ring node) q) : q.InOrder := by
  suffices hinv : MsgInv q from hinv.inOrder
  induction h with
  | init =>
    refine .empty rfl rfl ⟨[], ?_, .nil⟩
    show RingQueue ring.count.toNat ring.slot ring.r.toNat ring.w.toNat []
    rw [← heq]
    exact RingQueue.empty (UInt16.lt_iff_toNat_lt.1 hr)
  | step a _ hp hs ih => exact ih.step hp.1 hp.2 hs

/-- A message of one byte. -/
def oneByte (b : UInt8) : Msg := ⟨[1, 0, 0, 0, 1, 0, 0, 0], [b], rfl⟩

/-- Memory as `kmalloc` may return it. -/
def junk : NmsgNode := ⟨0, fun _ => 0⟩

/-- A ring of four nodes that is empty at the position `i`. -/
def fourNodes (i : UInt16) : Rbf := ⟨i, i, 4, fun _ => 0⟩

/-- Two messages, each through an empty queue, the second with more bytes than the first: the
    ring wraps between them, and the reader has taken the first. -/
theorem messages_in_order_two :
    ∃ q,
      MsgReach (fun q a => Room q a ∧ Apart q a) (MsgQueue.init (fourNodes 3) fun _ => junk) q ∧
      q.read.length = 1 ∧ q.ring.queued.length = 1 ∧ q.InOrder := by
  have h :
      MsgReach (fun q a => Room q a ∧ Apart q a) (MsgQueue.init (fourNodes 3) fun _ => junk) _ :=
    (((((((((((MsgReach.init.step (.add (oneByte 9) 0 junk) ⟨nofun, rfl⟩ rfl).step (.fill 0)
      ⟨nofun, trivial⟩ rfl).step (.fill 0) ⟨nofun, trivial⟩ rfl).step (.fill 0)
      ⟨nofun, trivial⟩ rfl).step .dequeue ⟨fun _ _ => nofun, nofun⟩ rfl).step
      (.add ⟨[1, 0, 0, 0, 2, 0, 0, 0], [7, 8], rfl⟩ 0 junk) ⟨nofun, rfl⟩ rfl).step (.fill 0)
      ⟨nofun, trivial⟩ rfl).step (.fill 0) ⟨nofun, trivial⟩ rfl).step .release
      ⟨nofun, trivial⟩ rfl).step (.fill 0) ⟨nofun, trivial⟩ rfl).step .dequeue
      ⟨fun _ _ => nofun, nofun⟩ rfl)
  exact ⟨_, h, rfl, rfl, messages_in_order rfl (by decide) (fun _ => junk) h⟩

/-- Two messages that are queued and written before the worker runs come out last first. -/
theorem two_queued_reversed :
    ∃ q, MsgReach Room (MsgQueue.init (fourNodes 0) fun _ => junk) q ∧ ¬ q.InOrder := by
  have h : MsgReach Room (MsgQueue.init (fourNodes 0) fun _ => junk) _ :=
    (((((((((MsgReach.init.step (.add (oneByte 1) 0 junk) nofun rfl).step (.fill 0) nofun rfl).step
      (.fill 0) nofun rfl).step (.fill 0) nofun rfl).step (.add (oneByte 2) 1 junk) nofun rfl).step
      (.fill 0) nofun rfl).step (.fill 0) nofun rfl).step (.fill 0) nofun rfl).step .dequeue
      (fun _ _ => nofun) rfl)
  refine ⟨_, h, fun hord => ?_⟩
  -- the first node of the ring holds the second message
  obtain ⟨hcarries, -⟩ := List.forall₂_cons.1 hord.carries
  have hbyte := (List.prefix_iff_getElem.1 hcarries).2 8 (by decide)
  rw [List.getElem_ofFn] at hbyte
  have heq : (1 : UInt8) = 2 := hbyte
  exact absurd heq (by decide)

end Ntrack
