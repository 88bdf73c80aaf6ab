/-
# The invariant through the dequeue loops

Each operation of the dequeue loops keeps `Inv`: taking a packet out of a flow, moving a
flow to another user entry, the deficit round robin, linking a user to its bucket and
unlinking it, and firing a token control.
-/
import OpenwrtAc.TbqInvariant

open Outcome MachineInt ListSum

namespace Tbq

/-- The accounting does not depend on the packet count and the dequeue information. -/
theorem Acct.withCount {q : QueueState} (h : Acct q) (n : ℕ) (dq : DequeueInfo) :
    Acct { q with backlogPackets := n, dq := dq } :=
  ⟨⟨h.links.congr ⟨fun _ => rfl, fun _ => rfl, fun _ => rfl⟩, h.flowsNodup, h.usersNodup,
      h.packetOk, h.tracked, h.userTracked, h.held, h.busy, h.userBusy, h.rule⟩,
    ⟨h.tcOctets, h.bucketOctets, h.tcWeight, h.bucketWeights⟩, h.flowOctets, h.userOctets⟩

theorem Classes.withCount {cfg : Config} {q : QueueState} (h : Classes cfg q) (n : ℕ)
    (dq : DequeueInfo) : Classes cfg { q with backlogPackets := n, dq := dq } :=
  ⟨h.userMask, h.userWeight, h.flowRule⟩

/-- A change of the queue that leaves the users, the flows and their classes alone. -/
theorem Inv.setQueue {b : Prop} {cfg : Config} {w w' : Option TcId} {s : State} (h : Inv b cfg w s)
    {q' : QueueState}
    (hacct : Acct q') (hflow : q'.flow = s.q.flow) (hflows : q'.flows = s.q.flows)
    (husers : q'.users = s.q.users) (hmask : q'.userMask = s.q.userMask)
    (hw : ∀ r, (q'.unit (.user r)).weight = (s.q.unit (.user r)).weight)
    (hcount : q'.backlogPackets = (queued q' + q'.dq.nrSend + q'.dq.nrDrop) % 2 ^ 32)
    (hsmall : b → Small q') (hserved : b → Served w' s.t.pending q') :
    Inv b cfg w' { s with q := q' } := by
  refine ⟨⟨hacct, h.base.classes.congr hflow husers hmask hw, ?_, fun p hp => ?_, hcount⟩, hsmall,
    hserved, h.cfg_eq⟩
  · show TokensOk s.cfg q'.users s.t
    rw [husers]
    exact h.base.tokens
  · show p.flow ∈ q'.flows ∧ p.flow.user ∈ q'.users ∧ p.ruleMask = (q'.flow p.flow).ruleMask
    rw [hflows, husers, hflow]
    exact h.base.inflight p hp

/-- A change of links that leaves the packets alone. -/
theorem Inv.relink {b : Prop} {cfg : Config} {w w' : Option TcId} {s : State} (h : Inv b cfg w s)
    {q' : QueueState}
    (hacct : Acct q') (hrest : SameRest s.q q') (hserved : b → Served w' s.t.pending q') :
    Inv b cfg w' { s with q := q' } := by
  refine h.setQueue hacct hrest.flow hrest.flows hrest.users hrest.userMask hrest.unitWeight ?_
    (fun hb => ?_) hserved
  · rw [hrest.backlogPackets, hrest.dq, h.base.count, queued, queued, hrest.flows, hrest.packets]
  · have := h.small hb
    unfold Small totalBytes at *
    rwa [hrest.flows, hrest.packets]

/-- A change on the token side that takes nothing off the timer. -/
theorem Inv.setTokens {b : Prop} {cfg : Config} {w : Option TcId} {s : State} (h : Inv b cfg w s)
    {t' : TokenState}
    (ht : TokensOk s.cfg s.q.users t') (hp : ∀ X, X ∈ s.t.pending → X ∈ t'.pending) :
    Inv b cfg w { s with t := t' } :=
  ⟨⟨h.base.acct, h.base.classes, ht, h.base.inflight, h.base.count⟩, h.small,
    fun hb => (h.served hb).mono hp, h.cfg_eq⟩

/-- A packet leaves its flow and is put on one of the lists of the call. -/
theorem Inv.take {b : Prop} {cfg : Config} {w : Option TcId} {s : State} (h : Inv b cfg w s)
    {p : Packet}
    {rest : List Packet} {q' : QueueState} {dq : DequeueInfo}
    (hp : (s.q.packets p.flow p.dir).Perm (p :: rest))
    (hq : takePacket s.q p.flow p.dir p rest = .ok q')
    (hdq : (dq.nrSend + dq.nrDrop) % 2 ^ 32 = (s.q.dq.nrSend + s.q.dq.nrDrop + 1) % 2 ^ 32) :
    Inv b cfg w { s with q := { q' with dq := dq } } := by
  have hacct := h.base.acct.take hp hq
  obtain ⟨r, ht⟩ := h.base.acct.links.take hq
  have hc := ht.moved.change
  obtain ⟨hf, -, -, -⟩ := h.base.acct.attached_tracked ht.waits
  have hbytes := hc.totalBytes h.base.acct.flowsNodup hf
  have hqueued := hc.queued h.base.acct.flowsNodup hf
  rw [ht.moved.packets] at hbytes hqueued
  rw [bytes_perm hp, bytes_cons] at hbytes
  rw [hp.length_eq, List.length_cons] at hqueued
  have hsmall : b → Small q' := by
    intro hb
    have := h.small hb
    unfold Small at *
    omega
  refine h.setQueue (hacct.withCount _ _) hc.flow hc.flows hc.users hc.userMask hc.unitWeight ?_
    hsmall (fun hb => ?_)
  · have hcount := h.base.count
    have : queued { q' with dq := dq } = queued q' := rfl
    rw [this]
    show q'.backlogPackets = _
    rw [ht.moved.backlogPackets]
    show s.q.backlogPackets = (queued q' + dq.nrSend + dq.nrDrop) % 2 ^ 32
    omega
  · -- what was attached and is not any more holds no octets, so no flow waits for it
    have hcl : Classes s.cfg q' :=
      h.base.classes.congr hc.flow hc.users hc.userMask hc.unitWeight
    show Served w s.t.pending { q' with dq := dq }
    refine (h.served hb).of_change (fun g e r' hr' => .inl ?_) (fun r' hr' => .inl ?_)
      (fun r' hold hnew => .inl ?_)
    · have hr' : (q'.unit (.flow g e)).tc = some (.user r') := hr'
      by_cases hge : g = p.flow ∧ e = p.dir
      · obtain ⟨rfl, rfl⟩ := hge
        rw [ht.flowUnit, drain_unit_self] at hr'
        dsimp only at hr'
        split at hr'
        · cases hr'
        · exact hr'
      · rw [← hc.tc g e hge]
        exact hr'
    · have hr' : (q'.unit (.user r')).tc ≠ none := hr'
      by_cases hrr : r' = r
      · subst hrr
        intro hn
        rw [ht.userUnit, drain_unit_self] at hr'
        dsimp only at hr'
        rw [hn] at hr'
        split at hr' <;> exact hr' rfl
      · rwa [ht.others _ (by intro e; cases e) fun e => hrr (UnitId.user.inj e)] at hr'
    · have hnew : (q'.unit (.user r')).tc = none := hnew
      by_cases hrr : r' = r
      · subst hrr
        apply hacct.none_waits hcl (hsmall hb)
        rw [ht.userUnit, drain_unit_self] at hnew ⊢
        dsimp only at hnew ⊢
        by_contra h0
        rw [if_neg h0] at hnew
        exact hold hnew
      · rw [ht.others _ (by intro e; cases e) fun e => hrr (UnitId.user.inj e)] at hnew
        exact absurd hnew hold

/-- A flow moves to a user entry that is on the timer, or whose bucket is. -/
theorem Inv.switch {b : Prop} {cfg : Config} {w : Option TcId} {s : State} (h : Inv b cfg w s)
    {f : FlowId} {d : Dir}
    {r r' : UserRef} (htc : (s.q.unit (.flow f d)).tc = some (.user r))
    (hle : (s.q.unit (.flow f d)).octets ≤ (s.q.unit (.user r)).octets)
    (hc' : Compat (.flow f d) (.user r')) (hne : r' ≠ r)
    (hrule : (s.q.flow f).ruleMask.has r'.i = true)
    (hp : r'.bucket ∈ s.t.pending ∨ TcId.user r' ∈ s.t.pending) :
    Inv b cfg w { s with q := attachedFlow s.t.pending (detachedFlow s.q r f d) f d r' } := by
  have hacct : Acct (attachedFlow s.t.pending (detachedFlow s.q r f d) f d r') :=
    h.base.acct.switch htc hle hc' hne hrule
  have hrest : SameRest s.q (attachedFlow s.t.pending (detachedFlow s.q r f d) f d r') :=
    (sameRest_detachedFlow s.q r f d).trans (sameRest_attachedFlow ..)
  refine h.relink hacct hrest fun hb => ?_
  set q' := attachedFlow s.t.pending (detachedFlow s.q r f d) f d r' with hq'
  have hsmall : Small q' := by
    have := h.small hb
    unfold Small totalBytes at *
    rwa [hrest.flows, hrest.packets]
  have hcl : Classes s.cfg q' :=
    h.base.classes.congr hrest.flow hrest.users hrest.userMask hrest.unitWeight
  -- the units of users
  have hold : q'.unit (.user r)
      = (drain s.q (.user r) (s.q.unit (.flow f d)).octets).unit (.user r) := by
    rw [hq', attachedFlow_of_ne _ _ _ _ _ (by intro he; cases he)
      (fun e => hne (UnitId.user.inj e).symm), detachedFlow_user]
  have hnew : (q'.unit (.user r')).tc = if r'.bucket ∈ s.t.pending ∧ (s.q.unit (.user r')).tc = none
      then some r'.bucket else (s.q.unit (.user r')).tc := by
    rw [hq', (attachedFlow_user ..).1, detachedFlow_of_ne _ _ _ _ (by intro he; cases he)
      (fun e => hne (UnitId.user.inj e))]
  have hothers : ∀ r₂, r₂ ≠ r → r₂ ≠ r' → q'.unit (.user r₂) = s.q.unit (.user r₂) := by
    intro r₂ h₁ h₂
    rw [hq', attachedFlow_of_ne _ _ _ _ _ (by intro he; cases he) (fun e => h₂ (UnitId.user.inj e)),
      detachedFlow_of_ne _ _ _ _ (by intro he; cases he) (fun e => h₁ (UnitId.user.inj e))]
  refine (h.served hb).of_change (fun g e r₂ hr₂ => ?_) (fun r₂ hr₂ => ?_) (fun r₂ h₁ h₂ => ?_)
  · by_cases hge : g = f ∧ e = d
    · obtain ⟨rfl, rfl⟩ := hge
      rw [hq', (attachedFlow_flow ..).1] at hr₂
      obtain rfl := TcId.user.inj (Option.some.inj hr₂)
      right
      by_cases hb' : r'.bucket ∈ s.t.pending
      · right
        rw [hnew]
        split
        · simp
        · rename_i hcond
          exact fun e => hcond ⟨hb', e⟩
      · exact .inl (hp.resolve_left hb')
    · left
      have hne₁ : UnitId.flow g e ≠ .flow f d := by
        intro he
        cases he
        exact hge ⟨rfl, rfl⟩
      rwa [hq', attachedFlow_of_ne _ _ _ _ _ hne₁ (by intro he; cases he),
        detachedFlow_of_ne _ _ _ _ hne₁ (by intro he; cases he)] at hr₂
  · by_cases h₁ : r₂ = r
    · subst h₁
      left
      intro hn
      rw [hold, drain_unit_self] at hr₂
      dsimp only at hr₂
      rw [hn] at hr₂
      split at hr₂ <;> exact hr₂ rfl
    · by_cases h₂ : r₂ = r'
      · subst h₂
        rw [hnew] at hr₂
        split at hr₂
        · rename_i hcond
          exact .inr hcond.1
        · exact .inl hr₂
      · rw [hothers r₂ h₁ h₂] at hr₂
        exact .inl hr₂
  · by_cases h₃ : r₂ = r
    · subst h₃
      left
      apply hacct.none_waits hcl hsmall
      rw [← hq', hold, drain_unit_self] at *
      dsimp only at h₂ ⊢
      by_contra h0
      rw [if_neg h0] at h₂
      exact h₁ h₂
    · by_cases h₄ : r₂ = r'
      · subst h₄
        rw [hnew] at h₂
        split at h₂
        · cases h₂
        · exact absurd h₂ h₁
      · rw [hothers r₂ h₃ h₄] at h₂
        exact absurd h₂ h₁

theorem Inv.schedule {b : Prop} {cfg : Config} {w : Option TcId} {s : State} (h : Inv b cfg w s)
    (x : UnitId) (n : ℕ) :
    Inv b cfg w { s with q := Tbq.scheduled s.q x n } :=
  h.relink (h.base.acct.scheduled x n) (sameRest_scheduled s.q x n) fun hb =>
    (h.served hb).congr fun y => (scheduled_tc s.q x y n).1

/-! ## Dropping from the tail -/

/-- What dropping packets of the flow `f` in direction `d` leaves as it was. -/
structure Dropped (f : FlowId) (d : Dir) (q q' : QueueState) : Prop where
  flow : q'.flow = q.flow
  flows : q'.flows = q.flows
  users : q'.users = q.users
  backlogPackets : q'.backlogPackets = q.backlogPackets
  nrSend : q'.dq.nrSend = q.dq.nrSend
  send : q'.dq.send = q.dq.send
  packets : ∀ g e, ∀ p ∈ q'.packets g e, p ∈ q.packets g e
  tc : (q'.unit (.flow f d)).tc = none ∨ (q'.unit (.flow f d)).tc = (q.unit (.flow f d)).tc
  others : ∀ x, x ≠ .flow f d → (∀ r, (q.unit (.flow f d)).tc = some (.user r) → x ≠ .user r) →
    (q'.unit x).tc = (q.unit x).tc
  fewer : q' = q ∨ queued q' < queued q
  shed : Shed q q'

theorem Dropped.refl {q : QueueState} (h : Links q) (f : FlowId) (d : Dir) : Dropped f d q q :=
  ⟨rfl, rfl, rfl, rfl, rfl, rfl, fun _ _ _ hp => hp, .inr rfl, fun _ _ _ => rfl, .inl rfl, .refl h⟩

theorem Dropped.trans {f : FlowId} {d : Dir} {q q' q'' : QueueState} (h : Dropped f d q q')
    (h' : Dropped f d q' q'') : Dropped f d q q'' := by
  refine ⟨h'.flow.trans h.flow, h'.flows.trans h.flows, h'.users.trans h.users,
    h'.backlogPackets.trans h.backlogPackets, h'.nrSend.trans h.nrSend, h'.send.trans h.send,
    fun g e p hp => h.packets g e p (h'.packets g e p hp), ?_, fun x hf hr => ?_, ?_,
    h.shed.trans h'.shed⟩
  · rcases h'.tc with h₁ | h₁
    · exact .inl h₁
    · rw [h₁]
      exact h.tc
  · refine (h'.others x hf fun r hr' => hr r ?_).trans (h.others x hf hr)
    exact h.shed.attached hr'
  · rcases h'.fewer with rfl | h₁
    · exact h.fewer
    · rcases h.fewer with rfl | h₂
      · exact .inr h₁
      · exact .inr (h₁.trans h₂)

/-- The dequeue information after one more packet was dropped. -/
def DequeueInfo.addDrop (dq : DequeueInfo) (p : Packet) : DequeueInfo :=
  { dq with drop := dq.drop ++ [p], nrDrop := u32 (dq.nrDrop + 1) }

/-- The dequeue information after one more packet was sent. -/
def DequeueInfo.addSend (dq : DequeueInfo) (p : Packet) : DequeueInfo :=
  { dq with send := dq.send ++ [p], nrSend := u32 (dq.nrSend + 1) }

theorem DequeueInfo.addDrop_count (dq : DequeueInfo) (p : Packet) :
    ((dq.addDrop p).nrSend + (dq.addDrop p).nrDrop) % 2 ^ 32
      = (dq.nrSend + dq.nrDrop + 1) % 2 ^ 32 := by
  unfold addDrop u32
  dsimp only
  omega

theorem DequeueInfo.addSend_count (dq : DequeueInfo) (p : Packet) :
    ((dq.addSend p).nrSend + (dq.addSend p).nrDrop) % 2 ^ 32
      = (dq.nrSend + dq.nrDrop + 1) % 2 ^ 32 := by
  unfold addSend u32
  dsimp only
  omega

/-- A benign reason is tolerated when counters may have wrapped; below the bound there
is none. -/
theorem tolerated_of {α : Type} {b : Prop} {cfg : Config} {x : Except Stop α} {e : Stop}
    (hx : x = .error e) (hben : BenignRun x) (hok : b → ∃ a, x = .ok a) : Tolerated b cfg e := by
  refine .inr (.inr ⟨fun hb => ?_, hben.of_error hx⟩)
  obtain ⟨a, ha⟩ := hok hb
  rw [ha] at hx
  cases hx

/-- The flow of a packet in a list, and the rest of the list. -/
theorem Acct.packet_eta {q : QueueState} (h : Acct q) {f : FlowId} {d : Dir} {p : Packet}
    (hp : p ∈ q.packets f d) : p.flow = f ∧ p.dir = d :=
  ⟨(h.packetOk f d p hp).1, (h.packetOk f d p hp).2.1⟩

theorem Inv.takePacket_sat {b : Prop} {cfg : Config} {w : Option TcId} {s : State}
    (h : Inv b cfg w s) {p : Packet} {rest : List Packet}
    (hp : (s.q.packets p.flow p.dir).Perm (p :: rest))
    (htc : (s.q.unit (.flow p.flow p.dir)).tc ≠ none) :
    Sat (takePacket s.q p.flow p.dir p rest) (fun q' => ∀ dq : DequeueInfo,
      (dq.nrSend + dq.nrDrop) % 2 ^ 32 = (s.q.dq.nrSend + s.q.dq.nrDrop + 1) % 2 ^ 32 →
        Inv b cfg w { s with q := { q' with dq := dq } }) (Tolerated b cfg) :=
  sat_intro (fun _ hq _ hdq => h.take hp hq hdq) fun _ he =>
    tolerated_of he (queueRun_takePacket ..).benign fun hb =>
      h.base.acct.takePacket_ok h.base.classes (h.small hb) hp htc

theorem Links.take_dropped {q q' : QueueState} (h : Links q) {p : Packet} {rest : List Packet}
    {dq : DequeueInfo} (hn : q.flows.Nodup) (hf : p.flow ∈ q.flows)
    (hp : (q.packets p.flow p.dir).Perm (p :: rest))
    (hq : takePacket q p.flow p.dir p rest = .ok q') (hdq : dq.nrSend = q.dq.nrSend)
    (hsend : dq.send = q.dq.send) : Dropped p.flow p.dir q { q' with dq := dq } := by
  obtain ⟨r, ht⟩ := h.take hq
  have hc := ht.moved.change
  refine ⟨hc.flow, hc.flows, hc.users, ht.moved.backlogPackets, hdq, hsend, fun g e p' hp' => ?_, ?_,
    fun x hf hr => ?_, .inr ?_, (h.takePacket_shed hq).trans (.of_same (h.takePacket_links hq)
      (.of_unit rfl fun _ => rfl))⟩
  · exact ht.moved.packets_subset hp hp'
  · show (q'.unit _).tc = none ∨ (q'.unit _).tc = _
    rw [ht.flowUnit, drain_unit_self]
    dsimp only
    split
    · exact .inl rfl
    · exact .inr rfl
  · show (q'.unit x).tc = _
    rw [ht.others x hf (hr r ht.waits)]
  · have hqueued := hc.queued hn hf
    rw [ht.moved.packets, hp.length_eq, List.length_cons] at hqueued
    show queued q' < queued q
    omega

theorem Inv.dropBody_sat {b : Prop} {cfg : Config} {w : Option TcId} {s : State}
    (h : Inv b cfg w s) (f : FlowId) (d : Dir) (maxOctets : ℕ) :
    Sat (dropBody f d maxOctets s.q)
      (fun a => Inv b cfg w { s with q := a.2 } ∧ Dropped f d s.q a.2) (Tolerated b cfg) := by
  unfold dropBody
  by_cases hgt : (s.q.unit (.flow f d)).octets > maxOctets
  · rw [if_pos hgt]
    have htc := h.base.acct.held f d (by omega)
    have hne := h.base.acct.busy f d htc
    rw [List.getLast?_eq_some_getLast hne]
    have hmem := List.getLast_mem hne
    set p := (s.q.packets f d).getLast hne with hpdef
    obtain ⟨hpf, hpd⟩ := h.base.acct.packet_eta hmem
    have hperm : (s.q.packets f d).Perm (p :: (s.q.packets f d).dropLast) := by
      have := List.dropLast_append_getLast hne
      rw [← hpdef] at this
      exact (List.Perm.of_eq this.symm).trans (List.perm_append_comm)
    rw [← hpf, ← hpd] at hperm htc ⊢
    have hf := h.base.acct.tracked _ _ (.inl htc)
    have hsat : Sat (takePacket s.q p.flow p.dir p (s.q.packets p.flow p.dir).dropLast)
        (fun q' => Inv b cfg w { s with q := { q' with dq := q'.dq.addDrop p } }
          ∧ Dropped p.flow p.dir s.q { q' with dq := q'.dq.addDrop p }) (Tolerated b cfg) := by
      refine sat_intro (fun q' hq => ?_) (fun e he => (h.takePacket_sat hperm htc).of_error he)
      obtain ⟨r, ht⟩ := h.base.acct.links.take hq
      have hdq : q'.dq = s.q.dq := ht.moved.dq
      rw [hdq]
      exact ⟨h.take hperm hq (DequeueInfo.addDrop_count _ p),
        h.base.acct.links.take_dropped h.base.acct.flowsNodup hf hperm hq rfl rfl⟩
    exact hsat.bind fun q' hq' => hq'
  · rw [if_neg hgt]
    exact ⟨h, .refl h.base.acct.links f d⟩

/-- Dropping from the tail of an attached flow. -/
theorem Inv.drop_sat {b : Prop} {cfg : Config} {w : Option TcId} {s : State} (h : Inv b cfg w s)
    (k : Ceiling) (fuel : ℕ) {f : FlowId} {d : Dir} (htc : (s.q.unit (.flow f d)).tc ≠ none) :
    Sat (flowBacklogDrop k fuel s.q f d)
      (fun q' => Inv b cfg w { s with q := q' } ∧ Dropped f d s.q q') (Tolerated b cfg) := by
  unfold flowBacklogDrop
  have hmax : Sat (flowBacklogMaxOctets k s.q f d) (fun _ => True) (Tolerated b cfg) := by
    refine sat_intro (fun _ _ => trivial) fun e he =>
      tolerated_of he (queueRun_flowBacklogMaxOctets ..).benign fun hb => ?_
    obtain ⟨X, hX⟩ := Option.ne_none_iff_exists'.mp htc
    have hc := h.base.acct.links.compat _ _ hX
    cases X with
    | bucket d' i => exact hc.elim
    | user r => exact h.base.acct.flowBacklogMaxOctets_ok h.base.classes (h.small hb) k hX
  refine hmax.bind fun maxOctets _ => ?_
  refine sat_loopFuel (I := fun q => Inv b cfg w { s with q := q } ∧ Dropped f d s.q q)
    (.inl rfl) (fun q hq => ?_) fuel s.q ⟨h, .refl h.base.acct.links f d⟩
  refine (hq.1.dropBody_sat f d maxOctets).mono (fun a ha => ?_) fun _ he => he
  have := (⟨ha.1, hq.2.trans ha.2⟩ : Inv b cfg w { s with q := a.2 } ∧ Dropped f d s.q a.2)
  cases a.1
  · exact this
  · exact this

/-! ## Dequeueing one packet -/

theorem Inv.flowEmpty_sat {b : Prop} {cfg : Config} {w : Option TcId} {s : State}
    (h : Inv b cfg w s) (f : FlowId) (d : Dir) :
    Sat (flowBacklogEmpty s.q f d) (fun e =>
      (e = true ∧ (s.q.unit (.flow f d)).tc = none ∧ s.q.packets f d = []) ∨
      (e = false ∧ (s.q.unit (.flow f d)).tc ≠ none ∧ s.q.packets f d ≠ [])) (Tolerated b cfg) := by
  refine sat_intro (fun e he => ?_) (fun e he => ?_)
  · rcases h.base.acct.links.flowEmpty_iff.mp he with ⟨h₁, h₂, -, h₃⟩ | ⟨h₁, h₂, -, h₃⟩
    · exact .inl ⟨h₁, h₂, h₃⟩
    · exact .inr ⟨h₁, h₂, h₃⟩
  · exact tolerated_of he (queueRun_flowBacklogEmpty ..).benign fun hb =>
      ⟨_, h.base.acct.flowEmpty_eq (h.small hb) f d⟩

/-- A packet of a flow that is tracked with its user: what it is charged to is in use. -/
theorem Inv.consume_sat {b : Prop} {cfg : Config} {w : Option TcId} {s : State}
    (h : Inv b cfg w s) {p : Packet} (hu : p.flow.user ∈ s.q.users)
    (hmask : p.ruleMask = (s.q.flow p.flow).ruleMask) :
    Sat (packetCtrlConsume s.t p) (fun a => Inv b cfg w { s with t := a.2 }
      ∧ Charges cfg s.q.users s.t a.2 ∧ ∀ i, a.1 = some i →
        a.2 = s.t ∧ p.ruleMask.has i = true
          ∧ ((p.userRef i).bucket ∈ s.t.pending ∨ TcId.user (p.userRef i) ∈ s.t.pending))
      (Tolerated b cfg) := by
  have hsat := h.base.tokens.packetCtrlConsume_sat hu fun i hi =>
    (h.base.classes.flowRule p.flow i (hmask ▸ hi)).1
  refine sat_intro (fun a ha => ?_) (fun e he => ?_)
  · obtain ⟨⟨htok, hpath⟩, hsome⟩ := hsat.of_ok ha
    refine ⟨h.setTokens htok fun X hX => ?_, h.cfg_eq ▸ hpath, hsome⟩
    obtain ⟨o, t'⟩ := a
    rcases packetCtrlConsume_ok ha with ⟨i, -, rfl, -⟩ | ⟨-, hadv, -⟩
    · exact hX
    · exact hadv.subset X hX
  · exact .inr (.inl (h.cfg_eq ▸ hsat.of_error he))

/-- The flow of a pending packet moves to the user entry the packet has to wait for. -/
theorem Inv.switch_sat {b : Prop} {cfg : Config} {w : Option TcId} {s : State}
    (h : Inv b cfg w s) {f : FlowId} {d : Dir} {r r' : UserRef}
    (htc : (s.q.unit (.flow f d)).tc = some (.user r)) (hnu : TcId.user r ∉ s.t.pending)
    (hnb : r.bucket ∉ s.t.pending) (hc' : Compat (.flow f d) (.user r'))
    (hrule : (s.q.flow f).ruleMask.has r'.i = true)
    (hp : r'.bucket ∈ s.t.pending ∨ TcId.user r' ∈ s.t.pending) :
    Sat (do
        let q ← flowBacklogDetach s.q f d
        let q ← flowBacklogAttach s.t.pending s.t.nrRule q f d r'
        stopIf ((q.unit (.flow f d)).tc = some (.user r)) (.sched .tryDequeueSameTc)
        return { s with q := q })
      (fun s' => Inv b cfg w s'
        ∧ s' = { s with q := attachedFlow s.t.pending (detachedFlow s.q r f d) f d r' })
      (Tolerated b cfg) := by
  have hne : r' ≠ r := by
    rintro rfl
    exact hp.elim hnb hnu
  have hdet : Sat (flowBacklogDetach s.q f d) (fun q' =>
      (s.q.unit (.flow f d)).octets ≤ (s.q.unit (.user r)).octets ∧ q' = detachedFlow s.q r f d)
      (Tolerated b cfg) := by
    refine sat_intro (fun q' hq' => ?_) (fun e he => ?_)
    · obtain ⟨r₁, hr₁, hle, rfl⟩ := h.base.acct.links.flowDetach_iff.mp hq'
      rw [htc] at hr₁
      obtain rfl := TcId.user.inj (Option.some.inj hr₁)
      exact ⟨hle, rfl⟩
    · exact tolerated_of he (queueRun_flowBacklogDetach ..).benign fun hb =>
        ⟨_, h.base.acct.links.flowDetach_iff.mpr
          ⟨r, htc, h.base.acct.flow_le_user (h.small hb) htc, rfl⟩⟩
  refine hdet.bind fun q₁ hq₁ => ?_
  obtain ⟨hle, rfl⟩ := hq₁
  have hi : r'.i.val < s.t.nrRule := by
    rw [h.base.tokens.nrRule]
    exact rule_lt_of_userMatch (h.base.classes.flowRule f r'.i hrule).1
  have hatt := (h.base.acct.links.detachedFlow_links r f d).flowAttach_iff.mpr
    ⟨(detachedFlow_flow s.q r f d).1, hp, hi, rfl⟩
  rw [hatt, sat_bind, sat_ok, stopIf_of_not]
  · exact ⟨h.switch htc hle hc' hne hrule hp, rfl⟩
  · rw [(attachedFlow_flow ..).1]
    exact fun e => hne (TcId.user.inj (Option.some.inj e))

/-- What `tbq_flow_backlog_try_dequeue` does to a flow that waits for the user entry `r`:
after dropping from its tail the flow may be empty, its first packet may have to wait for
another entry, or the packet is sent.  The packet that was sent is named. -/
inductive Tried (s : State) (f : FlowId) (d : Dir) (r : UserRef) : Option Packet → State → Prop
  | emptied {q : QueueState} : Dropped f d s.q q → (q.unit (.flow f d)).tc = none →
      Tried s f d r none { s with q := q }
  | switched {q : QueueState} {r' : UserRef} : Dropped f d s.q q →
      (q.unit (.flow f d)).tc = some (.user r) → Compat (.flow f d) (.user r') → r' ≠ r →
      Tried s f d r none { s with q := attachedFlow s.t.pending (detachedFlow q r f d) f d r' }
  | sent {q q' : QueueState} {p : Packet} {rest : List Packet} {t' : TokenState} :
      Dropped f d s.q q → (q.unit (.flow f d)).tc = some (.user r) →
      q.packets f d = p :: rest → packetCtrlConsume s.t p = .ok (none, t') →
      takePacket (scheduled (scheduled q (.user r) p.pktLen) (.flow f d) p.pktLen) f d p rest
        = .ok q' →
      Tried s f d r (some p) { s with t := t', q := { q' with dq := q'.dq.addSend p } }

/-- `tbq_flow_backlog_try_dequeue` on a flow whose user entry and bucket are both off the
timer. -/
theorem Inv.tryDequeue_sat {b : Prop} {cfg : Config} {w : Option TcId} {s : State}
    (h : Inv b cfg w s) (fuel : ℕ) {f : FlowId} {d : Dir} {r : UserRef}
    (htc : (s.q.unit (.flow f d)).tc = some (.user r)) (hnu : TcId.user r ∉ s.t.pending)
    (hnb : r.bucket ∉ s.t.pending) :
    Sat (flowBacklogTryDequeue fuel s f d)
      (fun s' => Inv b cfg w s' ∧ Charges cfg s.q.users s.t s'.t ∧ ∃ o, Tried s f d r o s')
      (Tolerated b cfg) := by
  unfold flowBacklogTryDequeue
  refine (h.flowEmpty_sat f d).bind fun e he => ?_
  obtain ⟨rfl, -, -⟩ : e = false ∧ _ := by
    rcases he with ⟨-, hn, -⟩ | he
    · rw [htc] at hn
      cases hn
    · exact he
  rw [sat_bind, stopIf_of_not (by simp), sat_ok]
  refine (h.drop_sat s.ceiling fuel (by rw [htc]; simp)).bind fun q hq => ?_
  obtain ⟨hinv, hdrop⟩ := hq
  refine (hinv.flowEmpty_sat f d).bind fun e he => ?_
  rcases he with ⟨rfl, hnone, -⟩ | ⟨rfl, hne, hpk⟩
  · exact ⟨hinv, .refl, none, .emptied hdrop hnone⟩
  -- a packet is left, and the flow is still where it was
  have htc' : (q.unit (.flow f d)).tc = some (.user r) := by
    rcases hdrop.tc with h₁ | h₁
    · exact absurd h₁ hne
    · rw [h₁, htc]
  obtain ⟨p, rest, hpr⟩ : ∃ p rest, q.packets f d = p :: rest := List.exists_cons_of_ne_nil hpk
  have hmem : p ∈ q.packets f d := by rw [hpr]; exact List.mem_cons_self
  obtain ⟨rfl, rfl, hmask⟩ : p.flow = f ∧ p.dir = d ∧ p.ruleMask = (q.flow f).ruleMask :=
    hinv.base.acct.packetOk f d p hmem
  have hu : p.flow.user ∈ q.users := hinv.base.acct.userTracked _ _ (.inl hne)
  simp only [Bool.false_eq_true, if_false, hpr, htc']
  rw [sat_bind, stopIf_of_not (by simp), sat_ok, sat_bind, stopIf_of_not hnu, sat_ok]
  refine (hinv.consume_sat hu hmask).and_run.bind fun a ha => ?_
  obtain ⟨o, t'⟩ := a
  obtain ⟨hrun, hinv', hpath, hsome⟩ := ha
  dsimp only at hrun hpath
  rw [hdrop.users] at hpath
  cases o with
  | some i =>
      obtain ⟨rfl, hi, hp⟩ := hsome i rfl
      have hne' : p.userRef i ≠ r := by
        rintro rfl
        exact hp.elim hnb hnu
      have hcompat : Compat (.flow p.flow p.dir) (.user (p.userRef i)) := ⟨rfl, rfl⟩
      refine (hinv.switch_sat htc' hnu hnb hcompat (hmask ▸ hi) hp).mono (fun s' hs' => ?_)
        fun _ he => he
      obtain ⟨hs', rfl⟩ := hs'
      exact ⟨hs', .refl, none, .switched hdrop htc' ⟨rfl, rfl⟩ hne'⟩
  | none =>
      dsimp only
      unfold flowBacklogDrrSchedule
      rw [htc']
      dsimp only
      rw [hinv.base.acct.links.drrSchedule_eq, sat_bind, sat_bind, sat_ok,
        (hinv.base.acct.links.scheduled_links _ _).drrSchedule_eq, sat_ok]
      have hinv₂ := (hinv'.schedule (.user r) p.pktLen).schedule (.flow p.flow p.dir) p.pktLen
      set q₂ := scheduled (scheduled q (.user r) p.pktLen) (.flow p.flow p.dir) p.pktLen with hq₂
      have hpk₂ : q₂.packets = q.packets := by
        rw [(sameRest_scheduled _ _ _).packets, (sameRest_scheduled _ _ _).packets]
      have htc₂ : (q₂.unit (.flow p.flow p.dir)).tc ≠ none := by
        rw [(scheduled_tc _ _ _ _).1, (scheduled_tc _ _ _ _).1]
        exact hne
      have hperm : (q₂.packets p.flow p.dir).Perm (p :: rest) := by rw [hpk₂, hpr]
      have hsat := hinv₂.takePacket_sat hperm htc₂
      refine Sat.bind (sat_intro (fun q' hq' => ?_) (fun e he => hsat.of_error he)) fun q' hq' => hq'
      obtain ⟨r', ht⟩ := hinv₂.base.acct.links.take hq'
      have hdq : q'.dq = q₂.dq := ht.moved.dq
      exact ⟨hsat.of_ok hq' (q'.dq.addSend p) (by rw [hdq]; exact DequeueInfo.addSend_count _ p),
        hpath, some p, .sent hdrop htc' hpr hrun hq'⟩

/-- What holds in every state is an invariant that assumes nothing about the counters. -/
theorem Base.inv {s : State} (h : Base s) (w : Option TcId) : Inv False s.cfg w s :=
  ⟨h, fun hb => hb.elim, fun hb => hb.elim, rfl⟩

/-- A try that returns did one of the three things, and charged whatever it charged to token
controls in use. -/
theorem Base.tried {s s' : State} (h : Base s) {fuel : ℕ} {f : FlowId} {d : Dir} {r : UserRef}
    (htc : (s.q.unit (.flow f d)).tc = some (.user r)) (hnu : TcId.user r ∉ s.t.pending)
    (hnb : r.bucket ∉ s.t.pending) (hs : flowBacklogTryDequeue fuel s f d = .ok s') :
    Charges s.cfg s.q.users s.t s'.t ∧ ∃ o, Tried s f d r o s' :=
  (((h.inv none).tryDequeue_sat fuel htc hnu hnb).of_ok hs).2

/-- A try does not change who is tracked. -/
theorem Tried.users {s s' : State} {f : FlowId} {d : Dir} {r : UserRef} {o : Option Packet}
    (h : Tried s f d r o s') : s'.q.users = s.q.users ∧ s'.q.flow = s.q.flow := by
  cases h with
  | emptied hd _ => exact ⟨hd.users, hd.flow⟩
  | @switched q r' hd _ _ _ =>
      have hrest := (sameRest_detachedFlow q r f d).trans
        (sameRest_attachedFlow s.t.pending (detachedFlow q r f d) f d r')
      exact ⟨hrest.users.trans hd.users, hrest.flow.trans hd.flow⟩
  | @sent q q' p _ _ hd _ _ _ hq =>
      have hlinks :=
        (hd.shed.links.scheduled_links (.user r) p.pktLen).scheduled_links (.flow f d) p.pktLen
      have hrest := (sameRest_scheduled q (.user r) p.pktLen).trans
        (sameRest_scheduled _ (.flow f d) p.pktLen)
      obtain ⟨r', -, -, -, hup⟩ := hlinks.takePacket_iff.mp hq
      obtain ⟨hup, -⟩ := packetCtrlBacklogUpdate_ok hup
      have htake := hrest.trans ((sameRest_drain _ (.user r') p.pktLen).trans
        (sameRest_drain _ (.flow f d) p.pktLen))
      refine ⟨?_, ?_⟩
      · show q'.users = _
        rw [hup.frame]
        exact htake.users.trans hd.users
      · show q'.flow = _
        rw [hup.frame]
        exact htake.flow.trans hd.flow

/-- A try does not attach the user entry whose flow it serves. -/
theorem Tried.user_detached {s s' : State} {f : FlowId} {d : Dir} {r : UserRef} {o : Option Packet}
    (h : Tried s f d r o s') (hr : (s.q.unit (.user r)).tc = none) :
    (s'.q.unit (.user r)).tc = none := by
  have hshed : ∀ {q q' : QueueState}, Shed q q' → (q.unit (.user r)).tc = none →
      (q'.unit (.user r)).tc = none := by
    intro q q' hs hn
    rcases hs.tc (.user r) with h₁ | h₁
    · exact h₁
    · rw [h₁, hn]
  cases h with
  | emptied hd _ => exact hshed hd.shed hr
  | switched hd _ _ hne =>
      have hlinks := hd.shed.links
      show ((attachedFlow _ _ _ _ _).unit (.user r)).tc = none
      rw [attachedFlow_of_ne _ _ _ _ _ (by intro e; cases e) fun e => hne (UnitId.user.inj e).symm]
      exact hshed (hlinks.detachedFlow_shed r f d) (hshed hd.shed hr)
  | sent hd _ _ _ hq =>
      have hlinks := hd.shed.links
      have htake := hshed
        (Links.takePacket_shed ((hlinks.scheduled_links _ _).scheduled_links _ _) hq) (by
          rw [(scheduled_tc _ _ _ _).1, (scheduled_tc _ _ _ _).1]
          exact hshed hd.shed hr)
      exact htake

end Tbq
