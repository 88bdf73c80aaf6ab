/-
# Runs

Every event keeps the invariant of the scheduler, so every reachable state has it.
-/
import OpenwrtAc.TbqUserFree

open Outcome MachineInt ListSum

namespace Tbq

/-- The octets that are queued when the event happens, with the packet it brings. -/
def load (s : State) : Event → ℕ
  | .enqueue p => totalBytes s.q + p.pktLen
  | _ => totalBytes s.q

/-- The queued octets stay below `B`. -/
def Below (B : ℕ) (s : State) (e : Event) : Prop := load s e < B

/-- `tbq_disable` has succeeded, or is about to. -/
def State.AtRest (s : State) : Prop :=
  s.status = .stopped ∨ (s.status = .waitingStop ∧ s.disableDone = true)

theorem State.not_atRest {s : State} (h : s.status = .running) : ¬ s.AtRest := by
  unfold State.AtRest
  simp [h]

/-- The invariant between two events: no call is running, and once the timer has
reported that the queue is empty it stays empty. -/
structure Idle (b : Prop) (cfg : Config) (s : State) : Prop where
  inv : Inv b cfg none s
  nrSend : s.q.dq.nrSend = 0
  nrDrop : s.q.dq.nrDrop = 0
  stopped : s.AtRest → s.t.pending = []

theorem Base.holds_tracked {s : State} (h : Base s) {f : FlowId} (hf : s.Holds f) :
    f ∈ s.q.flows ∧ f.user ∈ s.q.users := by
  rcases hf with ⟨d, hd⟩ | ⟨p, hp, rfl⟩
  · exact ⟨h.acct.tracked f d (.inr hd), h.acct.userTracked f d (.inr hd)⟩
  · obtain ⟨h₁, h₂, -⟩ := h.inflight p hp
    exact ⟨h₁, h₂⟩

/-! ## The filter -/

/-- What the first half of the filter leaves. -/
structure Tracked (b : Prop) (cfg : Config) (s : State) (f : FlowId) (s' : State) : Prop where
  inv : Inv b cfg none s'
  flow : f ∈ s'.q.flows
  user : f.user ∈ s'.q.users
  dq : s'.q.dq = s.q.dq
  status : s'.status = s.status

theorem Inv.track_sat {b : Prop} {cfg : Config} {s : State} (h : Inv b cfg none s) {f : FlowId}
    {app : ℕ} (allocOk : Bool)
    (hkeep : s.Holds f → (classify s.cfg s.q f app).ruleMask = (s.q.flow f).ruleMask
      ∧ (classify s.cfg s.q f app).weight = (s.q.flow f).weight) :
    Sat (track s f app allocOk) (fun o => ∀ s', o = some s' → Tracked b cfg s f s')
      (fun _ => False) := by
  unfold track
  split
  · intro s' hs'
    cases hs'
  · -- the user
    have huser : ∃ s₁, (if f.user ∈ s.q.users then pure s else userTrackAlloc s f.user : Except Stop State)
          = .ok s₁ ∧ Inv b cfg none s₁ ∧ f.user ∈ s₁.q.users ∧ s₁.q.packets = s.q.packets
        ∧ s₁.inflight = s.inflight ∧ s₁.q.dq = s.q.dq ∧ s₁.status = s.status
        ∧ s₁.q.flows = s.q.flows ∧ (f.user ∈ s.q.users → s₁ = s) := by
      by_cases hu : f.user ∈ s.q.users
      · rw [if_pos hu]
        exact ⟨s, rfl, h, hu, rfl, rfl, rfl, rfl, rfl, fun _ => rfl⟩
      · rw [if_neg hu]
        obtain ⟨heq, hinv⟩ := h.userTrackAlloc_eq hu
        exact ⟨_, heq, hinv, List.mem_append_right _ (List.mem_singleton_self _), rfl, rfl, rfl, rfl,
          rfl, fun hc => absurd hc hu⟩
    obtain ⟨s₁, hs₁, h₁, hu₁, hpk₁, hin₁, hdq₁, hst₁, hfl₁, heq₁⟩ := huser
    rw [hs₁, sat_bind, sat_ok, sat_pure]
    rintro s' hs'
    obtain rfl := Option.some.inj hs'
    -- the flow
    by_cases hf : f ∈ s₁.q.flows
    · rw [if_pos hf]
      refine ⟨h₁.reclassify hu₁ app fun hold => ?_, hf, hu₁, hdq₁, hst₁⟩
      have hold' : s.Holds f := by
        unfold State.Holds at hold ⊢
        rwa [hpk₁, hin₁] at hold
      obtain rfl := heq₁ (h.base.holds_tracked hold').2
      exact hkeep hold'
    · rw [if_neg hf]
      have h₂ := h₁.initFlow hf
      refine ⟨h₂.reclassify hu₁ app fun hold => ?_, List.mem_cons_self, hu₁, hdq₁, hst₁⟩
      exfalso
      rcases hold with ⟨d, hd⟩ | ⟨p, hp, hpf⟩
      · simp [flowTrackInit] at hd
      · exact hf (hpf ▸ (h₁.base.inflight p hp).1)

/-- The filter keeps the invariant. -/
theorem Idle.filterPacket_sat {b : Prop} {cfg : Config} {s : State} (h : Idle b cfg s)
    (hrun : s.status = .running) {f : FlowId} (d : Dir) {app : ℕ} (len : SkbLen) (allocOk : Bool)
    (hkeep : s.Holds f → (classify s.cfg s.q f app).ruleMask = (s.q.flow f).ruleMask
      ∧ (classify s.cfg s.q f app).weight = (s.q.flow f).weight) :
    Sat (filterPacket s f d app len allocOk) (fun a => Idle b cfg a.2) (Tolerated b cfg) := by
  unfold filterPacket
  refine ((h.inv.track_sat allocOk hkeep).mono (fun _ ho => ho) fun _ he => he.elim).bind
    fun o ho => ?_
  cases o with
  | none => exact h
  | some s₁ =>
      have ht := ho s₁ rfl
      have hidle : ∀ s', Inv b cfg none s' → s'.q.dq = s₁.q.dq → s'.status = s₁.status →
          Idle b cfg s' := by
        intro s' hinv hdq hst
        refine ⟨hinv, by rw [hdq, ht.dq, h.nrSend], by rw [hdq, ht.dq, h.nrDrop], fun hs => ?_⟩
        exact absurd hs (State.not_atRest (by rw [hst, ht.status, hrun]))
      -- a packet on its way has the mask that its flow has now
      have hqueue : ∀ s', Inv b cfg none s' → s'.q = s₁.q → s'.status = s₁.status →
          Idle b cfg { s' with inflight := s'.inflight ++ [packetCtrl s₁ f d len] } := by
        intro s' hinv hq hst
        refine hidle _ ⟨⟨hinv.base.acct, hinv.base.classes, hinv.base.tokens, fun p hp => ?_,
          hinv.base.count⟩, hinv.small, hinv.served, hinv.cfg_eq⟩ (by rw [hq]) hst
        rcases List.mem_append.mp hp with hp | hp
        · exact hinv.base.inflight p hp
        · rw [List.mem_singleton.mp hp]
          show f ∈ s'.q.flows ∧ f.user ∈ s'.q.users ∧ (s₁.q.flow f).ruleMask = (s'.q.flow f).ruleMask
          rw [hq]
          exact ⟨ht.flow, ht.user, rfl⟩
      dsimp only
      split
      · exact hidle s₁ ht.inv rfl rfl
      · -- only an empty backlog has the packet charged
        have hpend : Sat (do
            if ← flowBacklogEmpty s₁.q f d then
              let r ← packetCtrlConsume s₁.t (packetCtrl s₁ f d len)
              return (r.1.isSome, { s₁ with t := r.2 })
            else
              return (true, s₁) : Except Stop (Bool × State))
            (fun a => Inv b cfg none a.2 ∧ a.2.q = s₁.q ∧ a.2.status = s₁.status)
            (Tolerated b cfg) := by
          refine (ht.inv.flowEmpty_sat f d).bind fun e _ => ?_
          cases e with
          | true =>
              exact (ht.inv.consume_sat (p := packetCtrl s₁ f d len) ht.user rfl).bind
                fun a ha => ⟨ha.1, rfl, rfl⟩
          | false => exact ⟨ht.inv, rfl, rfl⟩
        refine hpend.bind fun a ha => ?_
        obtain ⟨pendingUser, s₂⟩ := a
        obtain ⟨hinv, hq, hst⟩ := ha
        dsimp only at hinv hq hst ⊢
        split
        · exact hidle s₂ hinv (by rw [hq]) hst
        · split
          · exact hidle s₂ hinv (by rw [hq]) hst
          · exact hqueue s₂ hinv hq hst

/-! ## The queue handler -/

/-- The invariant does not see the lists of the call as long as the count is right. -/
theorem Inv.recount {b : Prop} {cfg : Config} {w : Option TcId} {s : State} (h : Inv b cfg w s)
    (n : ℕ) (dq : DequeueInfo) (hn : n = (queued s.q + dq.nrSend + dq.nrDrop) % 2 ^ 32) :
    Inv b cfg w { s with q := { s.q with backlogPackets := n, dq := dq } } :=
  ⟨⟨h.base.acct.withCount n dq, h.base.classes.withCount n dq, h.base.tokens, h.base.inflight, hn⟩,
    h.small, fun hb => (h.served hb).congr fun _ => rfl, h.cfg_eq⟩

theorem Idle.start {b : Prop} {cfg : Config} {s : State} (h : Idle b cfg s) :
    Inv b cfg none { s with q := { s.q with dq := .init } } := by
  have hcount := h.inv.base.count
  rw [h.nrSend, h.nrDrop] at hcount
  exact h.inv.recount s.q.backlogPackets .init hcount

/-- The packets of a call leave, and the count follows. -/
theorem Inv.release {b : Prop} {cfg : Config} {w : Option TcId} {s : State} (h : Inv b cfg w s) :
    Inv b cfg w (Tbq.release s) := by
  have hcount := h.base.count
  refine h.recount _ .init ?_
  show u32 (s.q.backlogPackets - u32 (s.q.dq.nrSend + s.q.dq.nrDrop))
    = (queued s.q + 0 + 0) % 2 ^ 32
  unfold u32
  omega

/-- A flow that attaches to a user entry on the timer, or whose bucket is. -/
theorem Served.attach {w : Option TcId} {pending : List TcId} {q : QueueState}
    (h : Served w pending q) {f : FlowId} {d : Dir} {r : UserRef}
    (hp : r.bucket ∈ pending ∨ TcId.user r ∈ pending) :
    Served w pending (attachedFlow pending q f d r) := by
  have huser : ∀ r', r' ≠ r → (attachedFlow pending q f d r).unit (.user r') = q.unit (.user r') := by
    intro r' hr'
    exact attachedFlow_of_ne _ _ _ _ _ (by intro e; cases e) fun e => hr' (UnitId.user.inj e)
  have hself := (attachedFlow_user pending q f d r).1
  refine h.of_change (fun g e r' hr' => ?_) (fun r' hr' => ?_) (fun r' hold hnew => ?_)
  · by_cases hge : g = f ∧ e = d
    · obtain ⟨rfl, rfl⟩ := hge
      rw [(attachedFlow_flow ..).1] at hr'
      obtain rfl := TcId.user.inj (Option.some.inj hr')
      right
      -- a flow that has just been attached waits for a control that is parked
      by_cases hb : r.bucket ∈ pending
      · right
        rw [hself]
        split
        · simp
        · rename_i hcond
          exact fun e => hcond ⟨hb, e⟩
      · exact .inl (hp.resolve_left hb)
    · left
      rwa [attachedFlow_of_ne _ _ _ _ _ (by intro he; cases he; exact hge ⟨rfl, rfl⟩)
        (by intro he; cases he)] at hr'
  · by_cases hrr : r' = r
    · subst hrr
      rw [hself] at hr'
      split at hr'
      · rename_i hcond
        exact .inr hcond.1
      · exact .inl hr'
    · rw [huser r' hrr] at hr'
      exact .inl hr'
  · by_cases hrr : r' = r
    · subst hrr
      rw [hself] at hnew
      split at hnew
      · cases hnew
      · exact absurd hnew hold
    · rw [huser r' hrr] at hnew
      exact absurd hnew hold

/-- The packet joins its flow: `Ready` says how the flow came to be attached. -/
theorem Inv.putPacket_sat {b : Prop} {cfg : Config} {s : State} (h : Inv b cfg none s)
    {p : Packet} {r : UserRef} {attach : Bool} {q₁ : QueueState} (hr : Ready p r attach s.q q₁)
    (hf : p.flow ∈ s.q.flows) (hu : p.flow.user ∈ s.q.users)
    (hmask : p.ruleMask = (s.q.flow p.flow).ruleMask)
    (hrule : (s.q.flow p.flow).ruleMask.has r.i = true)
    (hserved : b → Served none s.t.pending q₁) (hs : b → totalBytes s.q + p.pktLen < 2 ^ 32) :
    Sat (putPacket { s with q := q₁ } p attach)
      (fun s' => Inv b cfg none s' ∧ s'.q.dq = s.q.dq ∧ s'.status = s.status) (Tolerated b cfg) := by
  unfold putPacket
  have hadd : flowBacklogEnqueue q₁ p.flow p.dir p = .ok (added q₁ r p.flow p.dir p) :=
    hr.links.flowEnqueue_iff.mpr ⟨r, hr.tc, rfl⟩
  dsimp only
  rw [hadd, sat_bind, sat_ok, p.i32_len]
  -- one packet more, and the octets of the backlog grow by its length
  have hsat : Sat (packetCtrlBacklogUpdate (added q₁ r p.flow p.dir p) p p.pktLen
      (if attach then some p.flow else none)) (fun q' => Inv b cfg none { s with q := { q' with
        backlogPackets := u32 (q'.backlogPackets + 1) } } ∧ q'.dq = s.q.dq) (Tolerated b cfg) := by
    refine sat_intro (fun q' hq' => ?_) (fun e he => tolerated_of he
      (queueRun_packetCtrlBacklogUpdate ..).benign fun hb => h.base.acct.put_ok h.base.classes hr (hs hb) hf hmask)
    obtain ⟨hacct, hm, hunit⟩ := h.base.acct.put hr hf hu hmask hrule hq'
    have hc := hm.change
    have hbytes := hc.totalBytes h.base.acct.flowsNodup hf
    have hqueued := hc.queued h.base.acct.flowsNodup hf
    rw [hm.packets, bytes_concat] at hbytes
    rw [hm.packets, List.length_append, List.length_singleton] at hqueued
    refine ⟨?_, hm.dq⟩
    refine h.setQueue (hacct.withCount _ _) hc.flow hc.flows hc.users hc.userMask hc.unitWeight ?_
      (fun hb => ?_) (fun hb => ?_)
    · have hcount := h.base.count
      show u32 (q'.backlogPackets + 1) = (queued q' + q'.dq.nrSend + q'.dq.nrDrop) % 2 ^ 32
      rw [hm.backlogPackets, hm.dq]
      unfold u32
      omega
    · have := hs hb
      show totalBytes q' < 2 ^ 32
      omega
    · refine (hserved hb).congr fun x => ?_
      show (q'.unit x).tc = (q₁.unit x).tc
      rw [hunit]
      exact (sameLinks_added q₁ r p.flow p.dir p).tc x
  exact hsat.bind fun q' hq' => ⟨hq'.1, hq'.2, rfl⟩

/-- Below the bound a drop that counts no packet has changed nothing. -/
theorem Inv.eq_of_no_drop {b : Prop} {cfg : Config} {s : State} {f : FlowId} {d : Dir}
    {q : QueueState} (h : Inv b cfg none s) (h' : Inv b cfg none { s with q := q })
    (hdrop : Dropped f d s.q q) (hzero : s.q.dq.nrSend = 0 ∧ s.q.dq.nrDrop = 0)
    (hnr : q.dq.nrDrop = 0) (hb : b) : q = s.q := by
  rcases hdrop.fewer with he | hlt
  · exact he
  · exfalso
    have hc₁ := h.base.count
    have hc₂ := h'.base.count
    have hns := hdrop.nrSend
    have hle := queued_le s.q
    have hsm : totalBytes s.q < 2 ^ 32 := h.small hb
    have hbp := hdrop.backlogPackets
    dsimp only at hc₂
    rw [hnr] at hc₂
    omega

/-- A packet cannot be put to a flow that waits for nobody, which it comes to only after a
counter has wrapped. -/
theorem Inv.putPacket_unlinked {b : Prop} {cfg : Config} {s : State} {p : Packet}
    (h : Inv b cfg none s) (htc : (s.q.unit (.flow p.flow p.dir)).tc = none) (hb : ¬ b) :
    Sat (putPacket s p false) (fun _ => False) (Tolerated b cfg) := by
  have hputErr : QueueRun (putPacket s p false) := by
    unfold putPacket
    exact (queueRun_flowBacklogEnqueue ..).bind fun _ =>
      (queueRun_packetCtrlBacklogUpdate ..).bind fun _ => queueRun_pure _
  refine sat_intro (fun s' hs' => ?_) fun e he =>
    tolerated_of he hputErr.benign fun hb' => absurd hb' hb
  unfold putPacket at hs'
  rw [bind_eq_ok] at hs'
  obtain ⟨q', hq', -⟩ := hs'
  obtain ⟨r, hr, -⟩ := h.base.acct.links.flowEnqueue_iff.mp hq'
  rw [htc] at hr
  cases hr

/-- The queue handler keeps the invariant. -/
theorem Idle.enqueue_sat {b : Prop} {cfg : Config} {s : State} (h : Idle b cfg s) (fuel : ℕ)
    {p : Packet} (hf : p.flow ∈ s.q.flows) (hu : p.flow.user ∈ s.q.users)
    (hmask : p.ruleMask = (s.q.flow p.flow).ruleMask)
    (hs : b → totalBytes s.q + p.pktLen < 2 ^ 32) :
    Sat (enqueue fuel s p) (fun a => Idle b cfg a.2) (Tolerated b cfg) := by
  unfold enqueue
  by_cases hrun : s.status ≠ .running
  · rw [if_pos hrun]
    exact h
  rw [if_neg hrun]
  have hrun : s.status = .running := not_not.mp hrun
  have hidle : ∀ s', Inv b cfg none s' → s'.q.dq.nrSend = 0 → s'.q.dq.nrDrop = 0 →
      s'.status = s.status → Idle b cfg s' := by
    intro s' hinv h₁ h₂ hst
    refine ⟨hinv, h₁, h₂, fun hs => ?_⟩
    exact absurd hs (State.not_atRest (by rw [hst, hrun]))
  dsimp only
  set s₁ : State := { s with q := { s.q with dq := .init } } with hs₁
  have h₁ : Inv b cfg none s₁ := h.start
  refine (h₁.flowEmpty_sat p.flow p.dir).bind fun e he => ?_
  rcases he with ⟨rfl, htc, hpk⟩ | ⟨rfl, htc, hpk⟩
  · -- the flow is empty: it attaches where the packet has to wait
    refine (h₁.consume_sat (p := p) hu hmask).bind fun a ha => ?_
    obtain ⟨o, t'⟩ := a
    obtain ⟨hinv, -, hsome⟩ := ha
    cases o with
    | none => exact hidle _ hinv rfl rfl rfl
    | some i =>
        obtain ⟨rfl, hi, hp⟩ := hsome i rfl
        have hrule : (s.q.flow p.flow).ruleMask.has i = true := hmask ▸ hi
        have hlt : (p.userRef i).i.val < s₁.t.nrRule := by
          rw [h₁.base.tokens.nrRule]
          exact rule_lt_of_userMatch (h₁.base.classes.flowRule p.flow i hrule).1
        have hatt := h₁.base.acct.links.flowAttach_iff.mpr ⟨htc, hp, hlt, rfl⟩
        have hready := h₁.base.acct.ready_attach (r := p.userRef i) s₁.t.pending htc hpk ⟨rfl, rfl⟩
        dsimp only
        rw [hatt, sat_bind, sat_ok]
        exact (h₁.putPacket_sat hready hf hu hmask hrule (fun hb => (h₁.served hb).attach hp) hs).bind
          fun s' hs' => hidle s' hs'.1 (by rw [hs'.2.1]; rfl) (by rw [hs'.2.1]; rfl) hs'.2.2
  · -- the flow has packets: the ones over the ceiling go first
    simp only [Bool.false_eq_true, if_false]
    refine (h₁.drop_sat s₁.ceiling fuel htc).bind fun q hq => ?_
    obtain ⟨hinv, hdrop⟩ := hq
    by_cases hnr : q.dq.nrDrop ≠ 0
    · rw [if_pos hnr]
      exact hidle _ hinv.release rfl rfl rfl
    · rw [if_neg hnr]
      have hnr : q.dq.nrDrop = 0 := not_not.mp hnr
      have hns : q.dq.nrSend = 0 := hdrop.nrSend
      have hf' : p.flow ∈ q.flows := by rw [hdrop.flows]; exact hf
      have hu' : p.flow.user ∈ q.users := by rw [hdrop.users]; exact hu
      have hmask' : p.ruleMask = (q.flow p.flow).ruleMask := by rw [hdrop.flow]; exact hmask
      have hsame : b → q = s₁.q := h₁.eq_of_no_drop hinv hdrop ⟨rfl, rfl⟩ hnr
      by_cases htc' : (q.unit (.flow p.flow p.dir)).tc = none
      · have hb : ¬ b := by
          intro hb
          rw [hsame hb] at htc'
          exact htc htc'
        exact (hinv.putPacket_unlinked htc' hb).bind fun _ hc => hc.elim
      · obtain ⟨r, hr⟩ : ∃ r, (q.unit (.flow p.flow p.dir)).tc = some (.user r) := by
          obtain ⟨X, hX⟩ := Option.ne_none_iff_exists'.mp htc'
          have hc := hinv.base.acct.links.compat _ _ hX
          cases X with
          | bucket d i => exact hc.elim
          | user r => exact ⟨r, hX⟩
        have hready := hinv.base.acct.ready_self (p := p) hr
        have hrule : (q.flow p.flow).ruleMask.has r.i = true := hinv.base.acct.rule _ _ r hr
        refine (hinv.putPacket_sat hready hf' hu' hmask' hrule (fun hb => hinv.served hb)
          (fun hb => ?_)).bind fun s' hs' => hidle s' hs'.1 (by rw [hs'.2.1]; exact hns)
            (by rw [hs'.2.1]; exact hnr) hs'.2.2
        have := hs hb
        show totalBytes q + p.pktLen < 2 ^ 32
        rw [hsame hb]
        exact this

/-! ## The timer -/

/-- The end of a tick, reached with an empty timer if the scheduler had come to rest. -/
theorem Inv.timerEnd_sat {b : Prop} {cfg : Config} {s : State} (h : Inv b cfg none s)
    (hrest : s.AtRest → s.t.pending = []) :
    Sat (timerEnd s) (Idle b cfg) (Tolerated b cfg) := by
  unfold timerEnd
  have hrel := h.release
  dsimp only
  split
  · rename_i hcond
    obtain ⟨hw, hnr⟩ := hcond
    have hpend : (Tbq.release s).t.pending = [] := by
      have hcount := hrel.base.tokens.pendingOk.count
      rw [hnr] at hcount
      exact List.length_eq_zero_iff.mp hcount.symm
    rw [sat_bind, stopIf_of_not (not_not.mpr hpend), sat_ok]
    exact ⟨⟨⟨hrel.base.acct, hrel.base.classes, hrel.base.tokens, hrel.base.inflight, hrel.base.count⟩,
      hrel.small, hrel.served, hrel.cfg_eq⟩, rfl, rfl, fun _ => hpend⟩
  · exact ⟨hrel, rfl, rfl, hrest⟩

/-- A tick keeps the invariant. -/
theorem Idle.timerFunc_sat {b : Prop} {cfg : Config} {s : State} (h : Idle b cfg s) (fuel : ℕ)
    {order : SlotOrder} (horder : ∀ v l, (order v l).Perm l) :
    Sat (timerFunc fuel order s) (Idle b cfg) (Tolerated b cfg) := by
  unfold timerFunc
  refine ((inv_loopRules b cfg).timerFeed_sat fuel horder h.start).and_run.bind fun s' hs' => ?_
  obtain ⟨hrun, hinv⟩ := hs'
  obtain ⟨-, hst, hdn⟩ := timerFeed_frame hrun
  refine hinv.timerEnd_sat fun hrest => timerFeed_empty horder hrun (h.stopped ?_)
  unfold State.AtRest at hrest ⊢
  rwa [hst, hdn] at hrest

/-! ## One event -/

theorem Idle.setStatus {b : Prop} {cfg : Config} {s : State} (h : Idle b cfg s) (st : Status)
    (done : Bool) (hstop : st = .stopped ∨ (st = .waitingStop ∧ done = true) → s.t.pending = []) :
    Idle b cfg { s with status := st, disableDone := done } :=
  ⟨⟨⟨h.inv.base.acct, h.inv.base.classes, h.inv.base.tokens, h.inv.base.inflight, h.inv.base.count⟩,
    h.inv.small, h.inv.served, h.inv.cfg_eq⟩, h.nrSend, h.nrDrop, hstop⟩

/-- Taking a packet out of the packets in flight. -/
theorem Idle.land {b : Prop} {cfg : Config} {s : State} (h : Idle b cfg s) (p : Packet) :
    Idle b cfg (s.land p) :=
  ⟨⟨⟨h.inv.base.acct, h.inv.base.classes, h.inv.base.tokens,
    fun p' hp' => h.inv.base.inflight p' (List.mem_of_mem_erase hp'), h.inv.base.count⟩,
    h.inv.small, h.inv.served, h.inv.cfg_eq⟩, h.nrSend, h.nrDrop, h.stopped⟩

/-- Every admissible event keeps the invariant. -/
theorem Idle.step_sat {b : Prop} {cfg : Config} {s : State} (h : Idle b cfg s) (fuel : ℕ)
    {e : Event} (hadm : Admissible s e) (hload : b → load s e < 2 ^ 32) :
    Sat (step fuel s e) (Idle b cfg) (Tolerated b cfg) := by
  cases e with
  | filter f d app len allocOk =>
      unfold step
      dsimp only
      split
      · rename_i hrun
        exact (h.filterPacket_sat hrun d len allocOk hadm).bind fun a ha => ha
      · exact h
  | enqueue p =>
      obtain ⟨hf, hu, hmask⟩ := h.inv.base.inflight p hadm
      exact ((h.land p).enqueue_sat fuel hf hu hmask hload).bind fun a ha => ha
  | elapse n =>
      refine ⟨⟨⟨h.inv.base.acct, h.inv.base.classes, ?_, h.inv.base.inflight, h.inv.base.count⟩,
        h.inv.small, h.inv.served, h.inv.cfg_eq⟩, h.nrSend, h.nrDrop, h.stopped⟩
      -- time alone: the controls are the same, and no user or flow has changed
      have ht := h.inv.base.tokens
      exact ⟨ht.HZ, ht.nrRule, ⟨ht.pendingOk.nodup, ht.pendingOk.count, fun X => by
        rw [ht.pendingOk.mask]; cases X <;> rfl⟩, ht.live, ht.rate, ht.ctrl, ht.nonneg⟩
  | tick order => exact h.timerFunc_sat fuel hadm
  | userFree u =>
      show Sat (onUserFree s u) _ _
      by_cases hu : u ∈ s.q.users
      · rw [onUserFree_eq h.inv.base hu fun f hf hold => hadm f hf (.inl hold)]
        refine ⟨h.inv.freeUser hadm, h.nrSend, h.nrDrop, fun hs => ?_⟩
        show (userCleared s.t u).pending = []
        rw [userCleared_pending, h.stopped hs]
        rfl
      · unfold onUserFree
        rw [if_neg hu]
        exact h
  | flowFree f =>
      obtain ⟨heq, hinv⟩ := h.inv.onFlowFree_eq hadm
      show Sat (onFlowFree s f) _ _
      rw [heq]
      refine ⟨hinv, ?_, ?_, fun hs => ?_⟩
      · split
        · exact h.nrSend
        · exact h.nrSend
      · split
        · exact h.nrDrop
        · exact h.nrDrop
      · by_cases hf : f ∈ s.q.flows
        · rw [if_pos hf] at hs ⊢
          exact h.stopped hs
        · rw [if_neg hf] at hs ⊢
          exact h.stopped hs
  | disableStop =>
      rw [step, sat_pure]
      split
      · exact h.setStatus _ s.disableDone (by simp)
      · exact h
  | disableWait =>
      rw [step, sat_pure]
      split
      · exact h.setStatus _ _ (by simp)
      · exact h
  | disableEnd =>
      rw [step, sat_pure]
      split
      · rename_i hw
        -- it rests only if `disableDone` is set, so it did before as well
        refine h.setStatus _ s.disableDone fun hs => h.stopped (.inr ⟨hw, ?_⟩)
        by_cases hd : s.disableDone = true
        · exact hd
        · simp [hd] at hs
      · exact h
  | enable =>
      rw [step, sat_pure]
      split
      · exact h.setStatus _ s.disableDone (by simp)
      · exact h

/-! ## Whole runs -/

theorem initState_tokens (cfg : Config) (now : ℕ) : TokensOk cfg [] (initState cfg now).t := by
  have hlive : ∀ X, Live cfg [] X → ∃ d i, X = .bucket d i ∧ i.val < cfg.rules.length := by
    intro X hX
    cases X with
    | bucket d i => exact ⟨d, i, rfl, hX⟩
    | user r => cases hX.1
  refine ⟨rfl, rfl, ⟨List.nodup_nil, rfl, fun X => ?_⟩, fun X hX => ?_, fun X hX => ?_,
    fun X hX hpos => ?_, fun _ X => ?_⟩
  · cases X <;> simp [initState, TokenState.inactive]
  · cases hX
  · obtain ⟨d, i, rfl, hi⟩ := hlive X hX
    simp [initState, hi]
  · obtain ⟨d, i, rfl, hi⟩ := hlive X hX
    have htc : (initState cfg now).t.tc (.bucket d i) = ⟨0, now, cfg.rate (.bucket d i)⟩ := by
      simp [initState, hi]
    rw [htc]
    exact ⟨cfg.rateOk (.bucket d i), hpos, le_refl 0,
      mul_nonneg hpos.le (Int.natCast_nonneg cfg.HZ)⟩
  · cases X with
    | bucket d i =>
        unfold initState
        dsimp only
        split <;> exact le_refl 0
    | user r => exact le_refl 0

theorem initState_acct (cfg : Config) (now : ℕ) : Acct (initState cfg now).q := by
  refine ⟨⟨⟨fun _ => rfl, fun X x => ?_, fun _ => List.nodup_nil, fun x X hX => ?_⟩,
    List.nodup_nil, List.nodup_nil, fun f d p hp => ?_, fun f d hf => ?_, fun f d hf => ?_,
    fun f d hf => absurd rfl hf, fun f d hf => absurd rfl hf, fun r hr => absurd rfl hr,
    fun f d r hr => ?_⟩, ⟨fun _ => rfl, fun _ _ => rfl, fun _ => rfl, fun _ _ => rfl⟩,
    fun _ _ => rfl, fun _ => rfl⟩
  · simp [initState, backlogInit]
  · simp [initState, backlogInit] at hX
  · cases hp
  · simp [initState, backlogInit] at hf
  · simp [initState, backlogInit] at hf
  · simp [initState, backlogInit] at hr

theorem initState_idle (b : Prop) (cfg : Config) (now : ℕ) : Idle b cfg (initState cfg now) := by
  refine ⟨⟨⟨initState_acct cfg now, ⟨fun u hu => ?_, fun r hr => ?_, fun f i hi => ?_⟩,
    initState_tokens cfg now, fun p hp => ?_, rfl⟩,
    fun _ => ?_, fun _ => ⟨fun f d r hr => ?_, fun r hr => absurd rfl hr⟩, rfl⟩, rfl, rfl,
    fun _ => rfl⟩
  · cases hu
  · cases hr
  · simp [initState] at hi
  · cases hp
  · unfold Small totalBytes
    simp [initState]
  · simp [initState, backlogInit] at hr

/-- The invariant of every reachable state, below the bound or without one. -/
theorem Reachable.idle {b : Prop} {cfg : Config} {now : ℕ} {P : State → Event → Prop} {s : State}
    (hP : ∀ s e, P s e → b → load s e < 2 ^ 32) (h : Reachable P (initState cfg now) s) :
    Idle b cfg s :=
  h.invariant (initState_idle b cfg now) fun _ fuel _ _ hi hadm hp hs =>
    (hi.step_sat fuel hadm (hP _ _ hp)).of_ok hs

end Tbq
