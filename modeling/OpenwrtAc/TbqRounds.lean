/-
# Rounds

A tick runs many rounds of the dequeue loops under one lock.  Some properties are about
the states in between, so the runs are refined here to rounds: a tick starts, fires token
controls one after the other, each of which is drained round by round, and ends.  Every
state of a run is reached by rounds, and the invariant holds after every round.
-/
import OpenwrtAc.TbqRuns

open Outcome MachineInt

namespace Tbq

/-- What the scheduler is doing: waiting for the next call, running a tick, or draining the
token control `X` in a tick. -/
inductive Phase
  | idle
  | ticking
  | draining (X : TcId)

/-- One call, or one round of a tick.  The calls meet the condition `P`. -/
inductive Round (P : State → Event → Prop) : Phase → State → Phase → State → Prop
  /-- A call other than `tbq_timer_func`. -/
  | call {s s' : State} {fuel : ℕ} {e : Event} : (∀ order, e ≠ .tick order) → Admissible s e →
      P s e → step fuel s e = .ok s' → Round P .idle s .idle s'
  /-- `tbq_timer_func` starts. -/
  | start {s : State} : Round P .idle s .ticking { s with q := { s.q with dq := .init } }
  /-- `tbq_timer_feed` goes on to another slot. -/
  | slot {s : State} (n : ℕ) : Round P .ticking s .ticking { s with timerJiffies := n }
  /-- `tbq_token_ctrl_activate` takes a due token control off the timer. -/
  | fire {s : State} {X : TcId} {t : TokenState} : X ∈ s.t.pending → Due s.t X →
      fire s.t X = .ok t → Round P .ticking s (.draining X) { s with t := t }
  /-- `tbq_user_dequeue` or `tbq_bucket_dequeue` serves a flow. -/
  | serve {s s' : State} {X : TcId} {fuel : ℕ} {f : FlowId} {d : Dir} {r : UserRef} :
      Next s.q f d r → (s.q.unit (.flow f d)).tc = some (.user r) → TcId.user r ∉ s.t.pending →
      r.bucket ∉ s.t.pending → flowBacklogTryDequeue fuel s f d = .ok s' →
      Round P (.draining X) s (.draining X) s'
  /-- `tbq_user_dequeue` finds the bucket on the timer. -/
  | attach {s : State} {r : UserRef} : r.bucket ∈ s.t.pending → (s.q.bl (.user r)).units ≠ [] →
      (s.q.unit (.user r)).tc = none →
      Round P (.draining (.user r)) s .ticking { s with q := link s.q (.user r) r.bucket }
  /-- `tbq_bucket_dequeue` finds the user entry on the timer. -/
  | detach {s : State} {X : TcId} {r : UserRef} : TcId.user r ∈ s.t.pending →
      Round P (.draining X) s (.draining X) { s with q := unlink s.q (.user r) }
  /-- The loop is left, or was not entered. -/
  | leave {s : State} {X : TcId} : (X ∈ s.t.pending ∨ (s.q.bl X).units = []
        ∨ ∃ r, X = .user r ∧ (s.q.unit (.user r)).tc ≠ none) →
      Round P (.draining X) s .ticking s
  /-- `tbq_timer_func` ends. -/
  | finish {s s' : State} : timerEnd s = .ok s' → Round P .ticking s .idle s'

/-- The states that rounds reach from `s₀`, with what the scheduler is doing there. -/
inductive Reaches (P : State → Event → Prop) (s₀ : State) : Phase → State → Prop
  | init : Reaches P s₀ .idle s₀
  | round {ph ph' : Phase} {s s' : State} : Reaches P s₀ ph s → Round P ph s ph' s' →
      Reaches P s₀ ph' s'

/-! ## The invariant -/

/-- The invariant of a phase. -/
def PhaseInv (cfg : Config) : Phase → State → Prop
  | .idle, s => Idle False cfg s
  | .ticking, s => Inv False cfg none s ∧ (s.AtRest → s.t.pending = [])
  | .draining X, s => Inv False cfg (some X) s ∧ ¬ s.AtRest

theorem PhaseInv.base {cfg : Config} {ph : Phase} {s : State} (h : PhaseInv cfg ph s) :
    Base s ∧ s.cfg = cfg := by
  cases ph with
  | idle => exact ⟨h.inv.base, h.inv.cfg_eq⟩
  | ticking => exact ⟨h.1.base, h.1.cfg_eq⟩
  | draining X => exact ⟨h.1.base, h.1.cfg_eq⟩

/-- Every round keeps the invariant. -/
theorem Round.inv {cfg : Config} {P : State → Event → Prop} {ph ph' : Phase} {s s' : State}
    (h : Round P ph s ph' s') (hi : PhaseInv cfg ph s) : PhaseInv cfg ph' s' := by
  have R := inv_loopRules False cfg
  cases h with
  | call _ hadm _ hs => exact (Idle.step_sat hi _ hadm fun hb => hb.elim).of_ok hs
  | start => exact ⟨Idle.start hi, hi.stopped⟩
  | slot n => exact ⟨R.clock _ _ hi.1, hi.2⟩
  | fire hX hdue ht =>
      refine ⟨(R.fire _ _ hi.1 hX hdue).of_ok ht, fun hrest => ?_⟩
      have hnil := hi.2 hrest
      rw [hnil] at hX
      cases hX
  | serve hnext htc hnu hnb hs =>
      refine ⟨(R.tryDequeue _ _ _ _ _ _ hi.1 hnext htc hnu hnb).of_ok hs, fun hrest => hi.2 ?_⟩
      have hd := tryDequeue_drained hs
      unfold State.AtRest at hrest ⊢
      rwa [hd.status, hd.disableDone] at hrest
  | attach hb hne htc => exact ⟨R.link _ _ hi.1 hb hne htc, fun hrest => absurd hrest hi.2⟩
  | detach hr => exact ⟨R.unlink _ _ _ hi.1 hr, hi.2⟩
  | leave hX => exact ⟨R.leave _ _ hi.1 hX, fun hrest => absurd hrest hi.2⟩
  | finish hs => exact (hi.1.timerEnd_sat hi.2).of_ok hs

theorem Reaches.inv {cfg : Config} {now : ℕ} {P : State → Event → Prop} {ph : Phase} {s : State}
    (h : Reaches P (initState cfg now) ph s) : PhaseInv cfg ph s := by
  induction h with
  | init => exact initState_idle False cfg now
  | round _ hr ih => exact hr.inv ih

/-- A property of the initial state that every round keeps. -/
theorem Reaches.invariant {cfg : Config} {now : ℕ} {P : State → Event → Prop} {J : State → Prop}
    (hinit : J (initState cfg now))
    (hround : ∀ ph s ph' s', PhaseInv cfg ph s → J s → Round P ph s ph' s' → J s')
    {ph : Phase} {s : State} (h : Reaches P (initState cfg now) ph s) : J s := by
  induction h with
  | init => exact hinit
  | round h hr ih => exact hround _ _ _ _ h.inv ih hr

/-! ## What a call does -/

/-- One step of keeping track of users and flows. -/
inductive TrackStep (s : State) : State → Prop
  | alloc {u : UserId} : (∀ r : UserRef, r.u = u → (s.q.unit (.user r)).tc = none
        ∧ (s.q.bl (.user r)).units = []) →
      TrackStep s { s with t := userTrackTokens s u, q := userTrackQueue s u }
  | init {f : FlowId} : f ∉ s.q.flows → (∀ d, (s.q.unit (.flow f d)).tc = none) →
      TrackStep s { s with q := flowTrackInit s.q f }
  | classify (f : FlowId) (app : ℕ) :
      TrackStep s { s with q := { s.q with
        flow := Function.update s.q.flow f (classify s.cfg s.q f app) } }

/-- The first half of the filter. -/
theorem Inv.track_steps {cfg : Config} {s s₁ : State} (h : Inv False cfg none s) {f : FlowId}
    {app : ℕ} {allocOk : Bool} (hrun : track s f app allocOk = .ok (some s₁)) :
    Relation.ReflTransGen TrackStep s s₁ := by
  unfold track at hrun
  split at hrun
  · cases hrun
  · rw [bind_eq_ok] at hrun
    obtain ⟨s₂, hs₂, hrun⟩ := hrun
    simp only [pure_eq_ok, Option.some.injEq] at hrun
    subst hrun
    have huser : Relation.ReflTransGen TrackStep s s₂ ∧ Acct s₂.q := by
      by_cases hu : f.user ∈ s.q.users
      · rw [if_pos hu] at hs₂
        obtain rfl := pure_eq_ok.mp hs₂
        exact ⟨.refl, h.base.acct⟩
      · rw [if_neg hu] at hs₂
        obtain ⟨heq, hinv⟩ := h.userTrackAlloc_eq hu
        rw [heq] at hs₂
        cases hs₂
        refine ⟨.single (.alloc fun r hr => ?_), hinv.base.acct⟩
        obtain ⟨htc, -, hb⟩ := h.base.acct.idle_user (r := r) fun g hg hold =>
          hu (by
            obtain ⟨d, hd⟩ := hold
            rw [← hr, ← hg]
            exact h.base.acct.userTracked g d (.inr hd))
        exact ⟨htc, by rw [hb]⟩
    refine huser.1.trans ?_
    by_cases hf : f ∈ s₂.q.flows
    · rw [if_pos hf]
      exact .single (.classify f app)
    · rw [if_neg hf]
      refine (Relation.ReflTransGen.single (.init hf fun d => ?_)).tail (.classify f app)
      by_contra htc
      exact hf (huser.2.tracked f d (.inl htc))

/-- The filter tracks the user and the flow, may charge the packet, and leaves the queue
alone. -/
theorem Idle.filterPacket_effect {cfg : Config} {s s' : State} (h : Idle False cfg s) {f : FlowId}
    {d : Dir} {app : ℕ} {len : SkbLen} {allocOk : Bool} {v : Verdict}
    (hkeep : s.Holds f → (Tbq.classify s.cfg s.q f app).ruleMask = (s.q.flow f).ruleMask
      ∧ (Tbq.classify s.cfg s.q f app).weight = (s.q.flow f).weight)
    (hrun : filterPacket s f d app len allocOk = .ok (v, s')) :
    ∃ s₁, Relation.ReflTransGen TrackStep s s₁ ∧ Charges cfg s₁.q.users s₁.t s'.t
      ∧ s'.q = s₁.q ∧ ∀ p ∈ s'.inflight, p ∈ s₁.inflight ∨ p.pktLen = len.1 := by
  unfold filterPacket at hrun
  rw [bind_eq_ok] at hrun
  obtain ⟨o, ho, hrun⟩ := hrun
  cases o with
  | none =>
      cases hrun
      exact ⟨s, .refl, .refl, rfl, fun _ hp => .inl hp⟩
  | some s₁ =>
      have ht := (h.inv.track_sat allocOk hkeep).of_ok ho s₁ rfl
      refine ⟨s₁, h.inv.track_steps ho, ?_⟩
      dsimp only at hrun
      split at hrun
      · cases hrun
        exact ⟨.refl, rfl, fun _ hp => .inl hp⟩
      · rw [bind_eq_ok] at hrun
        obtain ⟨⟨wait, s₂⟩, hs₂, hrun⟩ := hrun
        -- only an empty backlog has the packet charged
        have h₂ : Charges cfg s₁.q.users s₁.t s₂.t ∧ s₂.q = s₁.q ∧ s₂.inflight = s₁.inflight := by
          rw [bind_eq_ok] at hs₂
          obtain ⟨e, -, hs₂⟩ := hs₂
          cases e with
          | true =>
              rw [if_pos rfl, bind_eq_ok] at hs₂
              obtain ⟨⟨i, t⟩, hc, hs₂⟩ := hs₂
              cases hs₂
              obtain ⟨-, hch, -⟩ := (ht.inv.consume_sat ht.user rfl).of_ok hc
              exact ⟨hch, rfl, rfl⟩
          | false =>
              cases hs₂
              exact ⟨.refl, rfl, rfl⟩
        obtain ⟨hch, hq, hin⟩ := h₂
        have hold : ∀ p ∈ s₂.inflight, p ∈ s₁.inflight ∨ p.pktLen = len.1 :=
          fun p hp => .inl (hin ▸ hp)
        dsimp only at hrun
        split at hrun
        · cases hrun
          exact ⟨hch, hq, hold⟩
        · split at hrun
          · cases hrun
            exact ⟨hch, hq, hold⟩
          · cases hrun
            refine ⟨hch, hq, fun p hp => ?_⟩
            rcases List.mem_append.mp hp with hp | hp
            · exact hold p hp
            · rw [List.mem_singleton.mp hp]
              exact .inr rfl

/-- What a packet that joins its flow leaves as it was. -/
structure Put (p : Packet) (s s' : State) : Prop where
  tokens : s'.t = s.t
  users : s'.q.users = s.q.users
  flow : s'.q.flow = s.q.flow
  flows : s'.q.flows = s.q.flows
  inflight : s'.inflight = s.inflight
  packets : ∀ g e, ∀ p' ∈ s'.q.packets g e, p' ∈ s.q.packets g e ∨ p' = p
  turns : SameTurns s.q s'.q

theorem putPacket_put {s s' : State} {p : Packet} {attach : Bool} (hl : Links s.q)
    (hrun : putPacket s p attach = .ok s') : Put p s s' := by
  unfold putPacket at hrun
  simp only [bind_eq_ok, pure_eq_ok] at hrun
  obtain ⟨q₁, hq₁, q₂, hq₂, rfl⟩ := hrun
  obtain ⟨r, -, rfl⟩ := hl.flowEnqueue_iff.mp hq₁
  obtain ⟨hup, -⟩ := packetCtrlBacklogUpdate_ok hq₂
  have hturns : SameTurns s.q (added s.q r p.flow p.dir p) :=
    ((sameTurns_backlogEnqueue s.q _ _).trans (sameTurns_backlogEnqueue _ _ _)).trans
      (.of_unit rfl fun _ => rfl)
  refine ⟨rfl, ?_, ?_, ?_, rfl, fun g e p' hp' => ?_, hturns.trans (.of_unit ?_ hup.units)⟩
  · show q₂.users = _
    rw [hup.frame]
    rfl
  · show q₂.flow = _
    rw [hup.frame]
    rfl
  · show q₂.flows = _
    rw [hup.frame]
    rfl
  · have hp' : p' ∈ q₂.packets g e := hp'
    rw [hup.frame] at hp'
    by_cases hge : g = p.flow ∧ e = p.dir
    · obtain ⟨rfl, rfl⟩ := hge
      rw [added, setPackets_self, List.mem_append, List.mem_singleton] at hp'
      exact hp'
    · rw [added, setPackets_of_ne _ _ hge] at hp'
      exact .inl hp'
  · show q₂.unit = _
    rw [hup.frame]

/-- What the queue handler does to the units: the flow may lose packets from its tail and
be detached, or it was empty and is attached. -/
inductive Queued (p : Packet) (q q' : QueueState) : Prop
  | shed : Shed q q' → Queued p q q'
  | attached {q₀ : QueueState} {pending : List TcId} {r : UserRef} : SameTurns q q₀ →
      q₀.flow = q.flow → q₀.flows = q.flows → (q₀.unit (.flow p.flow p.dir)).tc = none →
      SameTurns (attachedFlow pending q₀ p.flow p.dir r) q' → Queued p q q'

/-- What the queue handler does to the queue. -/
structure Enqueued (p : Packet) (s s' : State) : Prop where
  users : s'.q.users = s.q.users
  flow : s'.q.flow = s.q.flow
  flows : s'.q.flows = s.q.flows
  inflight : s'.inflight = s.inflight
  packets : ∀ g e, ∀ p' ∈ s'.q.packets g e, p' ∈ s.q.packets g e ∨ p' = p
  queued : Queued p s.q s'.q

/-- The queue handler. -/
theorem Idle.enqueue_effect {cfg : Config} {s s' : State} (h : Idle False cfg s) {fuel : ℕ}
    {p : Packet} {v : EnqueueResult} (hu : p.flow.user ∈ s.q.users)
    (hmask : p.ruleMask = (s.q.flow p.flow).ruleMask)
    (hrun : enqueue fuel s p = .ok (v, s')) :
    Charges cfg s.q.users s.t s'.t ∧ Enqueued p s s' := by
  have hl := h.inv.base.acct.links
  unfold enqueue at hrun
  split at hrun
  · cases hrun
    exact ⟨.refl, rfl, rfl, rfl, rfl, fun _ _ _ hp => .inl hp, .shed (.refl hl)⟩
  · set s₁ : State := { s with q := { s.q with dq := .init } } with hs₁
    have h₁ : Inv False cfg none s₁ := h.start
    have hstart : SameTurns s.q s₁.q := .of_unit rfl fun _ => rfl
    rw [bind_eq_ok] at hrun
    obtain ⟨e, he, hrun⟩ := hrun
    have hempty := (h₁.flowEmpty_sat p.flow p.dir).of_ok he
    cases e with
    | true =>
        rw [if_pos rfl, bind_eq_ok] at hrun
        obtain ⟨⟨o, t⟩, hc, hrun⟩ := hrun
        obtain ⟨-, hch, -⟩ := (h₁.consume_sat (p := p) hu hmask).of_ok hc
        cases o with
        | none =>
            cases hrun
            exact ⟨hch, rfl, rfl, rfl, rfl, fun _ _ _ hp => .inl hp, .shed (.of_same hl hstart)⟩
        | some i =>
            simp only [bind_eq_ok, pure_eq_ok, Prod.mk.injEq] at hrun
            obtain ⟨q₂, hq₂, s₃, hs₃, -, rfl⟩ := hrun
            -- rule `i` has no tokens for the packet, and the flow is attached to its user
            obtain ⟨hnone, -, -, rfl⟩ := h₁.base.acct.links.flowAttach_iff.mp hq₂
            have hl₂ : Links (attachedFlow t.pending s₁.q p.flow p.dir (p.userRef i)) :=
              h₁.base.acct.links.attachedFlow_links hnone ⟨rfl, rfl⟩
            have hput := putPacket_put hl₂ hs₃
            have hrest := sameRest_attachedFlow t.pending s₁.q p.flow p.dir (p.userRef i)
            refine ⟨by rw [hput.tokens]; exact hch, hput.users.trans hrest.users,
              hput.flow.trans hrest.flow, hput.flows.trans hrest.flows, hput.inflight,
              fun g e p' hp' => ?_, .attached hstart rfl rfl hnone hput.turns⟩
            have hold := hput.packets g e p' hp'
            rwa [hrest.packets] at hold
    | false =>
        simp only [Bool.false_eq_true, if_false, bind_eq_ok] at hrun
        obtain ⟨q₂, hq₂, hrun⟩ := hrun
        have htc : (s₁.q.unit (.flow p.flow p.dir)).tc ≠ none := by
          rcases hempty with ⟨hf, -⟩ | ⟨-, htc, -⟩
          · cases hf
          · exact htc
        -- the backlog is not empty: its own packets may be dropped to make room
        obtain ⟨-, hd⟩ := (h₁.drop_sat _ fuel htc).of_ok hq₂
        have hshed : Shed s.q q₂ := (Shed.of_same hl hstart).trans hd.shed
        split at hrun
        · cases hrun
          exact ⟨.refl, hd.users, hd.flow, hd.flows, rfl, fun g e p' hp' => .inl (hd.packets g e p' hp'),
            .shed (hshed.trans (.of_same hshed.links (.of_unit rfl fun _ => rfl)))⟩
        · simp only [bind_eq_ok, pure_eq_ok, Prod.mk.injEq] at hrun
          obtain ⟨s₃, hs₃, -, rfl⟩ := hrun
          have hput := putPacket_put hshed.links hs₃
          refine ⟨by rw [hput.tokens], hput.users.trans hd.users, hput.flow.trans hd.flow,
            hput.flows.trans hd.flows, hput.inflight, fun g e p' hp' => ?_,
            .shed (hshed.trans (.of_same hshed.links hput.turns))⟩
          exact (hput.packets g e p' hp').imp_left (hd.packets g e p')

/-! ## What a call can do -/

/-- What a call other than a tick does: the filter tracks, and may charge the packet; the queue
handler takes a packet in flight; time passes; a user or a flow is gone; the status changes, or
nothing does. -/
inductive Effect (cfg : Config) (s : State) : Event → State → Prop
  | filter {f : FlowId} {d : Dir} {app : ℕ} {len : SkbLen} {allocOk : Bool} {s₁ s' : State} :
      Relation.ReflTransGen TrackStep s s₁ → Charges cfg s₁.q.users s₁.t s'.t → s'.q = s₁.q →
      (∀ p ∈ s'.inflight, p ∈ s₁.inflight ∨ p.pktLen = len.1) →
      Effect cfg s (.filter f d app len allocOk) s'
  | enqueue {p : Packet} {s' : State} : p ∈ s.inflight → p.flow ∈ s.q.flows →
      Charges cfg s.q.users s.t s'.t → Enqueued p (s.land p) s' → Effect cfg s (.enqueue p) s'
  | elapse (n : ℕ) : Effect cfg s (.elapse n) { s with t := { s.t with jiffies := s.t.jiffies + n } }
  | userFree {u : UserId} : u ∈ s.q.users → (∀ f, f.user = u → ¬ s.Holds f) →
      Effect cfg s (.userFree u) (userFreed s u)
  | flowFree {f : FlowId} : f ∈ s.q.flows → ¬ s.Holds f →
      Effect cfg s (.flowFree f) { s with q := flowTrackClear s.q f }
  | status (e : Event) (status : Status) (disableDone : Bool) :
      Effect cfg s e { s with status := status, disableDone := disableDone }

theorem Effect.refl (cfg : Config) (s : State) (e : Event) : Effect cfg s e s :=
  .status e s.status s.disableDone

/-- Every call other than a tick has one of these effects. -/
theorem Idle.step_effect {cfg : Config} {s s' : State} (h : Idle False cfg s) {fuel : ℕ}
    {e : Event} (hno : ∀ order, e ≠ .tick order) (hadm : Admissible s e)
    (hs : step fuel s e = .ok s') : Effect cfg s e s' := by
  cases e with
  | filter f d app len allocOk =>
      change (if s.status = .running then _ else _) = _ at hs
      split at hs
      · rw [bind_eq_ok] at hs
        obtain ⟨⟨v, s₁⟩, hrun, hs⟩ := hs
        cases hs
        obtain ⟨s₂, htrack, hch, hq, hin⟩ := h.filterPacket_effect hadm hrun
        exact .filter htrack hch hq hin
      · cases hs
        exact .refl _ _ _
  | enqueue p =>
      change (enqueue fuel (s.land p) p >>= _) = _ at hs
      rw [bind_eq_ok] at hs
      obtain ⟨⟨v, s₁⟩, hrun, hs⟩ := hs
      cases hs
      obtain ⟨hf, hu, hmask⟩ := h.inv.base.inflight p hadm
      obtain ⟨hch, henq⟩ := (h.land p).enqueue_effect hu hmask hrun
      exact .enqueue hadm hf hch henq
  | elapse n =>
      cases hs
      exact .elapse n
  | tick order => exact absurd rfl (hno order)
  | userFree u =>
      change onUserFree s u = _ at hs
      by_cases hu : u ∈ s.q.users
      · rw [onUserFree_eq h.inv.base hu fun f hf hold => hadm f hf (.inl hold)] at hs
        cases hs
        exact .userFree hu hadm
      · unfold onUserFree at hs
        rw [if_neg hu] at hs
        cases hs
        exact .refl _ _ _
  | flowFree f =>
      change onFlowFree s f = _ at hs
      rw [(h.inv.onFlowFree_eq hadm).1] at hs
      cases hs
      split
      · rename_i hf
        exact .flowFree hf hadm
      · exact .refl _ _ _
  | _ =>
      cases hs
      split
      · exact .status _ _ _
      · exact .refl _ _ _

/-! ## Runs are made of rounds -/

/-- The phase of the dequeue loops. -/
def phaseOf : Option TcId → Phase
  | none => .ticking
  | some X => .draining X

/-- The loops of a tick go through rounds. -/
theorem reaches_loopRules (P : State → Event → Prop) (cfg : Config) (now : ℕ) :
    LoopRules (fun w s => Reaches P (initState cfg now) (phaseOf w) s) fun _ => True where
  base := fun w s h => by
    have := h.inv.base
    exact this.1
  fuel := trivial
  tryDequeue := fun fuel w s f d r h hnext htc hnu hnb =>
    sat_intro (fun s' hs' => h.round (.serve hnext htc hnu hnb hs')) fun _ _ => trivial
  userEmpty := fun w s r h htc => by
    have hi : Inv False cfg w s := by
      cases w with
      | none => exact h.inv.1
      | some X => exact h.inv.1
    exact ((inv_loopRules False cfg).userEmpty w s r hi htc).mono (fun _ he => he) fun _ _ => trivial
  link := fun s r h hb hne htc => h.round (.attach hb hne htc)
  unlink := fun w s r h hr => h.round (.detach hr)
  leave := fun X s h hX => h.round (.leave hX)
  fire := fun s X h hX hdue =>
    sat_intro (fun t ht => h.round (.fire hX hdue ht)) fun _ _ => trivial
  clock := fun s n h => h.round (.slot n)

/-- Every state of a run is reached by rounds. -/
theorem Reachable.reaches {P : State → Event → Prop} {cfg : Config} {now : ℕ} {s : State}
    (h : Reachable P (initState cfg now) s) : Reaches P (initState cfg now) .idle s := by
  induction h with
  | init => exact .init
  | @step s s' fuel e _ hadm hP hs ih =>
      by_cases he : ∃ order, e = .tick order
      · obtain ⟨order, rfl⟩ := he
        change timerFunc fuel order s = .ok s' at hs
        unfold timerFunc at hs
        rw [bind_eq_ok] at hs
        obtain ⟨s₁, hfeed, hend⟩ := hs
        have hstart : Reaches P (initState cfg now) (phaseOf none)
            { s with q := { s.q with dq := .init } } := ih.round .start
        have htick := ((reaches_loopRules P cfg now).timerFeed_sat fuel hadm hstart).of_ok hfeed
        exact htick.round (.finish hend)
      · exact ih.round (.call (fun order ho => he ⟨order, ho⟩) hadm hP hs)

end Tbq
