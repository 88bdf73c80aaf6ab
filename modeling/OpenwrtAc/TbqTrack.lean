/-
# Tracking users and flows

Users and flows come and go, and flows are classified anew, only while they hold no
packets.  Such a change is quiet: it touches no packet, no link and no counter, and
every sum keeps its terms.
-/
import OpenwrtAc.TbqLoops

open Outcome MachineInt ListSum

namespace Tbq

/-- The flow has packets queued. -/
def Holding (q : QueueState) (f : FlowId) : Prop := ∃ d, q.packets f d ≠ []

/-- A change that flows with packets and their users do not notice. -/
structure Quiet (q q' : QueueState) : Prop where
  links : SameLinks q q'
  unitOctets : ∀ x, (q'.unit x).octets = (q.unit x).octets
  octets : ∀ X, (q'.bl X).octets = (q.bl X).octets
  weight : ∀ X, (q'.bl X).weight = (q.bl X).weight
  packets : ∀ f d, q'.packets f d = q.packets f d
  flowsNodup : q'.flows.Nodup
  usersNodup : q'.users.Nodup
  flows : ∀ f, Holding q f → f ∈ q'.flows
  users : ∀ f, Holding q f → f.user ∈ q'.users
  unitWeight : ∀ r, r.u ∈ q.users → r.u ∈ q'.users →
    (q'.unit (.user r)).weight = (q.unit (.user r)).weight
  mask : ∀ f, Holding q f → (q'.flow f).ruleMask = (q.flow f).ruleMask
  flowWeight : ∀ f, Holding q f → (q'.flow f).weight = (q.flow f).weight
  backlogPackets : q'.backlogPackets = q.backlogPackets
  dq : q'.dq = q.dq

/-- A term that needs packets to be non-zero is in both sums. -/
theorem Quiet.total_eq {q q' : QueueState} (h : Quiet q q') (ha : Acct q) {g g' : FlowId → ℕ}
    (hg : ∀ f, g' f = g f) (hpos : ∀ f, g f ≠ 0 → Holding q f) :
    total q'.flows g' = total q.flows g := by
  refine total_of_support h.flowsNodup ha.flowsNodup hg fun f hf => ?_
  have hold := hpos f (hg f ▸ hf)
  obtain ⟨d, hd⟩ := hold
  exact ⟨fun _ => ha.tracked f d (.inr hd), fun _ => h.flows f ⟨d, hd⟩⟩

/-- A flow with octets holds a packet. -/
theorem holding_of_bytes {q : QueueState} {f : FlowId} {d : Dir} (h : bytes (q.packets f d) ≠ 0) :
    Holding q f := ⟨d, ne_nil_of_bytes h⟩

/-- A flow with octets under a rule holds a packet. -/
theorem holding_of_ruleBytes {q : QueueState} {f : FlowId} {d : Dir} {i : RuleIdx}
    (h : ruleBytes (q.packets f d) i ≠ 0) : Holding q f := by
  refine ⟨d, ?_⟩
  intro hnil
  rw [hnil] at h
  exact h rfl

/-- A user entry with octets belongs to a user with a flow that has packets. -/
theorem holding_of_userBytes {q : QueueState} {r : UserRef} (h : userBytes q r ≠ 0) :
    ∃ f, f.user = r.u ∧ Holding q f := by
  by_contra hnone
  push Not at hnone
  apply h
  refine total_eq_zero.mpr fun f _ => ?_
  by_cases hf : f.user = r.u
  · rw [if_pos hf]
    by_contra h0
    exact hnone f hf (holding_of_ruleBytes h0)
  · exact if_neg hf

/-- A quiet step keeps the accounts. -/
theorem Acct.quiet {q q' : QueueState} (ha : Acct q) (h : Quiet q q') : Acct q' := by
  have hhold : ∀ f d, (q.unit (.flow f d)).tc ≠ none → Holding q f :=
    fun f d htc => ⟨d, ha.busy f d htc⟩
  have hweightAt : ∀ r f, weightAt q' r f = weightAt q r f := by
    intro r f
    by_cases hf : Holding q f
    · unfold weightAt
      rw [h.links.tc, h.mask f hf, h.flowWeight f hf]
    · have hnot : ∀ (a : Prop) (q₀ : QueueState), (q₀.unit (.flow f r.d)).tc
          = (q.unit (.flow f r.d)).tc → ∀ b : Prop, ¬ (a ∧ (q₀.unit (.flow f r.d)).tc ≠ none ∧ b) := by
        rintro a q₀ he b ⟨-, htc, -⟩
        exact hf (hhold f r.d (he ▸ htc))
      unfold weightAt
      rw [if_neg (hnot _ q' (h.links.tc _) _), if_neg (hnot _ q rfl _)]
  have hub : ∀ r, userBytes q' r = userBytes q r := by
    intro r
    refine h.total_eq ha (fun f => by simp only [h.packets]) fun f hf => ?_
    simp only [ne_eq, ite_eq_right_iff, not_forall] at hf
    exact holding_of_ruleBytes hf.2
  refine ⟨⟨ha.links.congr h.links, h.flowsNodup, h.usersNodup, fun f d p hp => ?_, fun f d hf => ?_,
    fun f d hf => ?_, fun f d hf => ?_, fun f d hf => ?_, fun r hr => ?_, fun f d r hr => ?_⟩,
    ⟨fun r => ?_, fun d i => ?_, fun r => ?_, fun d i => ?_⟩, fun f d => ?_, fun r => ?_⟩
  · rw [h.packets] at hp
    rw [h.mask f ⟨d, List.ne_nil_of_mem hp⟩]
    exact ha.packetOk f d p hp
  · rw [h.links.tc, h.packets] at hf
    exact h.flows f (hf.elim (hhold f d) fun hp => ⟨d, hp⟩)
  · rw [h.links.tc, h.packets] at hf
    exact h.users f (hf.elim (hhold f d) fun hp => ⟨d, hp⟩)
  · rw [h.unitOctets] at hf
    rw [h.links.tc]
    exact ha.held f d hf
  · rw [h.links.tc] at hf
    rw [h.packets]
    exact ha.busy f d hf
  · rw [h.links.tc] at hr
    obtain ⟨f, hf⟩ := ha.userBusy r hr
    exact ⟨f, by rw [h.links.tc, hf]⟩
  · rw [h.links.tc] at hr
    rw [h.mask f (hhold f d (by rw [hr]; simp))]
    exact ha.rule f d r hr
  · rw [h.octets, hub, ha.tcOctets]
  · rw [h.octets, ha.bucketOctets]
    congr 1
    exact (h.total_eq ha (fun f => by rw [h.packets]) fun f hf => holding_of_ruleBytes hf).symm
  · rw [h.weight, ha.tcWeight]
    refine (h.total_eq ha (hweightAt r) fun f hf => ?_).symm
    unfold weightAt at hf
    simp only [ne_eq, ite_eq_right_iff, not_forall] at hf
    exact hhold f r.d hf.1.2.1
  · rw [h.weight, ha.bucketWeights]
    -- a user with octets is tracked before and after
    have hkeep : ∀ u, (q.bl (.user ⟨u, d, i⟩)).octets ≠ 0 → u ∈ q.users ∧ u ∈ q'.users := by
      intro u hu
      rw [ha.tcOctets] at hu
      obtain ⟨f, rfl, d', hf⟩ := holding_of_userBytes (r := ⟨u, d, i⟩) (fun e => hu (by rw [e, Nat.zero_mod]))
      exact ⟨ha.userTracked f d' (.inr hf), h.users f ⟨d', hf⟩⟩
    refine (total_of_support h.usersNodup ha.usersNodup (fun u => ?_) fun u hu => ?_).symm
    · rw [h.octets]
      by_cases h0 : (q.bl (.user ⟨u, d, i⟩)).octets = 0
      · rw [if_neg (by simp [h0]), if_neg (by simp [h0])]
      · obtain ⟨h₁, h₂⟩ := hkeep u h0
        rw [if_pos h0, if_pos h0, h.unitWeight ⟨u, d, i⟩ h₁ h₂]
    · rw [h.octets] at hu
      have h0 : (q.bl (.user ⟨u, d, i⟩)).octets ≠ 0 := by
        intro h0
        rw [if_neg (by simp [h0])] at hu
        exact hu rfl
      obtain ⟨h₁, h₂⟩ := hkeep u h0
      exact ⟨fun _ => h₁, fun _ => h₂⟩
  · rw [h.unitOctets, h.packets]
    exact ha.flowOctets f d
  · rw [h.unitOctets, ha.userOctets]
    congr 1
    refine (h.total_eq ha (fun f => by simp only [h.links.tc, h.packets]) fun f hf => ?_).symm
    simp only [ne_eq, ite_eq_right_iff, not_forall] at hf
    exact holding_of_bytes hf.2

/-- A quiet step keeps the octets of the whole queue. -/
theorem Quiet.totalBytes {q q' : QueueState} (h : Quiet q q') (ha : Acct q) :
    Tbq.totalBytes q' = Tbq.totalBytes q := by
  refine h.total_eq ha (fun f => by simp only [h.packets]) fun f hf => ?_
  by_cases h0 : bytes (q.packets f 0) = 0
  · exact holding_of_bytes (d := 1) (by omega)
  · exact holding_of_bytes h0

/-- A quiet step keeps the packets counted. -/
theorem Quiet.queued {q q' : QueueState} (h : Quiet q q') (ha : Acct q) :
    Tbq.queued q' = Tbq.queued q := by
  refine h.total_eq ha (fun f => by simp only [h.packets]) fun f hf => ?_
  by_cases h0 : (q.packets f 0).length = 0
  · exact ⟨1, fun e => hf (by rw [h0, e, List.length_nil])⟩
  · exact ⟨0, fun e => h0 (by rw [e, List.length_nil])⟩

/-- A quiet change of the queue, with what the rest of the invariant needs. -/
theorem Inv.quiet {b : Prop} {cfg : Config} {s s' : State} (h : Inv b cfg none s)
    (hq : Quiet s.q s'.q) (hcfg : s'.cfg = s.cfg) (hcl : Classes s.cfg s'.q)
    (htok : TokensOk s.cfg s'.q.users s'.t)
    (hin : ∀ p ∈ s'.inflight, p.flow ∈ s'.q.flows ∧ p.flow.user ∈ s'.q.users
      ∧ p.ruleMask = (s'.q.flow p.flow).ruleMask)
    (hserved : b → Served none s'.t.pending s'.q) : Inv b cfg none s' := by
  refine ⟨⟨h.base.acct.quiet hq, hcfg ▸ hcl, hcfg ▸ htok, hin, ?_⟩, fun hb => ?_, hserved,
    hcfg.trans h.cfg_eq⟩
  · rw [hq.backlogPackets, hq.dq, hq.queued h.base.acct]
    exact h.base.count
  · have := h.small hb
    unfold Small at *
    rwa [hq.totalBytes h.base.acct]

/-! ## A new user -/

/-- The entries of a user whose flows hold nothing: nothing waits there. -/
theorem Acct.idle_user {q : QueueState} (h : Acct q) {r : UserRef}
    (hidle : ∀ f, f.user = r.u → ¬ Holding q f) :
    (q.unit (.user r)).tc = none ∧ (q.unit (.user r)).octets = 0
      ∧ q.bl (.user r) = ⟨[], 0, 0⟩ := by
  have hwait : ∀ f d, (q.unit (.flow f d)).tc ≠ some (.user r) := by
    intro f d hf
    obtain ⟨-, -, hru, -⟩ := h.attached_tracked hf
    exact hidle f hru.symm ⟨d, h.busy f d (by rw [hf]; simp)⟩
  have hbytes : userBytes q r = 0 := by
    by_contra h0
    obtain ⟨f, hf, hold⟩ := holding_of_userBytes h0
    exact hidle f hf hold
  refine ⟨?_, ?_, ?_⟩
  · by_contra htc
    obtain ⟨f, hf⟩ := h.userBusy r htc
    exact hwait f r.d hf
  · rw [h.userOctets]
    have : waitingBytes q r = 0 := by
      by_contra h0
      obtain ⟨f, hf⟩ := exists_waiting h0
      exact hwait f r.d hf
    rw [this, Nat.zero_mod]
  · have h₁ : (q.bl (.user r)).octets = 0 := by rw [h.tcOctets, hbytes, Nat.zero_mod]
    have h₂ : (q.bl (.user r)).weight = 0 := by rw [h.tcWeight, h.userWeight_eq_zero hbytes]
    have h₃ : (q.bl (.user r)).units = [] := by
      apply List.eq_nil_iff_forall_not_mem.mpr
      intro x hx
      obtain ⟨f, -, -, hf⟩ := h.links.mem_user_units hx
      exact hwait f r.d hf
    cases hb : q.bl (.user r)
    rw [hb] at h₁ h₂ h₃
    simp only at h₁ h₂ h₃
    rw [h₁, h₂, h₃]

/-- A user that is not tracked has no flow with packets. -/
theorem Acct.untracked_idle {q : QueueState} (h : Acct q) {u : UserId} (hu : u ∉ q.users) :
    ∀ f, f.user = u → ¬ Holding q f := by
  rintro f rfl ⟨d, hd⟩
  exact hu (h.userTracked f d (.inr hd))

/-- The controls of a new user are in order. -/
theorem userTrackTokens_ok {s : State} {u : UserId} (h : TokensOk s.cfg s.q.users s.t)
    (hu : u ∉ s.q.users) : TokensOk s.cfg (s.q.users ++ [u]) (userTrackTokens s u) := by
  have hlive : ∀ X, Live s.cfg (s.q.users ++ [u]) X →
      Live s.cfg s.q.users X ∨ ∃ r, X = .user r ∧ r.u = u ∧ (userMatch s.cfg u).has r.i = true := by
    intro X hX
    cases X with
    | bucket d i => exact .inl hX
    | user r =>
        obtain ⟨h₁, h₂⟩ := hX
        rcases List.mem_append.mp h₁ with h₁ | h₁
        · exact .inl ⟨h₁, h₂⟩
        · have hru := List.mem_singleton.mp h₁
          exact .inr ⟨r, rfl, hru, hru ▸ h₂⟩
  -- the token controls of the other users and of the buckets are what they were
  have hold : ∀ X, Live s.cfg s.q.users X → (userTrackTokens s u).tc X = s.t.tc X := by
    intro X hX
    cases X with
    | bucket d i => rfl
    | user r =>
        have hne : r.u ≠ u := fun e => hu (e ▸ hX.1)
        simp [userTrackTokens, hne]
  have hnew : ∀ r : UserRef, r.u = u → (userMatch s.cfg u).has r.i = true →
      (userTrackTokens s u).tc (.user r) = ⟨0, s.t.jiffies, s.cfg.rate (.user r)⟩ := by
    intro r hru hi
    simp [userTrackTokens, hru, hi]
  refine ⟨h.HZ, h.nrRule, ⟨h.pendingOk.nodup, h.pendingOk.count, fun X => ?_⟩, fun X hX => ?_,
    fun X hX => ?_, fun X hX hpos => ?_, fun hpos X => ?_⟩
  · show X ∈ s.t.pending ↔ _
    cases X with
    | bucket d i => exact h.pendingOk.mask _
    | user r =>
        by_cases hru : r.u = u
        · constructor
          · intro hmem
            exact absurd (h.live _ hmem).1.1 (hru ▸ hu)
          · intro hin
            simp [TokenState.inactive, userTrackTokens, hru] at hin
        · rw [h.pendingOk.mask]
          simp [TokenState.inactive, userTrackTokens, hru]
  · have := h.live X hX
    cases X with
    | bucket d i => exact this
    | user r => exact ⟨⟨List.mem_append_left _ this.1.1, this.1.2⟩, this.2⟩
  · rcases hlive X hX with hX | ⟨r, rfl, hru, hi⟩
    · rw [hold X hX]
      exact h.rate X hX
    · rw [hnew r hru hi]
  · rcases hlive X hX with hX | ⟨r, rfl, hru, hi⟩
    · rw [hold X hX]
      exact h.ctrl X hX hpos
    · rw [hnew r hru hi]
      exact ⟨s.cfg.rateOk (.user r), hpos, le_refl 0,
        mul_nonneg hpos.le (Int.natCast_nonneg s.cfg.HZ)⟩
  · have hX := h.nonneg hpos X
    cases X with
    | bucket d i => exact hX
    | user r =>
        unfold userTrackTokens
        dsimp only
        split
        · split <;> exact le_refl 0
        · exact hX

/-- A new user gets units and changes no other. -/
theorem userTrackQueue_unit (s : State) (u : UserId) (x : UnitId) :
    (∃ r : UserRef, x = .user r ∧ r.u = u) ∨ (userTrackQueue s u).unit x = s.q.unit x := by
  cases x with
  | flow f d => exact .inr rfl
  | user r =>
      by_cases hru : r.u = u
      · exact .inl ⟨r, rfl, hru⟩
      · right
        simp [userTrackQueue, hru]

/-- The entries of the new user. -/
theorem userTrackQueue_init (s : State) {r : UserRef} {u : UserId} (hru : r.u = u) :
    ((userTrackQueue s u).unit (.user r)).tc = none ∧ ((userTrackQueue s u).unit (.user r)).linked = false ∧
      ((userTrackQueue s u).unit (.user r)).octets = 0 := by
  simp [userTrackQueue, hru, backlogInit]

/-- A new user's lists are empty. -/
theorem userTrackQueue_bl {s : State} {u : UserId}
    (hnew : ∀ r : UserRef, r.u = u → s.q.bl (.user r) = ⟨[], 0, 0⟩)
    (X : TcId) : (userTrackQueue s u).bl X = s.q.bl X := by
  cases X with
  | bucket d i => rfl
  | user r =>
      by_cases hru : r.u = u
      · rw [hnew r hru]
        simp [userTrackQueue, hru]
      · simp [userTrackQueue, hru]

/-- A user that is not tracked has nothing that could be lost. -/
theorem userTrackQueue_quiet {s : State} {u : UserId} (h : Acct s.q) (hu : u ∉ s.q.users) :
    Quiet s.q (userTrackQueue s u) := by
  have hnew : ∀ r : UserRef, r.u = u → (s.q.unit (.user r)).tc = none
      ∧ (s.q.unit (.user r)).octets = 0 ∧ s.q.bl (.user r) = ⟨[], 0, 0⟩ :=
    fun r hru => h.idle_user (hru ▸ h.untracked_idle hu)
  have hbl := userTrackQueue_bl fun r hru => (hnew r hru).2.2
  refine ⟨⟨fun x => ?_, fun x => ?_, fun X => by rw [hbl]⟩, fun x => ?_, fun X => by rw [hbl],
    fun X => by rw [hbl], fun _ _ => rfl, h.flowsNodup, ?_,
    fun f hf => h.tracked f hf.choose (.inr hf.choose_spec), fun f hf => ?_, fun r hr _ => ?_,
    fun _ _ => rfl, fun _ _ => rfl, rfl, rfl⟩
  · rcases userTrackQueue_unit s u x with ⟨r, rfl, hru⟩ | he
    · rw [(userTrackQueue_init s hru).1, (hnew r hru).1]
    · rw [he]
  · rcases userTrackQueue_unit s u x with ⟨r, rfl, hru⟩ | he
    · rw [(userTrackQueue_init s hru).2.1, h.links.linked, (hnew r hru).1]
      rfl
    · rw [he]
  · rcases userTrackQueue_unit s u x with ⟨r, rfl, hru⟩ | he
    · rw [(userTrackQueue_init s hru).2.2, (hnew r hru).2.1]
    · rw [he]
  · refine h.usersNodup.append (List.nodup_singleton u) ?_
    intro v hv hvu
    rw [List.mem_singleton.mp hvu] at hv
    exact hu hv
  · obtain ⟨d, hd⟩ := hf
    exact List.mem_append_left _ (h.userTracked f d (.inr hd))
  · rcases userTrackQueue_unit s u (.user r) with ⟨r', he, hru⟩ | he
    · obtain rfl := UnitId.user.inj he
      exact absurd hr (hru ▸ hu)
    · rw [he]

/-- A new user's units are of the classes of the configuration. -/
theorem userTrackQueue_classes {s : State} {u : UserId} (h : Classes s.cfg s.q) :
    Classes s.cfg (userTrackQueue s u) := by
  refine ⟨fun v hv => ?_, fun r hr hi => ?_, h.flowRule⟩
  · show Function.update s.q.userMask u (userMatch s.cfg u) v = _
    by_cases hvu : v = u
    · subst hvu
      simp
    · rw [Function.update_of_ne hvu]
      rcases List.mem_append.mp hv with hv | hv
      · exact h.userMask v hv
      · exact absurd (List.mem_singleton.mp hv) hvu
  · by_cases hru : r.u = u
    · have hi' : (userMatch s.cfg u).has r.i = true := hru ▸ hi
      have hw := userMatch_has.mp hi'
      simp only [userTrackQueue, hru, if_true, backlogInit, hi']
      omega
    · have hmem : r.u ∈ s.q.users := by
        rcases List.mem_append.mp hr with hr | hr
        · exact hr
        · exact absurd (List.mem_singleton.mp hr) hru
      have := h.userWeight r hmem hi
      simpa [userTrackQueue, hru] using this

/-- `tbq_user_track_alloc` keeps the invariant and does not stop. -/
theorem Inv.userTrackAlloc_eq {b : Prop} {cfg : Config} {s : State} (h : Inv b cfg none s)
    {u : UserId} (hu : u ∉ s.q.users) :
    userTrackAlloc s u = .ok { s with t := userTrackTokens s u, q := userTrackQueue s u }
      ∧ Inv b cfg none { s with t := userTrackTokens s u, q := userTrackQueue s u } := by
  constructor
  · unfold userTrackAlloc
    rw [stopIf_of_not]
    · rfl
    · simp only [List.any_eq_true, decide_eq_true_eq, not_exists, not_and]
      intro i hi
      exact userMatch_has.mp (RuleMask.mem_bits.mp hi)
  · have hq := userTrackQueue_quiet h.base.acct hu
    refine h.quiet hq rfl (userTrackQueue_classes h.base.classes)
      (userTrackTokens_ok h.base.tokens hu) (fun p hp => ?_)
      (fun hb => (h.served hb).congr hq.links.tc)
    obtain ⟨h₁, h₂, h₃⟩ := h.base.inflight p hp
    exact ⟨h₁, List.mem_append_left _ h₂, h₃⟩

/-! ## A new flow -/

/-- A flow that holds nothing waits nowhere. -/
theorem Acct.idle_flow {q : QueueState} (h : Acct q) {f : FlowId} (hf : ¬ Holding q f) (d : Dir) :
    q.packets f d = [] ∧ (q.unit (.flow f d)).tc = none ∧ (q.unit (.flow f d)).octets = 0 := by
  have hp : q.packets f d = [] := by
    by_contra hne
    exact hf ⟨d, hne⟩
  refine ⟨hp, ?_, ?_⟩
  · by_contra htc
    exact h.busy f d htc hp
  · rw [h.flowOctets, hp, bytes_nil, Nat.zero_mod]

/-- A flow that is not tracked holds nothing. -/
theorem Acct.untracked_flow {q : QueueState} (h : Acct q) {f : FlowId} (hf : f ∉ q.flows) :
    ¬ Holding q f := fun ⟨d, hd⟩ => hf (h.tracked f d (.inr hd))

/-- The backlogs of a flow are as new, and the rest of the queues is as it was. -/
structure FlowReset (f : FlowId) (q q' : QueueState) : Prop where
  tc : ∀ d, (q'.unit (.flow f d)).tc = none
  linked : ∀ d, (q'.unit (.flow f d)).linked = false
  octets : ∀ d, (q'.unit (.flow f d)).octets = 0
  weight : ∀ d, (q'.unit (.flow f d)).weight = 0
  unit : ∀ x, (∀ d, x ≠ .flow f d) → q'.unit x = q.unit x
  flow : ∀ g, g ≠ f → q'.flow g = q.flow g
  flowWeight : ∀ i, (q'.flow f).weight i = 0
  bl : q'.bl = q.bl
  users : q'.users = q.users
  backlogPackets : q'.backlogPackets = q.backlogPackets
  dq : q'.dq = q.dq

/-- A new flow is reset. -/
theorem flowReset_init (q : QueueState) (f : FlowId) : FlowReset f q (flowTrackInit q f) where
  tc d := by simp [flowTrackInit, backlogInit]
  linked d := by simp [flowTrackInit, backlogInit]
  octets d := by simp [flowTrackInit, backlogInit]
  weight d := by simp [flowTrackInit, backlogInit]
  unit x hx := by
    cases x with
    | user r => rfl
    | flow g d =>
        have hg : g ≠ f := fun e => hx d (by rw [e])
        simp [flowTrackInit, hg]
  flow g hg := by simp [flowTrackInit, hg]
  flowWeight i := by simp [flowTrackInit]
  bl := rfl
  users := rfl
  backlogPackets := rfl
  dq := rfl

/-- A flow that is cleared is reset. -/
theorem flowReset_clear (q : QueueState) (f : FlowId) : FlowReset f q (flowTrackClear q f) where
  tc d := by simp [flowTrackClear, backlogInit]
  linked d := by simp [flowTrackClear, backlogInit]
  octets d := by simp [flowTrackClear, backlogInit]
  weight d := by simp [flowTrackClear, backlogInit]
  unit x hx := by
    cases x with
    | user r => rfl
    | flow g d =>
        have hg : g ≠ f := fun e => hx d (by rw [e])
        simp [flowTrackClear, hg]
  flow g hg := by simp [flowTrackClear, hg]
  flowWeight i := by simp [flowTrackClear]
  bl := rfl
  users := rfl
  backlogPackets := rfl
  dq := rfl

/-- A reset touches the units of the flow only. -/
theorem FlowReset.unit_cases {q q' : QueueState} {f : FlowId} (hr : FlowReset f q q')
    (x : UnitId) : (∃ d, x = .flow f d) ∨ q'.unit x = q.unit x := by
  by_cases hx : ∃ d, x = .flow f d
  · exact .inl hx
  · exact .inr (hr.unit x fun d e => hx ⟨d, e⟩)

/-- A flow that holds nothing can be made new without a trace in the sums. -/
theorem FlowReset.quiet {q q' : QueueState} {f : FlowId} (hr : FlowReset f q q') (h : Acct q)
    (hf : ¬ Holding q f) (hpackets : ∀ g d, q'.packets g d = q.packets g d)
    (hnodup : q'.flows.Nodup) (hflows : ∀ g, Holding q g → g ∈ q'.flows) : Quiet q q' := by
  have hne : ∀ g, Holding q g → g ≠ f := fun g hg e => hf (e ▸ hg)
  have hunit := hr.unit_cases
  have hidle := h.idle_flow hf
  refine ⟨⟨fun x => ?_, fun x => ?_, fun X => by rw [hr.bl]⟩, fun x => ?_, fun X => by rw [hr.bl],
    fun X => by rw [hr.bl], hpackets, hnodup, hr.users ▸ h.usersNodup, hflows,
    fun g ⟨d, hd⟩ => hr.users ▸ h.userTracked g d (.inr hd),
    fun r _ _ => by rw [hr.unit _ fun d e => by cases e], fun g hg => by rw [hr.flow g (hne g hg)],
    fun g hg => by rw [hr.flow g (hne g hg)], hr.backlogPackets, hr.dq⟩
  -- the flow itself was linked to nothing and held nothing
  · rcases hunit x with ⟨d, rfl⟩ | he
    · rw [hr.tc d, (hidle d).2.1]
    · rw [he]
  · rcases hunit x with ⟨d, rfl⟩ | he
    · rw [hr.linked d, h.links.linked, (hidle d).2.1]
      rfl
    · rw [he]
  · rcases hunit x with ⟨d, rfl⟩ | he
    · rw [hr.octets d, (hidle d).2.2]
    · rw [he]

/-- Tracking a new flow is quiet. -/
theorem flowTrackInit_quiet {q : QueueState} (h : Acct q) {f : FlowId} (hf : f ∉ q.flows) :
    Quiet q (flowTrackInit q f) := by
  have hhold : ∀ g, Holding q g → g ∈ q.flows := fun g ⟨d, hd⟩ => h.tracked g d (.inr hd)
  refine (flowReset_init q f).quiet h (h.untracked_flow hf) (fun g d => ?_)
    (List.nodup_cons.mpr ⟨hf, h.flowsNodup⟩) fun g hg => List.mem_cons_of_mem _ (hhold g hg)
  by_cases hg : g = f
  · subst hg
    rw [(h.idle_flow (h.untracked_flow hf) d).1]
    simp [flowTrackInit]
  · simp [flowTrackInit, hg]

/-- Tracking a new flow keeps the invariant. -/
theorem Inv.initFlow {b : Prop} {cfg : Config} {s : State} (h : Inv b cfg none s)
    {f : FlowId} (hf : f ∉ s.q.flows) : Inv b cfg none { s with q := flowTrackInit s.q f } := by
  have hq := flowTrackInit_quiet h.base.acct hf
  refine h.quiet hq rfl ⟨h.base.classes.userMask, h.base.classes.userWeight, fun g i hi => ?_⟩
    h.base.tokens (fun p hp => ?_) (fun hb => (h.served hb).congr hq.links.tc)
  · by_cases hg : g = f
    · subst hg
      simp [flowTrackInit] at hi
    · simp only [flowTrackInit, Function.update_of_ne hg] at hi ⊢
      exact h.base.classes.flowRule g i hi
  · obtain ⟨h₁, h₂, h₃⟩ := h.base.inflight p hp
    have hpf : p.flow ≠ f := fun e => hf (e ▸ h₁)
    refine ⟨List.mem_cons_of_mem _ h₁, h₂, ?_⟩
    simp only [flowTrackInit, Function.update_of_ne hpf]
    exact h₃

/-! ## Classification -/

/-- The class that a flow of a tracked user gets. -/
theorem classify_ok {cfg : Config} {q : QueueState} (h : Classes cfg q) {f : FlowId}
    (hu : f.user ∈ q.users) (app : ℕ) {i : RuleIdx}
    (hi : (classify cfg q f app).ruleMask.has i = true) :
    (userMatch cfg f.user).has i = true ∧ 0 < (classify cfg q f app).weight i := by
  unfold classify at hi ⊢
  dsimp only at hi ⊢
  by_cases happ : (q.flow f).appId ≠ app
  · rw [if_pos happ] at hi ⊢
    obtain ⟨hall, hw⟩ := appMatch_has.mp hi
    refine ⟨h.userMask _ hu ▸ hall, ?_⟩
    simp only [hall, if_true]
    omega
  · rw [if_neg happ] at hi ⊢
    exact h.flowRule f i hi

/-- A flow that holds packets keeps its class, and any other may be classified anew. -/
theorem Inv.reclassify {b : Prop} {cfg : Config} {s : State} (h : Inv b cfg none s) {f : FlowId}
    (hu : f.user ∈ s.q.users) (app : ℕ)
    (hkeep : s.Holds f → (classify s.cfg s.q f app).ruleMask = (s.q.flow f).ruleMask
      ∧ (classify s.cfg s.q f app).weight = (s.q.flow f).weight) :
    Inv b cfg none { s with q := { s.q with
      flow := Function.update s.q.flow f (classify s.cfg s.q f app) } } := by
  have hflow : ∀ g, (g = f → s.Holds f) →
      (Function.update s.q.flow f (classify s.cfg s.q f app) g).ruleMask = (s.q.flow g).ruleMask
        ∧ (Function.update s.q.flow f (classify s.cfg s.q f app) g).weight
          = (s.q.flow g).weight := by
    intro g hg
    by_cases hgf : g = f
    · subst hgf
      rw [Function.update_self]
      exact hkeep (hg rfl)
    · rw [Function.update_of_ne hgf]
      exact ⟨rfl, rfl⟩
  have hq : Quiet s.q { s.q with
      flow := Function.update s.q.flow f (classify s.cfg s.q f app) } := by
    refine ⟨⟨fun _ => rfl, fun _ => rfl, fun _ => rfl⟩, fun _ => rfl, fun _ => rfl, fun _ => rfl, fun _ _ => rfl,
      h.base.acct.flowsNodup, h.base.acct.usersNodup,
      fun g ⟨d, hd⟩ => h.base.acct.tracked g d (.inr hd),
      fun g ⟨d, hd⟩ => h.base.acct.userTracked g d (.inr hd), fun _ _ _ => rfl,
      fun g hg => (hflow g fun e => .inl (e ▸ hg)).1, fun g hg => (hflow g fun e => .inl (e ▸ hg)).2,
      rfl, rfl⟩
  refine h.quiet hq rfl ⟨h.base.classes.userMask, h.base.classes.userWeight, fun g i hi => ?_⟩
    h.base.tokens (fun p hp => ?_) (fun hb => (h.served hb).congr fun _ => rfl)
  · by_cases hg : g = f
    · subst hg
      simp only [Function.update_self] at hi ⊢
      exact classify_ok h.base.classes hu app hi
    · simp only [Function.update_of_ne hg] at hi ⊢
      exact h.base.classes.flowRule g i hi
  · obtain ⟨h₁, h₂, h₃⟩ := h.base.inflight p hp
    refine ⟨h₁, h₂, h₃.trans (hflow p.flow fun e => .inr ⟨p, hp, e⟩).1.symm⟩

/-! ## A flow is removed -/

/-- Clearing a flow that holds nothing is quiet. -/
theorem flowTrackClear_quiet {q : QueueState} (h : Acct q) {f : FlowId} (hf : ¬ Holding q f) :
    Quiet q (flowTrackClear q f) := by
  refine (flowReset_clear q f).quiet h hf (fun _ _ => rfl) (h.flowsNodup.erase f) fun g hg => ?_
  have hne : g ≠ f := fun e => hf (e ▸ hg)
  obtain ⟨d, hd⟩ := hg
  exact (List.mem_erase_of_ne hne).mpr (h.tracked g d (.inr hd))

/-- Removing a flow that holds nothing does not stop and keeps the invariant. -/
theorem Inv.onFlowFree_eq {b : Prop} {cfg : Config} {s : State} (h : Inv b cfg none s) {f : FlowId}
    (hf : ¬ s.Holds f) :
    onFlowFree s f = .ok (if f ∈ s.q.flows then { s with q := flowTrackClear s.q f } else s)
      ∧ Inv b cfg none (if f ∈ s.q.flows then { s with q := flowTrackClear s.q f } else s) := by
  have hacct := h.base.acct
  have hidle : ¬ Holding s.q f := fun hg => hf (.inl hg)
  unfold onFlowFree
  by_cases hmem : f ∈ s.q.flows
  · rw [if_pos hmem, if_pos hmem]
    constructor
    · have hempty : ∀ d, flowBacklogEmpty s.q f d = .ok true := by
        intro d
        obtain ⟨hp, htc, ho⟩ := hacct.idle_flow hidle d
        exact hacct.links.flowEmpty_iff.mpr (.inl ⟨rfl, htc, ho, hp⟩)
      unfold flowTrackCleanup
      rw [hempty 0, hempty 1]
      rfl
    · have hq := flowTrackClear_quiet hacct hidle
      refine h.quiet hq rfl ⟨h.base.classes.userMask, h.base.classes.userWeight, fun g i hi => ?_⟩
        h.base.tokens (fun p hp => ?_) (fun hb => (h.served hb).congr hq.links.tc)
      · by_cases hg : g = f
        · subst hg
          simp [flowTrackClear] at hi
        · simp only [flowTrackClear, Function.update_of_ne hg] at hi ⊢
          exact h.base.classes.flowRule g i hi
      · obtain ⟨h₁, h₂, h₃⟩ := h.base.inflight p hp
        have hpf : p.flow ≠ f := fun e => hf (.inr ⟨p, hp, e⟩)
        refine ⟨(List.mem_erase_of_ne hpf).mpr h₁, h₂, ?_⟩
        simp only [flowTrackClear, Function.update_of_ne hpf]
        exact h₃
  · rw [if_neg hmem, if_neg hmem]
    exact ⟨rfl, h⟩

end Tbq
