/-
# Safety of the scheduler

What the invariant of the runs says in terms of the source: the masks, the timer and
the signs of the tokens agree, the counters are the sums they stand for, nothing that
is queued is forgotten, and an idle user can be freed.
-/
import OpenwrtAc.TbqRuns

open Outcome MachineInt ListSum

namespace Tbq

/-! ## Runs that can be evaluated -/

/-- A test on an event that implies `Admissible`; a tick, whose order of the slots is a
function, does not pass it. -/
def Event.evident (s : State) : Event → Bool
  | .filter f _ app _ _ => decide ((s.q.flow f).appId = app
      ∨ (s.q.packets f 0 = [] ∧ s.q.packets f 1 = [] ∧ ∀ p ∈ s.inflight, p.flow ≠ f))
  | .enqueue p => decide (p ∈ s.inflight)
  | .elapse _ => true
  | _ => false

/-- The test on an event is the condition on it. -/
theorem Event.admissible_of_evident {s : State} {e : Event} (h : e.evident s = true) :
    Admissible s e := by
  cases e with
  | filter f d app len allocOk =>
      intro hold
      rcases of_decide_eq_true h with happ | ⟨h₀, h₁, hfly⟩
      · unfold classify
        simp [happ]
      · rcases hold with ⟨d, hd⟩ | ⟨p, hp, hpf⟩
        · rcases dir_cases d with rfl | rfl
          · exact absurd h₀ hd
          · exact absurd h₁ hd
        · exact absurd hpf (hfly p hp)
  | enqueue p =>
      have hp : p ∈ s.inflight := of_decide_eq_true h
      exact hp
  | elapse n => trivial
  | _ => cases h

/-- The events of a list, as long as each one passes the test and the octets stay below
the bound. -/
def play (B : ℕ) (s : State) (l : List Event) : Except Stop State :=
  l.foldlM (fun s e => do
    stopIf (e.evident s = false ∨ B ≤ load s e) .fuel
    step 20 s e) s

/-- Events that are played reach what they lead to. -/
theorem reachable_play {B : ℕ} {s₀ s s' : State} {l : List Event}
    (h : Reachable (Below B) s₀ s) (hl : play B s l = .ok s') : Reachable (Below B) s₀ s' := by
  induction l generalizing s with
  | nil =>
      obtain rfl := pure_eq_ok.mp hl
      exact h
  | cons e l ih =>
      unfold play at hl
      rw [List.foldlM_cons, bind_eq_ok] at hl
      obtain ⟨s₁, hs₁, hl⟩ := hl
      rw [bind_eq_ok] at hs₁
      obtain ⟨_, htest, hs₁⟩ := hs₁
      rw [stopIf_eq_ok] at htest
      obtain ⟨hev, hB⟩ := not_or.mp htest
      refine ih (.step h (Event.admissible_of_evident (by simpa using hev)) ?_ hs₁) hl
      exact not_le.mp hB

/-- A list of events that ends in a state with a decidable property. -/
theorem reach_of_play {B : ℕ} {c : Config} {l : List Event} {p : State → Bool}
    (h : ((play B (initState c 0) l).toOption.any p) = true) :
    ∃ s, Reachable (Below B) (initState c 0) s ∧ p s = true := by
  obtain ⟨s, hs, hp⟩ := ok_of_any h
  exact ⟨s, reachable_play .init hs, hp⟩

/-- What restricted runs reach, all runs reach. -/
theorem Reachable.anyEvent {P : State → Event → Prop} {s₀ s : State} (h : Reachable P s₀ s) :
    Reachable AnyEvent s₀ s := by
  induction h with
  | init => exact .init
  | step _ hadm _ hs ih => exact .step ih hadm trivial hs

/-- One rule without conditions, a tick rate of 12 and the same rate for the bucket and
for every user. -/
def oneRule (rate : ℤ) (latencyShift : ℕ) (hrate : RateOk 12 rate) (hshift : latencyShift ≤ 10) :
    Config where
  HZ := 12
  rules := [⟨[], [], fun _ => ⟨rate, rate⟩⟩]
  maxBacklogPackets := 100
  latencyShift := latencyShift
  hz_ge := le_refl 12
  nr_rule_le := by simp
  rate_ok := by
    intro r hr d
    obtain rfl := List.mem_singleton.mp hr
    exact ⟨hrate, hrate⟩
  weight_ok := by
    intro r hr w hw
    obtain rfl := List.mem_singleton.mp hr
    cases hw
  latency_le := hshift

/-- The rate of the sample is positive. -/
theorem oneRule_ratesPositive {rate : ℤ} {latencyShift : ℕ} {hrate : RateOk 12 rate}
    {hshift : latencyShift ≤ 10} (hpos : 0 < rate) :
    (oneRule rate latencyShift hrate hshift).RatesPositive := by
  intro r hr d
  obtain rfl := List.mem_singleton.mp hr
  exact ⟨hpos, hpos⟩

/-- A flow of user `1`. -/
def flowA : FlowId := ⟨1, 1⟩

/-- A packet of `flowA` reaches the filter. -/
def arrive (len : SkbLen) : Event := .filter flowA 0 1 len true

/-- The packet reaches the queue handler. -/
def handle (len : SkbLen) : Event := .enqueue ⟨flowA, 0, 1#32, len.1, len.pos, len.lt⟩

/-- A packet of the given length that is queued. -/
def queueOne (len : SkbLen) : List Event := [arrive len, handle len]

/-- A rate of 1000 octets per tick. -/
def slowConfig : Config := oneRule 1000 7 ⟨by decide, by decide⟩ (by decide)

/-- The first packet is sent and puts the user and its bucket into debt; two more packets
wait. -/
def slowRun : List Event :=
  arrive ⟨1500, by decide⟩ :: queueOne ⟨600, by decide⟩ ++ queueOne ⟨40, by decide⟩

/-! ## Masks, timer and tokens -/

/-- The assertions that rest on the agreement of the masks, the timer lists and the
signs of the tokens. -/
def agreementBugs : List Stop :=
  [.queue .flowAttachActive, .sched .tryDequeueList, .sched .tryDequeueSameTc,
    .token .consumeTokens, .token .timerDelTokens]

/-- What is tolerated is no disagreement of the marks. -/
theorem Tolerated.not_agreement {b : Prop} {cfg : Config} (hpos : cfg.RatesPositive) {e : Stop}
    (h : Tolerated b cfg e) : e ∉ agreementBugs := by
  rcases h with rfl | ⟨hno, -⟩ | ⟨-, hb⟩
  · decide
  · exact absurd hpos hno
  · intro hmem
    simp only [agreementBugs, List.mem_cons, List.not_mem_nil, or_false] at hmem
    rcases hmem with rfl | rfl | rfl | rfl | rfl <;> exact hb

/-- A bit of an inactive mask is set exactly when the token control is on the timer, and with
positive rates no token control has a debt. -/
theorem Idle.masks_tokens {b : Prop} {cfg : Config} {s : State} (h : Idle b cfg s)
    (hpos : cfg.RatesPositive) :
    (∀ X, s.t.inactive X = true ↔ X ∈ s.t.pending) ∧ ∀ X, 0 ≤ (s.t.tc X).tokens := by
  have ht := h.inv.base.tokens
  rw [h.inv.cfg_eq] at ht
  exact ⟨fun X => (ht.pendingOk.mask X).symm, ht.nonneg hpos⟩

/-! ## Exact accounting -/

/-- The weight for rule `r.i` of the user's flows that hold packets. -/
def backlogWeight (q : QueueState) (r : UserRef) : ℕ :=
  total q.flows fun f =>
    if f.user = r.u ∧ q.packets f r.d ≠ [] ∧ (q.flow f).ruleMask.has r.i = true
    then (q.flow f).weight r.i else 0

/-- The octets that the flows attached to the user entry `r` have counted. -/
def attachedOctets (q : QueueState) (r : UserRef) : ℕ :=
  total q.flows fun f =>
    if (q.unit (.flow f r.d)).tc = some (.user r) then (q.unit (.flow f r.d)).octets else 0

/-- The assertions of `tbq_user_backlog_update` and `tbq_backlog_dequeue`, and the division
of `tbq_backlog_max_octets`. -/
def accountingBugs : List Stop :=
  [.queue .userBacklogFirst, .queue .userBacklogLast, .queue .backlogDequeue,
    .queue .maxOctetsDivide]

/-- What is tolerated is no error of the accounts. -/
theorem Tolerated.not_accounting {cfg : Config} {e : Stop} (h : Tolerated True cfg e) :
    e ∉ accountingBugs := by
  rcases h with rfl | ⟨-, b, rfl⟩ | ⟨hno, -⟩
  · decide
  · simp [accountingBugs]
  · exact absurd trivial hno

namespace Acct

variable {q : QueueState}

/-- Below the bound the flows that hold packets are the attached ones. -/
theorem userWeight_eq_backlogWeight (h : Acct q) (hs : Small q) (r : UserRef) :
    userWeight q r = backlogWeight q r := by
  apply total_congr
  intro f _
  have hiff : (q.unit (.flow f r.d)).tc ≠ none ↔ q.packets f r.d ≠ [] :=
    ⟨h.busy f r.d, fun hp => h.attached_of_packets hs hp⟩
  simp only [hiff]

/-- The octets counted at a flow are those of its packets. -/
theorem flowOctets_eq (h : Acct q) (hs : Small q) {f : FlowId} (hf : f ∈ q.flows) (d : Dir) :
    (q.unit (.flow f d)).octets = bytes (q.packets f d) := by
  have := bytes_le_totalBytes hf d
  unfold Small at hs
  rw [h.flowOctets]
  omega

/-- The octets that wait for a user are those of the flows attached to it. -/
theorem waitingBytes_eq_attachedOctets (h : Acct q) (hs : Small q) (r : UserRef) :
    waitingBytes q r = attachedOctets q r := by
  apply total_congr
  intro f hf
  rw [h.flowOctets_eq hs hf]

end Acct

/-- While fewer than `2 ^ 31` octets are queued every counter is the sum it stands for, and
the assertions and the division that rely on the counters are safe in every step. -/
theorem accounting_exact {cfg : Config} {now : ℕ} {s : State}
    (h : Reachable (Below (2 ^ 31)) (initState cfg now) s) :
    (∀ r, (s.q.bl (.user r)).octets = userBytes s.q r)
    ∧ (∀ d i, (s.q.bl (.bucket d i)).octets = bucketBytes s.q d i)
    ∧ (∀ r, (s.q.bl (.user r)).weight = backlogWeight s.q r)
    ∧ (∀ d i, (s.q.bl (.bucket d i)).weight = bucketWeight s.q d i)
    ∧ (∀ r, (s.q.unit (.user r)).octets = attachedOctets s.q r)
    ∧ s.q.backlogPackets = queued s.q
    ∧ ∀ fuel e err, Admissible s e → Below (2 ^ 31) s e → step fuel s e = .error err →
        err ∉ accountingBugs := by
  have hlt : ∀ s e, Below (2 ^ 31) s e → True → load s e < 2 ^ 32 := by
    intro s e hb _
    unfold Below at hb
    omega
  have hi : Idle True cfg s := h.idle hlt
  have ha := hi.inv.base.acct
  have hs : Small s.q := hi.inv.small trivial
  have hs' : totalBytes s.q < 2 ^ 32 := hs
  refine ⟨fun r => ?_, fun d i => ?_, fun r => ?_, ha.bucketWeights, fun r => ?_, ?_,
    fun fuel e err hadm hb herr => ?_⟩
  · have := userBytes_le s.q r
    rw [ha.tcOctets]
    omega
  · have := bucketBytes_le s.q d i
    rw [ha.bucketOctets]
    omega
  · rw [ha.tcWeight, ha.userWeight_eq_backlogWeight hs]
  · have := waitingBytes_le s.q r
    rw [ha.userOctets, ← ha.waitingBytes_eq_attachedOctets hs]
    omega
  · have hcount := hi.inv.base.count
    have := queued_le s.q
    rw [hi.nrSend, hi.nrDrop] at hcount
    omega
  · exact ((hi.step_sat fuel hadm (hlt s e hb)).of_error herr).not_accounting

/-- Two packets wait in a run of the sample configuration. -/
theorem accounting_exact_slowRun :
    ∃ s, Reachable (Below (2 ^ 31)) (initState slowConfig 0) s
      ∧ (s.q.packets flowA 0).length = 2 ∧ s.q.backlogPackets = queued s.q := by
  obtain ⟨s, hs, hp⟩ := reach_of_play (B := 2 ^ 31) (c := slowConfig) (l := slowRun)
    (p := fun s => decide ((s.q.packets flowA 0).length = 2)) (by decide +kernel)
  obtain ⟨-, -, -, -, -, hcount, -⟩ := accounting_exact hs
  exact ⟨s, hs, of_decide_eq_true hp, hcount⟩

/-! ## Nothing is forgotten -/

/-- The flow is in exactly one list, once: that of the user entry `r`. -/
def AttachedOnce (q : QueueState) (f : FlowId) (d : Dir) (r : UserRef) : Prop :=
  (q.unit (.flow f d)).tc = some (.user r)
    ∧ ∀ X, (q.bl X).units.count (.flow f d) = if X = .user r then 1 else 0

/-- The user entry is on the timer, or waits for a bucket that is. -/
def WillRun (s : State) (r : UserRef) : Prop :=
  TcId.user r ∈ s.t.pending
    ∨ ((s.q.unit (.user r)).tc = some r.bucket ∧ UnitId.user r ∈ (s.q.bl r.bucket).units
      ∧ r.bucket ∈ s.t.pending)

/-- Every flow that holds packets waits at one user entry, which will run. -/
def NoneStranded (s : State) : Prop :=
  ∀ f d, s.q.packets f d ≠ [] → ∃ r, AttachedOnce s.q f d r ∧ WillRun s r

/-- A flow that waits is attached once. -/
theorem Links.attachedOnce {q : QueueState} (h : Links q) {f : FlowId} {d : Dir} {r : UserRef}
    (htc : (q.unit (.flow f d)).tc = some (.user r)) : AttachedOnce q f d r := by
  refine ⟨htc, fun X => ?_⟩
  by_cases hX : X = .user r
  · rw [if_pos hX, hX]
    exact List.count_eq_one_of_mem (h.nodup _) ((h.units _ _).mpr htc)
  · rw [if_neg hX]
    apply List.count_eq_zero_of_not_mem
    rw [h.units, htc]
    exact fun e => hX (Option.some.inj e).symm

/-- The invariant says that nothing is stranded. -/
theorem Idle.noneStranded {cfg : Config} {s : State} (h : Idle True cfg s) : NoneStranded s := by
  intro f d hp
  have ha := h.inv.base.acct
  have hserved := h.inv.served trivial
  obtain ⟨X, hX⟩ := Option.ne_none_iff_exists'.mp (ha.attached_of_packets (h.inv.small trivial) hp)
  cases X with
  | bucket d i => exact (ha.links.compat _ _ hX).elim
  | user r =>
      refine ⟨r, ha.links.attachedOnce hX, ?_⟩
      rcases hserved.flow f d r hX with hpend | hw | hne
      · exact .inl hpend
      · cases hw
      · obtain ⟨Y, hY⟩ := Option.ne_none_iff_exists'.mp hne
        obtain rfl : Y = r.bucket := ha.links.compat _ _ hY
        rcases hserved.user r hne with hpend | hw
        · exact .inr ⟨hY, (ha.links.units _ _).mpr hY, hpend⟩
        · cases hw

/-- When the timer is empty so is the queue. -/
theorem Idle.empty_of_timer {cfg : Config} {s : State} (h : Idle True cfg s)
    (hnil : s.t.pending = []) : (∀ f d, s.q.packets f d = []) ∧ s.q.backlogPackets = 0 := by
  have hempty : ∀ f d, s.q.packets f d = [] := by
    intro f d
    by_contra hp
    obtain ⟨r, -, hpend | ⟨-, -, hpend⟩⟩ := h.noneStranded f d hp
    · rw [hnil] at hpend
      cases hpend
    · rw [hnil] at hpend
      cases hpend
  refine ⟨hempty, ?_⟩
  have hq : queued s.q = 0 := by
    apply total_eq_zero.mpr
    intro f _
    rw [hempty, hempty]
    rfl
  rw [h.inv.base.count, hq, h.nrSend, h.nrDrop, Nat.zero_mod]

/-- While fewer than `2 ^ 32` octets are queued nothing is stranded, an empty timer means
an empty queue, and the assertion of `tbq_global_set_config` holds once `tbq_disable` has
succeeded. -/
theorem none_stranded {cfg : Config} {now : ℕ} {s : State}
    (h : Reachable (Below (2 ^ 32)) (initState cfg now) s) :
    NoneStranded s
    ∧ (s.t.nrPending = 0 → (∀ f d, s.q.packets f d = []) ∧ s.q.backlogPackets = 0)
    ∧ (s.status = .stopped → globalSetConfigAsserts s = .ok ()) := by
  have hi : Idle True cfg s := h.idle fun s e hb _ => hb
  refine ⟨hi.noneStranded, fun h0 => hi.empty_of_timer ?_, fun hst => ?_⟩
  · have hcount := hi.inv.base.tokens.pendingOk.count
    rw [h0] at hcount
    exact List.length_eq_zero_iff.mp hcount.symm
  · obtain ⟨-, hbp⟩ := hi.empty_of_timer (hi.stopped (.inl hst))
    unfold globalSetConfigAsserts
    rw [stopIf_of_not (not_not.mpr hst), stopIf_of_not (not_not.mpr hbp)]
    rfl

/-- Two packets wait in a run, and neither is stranded. -/
theorem none_stranded_slowRun :
    ∃ s, Reachable (Below (2 ^ 32)) (initState slowConfig 0) s
      ∧ (s.q.packets flowA 0).length = 2 ∧ NoneStranded s := by
  obtain ⟨s, hs, hp⟩ := reach_of_play (B := 2 ^ 32) (c := slowConfig) (l := slowRun)
    (p := fun s => decide ((s.q.packets flowA 0).length = 2)) (by decide +kernel)
  exact ⟨s, hs, of_decide_eq_true hp, (none_stranded hs).1⟩

/-- A rate and a latency at which a flow may hold almost `2 ^ 32` octets. -/
def wideConfig : Config := oneRule (2 ^ 25 - 1) 7 ⟨by decide, by decide⟩ (by decide)

/-- After the first packet the token controls are in debt for one tick; then a packet of
5 octets is queued and, behind it, packets of `2 ^ 32` octets in all. -/
def wideRun : List Event :=
  arrive ⟨1, by decide⟩ :: queueOne ⟨5, by decide⟩ ++ queueOne ⟨4, by decide⟩
    ++ queueOne ⟨2 ^ 30 - 1, by decide⟩ ++ queueOne ⟨2 ^ 30 - 1, by decide⟩
    ++ queueOne ⟨2 ^ 30 - 1, by decide⟩ ++ queueOne ⟨2 ^ 30 - 1, by decide⟩ ++ [.elapse 1]

/-- Without a bound on the queued octets packets can be stranded: the octets of the flow
wrap to 5, the next tick sends the 5 octets at its head and takes the flow for empty. -/
theorem wrapped_octets_strand :
    ∃ s, Reachable AnyEvent (initState wideConfig 0) s ∧ s.t.nrPending = 0
      ∧ (s.q.packets flowA 0).length = 5 ∧ s.q.backlogPackets = 5 ∧ ¬ NoneStranded s := by
  obtain ⟨s, hs, hp⟩ := reach_of_play (B := 2 ^ 33) (c := wideConfig) (l := wideRun)
    (p := fun s => (step 20 s (.tick fun _ l => l)).toOption.any fun s : State => decide (s.t.nrPending = 0
      ∧ (s.q.packets flowA 0).length = 5 ∧ s.q.backlogPackets = 5 ∧ s.t.pending = []))
    (by decide +kernel)
  cases htick : step 20 s (.tick fun _ l => l) with
  | error e =>
      rw [htick] at hp
      cases hp
  | ok s' =>
      rw [htick] at hp
      obtain ⟨h₁, h₂, h₃, h₄⟩ := of_decide_eq_true hp
      have hadm : Admissible s (.tick fun _ l => l) := fun _ l => List.Perm.refl l
      refine ⟨s', .step hs.anyEvent hadm trivial htick, h₁, h₂, h₃, fun hno => ?_⟩
      have hne : s'.q.packets flowA 0 ≠ [] := by
        intro hnil
        rw [hnil] at h₂
        cases h₂
      obtain ⟨r, -, hpend | ⟨-, -, hpend⟩⟩ := hno flowA 0 hne
      · rw [h₄] at hpend
        cases hpend
      · rw [h₄] at hpend
        cases hpend

/-! ## Freeing a user -/

/-- A user whose flows hold no packets can be freed, in debt or not: no assertion fails, exactly
its own entries leave the timer, and no other entry and no bucket changes. -/
theorem Idle.userFree {cfg : Config} {s : State} (hi : Idle False cfg s) {u : UserId}
    (hidle : ∀ f ∈ s.q.flows, f.user = u → ∀ d, s.q.packets f d = []) :
    ∃ s', onUserFree s u = .ok s'
      ∧ s'.t.pending = s.t.pending.filter (fun X => !X.ofUser u)
      ∧ s'.t.nrPending + (s.t.pending.filter fun X => X.ofUser u).length = s.t.nrPending
      ∧ (∀ X, X.ofUser u = false → s'.t.tc X = s.t.tc X ∧ s'.t.inactive X = s.t.inactive X
          ∧ s'.q.bl X = s.q.bl X)
      ∧ s'.q = { s.q with users := s.q.users.erase u } := by
  have hb := hi.inv.base
  have hsplit := List.length_eq_length_filter_add (l := s.t.pending) fun X => X.ofUser u
  have hcount := hb.tokens.pendingOk.count
  by_cases hu : u ∈ s.q.users
  · have hnone : ∀ f, f.user = u → ¬ Holding s.q f := by
      rintro f hf ⟨d, hd⟩
      exact hd (hidle f (hb.acct.tracked f d (.inr hd)) hf d)
    refine ⟨userFreed s u, onUserFree_eq hb hu hnone, userCleared_pending s.t u, ?_,
      fun X hX => ⟨rfl, ?_, rfl⟩, rfl⟩
    · have hok := schedCleared_ok (schedCleared_ok hb.tokens u 0) u 1
      have hcount' : (userCleared s.t u).nrPending = (userCleared s.t u).pending.length :=
        hok.pendingOk.count
      rw [userCleared_pending] at hcount'
      show (userCleared s.t u).nrPending + _ = _
      omega
    · show (userCleared s.t u).inactive X = _
      rw [userCleared_inactive hb.tokens, hX]
      simp
  · -- the user was never tracked, so none of its entries is on the timer
    have hnone : ∀ X ∈ s.t.pending, X.ofUser u = false := by
      intro X hX
      cases X with
      | bucket d i => rfl
      | user r =>
          obtain ⟨⟨hru, -⟩, -⟩ := hb.tokens.live _ hX
          have hne : r.u ≠ u := fun e => hu (e ▸ hru)
          simp [TcId.ofUser, hne]
    refine ⟨s, by unfold onUserFree; rw [if_neg hu]; rfl, ?_, ?_, fun _ _ => ⟨rfl, rfl, rfl⟩, ?_⟩
    · exact (List.filter_eq_self.mpr fun X hX => by rw [hnone X hX]; rfl).symm
    · rw [List.filter_eq_nil_iff.mpr fun X hX => by rw [hnone X hX]; simp]
      rfl
    · rw [List.erase_of_not_mem hu]

end Tbq
