/-
# Fairness of the dequeue loops

A unit is charged for every packet that is sent while it is at the head of its list, and
goes to the tail when its deficit is used up.  Between two rounds other units are attached,
detached and moved to other lists.  Here the rounds are followed for two units that stay
where they are: what a round does to the two is a run of `RoundRobin`, and the bound on
what they send is the one proved there.
-/
import OpenwrtAc.TbqTurns

open Outcome MachineInt ListSum RoundRobin

namespace Tbq

/-! ## Two units of one token control -/

/-- Two units of the token control `X`, as the round robin sees them. -/
def pairOf (q : QueueState) (X : TcId) (a b : UnitId) : Pair :=
  ⟨decide (Ahead (q.bl X).units a b), (q.unit a).drrDeficit, (q.unit b).drrDeficit⟩

/-- Both units are attached to `X`. -/
def Both (X : TcId) (a b : UnitId) (q : QueueState) : Prop :=
  (q.unit a).tc = some X ∧ (q.unit b).tc = some X

instance (X : TcId) (a b : UnitId) (q : QueueState) : Decidable (Both X a b q) :=
  inferInstanceAs (Decidable (_ ∧ _))

variable {X : TcId} {a b : UnitId} {q q' : QueueState}

/-- The pair does not notice a change that keeps their deficits and their order. -/
theorem pairOf_congr (hl : Links q) (hl' : Links q') (hne : a ≠ b) (hab : Both X a b q)
    (ha : (q'.unit a).drrDeficit = (q.unit a).drrDeficit)
    (hb : (q'.unit b).drrDeficit = (q.unit b).drrDeficit)
    (horder : ∀ x y, (x = a ∧ y = b ∨ x = b ∧ y = a) → Ahead (q.bl X).units x y →
      Ahead (q'.bl X).units x y) : pairOf q' X a b = pairOf q X a b := by
  unfold pairOf
  rw [ha, hb, decide_ahead_congr (hl'.nodup X) ((hl.units X a).mpr hab.1) ((hl.units X b).mpr hab.2)
    hne (horder a b (.inl ⟨rfl, rfl⟩)) (horder b a (.inr ⟨rfl, rfl⟩))]

/-- Detaching others leaves what the two are owed. -/
theorem Shed.pairOf (h : Shed q q') (hl : Links q) (hne : a ≠ b) (hab : Both X a b q)
    (hab' : Both X a b q') : Tbq.pairOf q' X a b = Tbq.pairOf q X a b := by
  refine pairOf_congr hl h.links hne hab (h.deficit a) (h.deficit b) fun x y hxy hahead => ?_
  have hx : (q'.unit x).tc = some X ∧ (q'.unit y).tc = some X := by
    rcases hxy with ⟨rfl, rfl⟩ | ⟨rfl, rfl⟩
    · exact hab'
    · exact hab'.symm
  rw [h.units]
  exact hahead.filter (by simpa using hx.1) (by simpa using hx.2)

/-- Adding others leaves what the two are owed. -/
theorem Grown.pairOf (h : Grown q q') (hl : Links q) (hl' : Links q') (hne : a ≠ b)
    (hab : Both X a b q) : Tbq.pairOf q' X a b = Tbq.pairOf q X a b := by
  refine pairOf_congr hl hl' hne hab (h.kept a (by rw [hab.1]; simp)).2.2
    (h.kept b (by rw [hab.2]; simp)).2.2 fun x y _ hahead => ?_
  obtain ⟨l, hl⟩ := h.units X
  rw [hl]
  exact hahead.append l

/-- What happens to two units that stay attached to `X`, and send `m` and `n`. -/
def PairRun (X : TcId) (a b : UnitId) (m n : ℕ) (q q' : QueueState) : Prop :=
  Both X a b q → Both X a b q' →
    (q'.unit a).weight = (q.unit a).weight ∧ (q'.unit b).weight = (q.unit b).weight
      ∧ Run tbqDrrQuantum (q.unit a).weight (q.unit b).weight (pairOf q X a b) m n (pairOf q' X a b)

/-- Detaching or attaching other units is no step for the two. -/
theorem Shed.pairRun (h : Shed q q') (hl : Links q) (hne : a ≠ b) : PairRun X a b 0 0 q q' := by
  intro hab hab'
  rw [h.pairOf hl hne hab hab']
  exact ⟨h.weight a, h.weight b, .refl⟩

/-- Adding others is a stretch in which neither of the two sends. -/
theorem Grown.pairRun (h : Grown q q') (hl : Links q) (hl' : Links q') (hne : a ≠ b) :
    PairRun X a b 0 0 q q' := by
  intro hab _
  rw [h.pairOf hl hl' hne hab]
  exact ⟨(h.kept a (by rw [hab.1]; simp)).2.1, (h.kept b (by rw [hab.2]; simp)).2.1, .refl⟩

/-- Charging the unit at the head of a list is a step of the round robin of any two units. -/
theorem scheduled_step (h : TurnsOk q) (hl : Links q) {x : UnitId} {n : ℕ}
    (hn : n ≤ tbqDrrQuantum) (hhead : ∀ Y, (q.unit x).tc = some Y → (q.bl Y).units.head? = some x)
    (hne : a ≠ b) (hab : Both X a b q) :
    Step tbqDrrQuantum (q.unit a).weight (q.unit b).weight (pairOf q X a b)
      (if a = x then n else 0) (if b = x then n else 0) (pairOf (scheduled q x n) X a b) := by
  have hl' := hl.scheduled_links x n
  have hmem : a ∈ (q.bl X).units ∧ b ∈ (q.bl X).units :=
    ⟨(hl.units X a).mpr hab.1, (hl.units X b).mpr hab.2⟩
  have hcharge := drrCharge_eq (h.weight x) hn (h.turn x)
  have hunits := scheduled_units (q := q) x n X
  by_cases hax : a = x
  · -- the first unit sends: it is ahead, and behind when its turn is over
    subst hax
    have hahead : Ahead (q.bl X).units a b :=
      (ahead_total hmem.1 hmem.2 hne).resolve_right
        (not_ahead_of_head? (hl.nodup X) (hhead X hab.1))
    rw [if_pos rfl, if_neg hne.symm]
    have hafter : pairOf (scheduled q a n) X a b
        = ⟨!(charge tbqDrrQuantum (q.unit a).weight (q.unit a).drrDeficit n).2,
          (charge tbqDrrQuantum (q.unit a).weight (q.unit a).drrDeficit n).1,
          (q.unit b).drrDeficit⟩ := by
      unfold pairOf
      rw [scheduled_unit, if_pos ⟨rfl, by rw [hab.1]; simp⟩, scheduled_unit,
        if_neg fun hc => hne hc.1.symm, hcharge]
      congr 1
      rw [hunits, hcharge]
      cases hturn : (charge tbqDrrQuantum (q.unit a).weight (q.unit a).drrDeficit n).2 with
      | false => simpa using hahead
      | true =>
          rw [if_pos ⟨hab.1, rfl⟩]
          have hnot : ¬ Ahead ((q.bl X).units.erase a ++ [a]) a b := by
            rw [hcharge, hturn, if_pos ⟨hab.1, rfl⟩] at hunits
            rw [← hunits]
            refine Ahead.asymm (hl'.nodup X) ?_
            rw [hunits]
            exact ahead_rotate hmem.2 hne.symm
          simpa using hnot
    rw [hafter]
    exact .fst n (decide_eq_true hahead)
  · rw [if_neg hax]
    by_cases hbx : b = x
    · subst hbx
      have hahead : ¬ Ahead (q.bl X).units a b :=
        not_ahead_of_head? (hl.nodup X) (hhead X hab.2)
      rw [if_pos rfl]
      have hafter : pairOf (scheduled q b n) X a b
          = ⟨(charge tbqDrrQuantum (q.unit b).weight (q.unit b).drrDeficit n).2,
            (q.unit a).drrDeficit,
            (charge tbqDrrQuantum (q.unit b).weight (q.unit b).drrDeficit n).1⟩ := by
        unfold pairOf
        rw [scheduled_unit, if_neg fun hc => hne hc.1, scheduled_unit,
          if_pos ⟨rfl, by rw [hab.2]; simp⟩, hcharge]
        congr 1
        rw [hunits, hcharge]
        cases (charge tbqDrrQuantum (q.unit b).weight (q.unit b).drrDeficit n).2 with
        | false => simpa using hahead
        | true =>
            rw [if_pos ⟨hab.2, rfl⟩]
            exact decide_eq_true (ahead_rotate hmem.1 hne)
      rw [hafter]
      exact .snd n (decide_eq_false hahead)
    · -- another unit sends
      rw [if_neg hbx]
      have hsame : pairOf (scheduled q x n) X a b = pairOf q X a b := by
        refine pairOf_congr hl hl' hne hab (by rw [scheduled_unit, if_neg fun hc => hax hc.1])
          (by rw [scheduled_unit, if_neg fun hc => hbx hc.1]) fun y z hyz hahead => ?_
        have hy : y ≠ x ∧ z ≠ x := by
          rcases hyz with ⟨rfl, rfl⟩ | ⟨rfl, rfl⟩
          · exact ⟨hax, hbx⟩
          · exact ⟨hbx, hax⟩
        rw [hunits]
        split
        · exact (hahead.erase hy.1 hy.2).append [x]
        · exact hahead
      rw [hsame]
      exact .rest

/-! ## One try -/

/-- The packet leaves from the unit `x`: from its flow, or from the user entry that its flow
waits for. -/
def leaves (q : QueueState) (x : UnitId) (p : Packet) : Bool :=
  match x with
  | .flow f d => decide (p.flow = f ∧ p.dir = d)
  | .user r => decide ((q.unit (.flow p.flow p.dir)).tc = some (.user r))

/-- The octets that leave from the unit `x` between two states of a dequeue loop: those of
the packets put on `dq.send`. -/
def sentBetween (x : UnitId) (s s' : State) : ℕ :=
  bytes ((s'.q.dq.send.drop s.q.dq.send.length).filter (leaves s.q x))

/-- Where nothing is sent a unit has sent nothing. -/
theorem sentBetween_same {s s' : State} (h : s'.q.dq.send = s.q.dq.send) (x : UnitId) :
    sentBetween x s s' = 0 := by
  unfold sentBetween
  rw [h, List.drop_length]
  rfl

/-- A change of the queue alone sends nothing. -/
theorem sentBetween_queue {s : State} {q' : QueueState}
    (h : q'.dq.send = s.q.dq.send) (x : UnitId) :
    sentBetween x s { s with q := q' } = 0 :=
  sentBetween_same h x

/-- A turn changes no weight. -/
theorem scheduled_weight (q : QueueState) (x y : UnitId) (n : ℕ) :
    ((scheduled q x n).unit y).weight = (q.unit y).weight := by
  rw [scheduled_unit]
  split
  · rename_i hy
    rw [hy.1]
    exact (drrCharge_tc (q.unit x) n).2.2.2
  · rfl

/-- A turn leaves both in the list. -/
theorem both_scheduled {x : UnitId} {n : ℕ} : Both X a b (scheduled q x n) ↔ Both X a b q := by
  unfold Both
  rw [(scheduled_tc q x a n).1, (scheduled_tc q x b n).1]

/-- The head of a list stays at the head as long as it is attached. -/
theorem Shed.head? (h : Shed q q') {x : UnitId} (hx : (q'.unit x).tc = some X)
    (hhead : (q.bl X).units.head? = some x) : (q'.bl X).units.head? = some x := by
  obtain ⟨t, ht⟩ := List.head?_eq_some_iff.mp hhead
  rw [h.units, ht, List.filter_cons_of_pos (by simpa using hx)]
  rfl

/-- A unit that is attached to `X` before and after a flow moves to another entry is attached
to `X` in between. -/
theorem Dropped.switch_between {f : FlowId} {d : Dir} {r r' : UserRef} {pending : List TcId}
    {q₀ : QueueState} (h : Dropped f d q₀ q) (htc : (q₀.unit (.flow f d)).tc = some (.user r))
    (hne : r' ≠ r) {x : UnitId} (hx : (q₀.unit x).tc = some X)
    (hx' : ((attachedFlow pending (detachedFlow q r f d) f d r').unit x).tc = some X) :
    ((detachedFlow q r f d).unit x).tc = some X := by
  by_cases hf : x = .flow f d
  · subst hf
    rw [(attachedFlow_flow ..).1] at hx'
    rw [htc, ← hx'] at hx
    exact absurd (TcId.user.inj (Option.some.inj hx)).symm hne
  · by_cases hr : x = .user r'
    · subst hr
      rw [detachedFlow_of_ne _ _ _ _ hf fun e => hne (UnitId.user.inj e),
        h.others _ hf fun r₁ hr₁ e => ?_]
      · exact hx
      · rw [htc] at hr₁
        exact hne ((UnitId.user.inj e).trans (TcId.user.inj (Option.some.inj hr₁)).symm)
    · rwa [attachedFlow_of_ne _ _ _ _ _ hf hr] at hx'

/-- The octets of a packet that is sent are those of its flow and of the user entry that this
waited for. -/
theorem sentBetween_send {s s' : State} {p : Packet} {r : UserRef}
    (hsend : s'.q.dq.send = s.q.dq.send ++ [p])
    (hwait : (s.q.unit (.flow p.flow p.dir)).tc = some (.user r)) (x : UnitId) :
    sentBetween x s s' = 0 + (if x = .user r then p.pktLen else 0)
      + (if x = .flow p.flow p.dir then p.pktLen else 0) := by
  unfold sentBetween
  rw [hsend, List.drop_left]
  cases x with
  | flow g e =>
      by_cases hge : p.flow = g ∧ p.dir = e
      · obtain ⟨rfl, rfl⟩ := hge
        simp [leaves, bytes]
      · have hne' : UnitId.flow g e ≠ .flow p.flow p.dir := fun he => hge
          ⟨(UnitId.flow.inj he).1.symm, (UnitId.flow.inj he).2.symm⟩
        simp [leaves, hge, hne']
  | user r₁ =>
      by_cases hr : r₁ = r
      · subst hr
        simp [leaves, hwait, bytes]
      · have hr' : r ≠ r₁ := fun e => hr e.symm
        simp [leaves, hwait, hr, hr']

/-- A packet that is sent is charged to its flow and to its user entry, which are at the
heads of their lists. -/
theorem Tried.sent_run {s s' : State} {f : FlowId} {d : Dir} {r : UserRef} {p : Packet}
    {rest : List Packet} {q q' : QueueState} (hd : Dropped f d s.q q) (hb : Base s)
    (ht : TurnsOk s.q) (hp : PacketsLe tbqDrrQuantum s) (hnext : Next s.q f d r)
    (htc : (q.unit (.flow f d)).tc = some (.user r)) (hpk : q.packets f d = p :: rest)
    (hq : takePacket (scheduled (scheduled q (.user r) p.pktLen) (.flow f d) p.pktLen) f d p rest
      = .ok q') (hs' : s'.q = { q' with dq := q'.dq.addSend p }) :
    TurnsOk s'.q ∧ (∀ g e, ∀ p' ∈ s'.q.packets g e, p' ∈ s.q.packets g e) ∧
      (a ≠ b → PairRun X a b (sentBetween a s s') (sentBetween b s s') s.q s'.q) := by
  have hlinks := hb.acct.links
  have hmem : p ∈ s.q.packets f d := hd.packets f d p (by rw [hpk]; exact List.mem_cons_self)
  obtain ⟨hpf, hpd, -⟩ := hb.acct.packetOk f d p hmem
  have hlen := hp.queued f d p hmem
  have hwait : (s.q.unit (.flow f d)).tc = some (.user r) := hd.shed.attached htc
  have hflow : f ∈ q.flows := by
    rw [hd.flows]
    exact hb.acct.tracked f d (.inl (by rw [hwait]; simp))
  have hweight : ∀ x, (q.unit x).tc ≠ none → 1 ≤ (q.unit x).weight := by
    intro x hx
    rw [hd.shed.weight]
    refine ht.weight_pos hb ?_
    rcases hd.shed.tc x with h₁ | h₁
    · exact absurd h₁ hx
    · rwa [← h₁]
  -- the states on the way
  set q₁ := scheduled q (.user r) p.pktLen with hq₁
  set q₂ := scheduled q₁ (.flow f d) p.pktLen with hq₂
  have ht₀ : TurnsOk q := ht.shed hd.shed hd.flow hd.flows
  have ht₁ : TurnsOk q₁ := ht₀.scheduled hlen (hweight _) fun f d e => by cases e
  have ht₂ : TurnsOk q₂ := by
    refine ht₁.scheduled hlen (fun hx => ?_) fun g e he => ?_
    · rw [hq₁, scheduled_weight]
      exact hweight _ (by rwa [hq₁, (scheduled_tc _ _ _ _).1] at hx)
    · obtain ⟨rfl, rfl⟩ := UnitId.flow.inj he
      rwa [hq₁, (sameRest_scheduled _ _ _).flows]
  have hl₀ := hd.shed.links
  have hl₁ : Links q₁ := hl₀.scheduled_links _ _
  have hl₂ : Links q₂ := hl₁.scheduled_links _ _
  have hshed : Shed q₂ q' := hl₂.takePacket_shed hq
  subst hpf hpd
  obtain ⟨r₂, htake⟩ := hl₂.take hq
  have hshed' : Shed q₂ s'.q := by
    rw [hs']
    exact hshed.trans (.of_same hshed.links (.of_unit rfl fun _ => rfl))
  refine ⟨?_, fun g e p' hp' => ?_, fun hne hab hab' => ?_⟩
  · rw [hs'] at hshed' ⊢
    exact ht₂.shed hshed' htake.moved.change.flow htake.moved.change.flows
  · rw [hs'] at hp'
    have hp₂ := htake.moved.packets_subset (by
      rw [hq₂, (sameRest_scheduled _ _ _).packets, hq₁, (sameRest_scheduled _ _ _).packets, hpk]) hp'
    rw [hq₂, (sameRest_scheduled _ _ _).packets, hq₁, (sameRest_scheduled _ _ _).packets] at hp₂
    exact hd.packets g e p' hp₂
  · have hsend : s'.q.dq.send = s.q.dq.send ++ [p] := by
      rw [hs']
      show q'.dq.send ++ [p] = _
      rw [htake.moved.dq, hq₂, (sameRest_scheduled _ _ _).dq, hq₁, (sameRest_scheduled _ _ _).dq,
        hd.send]
    have hsent := sentBetween_send hsend hwait
    have habq₂ : Both X a b q₂ := ⟨hshed'.attached hab'.1, hshed'.attached hab'.2⟩
    have habq₁ : Both X a b q₁ := both_scheduled.mp habq₂
    have habq : Both X a b q := both_scheduled.mp habq₁
    have huser : ∀ Y, (q.unit (.user r)).tc = some Y → (q.bl Y).units.head? = some (.user r) := by
      intro Y hY
      have hold := hd.shed.attached hY
      obtain rfl : Y = r.bucket := hlinks.compat _ _ hold
      exact hd.shed.head? hY (hnext.user.resolve_left (by rw [hold]; simp))
    have hflowHead : ∀ Y, (q₁.unit (.flow p.flow p.dir)).tc = some Y →
        (q₁.bl Y).units.head? = some (.flow p.flow p.dir) := by
      intro Y hY
      rw [hq₁, (scheduled_tc _ _ _ _).1, htc] at hY
      obtain rfl := Option.some.inj hY
      have hhead := hd.shed.head? htc hnext.flow
      rw [hq₁, scheduled_units, if_neg]
      · exact hhead
      · rintro ⟨hr, -⟩
        exact bucket_ne_user r r (hl₀.compat _ _ hr).symm
    have hstep₁ := scheduled_step ht₀ hl₀ hlen huser hne habq
    have hstep₂ := scheduled_step ht₁ hl₁ hlen hflowHead hne habq₁
    rw [← hq₁] at hstep₁
    rw [hd.shed.weight, hd.shed.weight, hd.shed.pairOf hlinks hne hab habq] at hstep₁
    rw [hq₁, scheduled_weight, scheduled_weight, hd.shed.weight, hd.shed.weight, ← hq₁, ← hq₂]
      at hstep₂
    have hw : ∀ x, (s'.q.unit x).weight = (s.q.unit x).weight := by
      intro x
      rw [hshed'.weight, hq₂, scheduled_weight, hq₁, scheduled_weight, hd.shed.weight]
    rw [hsent, hsent, hshed'.pairOf hl₂ hne habq₂ hab']
    exact ⟨hw a, hw b, (Run.refl.step hstep₁).step hstep₂⟩

/-- What one round does: deficits and packets stay in range, and two units that stay attached
take a number of steps of the round robin. -/
structure FairStep (sent : UnitId → ℕ) (s s' : State) : Prop where
  turns : TurnsOk s'.q
  packets : PacketsLe tbqDrrQuantum s'
  pair : ∀ X a b, a ≠ b → PairRun X a b (sent a) (sent b) s.q s'.q

/-- Fewer packets are within the same bound. -/
theorem PacketsLe.of_subset {B : ℕ} {s s' : State} (h : PacketsLe B s)
    (hp : ∀ g e, ∀ p ∈ s'.q.packets g e, p ∈ s.q.packets g e) (hin : s'.inflight = s.inflight) :
    PacketsLe B s' :=
  ⟨fun g e p hm => h.queued g e p (hp g e p hm), by rw [hin]; exact h.inflight⟩

/-- Trying a flow is fair to the two. -/
theorem Tried.fair {s s' : State} {f : FlowId} {d : Dir} {r : UserRef} {o : Option Packet}
    (h : Tried s f d r o s') (hb : Base s) (hb' : Base s') (ht : TurnsOk s.q)
    (hp : PacketsLe tbqDrrQuantum s) (hnext : Next s.q f d r)
    (htc : (s.q.unit (.flow f d)).tc = some (.user r)) :
    FairStep (fun x => sentBetween x s s') s s' := by
  have hl := hb.acct.links
  cases h with
  | @emptied q hd _ =>
      refine ⟨ht.shed hd.shed hd.flow hd.flows, hp.of_subset hd.packets rfl, fun X a b hne => ?_⟩
      rw [sentBetween_same hd.send, sentBetween_same hd.send]
      exact hd.shed.pairRun hl hne
  | @switched q r' hd htc' hc hne' =>
      set q₁ := detachedFlow q r f d with hq₁
      have hrest : SameRest q (attachedFlow s.t.pending q₁ f d r') :=
        (sameRest_detachedFlow q r f d).trans (sameRest_attachedFlow ..)
      have hshed : Shed s.q q₁ := hd.shed.trans (hd.shed.links.detachedFlow_shed r f d)
      have hnone : (q₁.unit (.flow f d)).tc = none := (detachedFlow_flow q r f d).1
      have hgrown : Grown q₁ (attachedFlow s.t.pending q₁ f d r') :=
        attachedFlow_grown s.t.pending r' hnone
      have hflow : q₁.flow = s.q.flow := (sameRest_detachedFlow q r f d).flow.trans hd.flow
      have hflows : q₁.flows = s.q.flows := (sameRest_detachedFlow q r f d).flows.trans hd.flows
      refine ⟨?_, hp.of_subset (fun g e p hm => ?_) rfl, fun X a b hne => ?_⟩
      · refine (ht.shed hshed hflow hflows).attachedFlow s.t.pending d ?_ ?_
        · rw [hflows]
          exact hb.acct.tracked f d (.inl (by rw [htc]; simp))
        · -- the rule is one of the flow's, as the state after the round shows
          have hrule := (hb'.classes.flowRule f r'.i (hb'.acct.rule f d r' (attachedFlow_flow ..).1)).2
          have hfl : (attachedFlow s.t.pending q₁ f d r').flow = q₁.flow :=
            (sameRest_attachedFlow ..).flow
          rwa [show ({ s with q := attachedFlow s.t.pending q₁ f d r' } : State).q.flow = q₁.flow
            from hfl] at hrule
      · have hm : p ∈ (attachedFlow s.t.pending q₁ f d r').packets g e := hm
        rw [hrest.packets] at hm
        exact hd.packets g e p hm
      · have hsend : (attachedFlow s.t.pending q₁ f d r').dq.send = s.q.dq.send := by
          rw [hrest.dq, hd.send]
        rw [sentBetween_same hsend, sentBetween_same hsend]
        intro hab hab'
        have hmid : Both X a b q₁ := ⟨hd.switch_between htc hne' hab.1 hab'.1,
          hd.switch_between htc hne' hab.2 hab'.2⟩
        obtain ⟨h₁, h₂, h₃⟩ := hshed.pairRun hl hne hab hmid
        obtain ⟨h₄, h₅, -⟩ := hgrown.pairRun hshed.links hb'.acct.links hne hmid hab'
        refine ⟨h₄.trans h₁, h₅.trans h₂, ?_⟩
        rwa [hgrown.pairOf hshed.links hb'.acct.links hne hmid]
  | @sent q q' p rest t' hd htc' hpk _ hq =>
      have hrun := fun X a b => Tried.sent_run (X := X) (a := a) (b := b) hd hb ht hp hnext htc' hpk hq
        (show ({ s with t := t', q := { q' with dq := q'.dq.addSend p } } : State).q = _ from rfl)
      obtain ⟨h₁, h₂, -⟩ := hrun (.user r) (.flow f d) (.flow f d)
      exact ⟨h₁, hp.of_subset h₂ rfl, fun X a b hne => (hrun X a b).2.2 hne⟩

/-! ## Rounds -/

/-- The octets that leave from the unit `x` in a round: packets are sent by the rounds of the
dequeue loops only. -/
def sentInRound (x : UnitId) (ph : Phase) (s s' : State) : ℕ :=
  match ph with
  | .draining _ => sentBetween x s s'
  | _ => 0

/-- A change that neither attaches nor detaches. -/
theorem fairStep_of_same {s s' : State} (ht : TurnsOk s.q) (hp : PacketsLe tbqDrrQuantum s)
    (hl : Links s.q) (hs : SameTurns s.q s'.q) (hflow : s'.q.flow = s.q.flow)
    (hflows : s'.q.flows = s.q.flows) (hpk : s'.q.packets = s.q.packets)
    (hin : s'.inflight = s.inflight) : FairStep (fun _ => 0) s s' :=
  ⟨ht.same hs hflow hflows, hp.of_subset (fun _ _ _ hm => hpk ▸ hm) hin,
    fun _ _ _ hne => (Shed.of_same hl hs).pairRun hl hne⟩

/-- Every round is fair. -/
theorem Round.fair {cfg : Config} {ph ph' : Phase} {s s' : State}
    (hr : Round (OnlyPacketsLe tbqDrrQuantum) ph s ph' s') (hi : PhaseInv cfg ph s)
    (ht : TurnsOk s.q) (hp : PacketsLe tbqDrrQuantum s) :
    FairStep (fun x => sentInRound x ph s s') s s' := by
  have hb := hi.base.1
  have hb' := (hr.inv hi).base.1
  have hl := hb.acct.links
  cases hr with
  | call hno hadm hle hs =>
      have hc := Idle.step_calm hi hno hadm hle ht hp hs
      refine ⟨hc.turns, hc.packets, fun X a b hne => ?_⟩
      rcases hc.units with hshed | hgrown
      · exact hshed.pairRun hl hne
      · exact hgrown.pairRun hl hb'.acct.links hne
  | start => exact fairStep_of_same ht hp hl (.of_unit rfl fun _ => rfl) rfl rfl rfl rfl
  | slot n => exact fairStep_of_same ht hp hl (.refl _) rfl rfl rfl rfl
  | fire _ _ _ => exact fairStep_of_same ht hp hl (.refl _) rfl rfl rfl rfl
  -- the only round that charges a deficit
  | serve hnext htc hnu hnb hs =>
      obtain ⟨-, o, htried⟩ := hb.tried htc hnu hnb hs
      exact htried.fair hb hb' ht hp hnext htc
  | @attach s r _ _ htc =>
      have hrest := sameRest_link s.q (.user r) r.bucket
      -- a user that is attached goes to the end of the list, with the turn it is given
      refine ⟨ht.linkUser r r.bucket, hp.of_subset (fun g e p hm => ?_) rfl, fun X a b hne => ?_⟩
      · have hm : p ∈ (link s.q (.user r) r.bucket).packets g e := hm
        rwa [hrest.packets] at hm
      · have hsend : (link s.q (.user r) r.bucket).dq.send = s.q.dq.send := by rw [hrest.dq]
        show PairRun X a b (sentBetween a _ _) (sentBetween b _ _) _ _
        rw [sentBetween_queue hsend, sentBetween_queue hsend]
        exact (link_grown_self r.bucket htc).pairRun hl hb'.acct.links hne
  | @detach s Y r _ =>
      have hrest := sameRest_unlink s.q (.user r)
      have hshed := hl.unlink_shed (.user r)
      refine ⟨ht.shed hshed hrest.flow hrest.flows, hp.of_subset (fun g e p hm => ?_) rfl,
        fun X a b hne => ?_⟩
      · have hm : p ∈ (unlink s.q (.user r)).packets g e := hm
        rwa [hrest.packets] at hm
      · have hsend : (unlink s.q (.user r)).dq.send = s.q.dq.send := by rw [hrest.dq]
        show PairRun X a b (sentBetween a _ _) (sentBetween b _ _) _ _
        rw [sentBetween_queue hsend, sentBetween_queue hsend]
        exact hshed.pairRun hl hne
  | @leave s Y _ =>
      have hself := fairStep_of_same ht hp hl (.refl _) rfl rfl rfl rfl
      refine ⟨hself.turns, hself.packets, fun X a b hne => ?_⟩
      show PairRun X a b (sentBetween a s s) (sentBetween b s s) _ _
      rw [sentBetween_same rfl, sentBetween_same rfl]
      exact hself.pair X a b hne
  | finish hs =>
      obtain rfl | rfl := timerEnd_ok hs
      · exact fairStep_of_same ht hp hl (.of_unit rfl fun _ => rfl) rfl rfl rfl rfl
      · exact fairStep_of_same ht hp hl (.of_unit rfl fun _ => rfl) rfl rfl rfl rfl

/-- At the start all turns are in order. -/
theorem initState_turns (cfg : Config) (now : ℕ) : TurnsOk (initState cfg now).q :=
  ⟨fun _ => inTurn_zero _ _, fun _ => Nat.zero_le _, fun _ _ => Nat.zero_le _,
    fun _ _ h => absurd rfl h, fun _ _ => Nat.zero_le _, fun _ _ _ => rfl⟩

/-- Deficits and packets stay in range in every run with small packets. -/
theorem Reaches.turns {cfg : Config} {now : ℕ} {ph : Phase} {s : State}
    (h : Reaches (OnlyPacketsLe tbqDrrQuantum) (initState cfg now) ph s) :
    TurnsOk s.q ∧ PacketsLe tbqDrrQuantum s := by
  refine Reaches.invariant (J := fun s => TurnsOk s.q ∧ PacketsLe tbqDrrQuantum s)
    ⟨initState_turns cfg now, fun f d p hp => ?_, fun p hp => ?_⟩ (fun _ _ _ _ hi hJ hr => ?_) h
  · cases hp
  · cases hp
  · have hf := hr.fair hi hJ.1 hJ.2
    exact ⟨hf.turns, hf.packets⟩

/-! ## Windows -/

/-- A stretch of a run, from the phase `ph₀` and the state `s₀` on, during which the units
`a` and `b` stay attached to the token control `X`; `m` and `n` octets are sent from them. -/
inductive Together (P : State → Event → Prop) (X : TcId) (a b : UnitId) (ph₀ : Phase) (s₀ : State) :
    Phase → State → ℕ → ℕ → Prop
  | start : Both X a b s₀.q → Together P X a b ph₀ s₀ ph₀ s₀ 0 0
  | round {ph ph' : Phase} {s s' : State} {m n : ℕ} : Together P X a b ph₀ s₀ ph s m n →
      Round P ph s ph' s' → Both X a b s'.q →
      Together P X a b ph₀ s₀ ph' s' (m + sentInRound a ph s s') (n + sentInRound b ph s s')

/-- The two take steps of the round robin from the start of the stretch to its end. -/
theorem Together.run {cfg : Config} {now : ℕ} {ph₀ ph : Phase} {s₀ s : State} {m n : ℕ}
    (hr : Reaches (OnlyPacketsLe tbqDrrQuantum) (initState cfg now) ph₀ s₀) (hne : a ≠ b)
    (h : Together (OnlyPacketsLe tbqDrrQuantum) X a b ph₀ s₀ ph s m n) :
    Reaches (OnlyPacketsLe tbqDrrQuantum) (initState cfg now) ph s ∧ Both X a b s.q
      ∧ PairRun X a b m n s₀.q s.q := by
  induction h with
  | start hab => exact ⟨hr, hab, fun _ _ => ⟨rfl, rfl, .refl⟩⟩
  | round _ hround hab' ih =>
      obtain ⟨hreach, hab, hrun⟩ := ih
      obtain ⟨ht, hp⟩ := hreach.turns
      refine ⟨hreach.round hround, hab', fun hab₀ _ => ?_⟩
      obtain ⟨h₁, h₂, h₃⟩ := hrun hab₀ hab
      obtain ⟨h₄, h₅, h₆⟩ := (hround.fair hreach.inv ht hp).pair X a b hne hab hab'
      rw [h₁, h₂] at h₆
      exact ⟨h₄.trans h₁, h₅.trans h₂, h₃.trans h₆⟩

/-! ## Rounds that can be evaluated -/

/-- The rounds of a run that is written down. -/
inductive Move
  | event (e : Event)
  | start
  | fire (X : TcId)
  | leave
  | serve (f : FlowId) (d : Dir) (r : UserRef)

instance (t : TokenState) (X : TcId) : Decidable (Due t X) :=
  inferInstanceAs (Decidable (_ ≤ _))

/-- The length of a packet that reaches the filter. -/
def Event.small (B : ℕ) : Event → Bool
  | .filter _ _ _ len _ => decide (len.1 ≤ B)
  | _ => true

/-- The test on an event is the condition on it. -/
theorem Event.small_ok {B : ℕ} {s : State} {e : Event} (h : e.small B = true) :
    OnlyPacketsLe B s e := by
  cases e with
  | filter f d app len allocOk =>
      have hle : len.1 ≤ B := of_decide_eq_true h
      exact hle
  | _ => trivial

/-- The round, if it is one. -/
def Move.play (B : ℕ) : Move → Phase × State → Except Stop (Phase × State)
  | .event e, (.idle, s) => do
      stopIf (e.evident s = false ∨ e.small B = false) .fuel
      let s' ← step 20 s e
      return (.idle, s')
  | .start, (.idle, s) => return (.ticking, { s with q := { s.q with dq := .init } })
  | .fire X, (.ticking, s) => do
      stopIf (X ∉ s.t.pending ∨ ¬ Due s.t X) .fuel
      let t ← Tbq.fire s.t X
      return (.draining X, { s with t := t })
  | .leave, (.draining X, s) => do
      stopIf (X ∉ s.t.pending ∧ (s.q.bl X).units ≠ []
        ∧ ∀ r ∈ (match X with | .user r => [r] | .bucket _ _ => []), (s.q.unit (.user r)).tc = none) .fuel
      return (.ticking, s)
  | .serve f d r, (.draining X, s) => do
      stopIf ((s.q.bl (.user r)).units.head? ≠ some (.flow f d)
        ∨ ((s.q.unit (.user r)).tc ≠ none ∧ (s.q.bl r.bucket).units.head? ≠ some (.user r))
        ∨ (s.q.unit (.flow f d)).tc ≠ some (.user r) ∨ TcId.user r ∈ s.t.pending
        ∨ r.bucket ∈ s.t.pending) .fuel
      let s' ← flowBacklogTryDequeue 20 s f d
      return (.draining X, s')
  | _, _ => throw .fuel

/-- A move that is played is a round. -/
theorem Move.play_round {B : ℕ} {m : Move} {ph ph' : Phase} {s s' : State}
    (h : m.play B (ph, s) = .ok (ph', s')) : Round (OnlyPacketsLe B) ph s ph' s' := by
  unfold Move.play at h
  split at h
  · rename_i e s₁ heq
    cases heq
    simp only [bind_eq_ok, stopIf_eq_ok, pure_eq_ok, Prod.mk.injEq] at h
    obtain ⟨-, htest, s₂, hs₂, rfl, rfl⟩ := h
    obtain ⟨hev, hsm⟩ := not_or.mp htest
    have hev : e.evident s = true := by simpa using hev
    refine .call (fun order he => ?_) (Event.admissible_of_evident hev)
      (Event.small_ok (by simpa using hsm)) hs₂
    subst he
    cases hev
  · rename_i s₁ heq
    cases heq
    cases h
    exact .start
  · rename_i X s₁ heq
    cases heq
    simp only [bind_eq_ok, stopIf_eq_ok, pure_eq_ok, Prod.mk.injEq] at h
    obtain ⟨-, htest, t, ht, rfl, rfl⟩ := h
    obtain ⟨hX, hdue⟩ := not_or.mp htest
    exact .fire (not_not.mp hX) (not_not.mp hdue) ht
  · rename_i X s₁ heq
    cases heq
    simp only [bind_eq_ok, stopIf_eq_ok, pure_eq_ok, Prod.mk.injEq] at h
    obtain ⟨-, htest, rfl, rfl⟩ := h
    refine .leave ?_
    by_contra hno
    push Not at hno
    obtain ⟨h₁, h₂, h₃⟩ := hno
    refine htest ⟨h₁, h₂, fun r hr => ?_⟩
    cases X with
    | bucket d i => cases hr
    | user r' =>
        obtain rfl := List.mem_singleton.mp hr
        exact h₃ r rfl
  · rename_i f d r X s₁ heq
    cases heq
    simp only [bind_eq_ok, stopIf_eq_ok, pure_eq_ok, Prod.mk.injEq] at h
    obtain ⟨-, htest, s₂, hs₂, rfl, rfl⟩ := h
    push Not at htest
    obtain ⟨h₁, h₂, h₃, h₄, h₅⟩ := htest
    exact .serve ⟨h₁, or_iff_not_imp_left.mpr h₂⟩ h₃ h₄ h₅ hs₂
  · cases h

/-- Rounds from the initial state on. -/
def Move.playAll (B : ℕ) (l : List Move) (c : Config) : Except Stop (Phase × State) :=
  l.foldlM (fun x m => m.play B x) (.idle, initState c 0)

/-- Moves that are played reach what they lead to. -/
theorem reaches_playAll {B : ℕ} {c : Config} {l : List Move} {ph : Phase} {s : State}
    (h : Move.playAll B l c = .ok (ph, s)) : Reaches (OnlyPacketsLe B) (initState c 0) ph s := by
  have hgen : ∀ (l : List Move) (ph₀ : Phase) (s₀ : State),
      Reaches (OnlyPacketsLe B) (initState c 0) ph₀ s₀ →
      l.foldlM (fun x (m : Move) => m.play B x) (ph₀, s₀) = .ok (ph, s) →
      Reaches (OnlyPacketsLe B) (initState c 0) ph s := by
    intro l
    induction l with
    | nil =>
        intro ph₀ s₀ hr hl
        cases hl
        exact hr
    | cons m l ih =>
        intro ph₀ s₀ hr hl
        rw [List.foldlM_cons, bind_eq_ok] at hl
        obtain ⟨⟨ph₁, s₁⟩, hm, hl⟩ := hl
        exact ih ph₁ s₁ (hr.round (Move.play_round hm)) hl
  exact hgen l .idle _ .init h

/-- Rounds during which two units stay attached, with what they send. -/
def Move.playTogether (B : ℕ) (X : TcId) (a b : UnitId) (l : List Move) (x : Phase × State) :
    Except Stop ((Phase × State) × ℕ × ℕ) :=
  l.foldlM (fun (x : (Phase × State) × ℕ × ℕ) m => do
    let y ← m.play B x.1
    stopIf ((y.2.q.unit a).tc ≠ some X ∨ (y.2.q.unit b).tc ≠ some X) .fuel
    return (y, x.2.1 + sentInRound a x.1.1 x.1.2 y.2, x.2.2 + sentInRound b x.1.1 x.1.2 y.2)) (x, 0, 0)

/-- Moves that keep the two together are a stretch of them. -/
theorem together_play {B : ℕ} {X : TcId} {a b : UnitId} {l : List Move} {ph₀ ph : Phase}
    {s₀ s : State} {m n : ℕ} (hab : Both X a b s₀.q)
    (h : Move.playTogether B X a b l (ph₀, s₀) = .ok ((ph, s), m, n)) :
    Together (OnlyPacketsLe B) X a b ph₀ s₀ ph s m n := by
  have hgen : ∀ (l : List Move) (ph₁ : Phase) (s₁ : State) (m₁ n₁ : ℕ),
      Together (OnlyPacketsLe B) X a b ph₀ s₀ ph₁ s₁ m₁ n₁ →
      l.foldlM (fun (x : (Phase × State) × ℕ × ℕ) (m : Move) => do
        let y ← m.play B x.1
        stopIf ((y.2.q.unit a).tc ≠ some X ∨ (y.2.q.unit b).tc ≠ some X) .fuel
        return (y, x.2.1 + sentInRound a x.1.1 x.1.2 y.2,
          x.2.2 + sentInRound b x.1.1 x.1.2 y.2)) ((ph₁, s₁), m₁, n₁) = .ok ((ph, s), m, n) →
      Together (OnlyPacketsLe B) X a b ph₀ s₀ ph s m n := by
    intro l
    induction l with
    | nil =>
        intro ph₁ s₁ m₁ n₁ hr hl
        cases hl
        exact hr
    | cons mv l ih =>
        intro ph₁ s₁ m₁ n₁ hr hl
        rw [List.foldlM_cons, bind_eq_ok] at hl
        obtain ⟨⟨⟨ph₂, s₂⟩, m₂, n₂⟩, hm, hl⟩ := hl
        simp only [bind_eq_ok, stopIf_eq_ok, pure_eq_ok, Prod.mk.injEq] at hm
        obtain ⟨y, hy, -, htest, rfl, rfl, rfl⟩ := hm
        obtain ⟨h₁, h₂⟩ := not_or.mp htest
        exact ih _ _ _ _ (hr.round (Move.play_round hy) ⟨not_not.mp h₁, not_not.mp h₂⟩) hl
  exact hgen l ph₀ s₀ 0 0 (.start hab) h

/-- The entry of the rule that the flows of user `1` wait for. -/
def entryA : UserRef := ⟨1, 0, 0⟩

/-- Another flow of user `1`. -/
def flowB : FlowId := ⟨1, 2⟩

/-- Two flows of one user wait for the same entry. -/
def twoFlows : List Move :=
  (slowRun ++ [Event.filter flowB 0 1 ⟨700, by decide⟩ true,
    Event.enqueue ⟨flowB, 0, 1#32, 700, by decide, by decide⟩]).map Move.event

/-- Two ticks later the bucket fires and the first flow is served. -/
def oneTurn : List Move :=
  [.event (.elapse 2), .start, .fire (.user entryA), .leave, .fire (.bucket 0 0),
    .serve flowA 0 entryA]

/-! ## The bound -/

/-- In every run with packets of at most one quantum, every deficit is at most what one turn
gives, and two units that stay attached to one token control are served in proportion to
their weights, up to three quanta. -/
theorem drr_fair {cfg : Config} {now : ℕ} {ph₀ ph : Phase} {s₀ s : State} {X : TcId} {a b : UnitId}
    {m n : ℕ} (hr : Reaches (OnlyPacketsLe 2048) (initState cfg now) ph₀ s₀) (hne : a ≠ b)
    (h : Together (OnlyPacketsLe 2048) X a b ph₀ s₀ ph s m n) :
    (∀ x, 0 ≤ (s.q.unit x).drrDeficit ∧ (s.q.unit x).drrDeficit ≤ 2048 * (s.q.unit x).weight)
      ∧ 1 ≤ (s.q.unit a).weight ∧ 1 ≤ (s.q.unit b).weight
      ∧ (s.q.unit a).weight = (s₀.q.unit a).weight ∧ (s.q.unit b).weight = (s₀.q.unit b).weight
      ∧ |(m : ℚ) / (s.q.unit a).weight - (n : ℚ) / (s.q.unit b).weight| ≤ 3 * 2048 := by
  obtain ⟨hreach, hab, hrun⟩ := Together.run hr hne h
  have hab₀ : Both X a b s₀.q := by
    clear hrun hab hreach
    induction h with
    | start hab => exact hab
    | round _ _ _ ih => exact ih
  obtain ⟨hwa, hwb, hrun⟩ := hrun hab₀ hab
  obtain ⟨ht₀, -⟩ := Reaches.turns hr
  obtain ⟨ht, -⟩ := Reaches.turns hreach
  have hb := hreach.inv.base.1
  have ha1 := ht.weight_pos hb (x := a) (by rw [hab.1]; simp)
  have hb1 := ht.weight_pos hb (x := b) (by rw [hab.2]; simp)
  refine ⟨fun x => ?_, ha1, hb1, hwa, hwb, ?_⟩
  · obtain ⟨h₀, h₁⟩ := ht.turn x
    refine ⟨h₀, ?_⟩
    rw [mul_comm]
    exact h₁
  · rw [← hwa, ← hwb] at hrun
    have hfair := hrun.fair ha1 hb1 (hwa ▸ ht₀.turn a) (hwb ▸ ht₀.turn b) (ht.turn a) (ht.turn b)
    exact hfair

/-- Two flows of one user, each with a packet, in a stretch with a turn of each. -/
theorem drr_fair_twoFlows :
    ∃ ph₀ s₀ ph s, Reaches (OnlyPacketsLe 2048) (initState slowConfig 0) ph₀ s₀
      ∧ Together (OnlyPacketsLe 2048) (.user entryA) (.flow flowA 0) (.flow flowB 0) ph₀ s₀ ph s 600 0
      ∧ |(600 : ℚ) / (s.q.unit (.flow flowA 0)).weight - 0 / (s.q.unit (.flow flowB 0)).weight|
        ≤ 3 * 2048 := by
  have heval : (Move.playAll 2048 twoFlows slowConfig).toOption.any (fun x =>
      decide (Both (.user entryA) (.flow flowA 0) (.flow flowB 0) x.2.q) &&
      (Move.playTogether 2048 (.user entryA) (.flow flowA 0) (.flow flowB 0) oneTurn x).toOption.any
        fun y => decide (y.2 = (600, 0))) = true := by decide +kernel
  obtain ⟨⟨ph₀, s₀⟩, hs₀, heval⟩ := ok_of_any heval
  obtain ⟨hab, heval⟩ := (Bool.and_eq_true _ _).mp heval
  obtain ⟨⟨⟨ph, s⟩, m, n⟩, hs, heval⟩ := ok_of_any heval
  obtain ⟨rfl, rfl⟩ := Prod.mk.inj (of_decide_eq_true heval)
  have htogether := together_play (of_decide_eq_true hab) hs
  have hfair := (drr_fair (reaches_playAll hs₀) (by decide) htogether).2.2.2.2.2
  rw [Nat.cast_zero] at hfair
  exact ⟨ph₀, s₀, ph, s, reaches_playAll hs₀, htogether, hfair⟩

end Tbq
