/-
# The ceilings of the backlogs

`tbq_backlog_max_octets` gives a unit its share, by weight, of what the parent allows and
the rate can serve within the latency.  The share is computed from a quotient and a
remainder, so that the product of the two large numbers is never formed, but the rate is
shifted in 32 bits.  Here: for which rate, latency, parent, weight and total the result is
the share, and that the ceilings of the units of one token control never sum to more than
what is shared.
-/
import OpenwrtAc.TbqTurns
import OpenwrtAc.TbqSafety

open Outcome MachineInt ListSum

namespace Tbq

/-! ## One ceiling -/

/-- The octets that the rate of `X` serves within the latency. -/
def latencyOctets (k : Ceiling) (X : TcId) : ℕ := (k.rate X).toNat * 2 ^ k.latencyShift

/-- The share of `t` that quotient and remainder give. -/
theorem split_share (t w : ℕ) {total : ℕ} (h : 0 < total) :
    t / total * w + t % total * w / total = t * w / total := by
  have hsplit : t * w = total * (t / total * w) + t % total * w := by
    calc t * w = (total * (t / total) + t % total) * w := by rw [Nat.div_add_mod]
      _ = total * (t / total * w) + t % total * w := by rw [Nat.add_mul, Nat.mul_assoc]
  rw [hsplit, Nat.mul_add_div h]

/-- What `tbq_backlog_max_octets` computes for an attached unit: only the latency and the
second product can wrap. -/
theorem maxOctets_eq {k : Ceiling} {q : QueueState} {x : UnitId} {X : TcId} {parent : ℕ}
    (htc : (q.unit x).tc = some X) (hlink : (q.unit x).linked = true) (hp : parent < 2 ^ 32)
    (hrate : 0 ≤ k.rate X) (hpos : 0 < (q.bl X).weight)
    (hle : (q.unit x).weight ≤ (q.bl X).weight) :
    backlogMaxOctets k q x parent =
      .ok (min parent (latencyOctets k X % 2 ^ 32) / (q.bl X).weight * (q.unit x).weight
        + min parent (latencyOctets k X % 2 ^ 32) % (q.bl X).weight * (q.unit x).weight % 2 ^ 32
          / (q.bl X).weight) := by
  have hlat : u32 (k.rate X * 2 ^ k.latencyShift) = latencyOctets k X % 2 ^ 32 := by
    rw [← u32_natCast, latencyOctets]
    congr 1
    push_cast
    rw [Int.toNat_of_nonneg hrate]
  have hrun : backlogMaxOctets k q x parent =
      .ok (u32 ((u32 ((min parent (latencyOctets k X % 2 ^ 32) / (q.bl X).weight
        * (q.unit x).weight : ℕ) : ℤ) : ℕ)
        + (u32 ((min parent (latencyOctets k X % 2 ^ 32) % (q.bl X).weight
          * (q.unit x).weight : ℕ) : ℤ) / (q.bl X).weight : ℕ))) := by
    unfold backlogMaxOctets backlogAttached
    simp only [htc, hlink, ne_eq, reduceCtorEq, not_false_eq_true, if_true, Bool.true_eq_false,
      stopIf_of_not, hlat, Nat.pos_iff_ne_zero.mp hpos]
    push_cast
    rfl
  rw [hrun]
  set t := min parent (latencyOctets k X % 2 ^ 32) with ht
  set w := (q.unit x).weight
  set total := (q.bl X).weight
  have hlt : t < 2 ^ 32 := by omega
  -- the parts of the split never exceed what is shared
  have hquot : t / total * w + t % total * w / total ≤ t := by
    rw [split_share t w hpos]
    calc t * w / total ≤ t * total / total := Nat.div_le_div_right (Nat.mul_le_mul_left t hle)
      _ = t := Nat.mul_div_cancel t hpos
  have hrem : t % total * w % 2 ^ 32 / total ≤ t % total * w / total :=
    Nat.div_le_div_right (Nat.mod_le _ _)
  have hfirst : t / total * w ≤ t := (Nat.le_add_right _ _).trans hquot
  rw [u32_natCast, u32_natCast, Nat.mod_eq_of_lt (show t / total * w < 2 ^ 32 by omega),
    ← Nat.cast_add, u32_natCast, Nat.mod_eq_of_lt]
  exact ((Nat.add_le_add_left hrem _).trans hquot).trans_lt hlt

/-- The share that the ceiling stands for. -/
def exactShare (k : Ceiling) (X : TcId) (parent w total : ℕ) : ℕ :=
  min parent (latencyOctets k X) * w / total

/-- A wrap never makes the ceiling larger, and it is the share when nothing wraps. -/
theorem maxOctets_le {k : Ceiling} {q : QueueState} {x : UnitId} {X : TcId} {parent n : ℕ}
    (htc : (q.unit x).tc = some X) (hlink : (q.unit x).linked = true) (hp : parent < 2 ^ 32)
    (hrate : 0 ≤ k.rate X) (hpos : 0 < (q.bl X).weight)
    (hle : (q.unit x).weight ≤ (q.bl X).weight) (h : backlogMaxOctets k q x parent = .ok n) :
    n ≤ exactShare k X parent (q.unit x).weight (q.bl X).weight := by
  rw [maxOctets_eq htc hlink hp hrate hpos hle] at h
  obtain rfl := Except.ok.inj h
  rw [exactShare]
  calc _ ≤ min parent (latencyOctets k X % 2 ^ 32) / (q.bl X).weight * (q.unit x).weight
        + min parent (latencyOctets k X % 2 ^ 32) % (q.bl X).weight * (q.unit x).weight
          / (q.bl X).weight := Nat.add_le_add_left (Nat.div_le_div_right (Nat.mod_le _ _)) _
    _ = min parent (latencyOctets k X % 2 ^ 32) * (q.unit x).weight / (q.bl X).weight :=
        split_share _ _ hpos
    _ ≤ min parent (latencyOctets k X) * (q.unit x).weight / (q.bl X).weight :=
        Nat.div_le_div_right (Nat.mul_le_mul_right _ (min_le_min_left _ (Nat.mod_le _ _)))

/-- The shift and the product with the remainder do the share of a unit of weight `w` among
`total` no harm: the product stays within 32 bits, and the latency is not shifted out of them,
or what is left of it is no less than the parent allows or falls short of the parent by so
little that no multiple of the total lies between the two, each times the weight. -/
structure ShareFits (octets parent w total : ℕ) : Prop where
  product : min parent (octets % 2 ^ 32) % total * w < 2 ^ 32
  latency : octets < 2 ^ 32 ∨ parent ≤ octets % 2 ^ 32
    ∨ ∀ n, n * total ≤ parent * w → n * total ≤ octets % 2 ^ 32 * w

/-- Two numbers have the same quotient when no multiple lies between them. -/
theorem div_eq_div_iff_of_le {a b total : ℕ} (hpos : 0 < total) (h : a ≤ b) :
    a / total = b / total ↔ ∀ n, n * total ≤ b → n * total ≤ a := by
  constructor
  · intro heq n hn
    rw [← Nat.le_div_iff_mul_le hpos] at hn ⊢
    exact heq ▸ hn
  · intro hall
    apply le_antisymm (Nat.div_le_div_right h)
    rw [Nat.le_div_iff_mul_le hpos]
    exact hall _ (Nat.div_mul_le_self b total)

/-- A product with the remainder that wraps is missed by the division. -/
theorem wrapped_div_lt {a total : ℕ} (hpos : 0 < total) (hlt : total < 2 ^ 32) (h : 2 ^ 32 ≤ a) :
    a % 2 ^ 32 / total < a / total := by
  have hwrap : a % 2 ^ 32 + total ≤ a := by omega
  calc a % 2 ^ 32 / total < (a % 2 ^ 32 + total) / total := by
        rw [Nat.add_div_right _ hpos]
        exact Nat.lt_succ_self _
    _ ≤ a / total := Nat.div_le_div_right hwrap

/-- The ceiling of an attached unit is its share exactly when the numbers fit. -/
theorem maxOctets_exact_iff {k : Ceiling} {q : QueueState} {x : UnitId} {X : TcId} {parent : ℕ}
    (htc : (q.unit x).tc = some X) (hlink : (q.unit x).linked = true) (hp : parent < 2 ^ 32)
    (hrate : 0 ≤ k.rate X) (hpos : 0 < (q.bl X).weight) (hlt : (q.bl X).weight < 2 ^ 32)
    (hle : (q.unit x).weight ≤ (q.bl X).weight) :
    backlogMaxOctets k q x parent = .ok (exactShare k X parent (q.unit x).weight (q.bl X).weight)
      ↔ ShareFits (latencyOctets k X) parent (q.unit x).weight (q.bl X).weight := by
  rw [maxOctets_eq htc hlink hp hrate hpos hle, exactShare, Except.ok.injEq]
  set L := latencyOctets k X
  set w := (q.unit x).weight
  set total := (q.bl X).weight
  have hsplit := split_share (min parent (L % 2 ^ 32)) w hpos
  constructor
  · intro h
    -- what wraps in either place only makes the result smaller
    have hmin : min parent (L % 2 ^ 32) * w / total ≤ min parent L * w / total :=
      Nat.div_le_div_right (Nat.mul_le_mul_right _ (min_le_min_left _ (Nat.mod_le _ _)))
    have hproduct : min parent (L % 2 ^ 32) % total * w < 2 ^ 32 := by
      by_contra hge
      have hless := wrapped_div_lt hpos hlt (Nat.le_of_not_lt hge)
      omega
    refine ⟨hproduct, ?_⟩
    rw [Nat.mod_eq_of_lt hproduct, hsplit] at h
    by_cases hL : L < 2 ^ 32
    · exact Or.inl hL
    by_cases hparent : parent ≤ L % 2 ^ 32
    · exact Or.inr (Or.inl hparent)
    · rw [min_eq_right (by omega), min_eq_left (by omega)] at h
      have hle : L % 2 ^ 32 * w ≤ parent * w := Nat.mul_le_mul_right w (by omega)
      exact Or.inr (Or.inr ((div_eq_div_iff_of_le hpos hle).1 h))
  · intro h
    rw [Nat.mod_eq_of_lt h.product, hsplit]
    rcases h.latency with hL | hparent | hround
    · rw [Nat.mod_eq_of_lt hL]
    · rw [min_eq_left hparent, min_eq_left (hparent.trans (Nat.mod_le _ _))]
    · by_cases hparent : parent ≤ L % 2 ^ 32
      · rw [min_eq_left hparent, min_eq_left (hparent.trans (Nat.mod_le _ _))]
      · by_cases hL : L < 2 ^ 32
        · rw [Nat.mod_eq_of_lt hL]
        · have hle : L % 2 ^ 32 * w ≤ parent * w := Nat.mul_le_mul_right w (by omega)
          rw [min_eq_right (by omega), min_eq_left (by omega),
            (div_eq_div_iff_of_le hpos hle).2 hround]

/-! ## All ceilings of a token control -/

/-- The unit waits for `X` with a weight that the code can give it, and counts in the total
weight there. -/
structure Weighted (q : QueueState) (X : TcId) (x : UnitId) : Prop where
  tc : (q.unit x).tc = some X
  linked : (q.unit x).linked = true
  pos : 1 ≤ (q.unit x).weight
  le : (q.unit x).weight ≤ 255
  le_total : (q.unit x).weight ≤ (q.bl X).weight

/-- The ceilings of units that wait together sum to at most what they share, also where
something wraps. -/
theorem ceilings_sum_le {k : Ceiling} {X : TcId} (hrate : 0 ≤ k.rate X) {q : QueueState}
    {parent : ℕ} {l : List UnitId} {c : UnitId → ℕ} (hl : ∀ x ∈ l, Weighted q X x)
    (hsum : total l (fun x => (q.unit x).weight) ≤ (q.bl X).weight) (hp : parent < 2 ^ 32)
    (hc : ∀ x ∈ l, backlogMaxOctets k q x parent = .ok (c x)) :
    total l c ≤ min parent (latencyOctets k X) := by
  refine le_trans ?_ (total_share_le hsum (min parent (latencyOctets k X)))
  apply total_le_total
  intro x hx
  have hw := hl x hx
  have hpos := hw.pos
  have hle := hw.le_total
  exact maxOctets_le hw.tc hw.linked hp hrate (by omega) hle (hc x hx)

/-- A queue in which a single unit of weight `w` waits for `X`, where the total is `total`. -/
def oneUnit (X : TcId) (w total : ℕ) : QueueState where
  unit := fun _ => ⟨some X, true, 0, w, 0⟩
  bl := fun _ => ⟨[.flow ⟨0, 0⟩ 0], 0, total⟩
  packets := fun _ _ => []
  flow := fun _ => ⟨0, 0#32, fun _ => 0⟩
  flows := []
  users := []
  userMask := fun _ => 0#32
  backlogPackets := 0
  dq := .init

theorem weighted_oneUnit {X : TcId} {w total : ℕ} (hpos : 1 ≤ w) (hle : w ≤ 255)
    (htotal : w ≤ total) : Weighted (oneUnit X w total) X (.flow ⟨0, 0⟩ 0) :=
  ⟨rfl, rfl, hpos, hle, htotal⟩

/-! ## The weights of a running scheduler -/

namespace UnitWeights

variable {q q' : QueueState}

/-- A flow is attached to an entry of one of its rules. -/
theorem attachedFlow (h : UnitWeights q) (pending : List TcId) {f : FlowId} (d : Dir)
    {r : UserRef} (hrule : 0 < (q.flow f).weight r.i) :
    UnitWeights (attachedFlow pending q f d r) := by
  have hrest := sameRest_attachedFlow pending q f d r
  have hself : ((Tbq.attachedFlow pending q f d r).unit (.flow f d)).weight
      = (q.flow f).weight r.i := by
    unfold Tbq.attachedFlow
    rw [setUnit_self]
  have hone := h.flow f r.i
  have hother : ∀ g e, ¬ (g = f ∧ e = d) →
      (Tbq.attachedFlow pending q f d r).unit (.flow g e) = q.unit (.flow g e) := by
    intro g e hge
    refine attachedFlow_of_ne pending q f d r (fun he => hge ?_) fun he => by cases he
    cases he
    exact ⟨rfl, rfl⟩
  refine ⟨fun x => ?_, fun g e => ?_, fun g e hx => ?_, fun g i => ?_⟩
  · cases x with
    | user r' =>
        rw [hrest.unitWeight]
        exact h.weight _
    | flow g e =>
        by_cases hge : g = f ∧ e = d
        · obtain ⟨rfl, rfl⟩ := hge
          omega
        · rw [hother g e hge]
          exact h.weight _
  · by_cases hge : g = f ∧ e = d
    · obtain ⟨rfl, rfl⟩ := hge
      omega
    · rw [hother g e hge]
      exact h.flowUnit g e
  · by_cases hge : g = f ∧ e = d
    · obtain ⟨rfl, rfl⟩ := hge
      omega
    · rw [hother g e hge] at hx ⊢
      exact h.waiting g e hx
  · rw [hrest.flow]
    exact h.flow g i

/-- The queue handler. -/
theorem enqueued {p : Packet} {s s' : State} (h : UnitWeights s.q) (hs : Enqueued p s s')
    (hb' : Base s') : UnitWeights s'.q := by
  have hq := hs.queued
  cases hq with
  | shed hshed => exact h.shed hshed hs.flow
  | @attached q₀ pending r hsame hflow hflows hnone hsame' =>
      have htc : (s'.q.unit (.flow p.flow p.dir)).tc = some (.user r) := by
        rw [hsame'.tc]
        exact (attachedFlow_flow ..).1
      have hrule := (hb'.classes.flowRule p.flow r.i (hb'.acct.rule _ _ r htc)).2
      rw [hs.flow, ← hflow] at hrule
      refine ((h.sameTurns hsame hflow).attachedFlow pending p.dir hrule).sameTurns hsame' ?_
      rw [hs.flow, (sameRest_attachedFlow ..).flow, hflow]

/-- A round of the dequeue loops. -/
theorem tried {s s' : State} {f : FlowId} {d : Dir} {r : UserRef} {o : Option Packet}
    (h : UnitWeights s.q) (hs : Tried s f d r o s') (hb' : Base s') : UnitWeights s'.q := by
  have hkeep := hs.users.2
  cases hs with
  | emptied hd _ => exact h.shed hd.shed hd.flow
  | @switched q r' hd _ _ _ =>
      have hshed := hd.shed.trans (hd.shed.links.detachedFlow_shed r f d)
      have hflow := (sameRest_detachedFlow q r f d).flow.trans hd.flow
      have htc : ((Tbq.attachedFlow s.t.pending (detachedFlow q r f d) f d r').unit
          (.flow f d)).tc = some (.user r') := (attachedFlow_flow ..).1
      have hrule := (hb'.classes.flowRule f r'.i (hb'.acct.rule f d r' htc)).2
      have hrest := sameRest_attachedFlow s.t.pending (detachedFlow q r f d) f d r'
      exact (h.shed hshed hflow).attachedFlow s.t.pending d (hrest.flow ▸ hrule)
  | @sent q q' p rest t' hd _ _ _ hq =>
      have hlinks := hd.shed.links
      have hq₀ := h.shed hd.shed hd.flow
      have hsched : UnitWeights (scheduled (scheduled q (.user r) p.pktLen) (.flow f d)
          p.pktLen) := by
        have hone : ∀ {q : QueueState} {x : UnitId}, UnitWeights q →
            UnitWeights (scheduled q x p.pktLen) := by
          intro q x hq
          refine hq.congr (fun y => ?_) (fun g e hy => by rwa [(scheduled_tc q x _ _).1] at hy)
            (sameRest_scheduled q x _).flow
          rw [scheduled_unit]
          split
          · rename_i hy
            rw [hy.1, (drrCharge_tc _ _).2.2.2]
          · rfl
        exact hone (hone hq₀)
      have htake := Links.takePacket_shed
        ((hlinks.scheduled_links (.user r) p.pktLen).scheduled_links (.flow f d) p.pktLen) hq
      have hflow : q'.flow = (scheduled (scheduled q (.user r) p.pktLen) (.flow f d)
          p.pktLen).flow := by
        rw [(sameRest_scheduled ..).flow, (sameRest_scheduled ..).flow, hd.flow]
        exact hkeep
      exact (hsched.shed htake hflow).sameTurns (.of_unit rfl fun _ => rfl) rfl

/-- A call other than a tick. -/
theorem call {cfg : Config} {s s' : State} (h : UnitWeights s.q) (hi : Idle False cfg s) {fuel : ℕ}
    {e : Event} (hno : ∀ order, e ≠ .tick order) (hadm : Admissible s e)
    (hs : step fuel s e = .ok s') : UnitWeights s'.q := by
  have hb' : Base s' := ((hi.step_sat fuel hadm fun hb => hb.elim).of_ok hs).inv.base
  cases hi.step_effect hno hadm hs with
  | filter htrack _ hq _ =>
      rw [hq]
      exact h.trackSteps htrack
  | @enqueue p _ _ _ _ henq => exact UnitWeights.enqueued (s := s.land p) h henq hb'
  | elapse n => exact h
  | userFree _ _ => exact h.sameTurns (.of_unit rfl fun _ => rfl) rfl
  | flowFree _ _ => exact h.reset (flowReset_clear s.q _)
  | status _ _ _ => exact h

theorem round {cfg : Config} {P : State → Event → Prop} {ph ph' : Phase} {s s' : State}
    (h : UnitWeights s.q) (hi : PhaseInv cfg ph s) (hr : Round P ph s ph' s') :
    UnitWeights s'.q := by
  have hb' := (hr.inv hi).base.1
  cases hr with
  | call hno hadm _ hs => exact h.call hi hno hadm hs
  | start => exact h.sameTurns (.of_unit rfl fun _ => rfl) rfl
  | slot n => exact h
  | fire _ _ _ => exact h
  | serve _ htc hnu hnb hs =>
      obtain ⟨-, o, ho⟩ := hi.1.base.tried htc hnu hnb hs
      exact h.tried ho hb'
  | @attach _ r hb hne htc =>
      refine h.congr (fun x => ?_) (fun f d hx => ?_) rfl
      · by_cases hx : x = .user r
        · rw [hx, link, setUnit_self]
        · rw [link, setUnit_of_ne _ _ hx, setUnits_unit]
      · rwa [link, setUnit_of_ne _ _ (by intro e; cases e), setUnits_unit] at hx
  | detach _ => exact h.shed (hi.1.base.acct.links.unlink_shed _) (sameRest_unlink ..).flow
  | leave _ => exact h
  | finish hs =>
      have hrel : UnitWeights (release s).q := h.sameTurns (.of_unit rfl fun _ => rfl) rfl
      obtain rfl | rfl := timerEnd_ok hs
      · exact hrel
      · exact hrel.sameTurns (.of_unit rfl fun _ => rfl) rfl

end UnitWeights

theorem initState_unitWeights (cfg : Config) (now : ℕ) : UnitWeights (initState cfg now).q :=
  ⟨fun _ => Nat.zero_le _, fun _ _ => Nat.zero_le _, fun _ _ h => absurd rfl h,
    fun _ _ => Nat.zero_le _⟩

theorem Reachable.unitWeights {cfg : Config} {now : ℕ} {P : State → Event → Prop} {s : State}
    (h : Reachable P (initState cfg now) s) : UnitWeights s.q :=
  Reaches.invariant (J := fun s => UnitWeights s.q) (initState_unitWeights cfg now)
    (fun _ _ _ _ hi hw hr => hw.round hi hr) h.reaches

/-- The weights of what waits for `X`, summed over a list that holds all of it. -/
theorem waiting_weights_le {q : QueueState} (hl : Links q) (X : TcId) {l : List UnitId}
    (hsub : (q.bl X).units ⊆ l) :
    total (q.bl X).units (fun x => (q.unit x).weight)
      ≤ total l fun x => if (q.unit x).tc = some X then (q.unit x).weight else 0 := by
  refine le_trans (le_of_eq ?_) (total_le_of_subset (hl.nodup X) hsub _)
  apply total_congr
  intro x hx
  rw [if_pos ((hl.units X x).mp hx)]

/-- The flows that wait for a user entry weigh at most its total. -/
theorem UnitWeights.waiting_le_user {cfg : Config} {q : QueueState} (hw : UnitWeights q)
    (ha : Acct q) (hcl : Classes cfg q) (r : UserRef) :
    total (q.bl (.user r)).units (fun x => (q.unit x).weight) ≤ (q.bl (.user r)).weight := by
  have hsub : (q.bl (.user r)).units ⊆ q.flows.map fun f => .flow f r.d := by
    intro x hx
    have htc := (ha.links.units _ x).mp hx
    have hc := ha.links.compat x _ htc
    cases x with
    | user r' => cases hc
    | flow f d =>
        obtain ⟨hf, -, -, rfl⟩ := ha.attached_tracked htc
        exact List.mem_map_of_mem hf
  refine (waiting_weights_le ha.links _ hsub).trans ?_
  rw [total_map, ha.tcWeight, userWeight]
  apply total_le_total
  intro f _
  by_cases htc : (q.unit (.flow f r.d)).tc = some (.user r)
  · -- an attached flow weighs what its class says, which is one
    obtain ⟨-, -, hu, -⟩ := ha.attached_tracked htc
    have hrule := ha.rule f r.d r htc
    rw [if_pos htc, if_pos ⟨hu.symm, by rw [htc]; simp, hrule⟩]
    exact (hw.flowUnit f r.d).trans (hcl.flowRule f r.i hrule).2
  · rw [if_neg htc]
    exact Nat.zero_le _

/-- The users that wait for a bucket weigh at most its total. -/
theorem Acct.waiting_le_bucket {cfg : Config} {q : QueueState} (ha : Acct q)
    (hcl : Classes cfg q) (hs : Small q) (d : Dir) (i : RuleIdx) :
    total (q.bl (.bucket d i)).units (fun x => (q.unit x).weight) ≤ (q.bl (.bucket d i)).weight := by
  have hsub : (q.bl (.bucket d i)).units ⊆ q.users.map fun u => .user ⟨u, d, i⟩ := by
    intro x hx
    have htc := (ha.links.units _ x).mp hx
    have hc := ha.links.compat x _ htc
    cases x with
    | flow f d' => cases hc
    | user r =>
        obtain ⟨f, hf⟩ := ha.userBusy r (by rw [htc]; simp)
        obtain ⟨-, hu, hru, -⟩ := ha.attached_tracked hf
        obtain ⟨u, d', i'⟩ := r
        cases hc
        have hu' : u = f.user := hru
        exact List.mem_map_of_mem (hu' ▸ hu)
  refine (waiting_weights_le ha.links _ hsub).trans ?_
  rw [total_map, ha.bucketWeights, bucketWeight]
  apply total_le_total
  intro u _
  by_cases htc : (q.unit (.user ⟨u, d, i⟩)).tc = some (.bucket d i)
  · obtain ⟨f, hf⟩ := ha.userBusy ⟨u, d, i⟩ (by rw [htc]; simp)
    rw [if_pos htc, if_pos (ha.user_pos hcl hs hf).2.1]
  · rw [if_neg htc]
    exact Nat.zero_le _

/-- While no counter wraps, the units that wait for a token control have weights in range,
and their weights sum to at most the total there. -/
theorem Reachable.weighted {cfg : Config} {now : ℕ} {s : State}
    (h : Reachable (Below (2 ^ 32)) (initState cfg now) s) (X : TcId) :
    (∀ x ∈ (s.q.bl X).units, Weighted s.q X x)
      ∧ total (s.q.bl X).units (fun x => (s.q.unit x).weight) ≤ (s.q.bl X).weight := by
  have hi : Idle True cfg s := h.idle fun s e hb _ => hb
  have ha := hi.inv.base.acct
  have hl := ha.links
  have hcl : Classes cfg s.q := hi.inv.cfg_eq ▸ hi.inv.base.classes
  have hsmall := hi.inv.small trivial
  have hw := h.unitWeights
  have hsum : total (s.q.bl X).units (fun x => (s.q.unit x).weight) ≤ (s.q.bl X).weight := by
    cases X with
    | bucket d i => exact ha.waiting_le_bucket hcl hsmall d i
    | user r => exact hw.waiting_le_user ha hcl r
  refine ⟨fun x hx => ?_, hsum⟩
  have htc := (hl.units X x).mp hx
  refine ⟨htc, by rw [hl.linked, htc]; rfl, ?_, hw.weight x,
    (le_total hx fun x => (s.q.unit x).weight).trans hsum⟩
  cases x with
  | flow f d => exact hw.waiting f d (by rw [htc]; simp)
  | user r =>
      obtain ⟨f, hf⟩ := ha.userBusy r (by rw [htc]; simp)
      exact (ha.user_pos hcl hsmall hf).2.2.2

/-! ## The configured ceilings -/

/-- The rates and the latency of a configuration. -/
def Config.ceiling (c : Config) : Ceiling := ⟨c.rate, c.latencyShift⟩

/-- What a unit waits for runs at its configured rate. -/
theorem Reachable.ceiling_eq {cfg : Config} {now : ℕ} {P : State → Event → Prop} {s : State}
    (h : Reachable P (initState cfg now) s) {X : TcId} {x : UnitId}
    (hx : x ∈ (s.q.bl X).units) : s.ceiling.rate X = cfg.ceiling.rate X
      ∧ s.ceiling.latencyShift = cfg.ceiling.latencyShift := by
  have hinv := (h.reaches.inv : Idle False cfg s).inv
  have ha := hinv.base.acct
  have hcfg := hinv.cfg_eq
  have htc := (ha.links.units X x).mp hx
  have hlive : ∀ {f : FlowId} {d : Dir} {r : UserRef},
      (s.q.unit (.flow f d)).tc = some (.user r) →
        Live cfg s.q.users r.bucket ∧ Live cfg s.q.users (.user r) := by
    intro f d r hf
    obtain ⟨-, hu, hru, -⟩ := ha.attached_tracked hf
    have hrule := (hinv.base.classes.flowRule f r.i (ha.rule f d r hf)).1
    rw [hcfg, ← hru] at hrule
    exact live_of_rule (hru ▸ hu) hrule
  have hX : Live cfg s.q.users X := by
    have hc := ha.links.compat x X htc
    cases x with
    | flow f d =>
        cases X with
        | bucket d' i => cases hc
        | user r => exact (hlive htc).2
    | user r =>
        obtain ⟨f, hf⟩ := ha.userBusy r (by rw [htc]; simp)
        cases hc
        exact (hlive hf).1
  have htokens : TokensOk cfg s.q.users s.t := hcfg ▸ hinv.base.tokens
  exact ⟨htokens.rate X hX, congrArg Config.latencyShift hcfg⟩

/-- For every configuration, a unit that waits for a token control gets exactly its share if
and only if the numbers fit; and the ceilings of units that wait together never sum to more
than what they share, in particular in every reachable state. -/
theorem shares_exact_iff (cfg : Config) (X : TcId) :
    (∀ q x parent, Weighted q X x → (q.bl X).weight < 2 ^ 32 → parent < 2 ^ 32 →
      (backlogMaxOctets cfg.ceiling q x parent
          = .ok (exactShare cfg.ceiling X parent (q.unit x).weight (q.bl X).weight)
        ↔ ShareFits (latencyOctets cfg.ceiling X) parent (q.unit x).weight (q.bl X).weight)) ∧
    (∀ q (l : List UnitId) (parent : ℕ) (c : UnitId → ℕ), (∀ x ∈ l, Weighted q X x) →
      total l (fun x => (q.unit x).weight) ≤ (q.bl X).weight → parent < 2 ^ 32 →
      (∀ x ∈ l, backlogMaxOctets cfg.ceiling q x parent = .ok (c x)) →
      total l c ≤ min parent (latencyOctets cfg.ceiling X)) ∧
    ∀ now s, Reachable (Below (2 ^ 32)) (initState cfg now) s →
      ∀ (l : List UnitId) (parent : ℕ) (c : UnitId → ℕ), l.Nodup → l ⊆ (s.q.bl X).units →
        parent < 2 ^ 32 → (∀ x ∈ l, backlogMaxOctets s.ceiling s.q x parent = .ok (c x)) →
        total l c ≤ min parent (latencyOctets cfg.ceiling X) := by
  have hrate : RateOk cfg.HZ (cfg.ceiling.rate X) := cfg.rateOk X
  refine ⟨fun q x parent hw hlt hp => ?_, fun q l parent c hl hsum hp hc =>
    ceilings_sum_le hrate.1 hl hsum hp hc, ?_⟩
  · have hpos := hw.pos
    have hle := hw.le_total
    exact maxOctets_exact_iff hw.tc hw.linked hp hrate.1 (by omega) hlt hle
  · intro now s hs l parent c hl hsub hp hc
    cases hnil : l with
    | nil => exact Nat.zero_le _
    | cons x rest =>
        rw [← hnil]
        have hx : x ∈ (s.q.bl X).units := hsub (hnil ▸ List.mem_cons_self)
        obtain ⟨hreq, hseq⟩ := hs.ceiling_eq hx
        obtain ⟨hw, hsum⟩ := hs.weighted X
        rw [latencyOctets, ← hreq, ← hseq]
        exact ceilings_sum_le (hreq ▸ hrate.1) (fun y hy => hw y (hsub hy))
          ((total_le_of_subset hl hsub _).trans hsum) hp hc

/-- A latency of 1024 jiffies, and 419431000 bytes per second at a tick rate of 100. -/
def longLatency : Config where
  HZ := 100
  rules := [⟨[], [], fun _ => ⟨4194310, 4194310⟩⟩]
  maxBacklogPackets := 100
  latencyShift := 10
  hz_ge := by decide
  nr_rule_le := by simp
  rate_ok := by
    intro r hr d
    obtain rfl := List.mem_singleton.mp hr
    have hrate : RateOk 100 4194310 := ⟨by decide, by decide⟩
    exact ⟨hrate, hrate⟩
  weight_ok := by
    intro r hr w hw
    obtain rfl := List.mem_singleton.mp hr
    cases hw
  latency_le := le_refl 10

/-- A lone unit gets 6144 octets in place of four gigabytes. -/
theorem share_wraps :
    ¬ (∀ q x parent, Weighted q (.bucket 0 0) x → (q.bl (.bucket 0 0)).weight < 2 ^ 32 →
        parent < 2 ^ 32 → backlogMaxOctets longLatency.ceiling q x parent
          = .ok (exactShare longLatency.ceiling (.bucket 0 0) parent (q.unit x).weight
            (q.bl (.bucket 0 0)).weight))
      ∧ backlogMaxOctets longLatency.ceiling (oneUnit (.bucket 0 0) 1 1) (.flow ⟨0, 0⟩ 0)
        (2 ^ 32 - 1) = .ok 6144
      ∧ exactShare longLatency.ceiling (.bucket 0 0) (2 ^ 32 - 1) 1 1 = 2 ^ 32 - 1 := by
  have hgot : backlogMaxOctets longLatency.ceiling (oneUnit (.bucket 0 0) 1 1) (.flow ⟨0, 0⟩ 0)
      (2 ^ 32 - 1) = .ok 6144 := by decide
  refine ⟨fun h => ?_, hgot, by decide⟩
  have hshare := h (oneUnit (.bucket 0 0) 1 1) (.flow ⟨0, 0⟩ 0) (2 ^ 32 - 1)
    (weighted_oneUnit (by decide) (by decide) (by decide)) (by decide) (by decide)
  rw [hgot] at hshare
  revert hshare
  decide

/-- With a latency of 128 jiffies and 20000000 bytes in each, a unit of weight one among
a total of 20000001 gets its share, and one of weight 255 does not. -/
theorem shares_exact_large :
    let cfg := oneRule 20000000 7 ⟨by decide, by decide⟩ (by decide)
    backlogMaxOctets cfg.ceiling (oneUnit (.bucket 0 0) 1 20000001) (.flow ⟨0, 0⟩ 0) (2 ^ 32 - 1)
        = .ok (exactShare cfg.ceiling (.bucket 0 0) (2 ^ 32 - 1) 1 20000001)
      ∧ backlogMaxOctets cfg.ceiling (oneUnit (.bucket 0 0) 255 20000001) (.flow ⟨0, 0⟩ 0)
        (2 ^ 32 - 1) ≠ .ok (exactShare cfg.ceiling (.bucket 0 0) (2 ^ 32 - 1) 255 20000001) := by
  intro cfg
  have hfits := (shares_exact_iff cfg (.bucket 0 0)).1
  refine ⟨(hfits (oneUnit (.bucket 0 0) 1 20000001) (.flow ⟨0, 0⟩ 0) (2 ^ 32 - 1)
    (weighted_oneUnit (by decide) (by decide) (by decide)) (by decide) (by decide)).mpr
    ⟨by decide, Or.inl (by decide)⟩, fun h => ?_⟩
  have hbad := (hfits (oneUnit (.bucket 0 0) 255 20000001) (.flow ⟨0, 0⟩ 0) (2 ^ 32 - 1)
    (weighted_oneUnit (by decide) (by decide) (by decide)) (by decide) (by decide)).mp h
  exact absurd hbad.product (by decide)

end Tbq
