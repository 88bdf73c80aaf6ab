/-
# Turns and deficits

The units of one token control take turns by deficit round robin.  `TurnsOk` keeps the
deficits between zero and what one turn gives; for that the packets must not be longer
than the quantum.  Calls other than a tick keep both, and leave the units that stay
attached as they are.
-/
import OpenwrtAc.RoundRobin
import OpenwrtAc.TbqRates

open Outcome MachineInt ListSum RoundRobin

namespace Tbq

/-- `1 << TBQ_DRR_QUANTUM_SHIFT`. -/
def tbqDrrQuantum : ℕ := 2 ^ tbqDrrQuantumShift

/-! ## Weights in range -/

/-- A rule weighs an application by one at most. -/
theorem appMatchWeight_le (c : Config) (app : ℕ) (i : RuleIdx) : appMatchWeight c app i ≤ 1 := by
  unfold appMatchWeight
  split
  · unfold ruleMatchApp
    split
    · exact le_refl 1
    · split
      · exact le_refl 1
      · exact Nat.zero_le 1
  · exact Nat.zero_le 1

/-- A rule weighs a user by a byte at most. -/
theorem userMatchWeight_le (c : Config) (ip : UserId) (i : RuleIdx) :
    userMatchWeight c ip i ≤ 255 := by
  unfold userMatchWeight
  split
  · omega
  · omega

/-- The weights that classification and attachment give. -/
structure UnitWeights (q : QueueState) : Prop where
  weight : ∀ x, (q.unit x).weight ≤ 255
  flowUnit : ∀ f d, (q.unit (.flow f d)).weight ≤ 1
  waiting : ∀ f d, (q.unit (.flow f d)).tc ≠ none → 1 ≤ (q.unit (.flow f d)).weight
  flow : ∀ f i, (q.flow f).weight i ≤ 1

namespace UnitWeights

variable {q q' : QueueState}

/-- Users may be attached, and flows detached. -/
theorem congr (h : UnitWeights q) (hw : ∀ x, (q'.unit x).weight = (q.unit x).weight)
    (htc : ∀ f d, (q'.unit (.flow f d)).tc ≠ none → (q.unit (.flow f d)).tc ≠ none)
    (hflow : q'.flow = q.flow) : UnitWeights q' := by
  refine ⟨fun x => ?_, fun f d => ?_, fun f d hx => ?_, fun f i => ?_⟩
  · rw [hw]
    exact h.weight x
  · rw [hw]
    exact h.flowUnit f d
  · rw [hw]
    exact h.waiting f d (htc f d hx)
  · rw [hflow]
    exact h.flow f i

/-- A step that takes no turn keeps the weights of the units. -/
theorem sameTurns (h : UnitWeights q) (hs : SameTurns q q') (hflow : q'.flow = q.flow) :
    UnitWeights q' :=
  h.congr hs.weight (fun f d hx => by rwa [hs.tc] at hx) hflow

/-- Detaching units keeps the weights of the units. -/
theorem shed (h : UnitWeights q) (hs : Shed q q') (hflow : q'.flow = q.flow) :
    UnitWeights q' := by
  refine h.congr hs.weight (fun f d hx => ?_) hflow
  rcases hs.tc (.flow f d) with htc | htc
  · exact absurd htc hx
  · rwa [htc] at hx

/-- The backlogs of one flow are as new. -/
theorem reset (h : UnitWeights q) {f : FlowId} (hr : FlowReset f q q') : UnitWeights q' := by
  refine ⟨fun x => ?_, fun g d => ?_, fun g d hg => ?_, fun g i => ?_⟩
  · obtain ⟨d, rfl⟩ | hx := hr.unit_cases x
    · rw [hr.weight]
      exact Nat.zero_le _
    · rw [hx]
      exact h.weight x
  · obtain ⟨d', he⟩ | hx := hr.unit_cases (.flow g d)
    · rw [he, hr.weight]
      exact Nat.zero_le _
    · rw [hx]
      exact h.flowUnit g d
  · obtain ⟨d', he⟩ | hx := hr.unit_cases (.flow g d)
    · rw [he] at hg
      exact absurd (hr.tc d') hg
    · rw [hx] at hg ⊢
      exact h.waiting g d hg
  · by_cases hg : g = f
    · rw [hg, hr.flowWeight]
      exact Nat.zero_le 1
    · rw [hr.flow g hg]
      exact h.flow g i

/-- A user is allocated, a flow is new, or a flow is classified. -/
theorem trackStep {s s' : State} (h : UnitWeights s.q) (hs : TrackStep s s') :
    UnitWeights s'.q := by
  cases hs with
  | @alloc u hu =>
      refine ⟨fun x => ?_, h.flowUnit, h.waiting, h.flow⟩
      cases x with
      | flow f d => exact h.weight _
      | user r =>
          change (if r.u = u then backlogInit (if (userMatch s.cfg u).has r.i then
            userMatchWeight s.cfg u r.i else 0) else s.q.unit (.user r)).weight ≤ 255
          split
          · unfold backlogInit
            dsimp only
            split
            · exact userMatchWeight_le _ _ _
            · exact Nat.zero_le _
          · exact h.weight _
  | @init f hf htc => exact h.reset (flowReset_init s.q f)
  | classify f app =>
      refine ⟨h.weight, h.flowUnit, h.waiting, fun g i => ?_⟩
      show (Function.update s.q.flow f _ g).weight i ≤ 1
      by_cases hg : g = f
      · subst hg
        rw [Function.update_self]
        unfold classify
        dsimp only
        split
        · dsimp only
          split
          · exact appMatchWeight_le _ _ _
          · exact h.flow g i
        · exact h.flow g i
      · rw [Function.update_of_ne hg]
        exact h.flow g i

/-- Tracking users and flows keeps the weights of the units. -/
theorem trackSteps {s s' : State} (h : UnitWeights s.q)
    (hs : Relation.ReflTransGen TrackStep s s') : UnitWeights s'.q := by
  induction hs with
  | refl => exact h
  | tail _ hstep ih => exact ih.trackStep hstep

end UnitWeights

/-! ## Deficits and weights in range -/

/-- Every deficit is at most what one turn gives, and the weights are those that
`tbq_user_match` and `tbq_app_match` can give. -/
structure TurnsOk (q : QueueState) : Prop where
  turn : ∀ x, InTurn tbqDrrQuantum (q.unit x).weight (q.unit x).drrDeficit
  weight : ∀ x, (q.unit x).weight ≤ 255
  flowUnit : ∀ f d, (q.unit (.flow f d)).weight ≤ 1
  waiting : ∀ f d, (q.unit (.flow f d)).tc ≠ none → 1 ≤ (q.unit (.flow f d)).weight
  flow : ∀ f i, (q.flow f).weight i ≤ 1
  fresh : ∀ f, f ∉ q.flows → ∀ d, (q.unit (.flow f d)).drrDeficit = 0

/-- Turns that are in order have the weights of the units. -/
theorem TurnsOk.weights {q : QueueState} (h : TurnsOk q) : UnitWeights q :=
  ⟨h.weight, h.flowUnit, h.waiting, h.flow⟩

/-- Weights and deficits in order make turns in order. -/
theorem UnitWeights.turns {q : QueueState} (h : UnitWeights q)
    (hturn : ∀ x, InTurn tbqDrrQuantum (q.unit x).weight (q.unit x).drrDeficit)
    (hfresh : ∀ f, f ∉ q.flows → ∀ d, (q.unit (.flow f d)).drrDeficit = 0) : TurnsOk q :=
  ⟨hturn, h.weight, h.flowUnit, h.waiting, h.flow, hfresh⟩

/-- What is attached has a weight. -/
theorem TurnsOk.weight_pos {s : State} (h : TurnsOk s.q) (hb : Base s) {x : UnitId}
    (hx : (s.q.unit x).tc ≠ none) : 1 ≤ (s.q.unit x).weight := by
  cases x with
  | flow f d => exact h.waiting f d hx
  | user r =>
      obtain ⟨f, hf⟩ := hb.acct.userBusy r hx
      obtain ⟨hu, -⟩ := hb.acct.links.compat _ _ hf
      have hmem : r.u ∈ s.q.users := by
        rw [hu]
        exact hb.acct.userTracked f r.d (.inl (by rw [hf]; simp))
      have hrule := (hb.classes.flowRule f r.i (hb.acct.rule f r.d r hf)).1
      rw [← hu] at hrule
      exact hb.classes.userWeight r hmem hrule

/-- Two queues with the same weights and deficits, in which no unit is newly attached. -/
theorem TurnsOk.congr {q q' : QueueState} (h : TurnsOk q)
    (hw : ∀ x, (q'.unit x).weight = (q.unit x).weight)
    (hd : ∀ x, (q'.unit x).drrDeficit = (q.unit x).drrDeficit)
    (htc : ∀ x, (q'.unit x).tc ≠ none → (q.unit x).tc ≠ none) (hflow : q'.flow = q.flow)
    (hflows : q'.flows = q.flows) : TurnsOk q' := by
  refine (h.weights.congr hw (fun f d => htc _) hflow).turns (fun x => ?_) fun f hf d => ?_
  · rw [hw, hd]
    exact h.turn x
  · rw [hd]
    exact h.fresh f (hflows ▸ hf) d

/-- A step that takes no turn keeps the turns. -/
theorem TurnsOk.same {q q' : QueueState} (h : TurnsOk q) (hs : SameTurns q q')
    (hflow : q'.flow = q.flow) (hflows : q'.flows = q.flows) : TurnsOk q' :=
  h.congr hs.weight hs.deficit (fun x hx => by rwa [hs.tc] at hx) hflow hflows

/-- Detaching units keeps the turns. -/
theorem TurnsOk.shed {q q' : QueueState} (h : TurnsOk q) (hs : Shed q q')
    (hflow : q'.flow = q.flow) (hflows : q'.flows = q.flows) : TurnsOk q' := by
  refine h.congr hs.weight hs.deficit (fun x hx => ?_) hflow hflows
  rcases hs.tc x with h₁ | h₁
  · exact absurd h₁ hx
  · rwa [h₁] at hx

/-- The turn that `tbq_backlog_attach` gives. -/
theorem i32_quantum {w : ℕ} (hw : w ≤ 255) :
    i32 (w * 2 ^ tbqDrrQuantumShift) = w * tbqDrrQuantum := by
  unfold tbqDrrQuantum tbqDrrQuantumShift
  rw [i32_of_range (by omega) (by omega)]
  norm_num

/-- Changing one unit. -/
theorem TurnsOk.set {q q' : QueueState} (h : TurnsOk q) {x : UnitId}
    (hturn : InTurn tbqDrrQuantum (q'.unit x).weight (q'.unit x).drrDeficit)
    (hweight : (q'.unit x).weight ≤ 255)
    (hflowUnit : ∀ f d, x = .flow f d → (q'.unit x).weight ≤ 1
      ∧ ((q'.unit x).tc ≠ none → 1 ≤ (q'.unit x).weight) ∧ f ∈ q.flows)
    (hothers : ∀ y, y ≠ x → q'.unit y = q.unit y) (hflow : q'.flow = q.flow)
    (hflows : q'.flows = q.flows) : TurnsOk q' := by
  refine ⟨fun y => ?_, fun y => ?_, fun f d => ?_, fun f d hy => ?_, fun f i => ?_,
    fun f hf d => ?_⟩
  · by_cases hyx : y = x
    · rw [hyx]
      exact hturn
    · rw [hothers y hyx]
      exact h.turn y
  · by_cases hyx : y = x
    · rw [hyx]
      exact hweight
    · rw [hothers y hyx]
      exact h.weight y
  · by_cases hyx : UnitId.flow f d = x
    · rw [hyx]
      exact (hflowUnit f d hyx.symm).1
    · rw [hothers _ hyx]
      exact h.flowUnit f d
  · by_cases hyx : UnitId.flow f d = x
    · rw [hyx] at hy ⊢
      exact (hflowUnit f d hyx.symm).2.1 hy
    · rw [hothers _ hyx] at hy ⊢
      exact h.waiting f d hy
  · rw [hflow]
    exact h.flow f i
  · rw [hflows] at hf
    have hyx : UnitId.flow f d ≠ x := fun e => hf (hflowUnit f d e.symm).2.2
    rw [hothers _ hyx]
    exact h.fresh f hf d

/-- Linking a user. -/
theorem TurnsOk.linkUser {q : QueueState} (h : TurnsOk q) (r : UserRef) (X : TcId) :
    TurnsOk (link q (.user r) X) := by
  have hw := h.weight (.user r)
  refine h.set (x := .user r) ?_ ?_ (fun f d e => by cases e) (fun y hy => ?_)
    (sameRest_link q _ X).flow (sameRest_link q _ X).flows
  · rw [link, setUnit_self]
    dsimp only
    rw [i32_quantum hw]
    exact ⟨by positivity, le_refl _⟩
  · rw [link, setUnit_self]
    exact hw
  · rw [link, setUnit_of_ne _ _ hy, setUnits_unit]

/-- Attaching a flow to an entry of one of its rules. -/
theorem TurnsOk.attachedFlow {q : QueueState} (h : TurnsOk q) (pending : List TcId) {f : FlowId}
    (d : Dir) {r : UserRef} (hf : f ∈ q.flows) (hrule : 0 < (q.flow f).weight r.i) :
    TurnsOk (attachedFlow pending q f d r) := by
  have huser : TurnsOk (userAttached pending q r) := by
    unfold userAttached
    split
    · exact h.linkUser r r.bucket
    · exact h
  have hrest := (sameRest_userAttached pending q r).trans
    (sameRest_backlogEnqueue (userAttached pending q r) (.user r) (q.unit (.flow f d)).octets)
  have hq₁ := huser.same (sameTurns_backlogEnqueue _ (.user r) (q.unit (.flow f d)).octets)
    (sameRest_backlogEnqueue _ _ _).flow (sameRest_backlogEnqueue _ _ _).flows
  have hw := hq₁.flowUnit f d
  have hone : (q.flow f).weight r.i = 1 := le_antisymm (h.flow f r.i) hrule
  have hrest' := sameRest_attachedFlow pending q f d r
  unfold Tbq.attachedFlow at hrest' ⊢
  set q₁ := backlogEnqueue (userAttached pending q r) (.user r) (q.unit (.flow f d)).octets with hq₁d
  refine hq₁.set (x := .flow f d) ?_ ?_ (fun f' d' e => ?_) (fun y hy => ?_)
    (hrest'.flow.trans hrest.flow.symm) (hrest'.flows.trans hrest.flows.symm)
  · rw [setUnit_self]
    dsimp only
    rw [link, setUnit_self]
    dsimp only
    rw [i32_quantum (by omega), hone]
    refine ⟨by positivity, ?_⟩
    have : ((q₁.unit (.flow f d)).weight : ℤ) ≤ 1 := by exact_mod_cast hw
    exact mul_le_mul_of_nonneg_right this (by positivity)
  · rw [setUnit_self]
    dsimp only
    omega
  · obtain ⟨rfl, rfl⟩ := UnitId.flow.inj e
    rw [setUnit_self]
    dsimp only
    rw [hone, hrest.flows]
    exact ⟨le_refl 1, fun _ => le_refl 1, hf⟩
  · rw [setUnit_of_ne _ _ hy, link, setUnit_of_ne _ _ hy, setUnits_unit]

/-! ## Charging a packet -/

/-- In range, `tbq_backlog_drr_schedule` computes the charge of the round robin. -/
theorem drrCharge_eq {b : Backlog} {n : ℕ} (hw : b.weight ≤ 255) (hn : n ≤ tbqDrrQuantum)
    (ht : InTurn tbqDrrQuantum b.weight b.drrDeficit) :
    drrCharge b n = ({ b with drrDeficit := (charge tbqDrrQuantum b.weight b.drrDeficit n).1 },
      (charge tbqDrrQuantum b.weight b.drrDeficit n).2) := by
  obtain ⟨h₀, h₁⟩ := ht
  unfold tbqDrrQuantum tbqDrrQuantumShift at *
  unfold drrCharge charge tbqDrrQuantumShift
  rw [i32_of_range (x := b.drrDeficit - n) (by push_cast at *; omega) (by push_cast at *; omega)]
  by_cases hneg : b.drrDeficit - n < 0
  · simp only [if_pos hneg]
    rw [i32_of_range (by push_cast at *; omega) (by push_cast at *; omega)]
    push_cast
    rfl
  · simp only [if_neg hneg]

/-- A unit with a weight keeps its deficit in range when it is charged one packet. -/
theorem TurnsOk.scheduled {q : QueueState} (h : TurnsOk q) {x : UnitId} {n : ℕ}
    (hn : n ≤ tbqDrrQuantum) (hw : (q.unit x).tc ≠ none → 1 ≤ (q.unit x).weight)
    (hf : ∀ f d, x = .flow f d → f ∈ q.flows) : TurnsOk (scheduled q x n) := by
  have hrest := sameRest_scheduled q x n
  by_cases hx : (q.unit x).tc = none
  · have hq : Tbq.scheduled q x n = q := by
      unfold Tbq.scheduled
      rw [hx]
    rw [hq]
    exact h
  have hself : (Tbq.scheduled q x n).unit x = (drrCharge (q.unit x) n).1 := by
    rw [scheduled_unit, if_pos ⟨rfl, hx⟩]
  rw [drrCharge_eq (h.weight x) hn (h.turn x)] at hself
  refine h.set (x := x) ?_ ?_ (fun f d e => ?_) (fun y hy => ?_) hrest.flow hrest.flows
  · rw [hself]
    exact (h.turn x).charge (hw hx) hn
  · rw [hself]
    exact h.weight x
  · rw [hself]
    subst e
    exact ⟨h.flowUnit f d, fun _ => hw hx, hf f d rfl⟩
  · rw [scheduled_unit, if_neg fun hc => hy hc.1]

/-! ## Tracking -/

/-- A unit with no deficit is in its turn. -/
theorem inTurn_zero (q w : ℕ) : InTurn q w 0 := ⟨le_refl 0, by positivity⟩

/-- The backlogs of one flow are as new, with no deficit. -/
theorem TurnsOk.reset {q q' : QueueState} (h : TurnsOk q) {f : FlowId} (hr : FlowReset f q q')
    (hdeficit : ∀ d, (q'.unit (.flow f d)).drrDeficit = 0)
    (hflows : ∀ g, g ≠ f → g ∉ q'.flows → g ∉ q.flows) : TurnsOk q' := by
  refine (h.weights.reset hr).turns (fun x => ?_) fun g hg d => ?_
  · obtain ⟨d, rfl⟩ | hx := hr.unit_cases x
    · rw [hdeficit]
      exact inTurn_zero _ _
    · rw [hx]
      exact h.turn x
  · by_cases hgf : g = f
    · rw [hgf]
      exact hdeficit d
    · rw [hr.unit _ fun d' e => hgf (UnitId.flow.inj e).1]
      exact h.fresh g (hflows g hgf hg) d

/-- Tracking keeps the turns. -/
theorem TurnsOk.trackStep {s s' : State} (h : TurnsOk s.q) (hs : TrackStep s s') :
    TurnsOk s'.q := by
  have hw := h.weights.trackStep hs
  cases hs with
  | @alloc u hu =>
      -- a new user starts with the deficits of zeroed memory
      refine hw.turns (fun x => ?_) h.fresh
      cases x with
      | flow f d => exact h.turn _
      | user r =>
          by_cases hr : r.u = u
          · simpa [userTrackQueue, hr, backlogInit] using inTurn_zero _ _
          · simpa [userTrackQueue, hr] using h.turn (.user r)
  | @init f hf htc =>
      refine h.reset (flowReset_init s.q f) (fun d => ?_) fun g _ hg hm =>
        hg (List.mem_cons_of_mem f hm)
      simp [flowTrackInit, backlogInit, h.fresh f hf d]
  | classify f app => exact hw.turns h.turn h.fresh

/-- Clearing a flow keeps the turns. -/
theorem TurnsOk.clear {q : QueueState} (h : TurnsOk q) (f : FlowId) :
    TurnsOk (flowTrackClear q f) := by
  refine h.reset (flowReset_clear q f) (fun d => ?_) fun g hgf hg hm =>
    hg ((List.mem_erase_of_ne hgf).mpr hm)
  simp [flowTrackClear, backlogInit]

/-! ## Small packets -/

/-- Every packet that is queued or on its way to the queue has at most `B` octets. -/
structure PacketsLe (B : ℕ) (s : State) : Prop where
  queued : ∀ f d, ∀ p ∈ s.q.packets f d, p.pktLen ≤ B
  inflight : ∀ p ∈ s.inflight, p.pktLen ≤ B

/-- Only packets of at most `B` octets reach the filter. -/
def OnlyPacketsLe (B : ℕ) (_ : State) : Event → Prop
  | .filter _ _ _ len _ => len.1 ≤ B
  | _ => True

/-- Tracking keeps the bound on the packets. -/
theorem PacketsLe.trackStep {B : ℕ} {s s' : State} (h : PacketsLe B s) (hs : TrackStep s s') :
    PacketsLe B s' := by
  cases hs with
  | alloc hu => exact ⟨h.queued, h.inflight⟩
  | @init f hf htc =>
      refine ⟨fun g d p hp => ?_, h.inflight⟩
      have hp : p ∈ Function.update s.q.packets f (fun _ => []) g d := hp
      by_cases hg : g = f
      · subst hg
        rw [Function.update_self] at hp
        cases hp
      · rw [Function.update_of_ne hg] at hp
        exact h.queued g d p hp
  | classify f app => exact ⟨h.queued, h.inflight⟩

/-! ## Calls -/

/-- Tracking only adds units. -/
theorem TrackStep.grown {s s' : State} (hs : TrackStep s s') : Grown s.q s'.q := by
  cases hs with
  | @alloc u hu =>
      refine .of_detached (fun x hx => ?_) fun X => ?_
      · cases x with
        | flow f d => rfl
        | user r =>
            have hr : r.u ≠ u := fun e => hx (hu r e).1
            simp [userTrackQueue, hr]
      · cases X with
        | bucket d i => rfl
        | user r =>
            by_cases hr : r.u = u
            · simp [userTrackQueue, hr, (hu r hr).2]
            · simp [userTrackQueue, hr]
  | @init f hf htc =>
      refine .of_detached (fun x hx => ?_) fun X => rfl
      cases x with
      | user r => rfl
      | flow g d =>
          have hg : g ≠ f := fun e => hx (e ▸ htc d)
          simp [flowTrackInit, hg]
  | classify f app => exact .of_same (.of_unit rfl fun _ => rfl)

/-- Clearing a flow that waits for nobody takes no unit out of a list. -/
theorem flowTrackClear_grown {q : QueueState} {f : FlowId}
    (htc : ∀ d, (q.unit (.flow f d)).tc = none) : Grown q (flowTrackClear q f) := by
  refine .of_detached (fun x hx => ?_) fun X => rfl
  cases x with
  | user r => rfl
  | flow g d =>
      have hg : g ≠ f := fun e => hx (e ▸ htc d)
      simp [flowTrackClear, hg]

/-- What a call other than a tick does to the round robin. -/
structure Calm (B : ℕ) (s s' : State) : Prop where
  turns : TurnsOk s'.q
  packets : PacketsLe B s'
  units : Shed s.q s'.q ∨ Grown s.q s'.q

/-- The queue did not change. -/
theorem calm_of_queue {B : ℕ} {s s' : State} (h : TurnsOk s.q) (hp : PacketsLe B s)
    (hs : SameTurns s.q s'.q) (hflow : s'.q.flow = s.q.flow) (hflows : s'.q.flows = s.q.flows)
    (hpk : s'.q.packets = s.q.packets) (hin : s'.inflight = s.inflight) : Calm B s s' :=
  ⟨h.same hs hflow hflows, ⟨by rw [hpk]; exact hp.queued, by rw [hin]; exact hp.inflight⟩,
    .inr (.of_same hs)⟩

/-- Any number of tracking steps keeps turns and packets, and only adds. -/
theorem calm_of_trackSteps {B : ℕ} {s s' : State} (h : TurnsOk s.q) (hp : PacketsLe B s)
    (hs : Relation.ReflTransGen TrackStep s s') :
    TurnsOk s'.q ∧ PacketsLe B s' ∧ Grown s.q s'.q := by
  induction hs with
  | refl => exact ⟨h, hp, .refl _⟩
  | tail _ hstep ih =>
      obtain ⟨h₁, h₂, h₃⟩ := ih
      exact ⟨h₁.trackStep hstep, h₂.trackStep hstep, h₃.trans hstep.grown⟩

/-- The queue handler attaches a flow to an entry of one of its rules. -/
theorem Enqueued.calm {B : ℕ} {p : Packet} {s s' : State} (h : Enqueued p s s') (hb' : Base s')
    (ht : TurnsOk s.q) (hp : PacketsLe B s) (hlen : p.pktLen ≤ B) (hf : p.flow ∈ s.q.flows) :
    Calm B s s' := by
  have hpk : PacketsLe B s' := by
    refine ⟨fun g e p' hp' => ?_, by rw [h.inflight]; exact hp.inflight⟩
    rcases h.packets g e p' hp' with hold | rfl
    · exact hp.queued g e p' hold
    · exact hlen
  have hq := h.queued
  cases hq with
  | shed hshed => exact ⟨ht.shed hshed h.flow h.flows, hpk, .inl hshed⟩
  | @attached q₀ pending r hsame hflow hflows hnone hsame' =>
      have htc : (s'.q.unit (.flow p.flow p.dir)).tc = some (.user r) := by
        rw [hsame'.tc]
        exact (attachedFlow_flow ..).1
      have hrule := (hb'.classes.flowRule p.flow r.i (hb'.acct.rule _ _ r htc)).2
      rw [h.flow, ← hflow] at hrule
      have hrest := sameRest_attachedFlow pending q₀ p.flow p.dir r
      have hturns := (ht.same hsame hflow hflows).attachedFlow pending p.dir
        (hflows.symm ▸ hf) hrule
      refine ⟨hturns.same hsame' ?_ ?_, hpk, .inr ?_⟩
      · rw [h.flow, hrest.flow, hflow]
      · rw [h.flows, hrest.flows, hflows]
      · exact (Grown.of_same hsame).trans ((attachedFlow_grown pending r hnone).trans (.of_same hsame'))

/-- A call keeps the deficits in range and lets the attached units be, or detaches some. -/
theorem Idle.step_calm {cfg : Config} {B : ℕ} {s s' : State} (hi : Idle False cfg s) {fuel : ℕ}
    {e : Event} (hno : ∀ order, e ≠ .tick order) (hadm : Admissible s e) (hle : OnlyPacketsLe B s e)
    (ht : TurnsOk s.q) (hp : PacketsLe B s) (hs : step fuel s e = .ok s') : Calm B s s' := by
  have hb' : Base s' := ((hi.step_sat fuel hadm fun hb => hb.elim).of_ok hs).inv.base
  cases hi.step_effect hno hadm hs with
  | filter htrack _ hq hin =>
      obtain ⟨h₁, h₂, h₃⟩ := calm_of_trackSteps ht hp htrack
      refine ⟨hq ▸ h₁, ⟨by rw [hq]; exact h₂.queued, fun p hp' => ?_⟩, .inr (hq ▸ h₃)⟩
      -- the filter sends at most the packet that it was called with on its way
      rcases hin p hp' with hold | hlen
      · exact h₂.inflight p hold
      · rw [hlen]
        exact hle
  | @enqueue p _ hin hf _ henq =>
      have hpland : PacketsLe B (s.land p) :=
        ⟨hp.queued, fun p' hp' => hp.inflight p' (List.mem_of_mem_erase hp')⟩
      have hc := henq.calm hb' ht hpland (hp.inflight p hin) hf
      exact ⟨hc.turns, hc.packets, hc.units⟩
  | elapse n => exact calm_of_queue ht hp (.refl _) rfl rfl rfl rfl
  | userFree _ _ => exact calm_of_queue ht hp (.of_unit rfl fun _ => rfl) rfl rfl rfl rfl
  | @flowFree f _ hidle =>
      have hempty := fun d => (hi.inv.base.acct.idle_flow (fun hold => hidle (.inl hold)) d).2.1
      exact ⟨ht.clear f, ⟨hp.queued, hp.inflight⟩, .inr (flowTrackClear_grown hempty)⟩
  | status _ _ _ => exact calm_of_queue ht hp (.refl _) rfl rfl rfl rfl

end Tbq
