/-
# The invariant of the scheduler

`Base` holds in every state, whatever the counters do.  `Served` says that nothing is
stranded: a flow that waits for a user entry waits for a token control on the timer, or
for a user that itself waits for a bucket on the timer.  While a token control is
being drained it is off the timer and its flows are not served yet; `Served` takes it
as a parameter.

`Inv b` is the first of these, and the second when `b` holds; `b` stands for the
assumption that no counter wraps.
-/
import OpenwrtAc.TbqLive

open Outcome MachineInt ListSum

namespace Tbq

/-- What holds in every state. -/
structure Base (s : State) : Prop where
  acct : Acct s.q
  classes : Classes s.cfg s.q
  tokens : TokensOk s.cfg s.q.users s.t
  inflight : ∀ p ∈ s.inflight, p.flow ∈ s.q.flows ∧ p.flow.user ∈ s.q.users
    ∧ p.ruleMask = (s.q.flow p.flow).ruleMask
  count : s.q.backlogPackets = (queued s.q + s.q.dq.nrSend + s.q.dq.nrDrop) % 2 ^ 32

/-- Every flow that waits is served, except those that wait for the token control `w`. -/
structure Served (w : Option TcId) (pending : List TcId) (q : QueueState) : Prop where
  flow : ∀ f d r, (q.unit (.flow f d)).tc = some (.user r) →
    TcId.user r ∈ pending ∨ w = some (.user r) ∨ (q.unit (.user r)).tc ≠ none
  user : ∀ r, (q.unit (.user r)).tc ≠ none → r.bucket ∈ pending ∨ w = some r.bucket

/-- The invariant while `w` is being drained. -/
structure Inv (b : Prop) (cfg : Config) (w : Option TcId) (s : State) : Prop where
  base : Base s
  small : b → Small s.q
  served : b → Served w s.t.pending s.q
  cfg_eq : s.cfg = cfg

/-- The reasons to stop that remain: the bound on the rounds, a rate of zero, and, when
a counter may have wrapped, the benign assertions. -/
def Tolerated (b : Prop) (cfg : Config) (e : Stop) : Prop :=
  e = .fuel ∨ TokenStop cfg e ∨ (¬ b ∧ Benign e)

/-! ## Sums that follow one flow -/

/-- A sum over the packets of all flows follows the packets of the flow. -/
theorem FlowChange.total_packets {f : FlowId} {d : Dir} {q q' : QueueState}
    (h : FlowChange f d q q')
    (hn : q.flows.Nodup) (hf : f ∈ q.flows) (size : List Packet → ℕ) :
    total q'.flows (fun f => size (q'.packets f 0) + size (q'.packets f 1)) + size (q.packets f d) =
      total q.flows (fun f => size (q.packets f 0) + size (q.packets f 1)) + size (q'.packets f d) := by
  rw [h.flows]
  have hsum := total_update hn hf (fun f => size (q.packets f 0) + size (q.packets f 1))
    (fun f => size (q'.packets f 0) + size (q'.packets f 1)) (fun g _ hg => by
      rw [h.packets g 0 fun e => hg e.1, h.packets g 1 fun e => hg e.1])
  rcases dir_cases d with rfl | rfl
  · have := h.packets f 1 (by simp)
    rw [this] at hsum
    omega
  · have := h.packets f 0 (by simp)
    rw [this] at hsum
    omega

theorem FlowChange.totalBytes {f : FlowId} {d : Dir} {q q' : QueueState}
    (h : FlowChange f d q q') (hn : q.flows.Nodup) (hf : f ∈ q.flows) :
    Tbq.totalBytes q' + bytes (q.packets f d) = Tbq.totalBytes q + bytes (q'.packets f d) :=
  h.total_packets hn hf bytes

theorem FlowChange.queued {f : FlowId} {d : Dir} {q q' : QueueState}
    (h : FlowChange f d q q') (hn : q.flows.Nodup) (hf : f ∈ q.flows) :
    Tbq.queued q' + (q.packets f d).length = Tbq.queued q + (q'.packets f d).length :=
  h.total_packets hn hf List.length

/-! ## What the classes depend on -/

theorem Classes.congr {cfg : Config} {q q' : QueueState} (h : Classes cfg q)
    (hflow : q'.flow = q.flow) (husers : q'.users = q.users) (hmask : q'.userMask = q.userMask)
    (hw : ∀ r, (q'.unit (.user r)).weight = (q.unit (.user r)).weight) : Classes cfg q' := by
  refine ⟨fun u hu => ?_, fun r hr hi => ?_, fun f i hi => ?_⟩
  · rw [hmask]
    exact h.userMask u (husers ▸ hu)
  · rw [hw]
    exact h.userWeight r (husers ▸ hr) hi
  · rw [hflow] at hi ⊢
    exact h.flowRule f i hi

/-! ## Serving -/

namespace Served

variable {w : Option TcId} {pending : List TcId} {q q' : QueueState}

/-- The timer may only gain entries. -/
theorem mono (h : Served w pending q) {pending' : List TcId}
    (hp : ∀ X, X ∈ pending → X ∈ pending') : Served w pending' q := by
  refine ⟨fun f d r hr => ?_, fun r hr => ?_⟩
  · rcases h.flow f d r hr with h₁ | h₁
    · exact .inl (hp _ h₁)
    · exact .inr h₁
  · rcases h.user r hr with h₁ | h₁
    · exact .inl (hp _ h₁)
    · exact .inr h₁

/-- A change of links: flows that now wait somewhere else are served there, and a user
that is no longer attached has no flow left or is on the timer. -/
theorem of_change (h : Served w pending q)
    (hflow : ∀ f d r, (q'.unit (.flow f d)).tc = some (.user r) →
      (q.unit (.flow f d)).tc = some (.user r) ∨ TcId.user r ∈ pending
        ∨ (q'.unit (.user r)).tc ≠ none)
    (huser : ∀ r, (q'.unit (.user r)).tc ≠ none → (q.unit (.user r)).tc ≠ none
      ∨ r.bucket ∈ pending)
    (hkeep : ∀ r, (q.unit (.user r)).tc ≠ none → (q'.unit (.user r)).tc = none →
      (∀ f d, (q'.unit (.flow f d)).tc ≠ some (.user r)) ∨ TcId.user r ∈ pending) :
    Served w pending q' := by
  refine ⟨fun f d r hr => ?_, fun r hr => ?_⟩
  · rcases hflow f d r hr with hold | hp | ha
    · rcases h.flow f d r hold with hp | hw | ha
      · exact .inl hp
      · exact .inr (.inl hw)
      · by_cases ha' : (q'.unit (.user r)).tc = none
        · rcases hkeep r ha ha' with hno | hp
          · exact absurd hr (hno f d)
          · exact .inl hp
        · exact .inr (.inr ha')
    · exact .inl hp
    · exact .inr (.inr ha)
  · rcases huser r hr with hold | hp
    · exact h.user r hold
    · exact .inl hp

/-- The links are the same. -/
theorem congr (h : Served w pending q) (htc : ∀ x, (q'.unit x).tc = (q.unit x).tc) :
    Served w pending q' := by
  refine ⟨fun f d r hr => ?_, fun r hr => ?_⟩
  · rw [htc] at hr ⊢
    exact h.flow f d r hr
  · rw [htc] at hr
    exact h.user r hr

/-- The drained token control went back on the timer, or nobody waits for it any more,
or it is a user that waits for its bucket. -/
theorem leave {X : TcId} (h : Served (some X) pending q) (hl : Links q)
    (hX : X ∈ pending ∨ (q.bl X).units = [] ∨ ∃ r, X = .user r ∧ (q.unit (.user r)).tc ≠ none) :
    Served none pending q := by
  have hno : (q.bl X).units = [] → ∀ x, (q.unit x).tc ≠ some X := by
    intro hnil x hx
    have := (hl.units X x).mpr hx
    rw [hnil] at this
    cases this
  refine ⟨fun f d r hr => ?_, fun r hr => ?_⟩
  · rcases h.flow f d r hr with hp | hw | ha
    · exact .inl hp
    · obtain rfl := Option.some.inj hw
      rcases hX with hp | hnil | ⟨r', hr', ha⟩
      · exact .inl hp
      · exact absurd hr (hno hnil _)
      · obtain rfl := TcId.user.inj hr'
        exact .inr (.inr ha)
    · exact .inr (.inr ha)
  · rcases h.user r hr with hp | hw
    · exact .inl hp
    · obtain rfl := Option.some.inj hw
      rcases hX with hp | hnil | ⟨r', hr', -⟩
      · exact .inl hp
      · obtain ⟨Y, hY⟩ := Option.ne_none_iff_exists'.mp hr
        obtain rfl : Y = r.bucket := hl.compat _ _ hY
        exact absurd hY (hno hnil _)
      · cases hr'

end Served

/-- Below the bound a user without octets has no flow that waits for it. -/
theorem Acct.none_waits {cfg : Config} {q : QueueState} (h : Acct q) (hcl : Classes cfg q)
    (hs : Small q) {r : UserRef} (h0 : (q.unit (.user r)).octets = 0) (f : FlowId) (d : Dir) :
    (q.unit (.flow f d)).tc ≠ some (.user r) := by
  intro hr
  obtain ⟨-, -, hpos, -⟩ := h.user_pos hcl hs hr
  omega

end Tbq
