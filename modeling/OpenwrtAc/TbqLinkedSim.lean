/-
# The linked timer follows the set

As long as the links are those of a timer in order, every function over the links goes the way of
the one over the set of the pending token controls: `list_empty` answers what the set answers, and
the links that are written are those of the new set.

`Threads l e` is that state of the links while `tbq_timer_feed` still has the entries `l` to
visit, which expire as `e` says; outside of a walk `l` is empty.
-/
import OpenwrtAc.TbqLinked
import OpenwrtAc.Simulation

open Outcome MachineInt KernelList

namespace Tbq.Linked

/-- The links of the timer are in order, and `work_list` holds `l`. -/
structure Threads (l : List TcId) (e : TcId → ℕ) (x : Tokens) : Prop where
  slots : ∃ c, Threaded x.mem (· ∈ x.t.pending) (fun X => (x.t.tc X).jiffies) c l
  work : l ≠ [] → Ring x.mem .work (l.map .tc)
  expiry : ∀ X ∈ l, (x.t.tc X).jiffies = e X
  nodup : x.t.pending.Nodup

/-- The token controls are those of the scheduler without links, and the links follow them. -/
def Along (l : List TcId) (e : TcId → ℕ) (x : Tokens) (t : TokenState) : Prop :=
  x.t = t ∧ Threads l e x

/-- The same for the whole scheduler. -/
def AlongS (l : List TcId) (e : TcId → ℕ) (L : Sched) (s : State) : Prop :=
  L.s = s ∧ Threads l e L.tokens

variable {l : List TcId} {e : TcId → ℕ} {out : Stop → Prop}

namespace Threads

variable {x : Tokens} {X : TcId}

/-- The node of a control is alone exactly where the control does not wait. -/
theorem listEmpty_iff (h : Threads l e x) (X : TcId) :
    x.mem.listEmpty (.tc X) = true ↔ X ∉ x.t.pending := by
  obtain ⟨c, hc⟩ := h.slots
  simp [Mem.listEmpty, hc.self_iff h.work]

/-- It is linked exactly where the control waits. -/
theorem listEmpty_false_iff (h : Threads l e x) (X : TcId) :
    x.mem.listEmpty (.tc X) = false ↔ X ∈ x.t.pending := by
  rw [← Bool.not_eq_true, h.listEmpty_iff, not_not]

/-- Only the set of the pending token controls and their expiries count. -/
theorem congr (h : Threads l e x) {t : TokenState} (hp : t.pending = x.t.pending)
    (ht : ∀ X ∈ x.t.pending, (t.tc X).jiffies = (x.t.tc X).jiffies) : Threads l e ⟨t, x.mem⟩ := by
  obtain ⟨c, hc⟩ := h.slots
  refine ⟨⟨c, hc.congr (fun X => by rw [hp]) ht⟩, h.work, fun X hX => ?_, hp ▸ h.nodup⟩
  rw [← h.expiry X hX]
  exact ht X (hc.rest X hX)

/-- `tbq_timer_mod` of a token control off the timer. -/
theorem timerMod (h : Threads l e x) (hX : X ∉ x.t.pending) {c : TokenCtrl} :
    Threads l e (timerMod ⟨x.t.setTc X c, x.mem⟩ X c.jiffies) := by
  obtain ⟨s, hs⟩ := h.slots
  have hne : ∀ Y ∈ l, Y ≠ X := fun Y hY hYX => hX (hYX ▸ hs.rest Y hY)
  refine ⟨⟨_, (hs.add hX c.jiffies).congr (fun Y => ?_) fun Y _ => ?_⟩,
    fun hl => hs.work_add hX _ (h.work hl), fun Y hY => ?_, ?_⟩
  · exact List.mem_append.trans (or_congr_right List.mem_singleton)
  · by_cases hYX : Y = X
    · simp [Linked.timerMod, Tbq.timerMod, TokenState.setTc, hYX]
    · simp [Linked.timerMod, Tbq.timerMod, TokenState.setTc, hYX]
  · have : (Function.update x.t.tc X c Y).jiffies = e Y := by
      rw [Function.update_of_ne (hne Y hY), h.expiry Y hY]
    exact this
  · exact h.nodup.append (List.nodup_singleton X) fun Y hY hYX => hX (List.mem_singleton.mp hYX ▸ hY)

end Threads

/-! ## Charging -/

/-- Charging a control reads no link. -/
theorem tokenCtrlConsume_eq {x : Tokens} (h : Threads l e x) (X : TcId) (pktLen : ℕ) :
    tokenCtrlConsume x X pktLen = Tbq.tokenCtrlConsume x.t X pktLen := by
  unfold tokenCtrlConsume Tbq.tokenCtrlConsume
  rw [stopIf_congr (h.listEmpty_false_iff X)]

/-- Deactivating a control of the wheel links it where it waits in the set. -/
theorem tokenCtrlDeactivate_sim {x : Tokens} (h : Threads l e x) (X : TcId) :
    Sim out (Along l e) (tokenCtrlDeactivate x X) (Tbq.tokenCtrlDeactivate x.t X) := by
  unfold tokenCtrlDeactivate Tbq.tokenCtrlDeactivate
  refine sim_stopIf Iff.rfl fun _ => ?_
  refine sim_stopIf (h.listEmpty_false_iff X) fun hX => ?_
  refine sim_stopIf Iff.rfl fun _ => ?_
  exact sim_pure ⟨rfl, h.timerMod (mt (h.listEmpty_false_iff X).mpr hX)⟩

/-- Charging a control, or deactivating it where the tokens are out. -/
theorem consumeOrDeactivate_sim {x : Tokens} (h : Threads l e x) (X : TcId) (pktLen : ℕ) :
    Sim out (Along l e) (consumeOrDeactivate x X pktLen)
      (Tbq.consumeOrDeactivate x.t X pktLen) := by
  unfold consumeOrDeactivate Tbq.consumeOrDeactivate
  rw [tokenCtrlConsume_eq h]
  refine sim_bind_same ?_
  rintro ⟨active, t⟩ hc
  obtain ⟨hX, tokens, jiffies, rfl⟩ := tokenCtrlConsume_ok hc
  have hkeep : ∀ Y ∈ x.t.pending,
      ((x.t.setTc X { x.t.tc X with tokens, jiffies }).tc Y).jiffies = (x.t.tc Y).jiffies := by
    intro Y hY
    have hne : Y ≠ X := fun hYX => hX (hYX ▸ hY)
    simp [TokenState.setTc, hne]
  cases active with
  | true => exact sim_pure ⟨rfl, h.congr rfl hkeep⟩
  | false =>
      refine tokenCtrlDeactivate_sim (x := ⟨TokenState.setInactive _ X, x.mem⟩) (h.congr ?_ ?_) X
      · simp [TokenState.setInactive]
      · intro Y hY
        rw [← hkeep Y hY]
        simp [TokenState.setInactive]

/-- Charging the controls of a user and its bucket. -/
theorem userConsume_sim {x : Tokens} (h : Threads l e x) (r : UserRef) (pktLen : ℕ) :
    Sim out (Along l e) (userConsume x r pktLen) (Tbq.userConsume x.t r pktLen) := by
  unfold userConsume Tbq.userConsume
  refine sim_stopIf Iff.rfl fun _ => ?_
  refine (consumeOrDeactivate_sim h r.bucket pktLen).bind ?_
  rintro y t ⟨rfl, hy⟩
  exact consumeOrDeactivate_sim hy (.user r) pktLen

/-- Charging the controls of a packet. -/
theorem packetCtrlConsume_sim {x : Tokens} (h : Threads l e x) (p : Packet) :
    Sim out (fun a b => a.1 = b.1 ∧ Along l e a.2 b.2) (packetCtrlConsume x p)
      (Tbq.packetCtrlConsume x.t p) := by
  unfold packetCtrlConsume Tbq.packetCtrlConsume
  cases (x.t.bucketInactive p.dir &&& p.ruleMask).ffs with
  | some i => exact sim_pure ⟨rfl, rfl, h⟩
  | none =>
      cases (x.t.userInactive p.flow.user p.dir &&& p.ruleMask).ffs with
      | some i => exact sim_pure ⟨rfl, rfl, h⟩
      | none =>
          have hfold : Sim out (Along l e)
              (p.ruleMask.bits.foldlM (fun x i => userConsume x (p.userRef i) p.pktLen) x)
              (p.ruleMask.bits.foldlM (fun t i => Tbq.userConsume t (p.userRef i) p.pktLen) x.t) := by
            refine sim_foldlM ?_ _ _ _ ⟨rfl, h⟩
            rintro y t i ⟨rfl, hy⟩
            exact userConsume_sim hy (p.userRef i) p.pktLen
          exact hfold.bind fun y t hy => sim_pure ⟨rfl, hy⟩

/-- `tbq_flow_backlog_attach` asks the timer about two token controls only. -/
theorem flowBacklogAttach_congr {p p' : List TcId} {r : UserRef} (hb : r.bucket ∈ p ↔ r.bucket ∈ p')
    (hu : TcId.user r ∈ p ↔ TcId.user r ∈ p') (n : ℕ) (q : QueueState) (f : FlowId) (d : Dir) :
    flowBacklogAttach p n q f d r = flowBacklogAttach p' n q f d r := by
  unfold flowBacklogAttach
  simp only [hb, stopIf_congr (not_congr hu)]

/-- A flow is attached under the controls that wait, read off the nodes or off the set. -/
theorem flowBacklogAttach_eq {x : Tokens} (h : Threads l e x) (n : ℕ) (q : QueueState) (f : FlowId)
    (d : Dir) (r : UserRef) :
    flowBacklogAttach (waiting x.mem r) n q f d r = flowBacklogAttach x.t.pending n q f d r := by
  refine flowBacklogAttach_congr ?_ ?_ n q f d
  · simp [waiting, ← h.listEmpty_false_iff]
  · simp [waiting, ← h.listEmpty_false_iff]

/-! ## Dequeueing -/

/-- Trying a flow runs the same on both models. -/
theorem flowBacklogTryDequeue_sim {fuel : ℕ} {L : Sched} (h : Threads l e L.tokens) (f : FlowId)
    (d : Dir) :
    Sim out (AlongS l e) (flowBacklogTryDequeue fuel L f d)
      (Tbq.flowBacklogTryDequeue fuel L.s f d) := by
  unfold flowBacklogTryDequeue Tbq.flowBacklogTryDequeue
  refine sim_bind_same fun _ _ => ?_
  refine sim_stopIf Iff.rfl fun _ => ?_
  refine sim_bind_same fun q _ => ?_
  refine sim_bind_same fun empty _ => ?_
  cases empty with
  | true => exact sim_pure ⟨rfl, h⟩
  | false =>
      cases q.packets f d with
      | nil => exact sim_error _
      | cons p rest =>
          cases (q.unit (.flow f d)).tc with
          | none => exact sim_error _
          | some X =>
              refine sim_stopIf Iff.rfl fun _ => ?_
              refine sim_stopIf (h.listEmpty_false_iff X) fun _ => ?_
              refine (packetCtrlConsume_sim h p).bind ?_
              rintro ⟨o, x⟩ ⟨-, -⟩ ⟨rfl, rfl, hx⟩
              cases o with
              | some i =>
                  refine sim_bind_same fun q _ => ?_
                  rw [flowBacklogAttach_eq hx]
                  refine sim_bind_same fun q _ => ?_
                  exact sim_stopIf Iff.rfl fun _ => sim_pure ⟨rfl, hx⟩
              | none =>
                  refine sim_bind_same fun q _ => ?_
                  refine sim_bind_same fun q _ => ?_
                  exact sim_pure ⟨rfl, hx⟩

/-- A round, simulated. -/
abbrev Round (l : List TcId) (e : TcId → ℕ) (a : Bool × Sched) (b : Bool × State) : Prop :=
  a.1 = b.1 ∧ AlongS l e a.2 b.2

/-- One turn of the user's loop runs the same on both models. -/
theorem userDequeueBody_sim {fuel : ℕ} {r : UserRef} {L : Sched} (h : Threads l e L.tokens) :
    Sim out (Round l e) (userDequeueBody fuel r L) (Tbq.userDequeueBody fuel r L.s) := by
  unfold userDequeueBody Tbq.userDequeueBody
  refine sim_ite (and_congr_left' (h.listEmpty_iff _)) (fun _ => ?_)
    fun _ => sim_pure ⟨rfl, rfl, h⟩
  refine sim_ite (h.listEmpty_iff _) (fun _ => ?_)
    fun _ => sim_bind_same fun q _ => sim_pure ⟨rfl, rfl, h⟩
  rcases (L.s.q.bl (.user r)).units with _ | ⟨f, d⟩ | r'
  · exact sim_error _
  · refine sim_stopIf Iff.rfl fun _ => ?_
    exact (flowBacklogTryDequeue_sim h f d).bind fun L' s' hL => sim_pure ⟨rfl, hL⟩
  · exact sim_error _

/-- The user's loop runs the same on both models. -/
theorem userDequeue_sim (hout : out .fuel) {fuel : ℕ} {L : Sched} (h : Threads l e L.tokens)
    (r : UserRef) :
    Sim out (AlongS l e) (userDequeue fuel L r) (Tbq.userDequeue fuel L.s r) := by
  unfold userDequeue Tbq.userDequeue
  refine sim_stopIf (h.listEmpty_false_iff _) fun _ => ?_
  refine sim_loopFuel hout ?_ fuel L L.s ⟨rfl, h⟩
  rintro L _ ⟨rfl, h⟩
  exact userDequeueBody_sim h

/-- One turn of the bucket's loop runs the same on both models. -/
theorem bucketDequeueBody_sim {fuel : ℕ} {d : Dir} {i : RuleIdx} {L : Sched}
    (h : Threads l e L.tokens) :
    Sim out (Round l e) (bucketDequeueBody fuel d i L) (Tbq.bucketDequeueBody fuel d i L.s) := by
  unfold bucketDequeueBody Tbq.bucketDequeueBody
  refine sim_ite (and_congr_left' (h.listEmpty_iff _)) (fun _ => ?_)
    fun _ => sim_pure ⟨rfl, rfl, h⟩
  rcases (L.s.q.bl (.bucket d i)).units with _ | ⟨f, d'⟩ | r
  · exact sim_error _
  · exact sim_error _
  refine sim_stopIf Iff.rfl fun _ => ?_
  refine sim_bind_same fun _ _ => ?_
  refine sim_stopIf Iff.rfl fun _ => ?_
  refine sim_ite (h.listEmpty_iff _) (fun _ => ?_)
    fun _ => sim_bind_same fun q _ => sim_pure ⟨rfl, rfl, h⟩
  rcases (L.s.q.bl (.user r)).units with _ | ⟨f, d'⟩ | r'
  · exact sim_error _
  · refine sim_stopIf Iff.rfl fun _ => ?_
    exact (flowBacklogTryDequeue_sim h f d').bind fun L' s' hL => sim_pure ⟨rfl, hL⟩
  · exact sim_error _

/-- The bucket's loop runs the same on both models. -/
theorem bucketDequeue_sim (hout : out .fuel) {fuel : ℕ} {L : Sched} (h : Threads l e L.tokens)
    (d : Dir)
    (i : RuleIdx) :
    Sim out (AlongS l e) (bucketDequeue fuel L d i) (Tbq.bucketDequeue fuel L.s d i) := by
  unfold bucketDequeue Tbq.bucketDequeue
  refine sim_stopIf (h.listEmpty_false_iff _) fun _ => ?_
  refine sim_loopFuel hout ?_ fuel L L.s ⟨rfl, h⟩
  rintro L _ ⟨rfl, h⟩
  exact bucketDequeueBody_sim h

/-! ## Activation -/

/-- The entry that is visited is taken out of `work_list`. -/
theorem timerDel_work {x : Tokens} {X : TcId} (h : Threads (X :: l) e x) :
    Sim out (Along l e) (timerDel x X) (Tbq.timerDel x.t X) := by
  unfold timerDel Tbq.timerDel
  refine sim_stopIf Iff.rfl fun _ => ?_
  refine sim_stopIf (h.listEmpty_iff X) fun _ => ?_
  obtain ⟨c, hc⟩ := h.slots
  obtain ⟨hdel, hwork⟩ := hc.delWork (h.work (List.cons_ne_nil X l))
  refine sim_pure ⟨rfl, ⟨c, hdel.congr (fun Y => ?_) fun _ _ => rfl⟩, fun _ => hwork,
    fun Y hY => h.expiry Y (List.mem_cons_of_mem X hY), h.nodup.erase X⟩
  rw [h.nodup.mem_erase_iff, and_comm]

/-- The masks have no part in the links. -/
theorem Threads.clrInactive {x : Tokens} (h : Threads l e x) (X : TcId) :
    Threads l e ⟨x.t.clrInactive X, x.mem⟩ :=
  h.congr (by simp [TokenState.clrInactive]) fun Y _ => by simp [TokenState.clrInactive]

/-- A control that fires leaves the walk's list and its node alone. -/
theorem fire_sim {x : Tokens} {X : TcId} (h : Threads (X :: l) e x) :
    Sim out (Along l e) (fire x X) (Tbq.fire x.t X) := by
  unfold fire Tbq.fire
  refine (timerDel_work h).bind ?_
  rintro y t ⟨rfl, hy⟩
  exact sim_stopIf Iff.rfl fun _ => sim_pure ⟨rfl, hy.clrInactive X⟩

/-- Activating the head of the walk's list runs the same on both models. -/
theorem tokenCtrlActivate_sim (hout : out .fuel) {fuel : ℕ} {L : Sched} {X : TcId}
    (h : Threads (X :: l) e L.tokens) :
    Sim out (AlongS l e) (tokenCtrlActivate fuel L X) (Tbq.tokenCtrlActivate fuel L.s X) := by
  unfold tokenCtrlActivate Tbq.tokenCtrlActivate
  refine (fire_sim h).bind ?_
  rintro x t ⟨rfl, hx⟩
  have hL : Threads l e (L.setTokens x).tokens := hx
  cases X with
  | bucket d i => exact bucketDequeue_sim hout hL d i
  | user r =>
      refine sim_bind_same fun att _ => ?_
      cases att with
      | true => exact sim_pure ⟨rfl, hL⟩
      | false => exact userDequeue_sim hout hL r

/-! ## The walk -/

/-- A walk over entries that are not due puts them back and changes nothing else. -/
theorem walk_later (fuel n : ℕ) {v : ℕ} {s : State} (l : List TcId)
    (hl : ∀ X ∈ l, u32 (s.t.tc X).jiffies ≠ u32 v ∧ slotOf (s.t.tc X).jiffies = slotOf v)
    (hn : l.Nodup) {m : Mem Node} {c : Fin 256 → List TcId}
    (h : Threaded m (· ∈ s.t.pending) (fun X => (s.t.tc X).jiffies) c l) (hf : Forward m l) :
    Sat (loopFuel .fuel (walkBody fuel v) n (firstNode l, ⟨s, m⟩))
      (fun x => x.2.s = s ∧
        ∃ c, Threaded x.2.mem (· ∈ s.t.pending) (fun X => (s.t.tc X).jiffies) c [])
      fun err => err = .fuel := by
  induction l generalizing m c n with
  | nil =>
      cases n with
      | zero => exact rfl
      | succ n => exact ⟨rfl, c, h⟩
  | cons X l ih =>
      cases n with
      | zero => exact rfl
      | succ n =>
          obtain ⟨hne, hslot⟩ := hl X List.mem_cons_self
          obtain ⟨hXl, hn'⟩ := List.nodup_cons.mp hn
          have hready := h.readd hXl
          rw [hslot] at hready
          have hbody : walkBody fuel v (firstNode (X :: l), ⟨s, m⟩)
              = .ok (true, firstNode l, ⟨s, m.listAddTail (.tc X) (.slot (slotOf v))⟩) := by
            unfold walkBody firstNode
            simp only [if_neg hne, hf.1]
            rfl
          rw [loopFuel, hbody, sat_bind, sat_ok]
          exact ih n (fun Y hY => hl Y (List.mem_cons_of_mem X hY)) hn' hready
            (h.forward_readd hXl _ hf.2)

/-- Visits to entries that are not due. -/
theorem visits_later (fuel : ℕ) {v : ℕ} {s : State} (l : List TcId)
    (hl : ∀ X ∈ l, u32 (s.t.tc X).jiffies ≠ u32 v) : l.foldlM (visit fuel v) s = .ok s := by
  induction l with
  | nil => rfl
  | cons X l ih =>
      rw [List.foldlM_cons, visit, if_neg (hl X List.mem_cons_self), pure_bind]
      exact ih fun Y hY => hl Y (List.mem_cons_of_mem X hY)

/-- A walk in which no due entry stands behind one that is not due visits the entries one after
the other. -/
theorem walk_sim (hout : out .fuel) (fuel n : ℕ) {v : ℕ} {L : Sched} (l : List TcId)
    (h : Threads l e L.tokens)
    (hl : ∀ X ∈ l, slotOf (e X) = slotOf v)
    (hord : l.Pairwise fun X Y => u32 (e Y) = u32 v → u32 (e X) = u32 v) :
    Sim out (fun x s => AlongS [] e x.2 s)
      (loopFuel .fuel (walkBody fuel v) n (firstNode l, L)) (l.foldlM (visit fuel v) L.s) := by
  induction l generalizing L n with
  | nil =>
      cases n with
      | zero => exact sim_out hout
      | succ n => exact sim_pure ⟨rfl, h⟩
  | cons X l ih =>
      obtain ⟨hhead, hord'⟩ := List.pairwise_cons.mp hord
      have hwork := h.work (List.cons_ne_nil X l)
      have hX : (L.s.t.tc X).jiffies = e X := h.expiry X List.mem_cons_self
      by_cases hdue : u32 (e X) = u32 v
      · cases n with
        | zero => exact sim_out hout
        | succ n =>
            have hnext : L.mem.next (.tc X) = firstNode l := (forward_of_seg hwork.seg).2.1
            have hbody : walkBody fuel v (firstNode (X :: l), L)
                = (do
                  let L' ← tokenCtrlActivate fuel L X
                  return (true, firstNode l, L')) := by
              unfold walkBody firstNode
              simp only [hX, if_pos hdue, hnext]
              rfl
            rw [loopFuel, hbody, bind_assoc, List.foldlM_cons, visit, hX, if_pos hdue]
            refine (tokenCtrlActivate_sim hout h).bind ?_
            rintro L' _ ⟨rfl, hL'⟩
            exact ih n hL' (fun Y hY => hl Y (List.mem_cons_of_mem X hY)) hord'
      · -- from here on nothing is due
        have hlate : ∀ Y ∈ X :: l, u32 (L.s.t.tc Y).jiffies ≠ u32 v := by
          intro Y hY
          have hYe : (L.s.t.tc Y).jiffies = e Y := h.expiry Y hY
          rw [hYe]
          rcases List.mem_cons.mp hY with rfl | hm
          · exact hdue
          · exact fun hY' => hdue (hhead Y hm hY')
        obtain ⟨c, hc⟩ := h.slots
        rw [visits_later fuel (X :: l) hlate]
        refine Sat.mono (walk_later fuel n (X :: l) (fun Y hY => ⟨hlate Y hY, ?_⟩)
          (nodup_of_ring hwork) hc (forward_of_seg hwork.seg).2) ?_ fun _ he => .inl (he ▸ hout)
        · have hYe : (L.s.t.tc Y).jiffies = e Y := h.expiry Y hY
          rw [hYe]
          exact hl Y hY
        · rintro ⟨pos, s, m⟩ ⟨rfl, hm⟩
          exact ⟨_, rfl, rfl, hm, fun hnil => absurd rfl hnil, fun Y hY => (by cases hY), h.nodup⟩

/-- Between two walks nothing is held back. -/
theorem Threads.renew {x : Tokens} (h : Threads [] e x) (e' : TcId → ℕ) : Threads [] e' x :=
  ⟨h.slots, h.work, fun X hX => (by cases hX), h.nodup⟩

/-- One slot of `tbq_timer_feed` is walked in the order of its links. -/
theorem timerFeedBody_sim (hout : out .fuel) (fuel : ℕ) {L : Sched} (h : Threads [] e L.tokens)
    (hord : 0 ≤ i32 ((L.s.t.jiffies : ℤ) - L.s.timerJiffies) → Orderly L) :
    ∃ links : List TcId → List TcId, (∀ l, (links l).Perm l) ∧
      ∀ order : SlotOrder, order L.s.timerJiffies = links →
        Sim out (Round [] e) (timerFeedBody fuel L) (Tbq.timerFeedBody fuel order L.s) := by
  obtain ⟨c, hc⟩ := h.slots
  set v := L.s.timerJiffies with hv
  have hmem : ∀ X, X ∈ c (slotOf v) ↔ X ∈ L.s.t.pending ∧ (L.s.t.tc X).jiffies % 256 = v % 256 := by
    intro X
    rw [hc.mem]
    simp [slotOf, Fin.ext_iff, Sched.tokens]
  have hperm : (c (slotOf v)).Perm (slot L.s v) := by
    refine (List.perm_ext_iff_of_nodup (nodup_of_ring (hc.ring _)) (h.nodup.filter _)).mpr fun X => ?_
    rw [hmem, List.mem_filter, decide_eq_true_iff]
    rfl
  refine ⟨fun l => if l = slot L.s v then c (slotOf v) else l, fun l => ?_, fun order horder => ?_⟩
  · dsimp only
    by_cases hl : l = slot L.s v
    · rw [if_pos hl, hl]
      exact hperm
    · rw [if_neg hl]
  unfold timerFeedBody Tbq.timerFeedBody
  refine sim_ite Iff.rfl (fun hgo => ?_) fun _ => sim_pure ⟨rfl, rfl, h⟩
  dsimp only
  rw [← hv, horder]
  dsimp only
  rw [if_pos rfl]
  refine Sim.bind (R := AlongS [] e) ?_ fun L' s hL => sim_pure ⟨rfl, hL⟩
  unfold walkSlot
  have hempty : L.mem.next (.slot (slotOf v)) = .slot (slotOf v) ↔ c (slotOf v) = [] := by
    have hhead := (hc.ring (slotOf v)).next_eq_head_iff
    rwa [List.map_eq_nil_iff] at hhead
  by_cases hnil : c (slotOf v) = []
  · have hself : ¬ L.mem.listEmpty (.slot (slotOf v)) = false := by
      simpa [Mem.listEmpty] using hempty.mpr hnil
    rw [if_neg hself, hnil]
    exact sim_pure ⟨rfl, h⟩
  · have hself : L.mem.listEmpty (.slot (slotOf v)) = false := by
      simpa [Mem.listEmpty] using mt hempty.mp hnil
    rw [if_pos hself]
    obtain ⟨hth, hwork⟩ := hc.take hnil
    have h₁ : Threads (c (slotOf v)) (fun X => (L.s.t.tc X).jiffies)
        ⟨L.s.t, L.mem.listReplaceInit (.slot (slotOf v)) .work⟩ :=
      ⟨⟨_, hth⟩, fun _ => hwork, fun _ _ => rfl, h.nodup⟩
    have hslot : ∀ X ∈ c (slotOf v), slotOf (L.s.t.tc X).jiffies = slotOf v :=
      fun X hX => ((hc.mem _ X).mp hX).2.2
    have hwalk := walk_sim hout fuel fuel (v := v)
      (L := ⟨{ L.s with timerJiffies := v + 1 }, L.mem.listReplaceInit (.slot (slotOf v)) .work⟩)
      (c (slotOf v)) h₁ hslot (hord hgo _ (hc.ring _))
    rw [← (forward_of_seg hwork.seg).1] at hwalk
    have hend : Sim out (AlongS [] e) (_ >>= fun x : Node × Sched => pure x.2) (_ >>= pure) :=
      hwalk.bind fun x s hx => sim_pure ⟨hx.1, hx.2.renew e⟩
    rw [bind_pure] at hend
    exact hend

/-- The rounds of `tbq_timer_feed` ask for the orders of the jiffies from now on. -/
theorem timerFeed_congr {fuel n : ℕ} {order order' : SlotOrder} {s : State}
    (h : ∀ v, s.timerJiffies ≤ v → order v = order' v) :
    loopFuel .fuel (Tbq.timerFeedBody fuel order) n s
      = loopFuel .fuel (Tbq.timerFeedBody fuel order') n s := by
  induction n generalizing s with
  | zero => rfl
  | succ n ih =>
      have hbody : Tbq.timerFeedBody fuel order s = Tbq.timerFeedBody fuel order' s := by
        unfold Tbq.timerFeedBody
        dsimp only
        rw [h _ (le_refl _)]
      rw [loopFuel_succ, loopFuel_succ, hbody]
      cases hrun : Tbq.timerFeedBody fuel order' s with
      | error err => rfl
      | ok a =>
          obtain ⟨more, s'⟩ := a
          cases more with
          | false => rfl
          | true =>
              have hnext : s'.timerJiffies = s.timerJiffies + 1 := (timerFeedBody_frame hrun).2.2.2 rfl
              refine ih fun v hv => h v ?_
              dsimp only at hv
              omega

/-- The rounds of `tbq_timer_feed`, each slot in the order of its links. -/
theorem timerFeed_sim (hout : out .fuel) (fuel n : ℕ) {L : Sched} (h : Threads [] e L.tokens)
    (hord : FeedsOrderly fuel n L) :
    ∃ order : SlotOrder, (∀ v l, (order v l).Perm l) ∧
      Sim out (AlongS [] e) (loopFuel .fuel (timerFeedBody fuel) n L)
        (loopFuel .fuel (Tbq.timerFeedBody fuel order) n L.s) := by
  induction n generalizing L with
  | zero => exact ⟨fun _ l => l, fun _ l => .refl l, sim_out hout⟩
  | succ n ih =>
      obtain ⟨hnow, hlater⟩ := hord
      obtain ⟨links, hlinks, hsim⟩ := timerFeedBody_sim hout fuel h hnow
      by_cases hgo : ∃ L', timerFeedBody fuel L = .ok (true, L')
      · obtain ⟨L', hrun⟩ := hgo
        obtain ⟨⟨more, s'⟩, hset, hmore, hs', hL'⟩ := Sat.of_ok (hsim (fun _ => links) rfl) hrun
        obtain rfl : true = more := hmore
        obtain rfl : L'.s = s' := hs'
        have hnext : L'.s.timerJiffies = L.s.timerJiffies + 1 := (timerFeedBody_frame hset).2.2.2 rfl
        obtain ⟨order, hperm, hrest⟩ := ih hL' (hlater L' hrun)
        -- this round has the order of its own links, the later ones that of `order`
        refine ⟨Function.update order L.s.timerJiffies links, fun v l => ?_, ?_⟩
        · by_cases hv : v = L.s.timerJiffies
          · rw [hv, Function.update_self]
            exact hlinks l
          · rw [Function.update_of_ne hv]
            exact hperm v l
        · rw [loopFuel_succ, loopFuel_succ]
          refine (hsim _ (Function.update_self ..)).and_run.bind ?_
          rintro ⟨more, L₁⟩ ⟨more', s₁⟩ ⟨hrun₁, hmore, hs₁, -⟩
          obtain ⟨rfl, rfl⟩ := Prod.mk.inj (Except.ok.inj (hrun.symm.trans hrun₁))
          obtain rfl : true = more' := hmore
          obtain rfl : L'.s = s₁ := hs₁
          have hsame : ∀ v, L'.s.timerJiffies ≤ v →
              Function.update order L.s.timerJiffies links v = order v :=
            fun v hv => Function.update_of_ne (by omega) _ _
          have hloop := @timerFeed_congr fuel n _ _ _ hsame
          dsimp only
          rw [if_pos rfl, if_pos rfl, hloop]
          exact hrest
      · refine ⟨fun _ => links, fun _ => hlinks, ?_⟩
        rw [loopFuel_succ, loopFuel_succ]
        refine (hsim _ rfl).and_run.bind ?_
        rintro ⟨more, L₁⟩ ⟨more', s₁⟩ ⟨hrun, hmore, hL₁⟩
        obtain rfl : more = more' := hmore
        cases more with
        | true => exact absurd ⟨L₁, hrun⟩ hgo
        | false => exact sim_pure hL₁

/-- All slots are empty where nothing is on the timer. -/
theorem Threads.unused_iff {x : Tokens} (h : Threads [] e x) :
    ((List.finRange 256).any fun k => !x.mem.listEmpty (.slot k)) = true ↔ x.t.pending ≠ [] := by
  obtain ⟨c, hc⟩ := h.slots
  have hk : ∀ k, (!x.mem.listEmpty (.slot k)) = true ↔ c k ≠ [] := by
    intro k
    have hempty := (hc.ring k).next_eq_head_iff
    rw [List.map_eq_nil_iff] at hempty
    simp [Mem.listEmpty, hempty]
  rw [List.any_eq_true]
  constructor
  · rintro ⟨k, -, hne⟩
    obtain ⟨X, hX⟩ := List.exists_mem_of_ne_nil _ ((hk k).mp hne)
    exact List.ne_nil_of_mem ((hc.mem k X).mp hX).1
  · intro hne
    obtain ⟨X, hX⟩ := List.exists_mem_of_ne_nil _ hne
    exact ⟨_, List.mem_finRange _,
      (hk _).mpr (List.ne_nil_of_mem ((hc.mem _ X).mpr ⟨hX, by simp, rfl⟩))⟩

/-- The end of a tick runs the same on both models. -/
theorem timerEnd_sim {L : Sched} (h : Threads [] e L.tokens) :
    Sim out (AlongS [] e) (timerEnd L) (Tbq.timerEnd L.s) := by
  unfold timerEnd Tbq.timerEnd
  refine sim_ite Iff.rfl (fun hw => ?_) fun _ => sim_pure ⟨rfl, h⟩
  unfold timerAssertUnused
  rw [bind_assoc]
  refine sim_stopIf h.unused_iff fun _ => ?_
  rw [stopIf_of_not (not_not.mpr hw.2)]
  exact sim_ok ⟨rfl, h⟩

/-! ## The packet path -/

/-- What `tbq_filter_packet` does to the token controls before it looks at the packet. -/
theorem track_tokens {s s' : State} {f : FlowId} {app : ℕ} {allocOk : Bool}
    (h : Tbq.track s f app allocOk = .ok (some s')) :
    s'.t = if f.user ∈ s.q.users then s.t else userTrackTokens s f.user := by
  unfold Tbq.track at h
  split at h
  · cases h
  · obtain ⟨s₁, hs₁, h⟩ := bind_eq_ok.mp h
    cases h
    by_cases hu : f.user ∈ s.q.users
    · rw [if_pos hu] at hs₁ ⊢
      cases hs₁
      rfl
    · rw [if_neg hu] at hs₁ ⊢
      unfold userTrackAlloc at hs₁
      obtain ⟨-, -, hs₁⟩ := bind_eq_ok.mp hs₁
      cases hs₁
      rfl

/-- The lists of a user that is not on the timer are initialised. -/
theorem Threads.userSchedLinks {x : Tokens} (h : Threads [] e x) {u : UserId}
    (hu : ∀ r, r.u = u → TcId.user r ∉ x.t.pending) (d : Dir) (ruleMask : RuleMask) :
    Threads [] e ⟨x.t, userSchedLinks x.mem u d ruleMask⟩ := by
  unfold Linked.userSchedLinks
  generalize ruleMask.bits = l
  induction l generalizing x with
  | nil => exact h
  | cons i l ih =>
      obtain ⟨c, hc⟩ := h.slots
      exact ih (x := ⟨x.t, x.mem.initListHead (.tc (.user ⟨u, d, i⟩))⟩)
        ⟨⟨c, hc.initListHead (hu _ rfl)⟩, fun hl => absurd rfl hl, h.expiry, h.nodup⟩ hu

/-- Tracking a flow runs the same on both models, as the links of a new user stand alone. -/
theorem track_sim {L : Sched} (h : Threads [] e L.tokens)
    (hlive : ∀ r, TcId.user r ∈ L.s.t.pending → r.u ∈ L.s.q.users) (f : FlowId) (app : ℕ)
    (allocOk : Bool) :
    Sim out (Option.Rel (AlongS [] e)) (track L f app allocOk) (Tbq.track L.s f app allocOk) := by
  unfold track
  cases hs : Tbq.track L.s f app allocOk with
  | error err => exact sim_error err
  | ok o =>
  cases o with
  | none => exact sim_ok .none
  | some s =>
  refine sim_ok (.some ⟨rfl, ?_⟩)
  have ht := track_tokens hs
  by_cases hu : f.user ∈ L.s.q.users
  · rw [if_pos hu] at ht
    show Threads [] e ⟨s.t, if f.user ∈ L.s.q.users then L.mem else _⟩
    rw [ht, if_pos hu]
    exact h
  · rw [if_neg hu] at ht
    have hoff : ∀ r, r.u = f.user → TcId.user r ∉ L.s.t.pending :=
      fun r hr hp => hu (hr ▸ hlive r hp)
    have hinit : Threads [] e ⟨L.s.t, userTrackLinks L.s.cfg L.mem f.user⟩ :=
      (h.userSchedLinks hoff 0 _).userSchedLinks hoff 1 _
    show Threads [] e ⟨s.t, if f.user ∈ L.s.q.users then L.mem else _⟩
    rw [ht, if_neg hu]
    refine hinit.congr rfl fun X hX => ?_
    cases X with
    | bucket d i => rfl
    | user r =>
        have hne : r.u ≠ f.user := fun e => hoff r e hX
        simp [userTrackTokens, hne]

/-- The filter runs the same on both models. -/
theorem filterPacket_sim {L : Sched} (h : Threads [] e L.tokens)
    (hlive : ∀ r, TcId.user r ∈ L.s.t.pending → r.u ∈ L.s.q.users) (f : FlowId) (d : Dir) (app : ℕ)
    (len : SkbLen) (allocOk : Bool) :
    Sim out (fun a b => a.1 = b.1 ∧ AlongS [] e a.2 b.2) (filterPacket L f d app len allocOk)
      (Tbq.filterPacket L.s f d app len allocOk) := by
  unfold filterPacket Tbq.filterPacket
  refine (track_sim h hlive f app allocOk).bind ?_
  rintro o o' ho
  cases ho with
  | none => exact sim_pure ⟨rfl, rfl, h⟩
  | @some L₁ s₁ hL₁ =>
      obtain ⟨rfl, h₁⟩ := hL₁
      refine sim_ite Iff.rfl (fun _ => sim_pure ⟨rfl, rfl, h₁⟩) fun _ => ?_
      refine Sim.bind (R := Round [] e) ?_ ?_
      · refine sim_bind_same fun empty _ => ?_
        cases empty with
        | true =>
            refine (packetCtrlConsume_sim h₁ (packetCtrl L₁.s f d len)).bind ?_
            rintro ⟨o, x⟩ ⟨-, -⟩ ⟨rfl, rfl, hx⟩
            exact sim_pure ⟨rfl, rfl, hx⟩
        | false => exact sim_pure ⟨rfl, rfl, h₁⟩
      · rintro ⟨pendingUser, L₂⟩ ⟨-, -⟩ ⟨rfl, rfl, h₂⟩
        refine sim_ite Iff.rfl (fun _ => sim_pure ⟨rfl, rfl, h₂⟩) fun _ => ?_
        exact sim_ite Iff.rfl (fun _ => sim_pure ⟨rfl, rfl, h₂⟩) fun _ => sim_pure ⟨rfl, rfl, h₂⟩

/-- The last part of `tbq_enqueue` does not touch the token controls. -/
theorem putPacket_tokens {s s' : State} {p : Packet} {flowAttach : Bool}
    (h : putPacket s p flowAttach = .ok s') : s'.t = s.t := by
  unfold putPacket at h
  simp only [bind_eq_ok, pure_eq_ok] at h
  obtain ⟨_, -, _, -, rfl⟩ := h
  rfl

/-- Queueing a packet runs the same on both models. -/
theorem enqueue_sim {fuel : ℕ} {L : Sched} (h : Threads [] e L.tokens) (p : Packet) :
    Sim out (fun a b => a.1 = b.1 ∧ AlongS [] e a.2 b.2) (enqueue fuel L p)
      (Tbq.enqueue fuel L.s p) := by
  have hput : ∀ (L' : Sched) (flowAttach : Bool), Threads [] e L'.tokens →
      Sim out (fun (a : EnqueueResult × Sched) b => a.1 = b.1 ∧ AlongS [] e a.2 b.2)
        (putPacket L'.s p flowAttach >>= fun s => pure (.queued, ⟨s, L'.mem⟩))
        (putPacket L'.s p flowAttach >>= fun s => pure (.queued, s)) := by
    intro L' flowAttach hL'
    refine sim_bind_same fun s hs => sim_pure ⟨rfl, rfl, ?_⟩
    show Threads [] e ⟨s.t, L'.mem⟩
    rw [putPacket_tokens hs]
    exact hL'
  unfold enqueue Tbq.enqueue
  refine sim_ite Iff.rfl (fun _ => sim_pure ⟨rfl, rfl, h⟩) fun _ => ?_
  refine sim_bind_same fun empty _ => ?_
  cases empty with
  | true =>
      refine (packetCtrlConsume_sim (x := L.begin.tokens) h p).bind ?_
      rintro ⟨o, x⟩ ⟨-, -⟩ ⟨rfl, rfl, hx⟩
      cases o with
      | none => exact sim_pure ⟨rfl, rfl, hx⟩
      | some i =>
          dsimp only
          rw [flowBacklogAttach_eq hx]
          refine sim_bind_same fun q _ => ?_
          exact hput ((L.begin.setTokens x).setQueue q) true hx
  | false =>
      refine sim_bind_same fun q _ => ?_
      refine sim_ite Iff.rfl (fun _ => sim_pure ⟨rfl, rfl, h⟩) fun _ => ?_
      exact hput (L.begin.setQueue q) false h

/-! ## Removal -/

/-- Every slot lists what it listed in `c`, but for token controls that were taken out. -/
def Filtered (c : Fin 256 → List TcId) (x : Tokens) : Prop :=
  x.t.pending.Nodup ∧ ∃ p : TcId → Bool, Threaded x.mem (· ∈ x.t.pending)
    (fun X => (x.t.tc X).jiffies) (fun k => (c k).filter p) []

/-- A wheel whose slots hold what waits, in some order, is threaded. -/
theorem Filtered.threads {c : Fin 256 → List TcId} {x : Tokens} (h : Filtered c x) :
    Threads [] e x := by
  obtain ⟨hn, p, hp⟩ := h
  exact ⟨⟨_, hp⟩, fun hl => absurd rfl hl, fun X hX => (by cases hX), hn⟩

/-- A threaded wheel is one in some order. -/
theorem Threads.filtered {x : Tokens} (h : Threads [] e x) : ∃ c, Filtered c x ∧
    Threaded x.mem (· ∈ x.t.pending) (fun X => (x.t.tc X).jiffies) c [] := by
  obtain ⟨c, hc⟩ := h.slots
  refine ⟨c, ⟨h.nodup, fun _ => true, ?_⟩, hc⟩
  simpa using hc

variable {c : Fin 256 → List TcId}

/-- A token control is taken out of its slot. -/
theorem timerDel_sim {x : Tokens} (h : Filtered c x) (X : TcId) :
    Sim out (fun y t => y.t = t ∧ Filtered c y) (timerDel x X) (Tbq.timerDel x.t X) := by
  have hth : Threads [] (fun _ => 0) x := h.threads
  obtain ⟨hn, p, hp⟩ := h
  unfold timerDel Tbq.timerDel
  refine sim_stopIf Iff.rfl fun _ => ?_
  refine sim_stopIf (hth.listEmpty_iff X) fun hX => ?_
  have hX : X ∈ x.t.pending := not_not.mp (mt (hth.listEmpty_iff X).mpr hX)
  have hmem : ∀ Y, Y ∈ x.t.pending.erase X ↔ Y ∈ x.t.pending ∧ Y ≠ X :=
    fun Y => by rw [hn.mem_erase_iff, and_comm]
  have hdel := (hp.del hX (by simp)).congr hmem fun _ _ => rfl
  refine sim_pure ⟨rfl, hn.erase X, fun Y => p Y && decide (Y ≠ X), ?_⟩
  have herase : (fun k => ((c k).filter p).erase X)
      = fun k => (c k).filter fun Y => p Y && decide (Y ≠ X) := by
    funext k
    rw [(nodup_of_ring (hp.ring k)).erase_eq_filter, List.filter_filter]
    apply List.filter_congr
    intro Y _
    rw [Bool.eq_iff_iff]
    simp [and_comm]
  rwa [herase] at hdel

/-- The assertion on a user's node is that on the set. -/
theorem userCleanup_eq {L : Sched} (h : Threads [] e L.tokens) (r : UserRef) :
    userCleanup L r = Tbq.userCleanup L.s r := by
  have hlist : L.mem.listEmpty (.tc (.user r)) = false ↔ TcId.user r ∈ L.s.t.pending :=
    h.listEmpty_false_iff (.user r)
  unfold userCleanup Tbq.userCleanup tokenCtrlAssertUnused Tbq.tokenCtrlAssertUnused
  rw [stopIf_congr hlist]

/-- Freeing one direction of a user takes its controls out of the wheel as out of the set. -/
theorem userSchedCleanup_sim {L : Sched} (h : Filtered c L.tokens) (u : UserId) (d : Dir)
    (ruleMask : RuleMask) :
    Sim out (fun L' s => L'.s = s ∧ Filtered c L'.tokens) (userSchedCleanup L u d ruleMask)
      (Tbq.userSchedCleanup L.s u d ruleMask) := by
  unfold userSchedCleanup Tbq.userSchedCleanup
  refine Sim.bind (R := fun y t => y.t = t ∧ Filtered c y) ?_ ?_
  · refine sim_foldlM ?_ _ _ _ ⟨rfl, h⟩
    rintro x _ i ⟨rfl, hx⟩
    refine (timerDel_sim hx _).bind ?_
    rintro y _ ⟨rfl, hn, p, hp⟩
    refine sim_pure ⟨rfl, ?_, p, hp.congr (fun X => ?_) fun X _ => ?_⟩
    · exact hn
    · exact Iff.rfl
    · rfl
  · rintro x _ ⟨rfl, hx⟩
    refine sim_stopIf Iff.rfl fun _ => ?_
    have hL : Threads [] (fun _ => 0) (L.setTokens x).tokens := hx.threads
    have hclean : (fun i => userCleanup (L.setTokens x) ⟨u, d, i⟩)
        = fun i => Tbq.userCleanup (L.setTokens x).s ⟨u, d, i⟩ := by
      funext i
      exact userCleanup_eq hL _
    dsimp only
    rw [hclean]
    exact sim_bind_same fun _ _ => sim_pure ⟨rfl, hx⟩

/-- Freeing a user runs the same on both models. -/
theorem onUserFree_sim {L : Sched} (h : Filtered c L.tokens) (u : UserId) :
    Sim out (fun L' s => L'.s = s ∧ Filtered c L'.tokens) (onUserFree L u)
      (Tbq.onUserFree L.s u) := by
  unfold onUserFree Tbq.onUserFree
  refine sim_ite Iff.rfl (fun _ => ?_) fun _ => sim_pure ⟨rfl, h⟩
  unfold userTrackFree Tbq.userTrackFree
  refine (userSchedCleanup_sim (L := L.setQueue { L.s.q with users := L.s.q.users.erase u })
    h u 0 _).bind ?_
  rintro L' _ ⟨rfl, hL'⟩
  exact userSchedCleanup_sim hL' u 1 _

end Tbq.Linked
