/-
# The dequeue loops

An invariant rule for the nested loops that a tick of the timer runs.  `LoopRules I E`
lists what an invariant `I` has to survive: firing a pending token control, trying to
dequeue one packet of a flow whose token controls are off the timer, linking a user to
its bucket and unlinking it, and the end of a loop.  `I` takes the token control that
is being drained.  From the rules, `I` holds after every tick.
-/
import OpenwrtAc.TbqDequeue

open Outcome MachineInt

namespace Tbq

/-- The flow is the first one that its user entry serves, and the user entry the first one
that its bucket serves, unless it does not wait there. -/
structure Next (q : QueueState) (f : FlowId) (d : Dir) (r : UserRef) : Prop where
  flow : (q.bl (.user r)).units.head? = some (.flow f d)
  user : (q.unit (.user r)).tc = none ∨ (q.bl r.bucket).units.head? = some (.user r)

/-- What the loops ask of an invariant and of the tolerated reasons to stop. -/
structure LoopRules (I : Option TcId → State → Prop) (E : Stop → Prop) : Prop where
  base : ∀ w s, I w s → Base s
  fuel : E .fuel
  tryDequeue : ∀ fuel w s f d r, I (some w) s →
    Next s.q f d r → (s.q.unit (.flow f d)).tc = some (.user r) → TcId.user r ∉ s.t.pending →
    r.bucket ∉ s.t.pending → Sat (flowBacklogTryDequeue fuel s f d) (I (some w)) E
  userEmpty : ∀ w s r, I w s → (s.q.unit (.user r)).tc ≠ none →
    Sat (backlogEmpty s.q (.user r)) (fun e => e = false) E
  link : ∀ s r, I (some (.user r)) s → r.bucket ∈ s.t.pending → (s.q.bl (.user r)).units ≠ [] →
    (s.q.unit (.user r)).tc = none → I none { s with q := link s.q (.user r) r.bucket }
  unlink : ∀ w s r, I (some w) s → TcId.user r ∈ s.t.pending →
    I (some w) { s with q := unlink s.q (.user r) }
  leave : ∀ X s, I (some X) s → (X ∈ s.t.pending ∨ (s.q.bl X).units = []
    ∨ ∃ r, X = .user r ∧ (s.q.unit (.user r)).tc ≠ none) → I none s
  fire : ∀ s X, I none s → X ∈ s.t.pending → Due s.t X →
    Sat (fire s.t X) (fun t => I (some X) { s with t := t }) E
  clock : ∀ s n, I none s → I none { s with timerJiffies := n }

/-! ## Nothing but the fired entry leaves the timer -/

/-- What draining token controls leaves as it was. -/
structure Drained (s s' : State) : Prop where
  cfg : s'.cfg = s.cfg
  pending : ∀ X, X ∈ s.t.pending → X ∈ s'.t.pending
  jiffies : s'.t.jiffies = s.t.jiffies
  timerJiffies : s'.timerJiffies = s.timerJiffies
  status : s'.status = s.status
  disableDone : s'.disableDone = s.disableDone

/-- A step that changes nothing drains nothing. -/
theorem Drained.refl (s : State) : Drained s s := ⟨rfl, fun _ h => h, rfl, rfl, rfl, rfl⟩

/-- Drains compose. -/
theorem Drained.trans {s s' s'' : State} (h : Drained s s') (h' : Drained s' s'') :
    Drained s s'' :=
  ⟨h'.cfg.trans h.cfg, fun X hX => h'.pending X (h.pending X hX), h'.jiffies.trans h.jiffies,
    h'.timerJiffies.trans h.timerJiffies, h'.status.trans h.status, h'.disableDone.trans h.disableDone⟩

/-- A change of the queue alone. -/
theorem drained_queue (s : State) (q : QueueState) : Drained s { s with q := q } :=
  ⟨rfl, fun _ h => h, rfl, rfl, rfl, rfl⟩

/-- Trying a flow only drains. -/
theorem tryDequeue_drained {fuel : ℕ} {s s' : State} {f : FlowId} {d : Dir}
    (h : flowBacklogTryDequeue fuel s f d = .ok s') : Drained s s' := by
  have hconsume : ∀ {t' : TokenState} {p : Packet} {o : Option RuleIdx} (q : QueueState),
      packetCtrlConsume s.t p = .ok (o, t') → Drained s { s with t := t', q := q } := by
    intro t' p o q hc
    rcases packetCtrlConsume_ok hc with ⟨i, -, rfl, -⟩ | ⟨-, hadv, -⟩
    · exact drained_queue s q
    · exact ⟨rfl, hadv.subset, hadv.frame.jiffies, rfl, rfl, rfl⟩
  unfold flowBacklogTryDequeue at h
  simp only [bind_eq_ok, stopIf_eq_ok] at h
  obtain ⟨-, -, -, -, q, -, e, -, h⟩ := h
  split at h
  · obtain rfl := pure_eq_ok.mp h
    exact drained_queue s q
  · split at h
    · simp only [bind_eq_ok, stopIf_eq_ok] at h
      obtain ⟨-, -, -, -, ⟨o, t'⟩, hc, h⟩ := h
      dsimp only at h
      cases o with
      | some i =>
          simp only [bind_eq_ok, stopIf_eq_ok, pure_eq_ok] at h
          obtain ⟨q₁, -, q₂, -, -, -, rfl⟩ := h
          exact hconsume _ hc
      | none =>
          simp only [bind_eq_ok, pure_eq_ok] at h
          obtain ⟨q₁, -, q₂, -, rfl⟩ := h
          exact hconsume _ hc
    · cases h

/-- Serving a user only drains. -/
theorem userDequeue_drained {fuel : ℕ} {s s' : State} {r : UserRef}
    (h : userDequeue fuel s r = .ok s') : Drained s s' := by
  unfold userDequeue at h
  rw [bind_eq_ok] at h
  obtain ⟨-, -, h⟩ := h
  refine rel_of_loopFuel (R := Drained) (fun _ _ _ => Drained.trans)
    (fun s more s' hb => ?_) fuel s s' h
  obtain ⟨f, d, us, -, -, -, -, hs₁, -⟩ | ⟨q, -, -, -, rfl, -⟩ | ⟨-, rfl, -⟩ := userDequeueBody_cases hb
  · exact tryDequeue_drained hs₁
  · exact drained_queue s q
  · exact .refl _

/-- Serving a bucket only drains. -/
theorem bucketDequeue_drained {fuel : ℕ} {s s' : State} {d : Dir} {i : RuleIdx}
    (h : bucketDequeue fuel s d i = .ok s') : Drained s s' := by
  unfold bucketDequeue at h
  rw [bind_eq_ok] at h
  obtain ⟨-, -, h⟩ := h
  refine rel_of_loopFuel (R := Drained) (fun _ _ _ => Drained.trans)
    (fun s more s' hb => ?_) fuel s s' h
  obtain ⟨r, f, d', us, us', -, -, -, -, -, hs₁, -⟩ | ⟨r, us, q, -, -, -, -, rfl, -⟩ | ⟨-, rfl, -⟩ :=
    bucketDequeueBody_cases hb
  · exact tryDequeue_drained hs₁
  · exact drained_queue s q
  · exact .refl _

/-- What activating `X` leaves as it was. -/
structure Activated (X : TcId) (s s' : State) : Prop where
  pending : ∀ Y, Y ≠ X → Y ∈ s.t.pending → Y ∈ s'.t.pending
  jiffies : s'.t.jiffies = s.t.jiffies
  timerJiffies : s'.timerJiffies = s.timerJiffies
  status : s'.status = s.status
  disableDone : s'.disableDone = s.disableDone

/-- Activating a control takes it off the timer and serves it. -/
theorem tokenCtrlActivate_activated {fuel : ℕ} {s s' : State} {X : TcId}
    (h : tokenCtrlActivate fuel s X = .ok s') : Activated X s s' := by
  unfold tokenCtrlActivate at h
  rw [bind_eq_ok] at h
  obtain ⟨t, ht, h⟩ := h
  have hf := fire_ok ht
  have hdrained : Drained { s with t := t } s' := by
    cases X with
    | bucket d i => exact bucketDequeue_drained h
    | user r =>
        simp only [bind_eq_ok] at h
        obtain ⟨att, -, h⟩ := h
        cases att with
        | true =>
            obtain rfl := pure_eq_ok.mp h
            exact .refl _
        | false => exact userDequeue_drained h
  refine ⟨fun Y hYX hY => hdrained.pending Y ?_, hdrained.jiffies.trans hf.frame.jiffies,
    hdrained.timerJiffies, hdrained.status, hdrained.disableDone⟩
  show Y ∈ t.pending
  rw [hf.pending]
  exact (List.mem_erase_of_ne hYX).mpr hY

/-- A slot of the timer changes neither the clock nor the status, and the timer goes on to the next
jiffy. -/
theorem timerFeedBody_frame {fuel : ℕ} {order : SlotOrder} {s s' : State} {more : Bool}
    (h : timerFeedBody fuel order s = .ok (more, s')) :
    s'.t.jiffies = s.t.jiffies ∧ s'.status = s.status ∧ s'.disableDone = s.disableDone
      ∧ (more = true → s'.timerJiffies = s.timerJiffies + 1) := by
  unfold timerFeedBody at h
  split at h
  · simp only [bind_eq_ok, pure_eq_ok, Prod.mk.injEq] at h
    obtain ⟨s₁, hfold, -, rfl⟩ := h
    have hrel := rel_of_foldlM (R := fun s s' : State => s'.t.jiffies = s.t.jiffies
        ∧ s'.status = s.status ∧ s'.disableDone = s.disableDone ∧ s'.timerJiffies = s.timerJiffies)
      (fun _ => ⟨rfl, rfl, rfl, rfl⟩)
      (fun _ _ _ h h' => ⟨h'.1.trans h.1, h'.2.1.trans h.2.1, h'.2.2.1.trans h.2.2.1,
        h'.2.2.2.trans h.2.2.2⟩)
      (fun s X s' hv => by
        unfold visit at hv
        split at hv
        · have hact := tokenCtrlActivate_activated hv
          exact ⟨hact.jiffies, hact.status, hact.disableDone, hact.timerJiffies⟩
        · obtain rfl := pure_eq_ok.mp hv
          exact ⟨rfl, rfl, rfl, rfl⟩) _ _ _ hfold
    exact ⟨hrel.1, hrel.2.1, hrel.2.2.1, fun _ => hrel.2.2.2⟩
  · simp only [pure_eq_ok, Prod.mk.injEq] at h
    obtain ⟨rfl, rfl⟩ := h
    exact ⟨rfl, rfl, rfl, fun hm => by cases hm⟩

/-- The timer changes neither the clock nor the status. -/
theorem timerFeed_frame {fuel : ℕ} {order : SlotOrder} {s s' : State}
    (h : timerFeed fuel order s = .ok s') :
    s'.t.jiffies = s.t.jiffies ∧ s'.status = s.status ∧ s'.disableDone = s.disableDone :=
  rel_of_loopFuel (R := fun s s' : State => s'.t.jiffies = s.t.jiffies ∧ s'.status = s.status
      ∧ s'.disableDone = s.disableDone)
    (fun _ _ _ h h' => ⟨h'.1.trans h.1, h'.2.1.trans h.2.1, h'.2.2.trans h.2.2⟩)
    (fun _ _ _ hb =>
      have hf := timerFeedBody_frame hb
      ⟨hf.1, hf.2.1, hf.2.2.1⟩) fuel s s' h

/-- A slot of an empty timer leaves it empty. -/
theorem timerFeedBody_empty {fuel : ℕ} {order : SlotOrder}
    (horder : ∀ v l, (order v l).Perm l) {s s' : State} {more : Bool}
    (h : timerFeedBody fuel order s = .ok (more, s')) (hp : s.t.pending = []) :
    s'.t.pending = [] := by
  unfold timerFeedBody at h
  split at h
  · have hslot : order s.timerJiffies (slot s s.timerJiffies) = [] := by
      have hnil : slot s s.timerJiffies = [] := by
        unfold slot
        rw [hp]
        rfl
      rw [hnil]
      exact (horder _ []).eq_nil
    dsimp only at h
    rw [hslot] at h
    simp only [List.foldlM_nil, pure_bind, pure_eq_ok, Prod.mk.injEq] at h
    obtain ⟨-, rfl⟩ := h
    exact hp
  · simp only [pure_eq_ok, Prod.mk.injEq] at h
    obtain ⟨-, rfl⟩ := h
    exact hp

/-- An empty timer stays empty. -/
theorem timerFeed_empty {fuel : ℕ} {order : SlotOrder}
    (horder : ∀ v l, (order v l).Perm l) {s s' : State} (h : timerFeed fuel order s = .ok s')
    (hp : s.t.pending = []) : s'.t.pending = [] :=
  rel_of_loopFuel (R := fun s s' : State => s.t.pending = [] → s'.t.pending = [])
    (fun _ _ _ h h' hp => h' (h hp)) (fun _ _ _ hb hp => timerFeedBody_empty horder hb hp) fuel s s' h hp

/-! ## The loops -/

namespace LoopRules

variable {I : Option TcId → State → Prop} {E : Stop → Prop}

/-- A user entry is drained only while it does not wait for its bucket. -/
theorem userDequeueBody_sat (R : LoopRules I E) (fuel : ℕ) {s : State} {r : UserRef}
    (h : I (some (.user r)) s) (hr : (s.q.unit (.user r)).tc = none) :
    Sat (userDequeueBody fuel r s) (fun a => if a.1 then
      I (some (.user r)) a.2 ∧ (a.2.q.unit (.user r)).tc = none else I none a.2) E := by
  have hbase := R.base _ _ h
  have hlinks := hbase.acct.links
  unfold userDequeueBody
  by_cases hcond : TcId.user r ∉ s.t.pending ∧ (s.q.bl (.user r)).units ≠ []
  · obtain ⟨hnu, hne⟩ := hcond
    rw [if_pos ⟨hnu, hne⟩]
    by_cases hnb : r.bucket ∉ s.t.pending
    · rw [if_pos hnb]
      obtain ⟨x, l, hl⟩ := List.exists_cons_of_ne_nil hne
      obtain ⟨f, rfl, -, htc⟩ := hlinks.mem_user_units (r := r) (x := x)
        (by rw [hl]; exact List.mem_cons_self)
      rw [hl]
      dsimp only
      rw [sat_bind, stopIf_of_not (by simp [htc]), sat_ok]
      have hnext : Next s.q f r.d r := ⟨by rw [hl]; rfl, .inl hr⟩
      refine (R.tryDequeue fuel _ s f r.d r h hnext htc hnu hnb).and_run.bind fun s' hs' => ?_
      obtain ⟨hrun, hI⟩ := hs'
      obtain ⟨-, o, htried⟩ := hbase.tried htc hnu hnb hrun
      exact ⟨hI, htried.user_detached hr⟩
    · rw [if_neg hnb, hlinks.attach_eq, sat_bind, sat_ok, hr]
      exact R.link s r h (not_not.mp hnb) hne hr
  · rw [if_neg hcond, sat_pure]
    refine R.leave _ s h ?_
    by_cases hp : TcId.user r ∈ s.t.pending
    · exact .inl hp
    · right; left
      by_contra hne
      exact hcond ⟨hp, hne⟩

/-- The rule of the user's loop. -/
theorem userDequeue_sat (R : LoopRules I E) (fuel : ℕ) {s : State} {r : UserRef}
    (h : I (some (.user r)) s) (hr : (s.q.unit (.user r)).tc = none)
    (hnu : TcId.user r ∉ s.t.pending) : Sat (userDequeue fuel s r) (I none) E := by
  unfold userDequeue
  rw [sat_bind, stopIf_of_not hnu, sat_ok]
  exact sat_loopFuel (I := fun s => I (some (.user r)) s ∧ (s.q.unit (.user r)).tc = none) R.fuel
    (fun s hs => R.userDequeueBody_sat fuel hs.1 hs.2) fuel s ⟨h, hr⟩

/-- The rule of one turn of the bucket's loop. -/
theorem bucketDequeueBody_sat (R : LoopRules I E) (fuel : ℕ) {s : State} {d : Dir} {i : RuleIdx}
    (h : I (some (.bucket d i)) s) :
    Sat (bucketDequeueBody fuel d i s)
      (fun a => if a.1 then I (some (.bucket d i)) a.2 else I none a.2) E := by
  have hacct := (R.base _ _ h).acct
  have hlinks := hacct.links
  unfold bucketDequeueBody
  by_cases hcond : TcId.bucket d i ∉ s.t.pending ∧ (s.q.bl (.bucket d i)).units ≠ []
  · obtain ⟨hnb, hne⟩ := hcond
    rw [if_pos ⟨hnb, hne⟩]
    obtain ⟨x, l, hl⟩ := List.exists_cons_of_ne_nil hne
    have hxtc : (s.q.unit x).tc = some (.bucket d i) :=
      (hlinks.units _ _).mp (by rw [hl]; exact List.mem_cons_self)
    have hc := hlinks.compat _ _ hxtc
    cases x with
    | flow f d' => exact hc.elim
    | user r =>
        have hbucket : r.bucket = .bucket d i := hc.symm
        rw [hl]
        dsimp only
        rw [sat_bind, stopIf_of_not (by simp [hxtc]), sat_ok]
        refine (R.userEmpty _ s r h (by rw [hxtc]; simp)).bind fun e he => ?_
        subst he
        rw [sat_bind, stopIf_of_not (by simp), sat_ok]
        by_cases hnu : TcId.user r ∉ s.t.pending
        · rw [if_pos hnu]
          -- an attached user has a flow that waits for it
          obtain ⟨g, hg⟩ := hacct.userBusy r (by rw [hxtc]; simp)
          have hne' : (s.q.bl (.user r)).units ≠ [] :=
            List.ne_nil_of_mem ((hlinks.units _ _).mpr hg)
          obtain ⟨y, l', hl'⟩ := List.exists_cons_of_ne_nil hne'
          obtain ⟨f, rfl, -, htc⟩ := hlinks.mem_user_units (r := r) (x := y)
            (by rw [hl']; exact List.mem_cons_self)
          rw [hl']
          dsimp only
          rw [sat_bind, stopIf_of_not (by simp [htc]), sat_ok]
          have hnext : Next s.q f r.d r :=
            ⟨by rw [hl']; rfl, .inr (by rw [hbucket, hl]; rfl)⟩
          exact (R.tryDequeue fuel _ s f r.d r h hnext htc hnu (by rw [hbucket]; exact hnb)).bind
            fun s' hs' => hs'
        · rw [if_neg hnu, hlinks.detach_eq, sat_bind, sat_ok]
          exact R.unlink _ s r h (not_not.mp hnu)
  · rw [if_neg hcond, sat_pure]
    refine R.leave _ s h ?_
    by_cases hp : TcId.bucket d i ∈ s.t.pending
    · exact .inl hp
    · right; left
      by_contra hne
      exact hcond ⟨hp, hne⟩

/-- The rule of the bucket's loop. -/
theorem bucketDequeue_sat (R : LoopRules I E) (fuel : ℕ) {s : State} {d : Dir} {i : RuleIdx}
    (h : I (some (.bucket d i)) s) (hnb : TcId.bucket d i ∉ s.t.pending) :
    Sat (bucketDequeue fuel s d i) (I none) E := by
  unfold bucketDequeue
  rw [sat_bind, stopIf_of_not hnb, sat_ok]
  exact sat_loopFuel R.fuel (fun s hs => R.bucketDequeueBody_sat fuel hs) fuel s h

/-- The rule of an activation. -/
theorem tokenCtrlActivate_sat (R : LoopRules I E) (fuel : ℕ) {s : State} {X : TcId}
    (h : I none s) (hX : X ∈ s.t.pending) (hdue : Due s.t X) :
    Sat (tokenCtrlActivate fuel s X) (I none) E := by
  have hpend := (R.base _ _ h).tokens.pendingOk
  unfold tokenCtrlActivate
  have hsat : Sat (Tbq.fire s.t X) (fun t => I (some X) { s with t := t } ∧ Fired s.t X t) E :=
    sat_intro (fun t ht => ⟨(R.fire s X h hX hdue).of_ok ht, fire_ok ht⟩)
      fun e he => (R.fire s X h hX hdue).of_error he
  refine hsat.bind fun t ht => ?_
  obtain ⟨hI, hf⟩ := ht
  have hoff : X ∉ t.pending := fun hm => ((hf.mem_pending hpend).mp hm).1 rfl
  cases X with
  | bucket d i => exact R.bucketDequeue_sat fuel hI hoff
  | user r =>
      dsimp only
      rw [(R.base _ _ hI).acct.links.attached_eq, sat_bind, sat_ok]
      cases htc : (s.q.unit (.user r)).tc with
      | none => exact R.userDequeue_sat fuel hI htc hoff
      | some Y => exact R.leave _ _ hI (.inr (.inr ⟨r, rfl, by rw [htc]; simp⟩))

/-- The rule of a visit of one control. -/
theorem visit_sat (R : LoopRules I E) (fuel : ℕ) {v : ℕ} {s : State} {X : TcId} (h : I none s)
    (hX : X ∈ s.t.pending) (hv : 0 ≤ i32 ((s.t.jiffies : ℤ) - v)) :
    Sat (visit fuel v s X) (fun s' => I none s' ∧ Activated X s s') E := by
  unfold visit
  split
  · rename_i heq
    have hdue : Due s.t X := by
      unfold Due
      rw [i32_sub_congr heq]
      exact hv
    have hsat := R.tokenCtrlActivate_sat fuel h hX hdue
    exact sat_intro (fun s' hs' => ⟨hsat.of_ok hs', tokenCtrlActivate_activated hs'⟩)
      fun e he => hsat.of_error he
  · exact ⟨h, fun Y _ hY => hY, rfl, rfl, rfl, rfl⟩

/-- One slot of the timer, in whatever order it lists its entries. -/
theorem timerFeedBody_sat (R : LoopRules I E) (fuel : ℕ) {order : SlotOrder}
    (horder : ∀ v l, (order v l).Perm l) {s : State} (h : I none s) :
    Sat (timerFeedBody fuel order s) (fun a => if a.1 then I none a.2 else I none a.2) E := by
  unfold timerFeedBody
  split
  · rename_i hclock
    have hpend := (R.base _ _ h).tokens.pendingOk
    -- the entries that are still to be visited are still on the timer
    have hfold := sat_foldlM (f := visit fuel s.timerJiffies) (E := E)
      (fun l s' => I none s' ∧ s'.t.jiffies = s.t.jiffies ∧ l.Nodup ∧ ∀ Y ∈ l, Y ∈ s'.t.pending)
      (order s.timerJiffies (slot s s.timerJiffies)) { s with timerJiffies := s.timerJiffies + 1 }
      ⟨R.clock s _ h, rfl, (horder _ _).nodup_iff.mpr (hpend.nodup.filter _), fun Y hY =>
        List.mem_of_mem_filter ((horder _ _).mem_iff.mp hY)⟩ ?_
    · exact hfold.bind fun s' hs' => hs'.1
    · rintro X l s' ⟨hI, hj, hnd, hl⟩
      obtain ⟨hXl, hnd⟩ := List.nodup_cons.mp hnd
      refine (R.visit_sat fuel hI (hl X List.mem_cons_self) (by rw [hj]; exact hclock)).mono ?_
        fun _ he => he
      rintro s'' ⟨hI', hact⟩
      refine ⟨hI', hact.jiffies.trans hj, hnd, fun Y hY => ?_⟩
      exact hact.pending Y (fun e => hXl (e ▸ hY)) (hl Y (List.mem_cons_of_mem X hY))
  · exact h

/-- The rule of a tick. -/
theorem timerFeed_sat (R : LoopRules I E) (fuel : ℕ) {order : SlotOrder}
    (horder : ∀ v l, (order v l).Perm l) {s : State} (h : I none s) :
    Sat (timerFeed fuel order s) (I none) E :=
  sat_loopFuel R.fuel (fun _ hs => R.timerFeedBody_sat fuel horder hs) fuel s h

end LoopRules

/-! ## The invariant of the scheduler -/

/-- Attaching a user to a bucket that waits keeps the invariant. -/
theorem Inv.linkUser {b : Prop} {cfg : Config} {s : State} {r : UserRef}
    (h : Inv b cfg (some (.user r)) s) (hb : r.bucket ∈ s.t.pending)
    (hne : (s.q.bl (.user r)).units ≠ []) (htc : (s.q.unit (.user r)).tc = none) :
    Inv b cfg none { s with q := Tbq.link s.q (.user r) r.bucket } := by
  refine h.relink (h.base.acct.linkUser htc hne) (sameRest_link _ _ _) fun hb' => ?_
  have hunit : ∀ x, x ≠ .user r → (Tbq.link s.q (.user r) r.bucket).unit x = s.q.unit x := by
    intro x hx
    rw [Tbq.link, setUnit_of_ne _ _ hx, setUnits_unit]
  have hself : ((Tbq.link s.q (.user r) r.bucket).unit (.user r)).tc = some r.bucket := by
    simp [Tbq.link]
  refine ⟨fun f d r' hr' => ?_, fun r' hr' => ?_⟩
  · rw [hunit _ (by intro e; cases e)] at hr'
    rcases (h.served hb').flow f d r' hr' with hp | hw | ha
    · exact .inl hp
    · obtain rfl := TcId.user.inj (Option.some.inj hw)
      right; right
      rw [hself]
      simp
    · by_cases hrr : r' = r
      · subst hrr
        exact absurd htc ha
      · rw [hunit _ fun e => hrr (UnitId.user.inj e)]
        exact .inr (.inr ha)
  · by_cases hrr : r' = r
    · subst hrr
      exact .inl hb
    · rw [hunit _ fun e => hrr (UnitId.user.inj e)] at hr'
      rcases (h.served hb').user r' hr' with hp | hw
      · exact .inl hp
      · cases hw

/-- Detaching a user that waits keeps the invariant. -/
theorem Inv.unlinkUser {b : Prop} {cfg : Config} {w : Option TcId} {s : State} {r : UserRef}
    (h : Inv b cfg w s) (hr : TcId.user r ∈ s.t.pending) :
    Inv b cfg w { s with q := Tbq.unlink s.q (.user r) } := by
  refine h.relink (h.base.acct.unlinkUser r) (sameRest_unlink _ _) fun hb => ?_
  refine (h.served hb).of_change (fun f d r' hr' => .inl ?_) (fun r' hr' => .inl ?_)
    (fun r' hold hnew => ?_)
  · rwa [Links.unlink_tc, if_neg (by intro e; cases e)] at hr'
  · rw [Links.unlink_tc] at hr'
    split at hr'
    · exact absurd rfl hr'
    · exact hr'
  · rw [Links.unlink_tc] at hnew
    split at hnew
    · rename_i e
      obtain rfl := UnitId.user.inj e
      exact .inr hr
    · exact absurd hnew hold

/-- A control that fires keeps the invariant. -/
theorem Inv.fire_sat {b : Prop} {cfg : Config} {s : State} {X : TcId} (h : Inv b cfg none s)
    (hX : X ∈ s.t.pending) :
    Sat (fire s.t X) (fun t => Inv b cfg (some X) { s with t := t }) (Tolerated b cfg) := by
  refine (h.base.tokens.fire_sat hX).mono ?_ fun e he => he.elim
  rintro t ⟨htok, hf⟩
  have hkeep : ∀ Y, Y ∈ s.t.pending → Y ∈ t.pending ∨ some X = some Y := by
    intro Y hY
    by_cases hYX : Y = X
    · exact .inr (by rw [hYX])
    · exact .inl ((hf.mem_pending h.base.tokens.pendingOk).mpr ⟨hYX, hY⟩)
  refine ⟨⟨h.base.acct, h.base.classes, htok, h.base.inflight, h.base.count⟩, h.small,
    fun hb => ⟨fun f d r hr => ?_, fun r hr => ?_⟩, h.cfg_eq⟩
  · rcases (h.served hb).flow f d r hr with hp | hw | ha
    · rcases hkeep _ hp with hp | hw
      · exact .inl hp
      · exact .inr (.inl hw)
    · cases hw
    · exact .inr (.inr ha)
  · rcases (h.served hb).user r hr with hp | hw
    · exact hkeep _ hp
    · cases hw

/-- The invariant goes through the loops. -/
theorem inv_loopRules (b : Prop) (cfg : Config) :
    LoopRules (Inv b cfg) (Tolerated b cfg) where
  base := fun _ _ h => h.base
  fuel := .inl rfl
  tryDequeue := fun fuel _ _ _ _ _ h _ htc hnu hnb =>
    (h.tryDequeue_sat fuel htc hnu hnb).mono (fun _ hs => hs.1) fun _ he => he
  userEmpty := by
    intro w s r h htc
    refine sat_intro (fun e he => ?_) (fun e he => ?_)
    · -- the answer is whether the unit is linked
      have hl := h.base.acct.links.linked (.user r)
      rw [Option.isSome_iff_ne_none.mpr htc] at hl
      unfold backlogEmpty at he
      dsimp only at he
      rw [hl, if_neg (by simp)] at he
      simp only [bind_eq_ok, pure_eq_ok] at he
      obtain ⟨-, -, -, -, rfl⟩ := he
      rfl
    · exact tolerated_of he (queueRun_backlogEmpty ..).benign fun hb =>
        ⟨_, h.base.acct.userEmpty_eq h.base.classes (h.small hb) htc⟩
  link := fun _ _ h hb hne htc => h.linkUser hb hne htc
  unlink := fun _ _ _ h hr => h.unlinkUser hr
  leave := fun _ _ h hX =>
    ⟨h.base, h.small, fun hb => (h.served hb).leave h.base.acct.links hX, h.cfg_eq⟩
  fire := fun _ _ h hX _ => h.fire_sat hX
  clock := fun _ _ h => ⟨⟨h.base.acct, h.base.classes, h.base.tokens, h.base.inflight, h.base.count⟩,
    h.small, h.served, h.cfg_eq⟩

end Tbq
