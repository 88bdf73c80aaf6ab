/-
# What the queues leave alone

The tracks of users and flows are written by the packet filter and when a user or a flow
is freed.  Everything else moves packets and backlogs and leaves them alone, and the
configuration with them.  Nothing is assumed about the state.
-/
import OpenwrtAc.TbqSched

open Outcome MachineInt

namespace Tbq

/-- The tracks of flows and users. -/
structure Tracks where
  flow : FlowId → FlowTrack
  flows : List FlowId
  users : List UserId
  userMask : UserId → RuleMask

/-- The tracks of a queue. -/
def QueueState.tracks (q : QueueState) : Tracks := ⟨q.flow, q.flows, q.users, q.userMask⟩

/-- The tables stay the same along a sequence of steps. -/
theorem tracks_trans (q q' q'' : QueueState) (h : q'.tracks = q.tracks)
    (h' : q''.tracks = q'.tracks) : q''.tracks = q.tracks := h'.trans h

/-- The computation keeps the tracks of `q`. -/
def KeepsTracks (q : QueueState) (x : Except Stop QueueState) : Prop :=
  Sat x (fun q' => q'.tracks = q.tracks) fun _ => True

section Rules

variable {q : QueueState} {α : Type}

/-- Returning a queue with the same tables. -/
theorem keepsTracks_pure {q' : QueueState} (h : q'.tracks = q.tracks) :
    KeepsTracks q (pure q' : Except Stop QueueState) := h

/-- A run that stops has changed no table. -/
theorem keepsTracks_throw (e : Stop) : KeepsTracks q (throw e) := trivial

/-- A test first, or a value that is looked at first. -/
theorem KeepsTracks.after {x : Except Stop α} {f : α → Except Stop QueueState}
    (hf : ∀ a, KeepsTracks q (f a)) : KeepsTracks q (x >>= f) := by
  cases x with
  | ok a => exact hf a
  | error e => trivial

/-- Two steps that keep the tables, in sequence. -/
theorem KeepsTracks.bind {x : Except Stop QueueState} {f : QueueState → Except Stop QueueState}
    (hx : KeepsTracks q x) (hf : ∀ q', KeepsTracks q' (f q')) : KeepsTracks q (x >>= f) :=
  Sat.bind hx fun q' hq' => (hf q').mono (fun _ h => h.trans hq') fun _ h => h

/-- Only the tables of the queue before matter. -/
theorem KeepsTracks.of_eq {q₀ : QueueState} {x : Except Stop QueueState} (h : KeepsTracks q₀ x)
    (hq : q₀.tracks = q.tracks) : KeepsTracks q x :=
  h.mono (fun _ hq' => hq'.trans hq) fun _ h => h

/-- A test keeps the tables where both branches do. -/
theorem keepsTracks_ite {c : Prop} [Decidable c] {x y : Except Stop QueueState}
    (hx : KeepsTracks q x) (hy : KeepsTracks q y) : KeepsTracks q (if c then x else y) := by
  split
  · exact hx
  · exact hy

end Rules

/-! ## Backlogs -/

@[simp] theorem setUnit_tracks (q : QueueState) (x : UnitId) (b : Backlog) :
    (q.setUnit x b).tracks = q.tracks := rfl

@[simp] theorem setBl_tracks (q : QueueState) (X : TcId) (b : TcBacklog) :
    (q.setBl X b).tracks = q.tracks := rfl

@[simp] theorem setUnits_tracks (q : QueueState) (X : TcId) (l : List UnitId) :
    (q.setUnits X l).tracks = q.tracks := rfl

@[simp] theorem setPackets_tracks (q : QueueState) (f : FlowId) (d : Dir) (l : List Packet) :
    (q.setPackets f d l).tracks = q.tracks := rfl

@[simp] theorem backlogEnqueue_tracks (q : QueueState) (x : UnitId) (n : ℕ) :
    (backlogEnqueue q x n).tracks = q.tracks := rfl

@[simp] theorem listDel_tracks (q : QueueState) (x : UnitId) : (listDel q x).tracks = q.tracks := by
  unfold listDel
  split <;> rfl

/-- Attaching a unit keeps the tables. -/
theorem keepsTracks_backlogAttach (q : QueueState) (x : UnitId) (X : TcId) :
    KeepsTracks q (backlogAttach q x X) := by
  refine KeepsTracks.after fun b => keepsTracks_ite ?_ ?_
  · exact keepsTracks_pure rfl
  · exact keepsTracks_pure rfl

/-- Detaching a unit keeps the tables. -/
theorem keepsTracks_backlogDetach (q : QueueState) (x : UnitId) :
    KeepsTracks q (backlogDetach q x) := by
  refine KeepsTracks.after fun b => keepsTracks_ite ?_ ?_
  · exact keepsTracks_pure (by simp [unlink])
  · exact keepsTracks_pure rfl

/-- Taking octets off a unit keeps the tables. -/
theorem keepsTracks_backlogDequeue (q : QueueState) (x : UnitId) (n : ℕ) :
    KeepsTracks q (backlogDequeue q x n) := by
  refine KeepsTracks.after fun _ => keepsTracks_ite ?_ ?_
  · exact (keepsTracks_backlogDetach _ x).of_eq rfl
  · exact keepsTracks_pure rfl

/-- One turn of a unit keeps the tables. -/
theorem keepsTracks_backlogDrrSchedule (q : QueueState) (x : UnitId) (n : ℕ) :
    KeepsTracks q (backlogDrrSchedule q x n) := by
  refine KeepsTracks.after fun _ => keepsTracks_ite ?_ ?_
  · dsimp only
    split
    · exact keepsTracks_pure rfl
    · exact keepsTracks_pure rfl
  · exact keepsTracks_pure rfl

/-- Accounting a packet with its user keeps the tables. -/
theorem keepsTracks_userBacklogUpdate (q : QueueState) (r : UserRef) (len w : ℤ) :
    KeepsTracks q (userBacklogUpdate q r len w) := by
  refine KeepsTracks.after fun _ => KeepsTracks.after fun _ => ?_
  exact keepsTracks_pure rfl

/-- Accounting a packet with its units keeps the tables. -/
theorem keepsTracks_packetCtrlBacklogUpdate (q : QueueState) (p : Packet) (len : ℤ)
    (fb : Option FlowId) : KeepsTracks q (packetCtrlBacklogUpdate q p len fb) := by
  refine sat_intro (fun q' hq' => ?_) fun _ _ => trivial
  refine rel_of_foldlM (R := fun q q' => q'.tracks = q.tracks) (fun _ => rfl)
    tracks_trans (fun q i q' hs => ?_) _ _ _ hq'
  exact (keepsTracks_userBacklogUpdate _ _ _ _).of_ok hs

/-! ## Flow backlogs -/

/-- One turn of a flow keeps the tables. -/
theorem keepsTracks_flowBacklogDrrSchedule (q : QueueState) (f : FlowId) (d : Dir) (n : ℕ) :
    KeepsTracks q (flowBacklogDrrSchedule q f d n) := by
  unfold flowBacklogDrrSchedule
  split
  · exact (keepsTracks_backlogDrrSchedule _ _ _).bind fun q' => keepsTracks_backlogDrrSchedule q' _ _
  · exact keepsTracks_throw _

/-- Attaching a flow keeps the tables. -/
theorem keepsTracks_flowBacklogAttach (pending : List TcId) (nrRule : ℕ) (q : QueueState)
    (f : FlowId) (d : Dir) (r : UserRef) :
    KeepsTracks q (flowBacklogAttach pending nrRule q f d r) := by
  refine KeepsTracks.after fun _ => KeepsTracks.after fun _ => KeepsTracks.bind ?_ fun q₁ => ?_
  · refine keepsTracks_ite (keepsTracks_backlogAttach _ _ _) (KeepsTracks.after fun _ => ?_)
    exact keepsTracks_pure rfl
  · refine ((keepsTracks_backlogAttach _ _ _).bind fun q₂ => KeepsTracks.after fun _ => ?_).of_eq
      (backlogEnqueue_tracks q₁ _ _)
    exact keepsTracks_pure rfl

/-- Detaching a flow keeps the tables. -/
theorem keepsTracks_flowBacklogDetach (q : QueueState) (f : FlowId) (d : Dir) :
    KeepsTracks q (flowBacklogDetach q f d) := by
  refine KeepsTracks.after fun _ => KeepsTracks.after fun _ => ?_
  split
  · exact (keepsTracks_backlogDequeue _ _ _).bind fun q' => KeepsTracks.after fun _ =>
      keepsTracks_backlogDetach q' _
  · exact keepsTracks_throw _

/-- Putting a packet into its flow keeps the tables. -/
theorem keepsTracks_flowBacklogEnqueue (q : QueueState) (f : FlowId) (d : Dir) (p : Packet) :
    KeepsTracks q (flowBacklogEnqueue q f d p) := by
  refine KeepsTracks.after fun _ => KeepsTracks.after fun _ => ?_
  split
  · exact keepsTracks_pure rfl
  · exact keepsTracks_throw _

/-- Taking a packet off its flow keeps the tables. -/
theorem keepsTracks_takePacket (q : QueueState) (f : FlowId) (d : Dir) (p : Packet)
    (rest : List Packet) : KeepsTracks q (takePacket q f d p rest) := by
  refine KeepsTracks.bind ?_ fun q' => keepsTracks_packetCtrlBacklogUpdate q' _ _ _
  refine KeepsTracks.after fun _ => KeepsTracks.after fun _ => ?_
  split
  · exact (keepsTracks_backlogDequeue _ _ _).bind fun q' =>
      (keepsTracks_backlogDequeue q' _ _).bind fun q'' => keepsTracks_pure rfl
  · exact keepsTracks_throw _

/-- Dropping packets keeps the tables. -/
theorem keepsTracks_flowBacklogDrop (k : Ceiling) (fuel : ℕ) (q : QueueState) (f : FlowId)
    (d : Dir) :
    KeepsTracks q (flowBacklogDrop k fuel q f d) := by
  refine KeepsTracks.after fun maxOctets => sat_intro (fun q' hq' => ?_) fun _ _ => trivial
  refine rel_of_loopFuel (R := fun q q' => q'.tracks = q.tracks) tracks_trans
    (fun q more q' hs => ?_) _ _ _ hq'
  unfold dropBody at hs
  split at hs
  · split at hs
    · cases hs
    · obtain ⟨q₁, h₁, hs⟩ := bind_eq_ok.mp hs
      cases hs
      have hq₁ := (keepsTracks_takePacket _ _ _ _ _).of_ok h₁
      exact hq₁
  · cases hs
    rfl

/-! ## The scheduler -/

/-- The tracks and the configuration are the same. -/
structure SameTracks (s s' : State) : Prop where
  tracks : s'.q.tracks = s.q.tracks
  cfg : s'.cfg = s.cfg

/-- A state has the tables it has. -/
theorem SameTracks.refl (s : State) : SameTracks s s := ⟨rfl, rfl⟩

/-- Having the same tables is transitive. -/
theorem SameTracks.trans (s s' s'' : State) (h : SameTracks s s') (h' : SameTracks s' s'') :
    SameTracks s s'' :=
  ⟨h'.tracks.trans h.tracks, h'.cfg.trans h.cfg⟩

/-- Trying a flow keeps the tables. -/
theorem sameTracks_flowBacklogTryDequeue {fuel : ℕ} {s s' : State} {f : FlowId} {d : Dir}
    (h : flowBacklogTryDequeue fuel s f d = .ok s') : SameTracks s s' := by
  obtain ⟨_, -, h⟩ := bind_eq_ok.mp h
  obtain ⟨_, -, h⟩ := bind_eq_ok.mp h
  obtain ⟨q, hq, h⟩ := bind_eq_ok.mp h
  obtain ⟨e, -, h⟩ := bind_eq_ok.mp h
  have hdrop := (keepsTracks_flowBacklogDrop _ _ _ _ _).of_ok hq
  split at h
  · cases h
    exact ⟨hdrop, rfl⟩
  · split at h
    · obtain ⟨_, -, h⟩ := bind_eq_ok.mp h
      obtain ⟨_, -, h⟩ := bind_eq_ok.mp h
      obtain ⟨⟨o, t⟩, -, h⟩ := bind_eq_ok.mp h
      dsimp only at h
      split at h
      · obtain ⟨q₁, h₁, h⟩ := bind_eq_ok.mp h
        obtain ⟨q₂, h₂, h⟩ := bind_eq_ok.mp h
        obtain ⟨_, -, h⟩ := bind_eq_ok.mp h
        cases h
        have hdetach := (keepsTracks_flowBacklogDetach _ _ _).of_ok h₁
        have hattach := (keepsTracks_flowBacklogAttach _ _ _ _ _ _).of_ok h₂
        exact ⟨hattach.trans (hdetach.trans hdrop), rfl⟩
      · obtain ⟨q₁, h₁, h⟩ := bind_eq_ok.mp h
        obtain ⟨q₂, h₂, h⟩ := bind_eq_ok.mp h
        cases h
        have hturn := (keepsTracks_flowBacklogDrrSchedule _ _ _ _).of_ok h₁
        have htake := (keepsTracks_takePacket _ _ _ _ _).of_ok h₂
        exact ⟨htake.trans (hturn.trans hdrop), rfl⟩
    · cases h

/-- Serving a user keeps the tables. -/
theorem sameTracks_userDequeue {fuel : ℕ} {s s' : State} {r : UserRef}
    (h : userDequeue fuel s r = .ok s') : SameTracks s s' := by
  obtain ⟨-, -, h⟩ := bind_eq_ok.mp h
  refine rel_of_loopFuel SameTracks.trans (fun s more s' hs => ?_) _ _ _ h
  obtain ⟨f, d, us, -, -, -, -, h₁, -⟩ | ⟨q₁, -, -, h₁, rfl, -⟩ | ⟨-, rfl, -⟩ := userDequeueBody_cases hs
  · exact sameTracks_flowBacklogTryDequeue h₁
  · exact ⟨(keepsTracks_backlogAttach _ _ _).of_ok h₁, rfl⟩
  · exact .refl _

/-- Serving a bucket keeps the tables. -/
theorem sameTracks_bucketDequeue {fuel : ℕ} {s s' : State} {d : Dir} {i : RuleIdx}
    (h : bucketDequeue fuel s d i = .ok s') : SameTracks s s' := by
  obtain ⟨-, -, h⟩ := bind_eq_ok.mp h
  refine rel_of_loopFuel SameTracks.trans (fun s more s' hs => ?_) _ _ _ h
  obtain ⟨r, f, d', us, us', -, -, -, -, -, h₁, -⟩ | ⟨r, us, q₁, -, -, -, h₁, rfl, -⟩ | ⟨-, rfl, -⟩ :=
    bucketDequeueBody_cases hs
  · exact sameTracks_flowBacklogTryDequeue h₁
  · exact ⟨(keepsTracks_backlogDetach _ _).of_ok h₁, rfl⟩
  · exact .refl _

/-- The states differ only in what the timer changes outside of the queues. -/
structure OnlyTimer (s s' : State) : Prop where
  unit : s'.q.unit = s.q.unit
  bl : s'.q.bl = s.q.bl
  tracks : s'.q.tracks = s.q.tracks
  cfg : s'.cfg = s.cfg

section Timer

variable {R : State → State → Prop} {fuel : ℕ}

/-- What the loops of the entries do to the state one entry of a slot does. -/
theorem rel_visit (htrans : ∀ s s' s'', R s s' → R s' s'' → R s s'')
    (honly : ∀ {s s'}, OnlyTimer s s' → R s s')
    (huser : ∀ {s s' r}, userDequeue fuel s r = .ok s' → R s s')
    (hbucket : ∀ {s s' d i}, bucketDequeue fuel s d i = .ok s' → R s s') {v : ℕ} {s s' : State}
    {X : TcId} (h : visit fuel v s X = .ok s') : R s s' := by
  unfold visit at h
  split at h
  · unfold tokenCtrlActivate at h
    obtain ⟨t, -, h⟩ := bind_eq_ok.mp h
    have hfire : R s { s with t := t } := honly ⟨rfl, rfl, rfl, rfl⟩
    cases X with
    | user r =>
        obtain ⟨b, -, h⟩ := bind_eq_ok.mp h
        split at h
        · cases h
          exact hfire
        · exact htrans _ _ _ hfire (huser h)
    | bucket d i => exact htrans _ _ _ hfire (hbucket h)
  · cases h
    exact honly ⟨rfl, rfl, rfl, rfl⟩

/-- A call of the timer does what the loops of the entries do, one after the other. -/
theorem rel_timerFunc (htrans : ∀ s s' s'', R s s' → R s' s'' → R s s'')
    (honly : ∀ {s s'}, OnlyTimer s s' → R s s')
    (huser : ∀ {s s' r}, userDequeue fuel s r = .ok s' → R s s')
    (hbucket : ∀ {s s' d i}, bucketDequeue fuel s d i = .ok s' → R s s')
    {order : SlotOrder} {s s' : State} (h : timerFunc fuel order s = .ok s') :
    R s s' := by
  obtain ⟨s₁, h₁, h⟩ := bind_eq_ok.mp h
  have hfeed : R { s with q := { s.q with dq := .init } } s₁ := by
    refine rel_of_loopFuel htrans (fun s more s' hs => ?_) _ _ _ h₁
    unfold timerFeedBody at hs
    split at hs
    · obtain ⟨s₂, h₂, hs⟩ := bind_eq_ok.mp hs
      cases hs
      have hslot := rel_of_foldlM (fun _ => honly ⟨rfl, rfl, rfl, rfl⟩) htrans
        (fun _ _ _ => rel_visit htrans honly huser hbucket) _ _ _ h₂
      have hnext : R s { s with timerJiffies := s.timerJiffies + 1 } :=
        honly ⟨rfl, rfl, rfl, rfl⟩
      exact htrans _ _ _ hnext hslot
    · cases hs
      exact honly ⟨rfl, rfl, rfl, rfl⟩
  have hend : R s₁ s' := by
    obtain rfl | rfl := timerEnd_ok h
    · exact honly ⟨rfl, rfl, rfl, rfl⟩
    · exact honly ⟨rfl, rfl, rfl, rfl⟩
  have hstart : R s { s with q := { s.q with dq := .init } } := honly ⟨rfl, rfl, rfl, rfl⟩
  exact htrans _ _ _ (htrans _ _ _ hstart hfeed) hend

end Timer

/-- A timer tick keeps the tables. -/
theorem sameTracks_timerFunc {fuel : ℕ} {order : SlotOrder} {s s' : State}
    (h : timerFunc fuel order s = .ok s') : SameTracks s s' :=
  rel_timerFunc SameTracks.trans (fun h => ⟨h.tracks, h.cfg⟩) sameTracks_userDequeue
    sameTracks_bucketDequeue h

/-- Putting a packet into its flow keeps the tables. -/
theorem sameTracks_putPacket {s s' : State} {p : Packet} {attach : Bool}
    (h : putPacket s p attach = .ok s') : SameTracks s s' := by
  obtain ⟨q₁, h₁, h⟩ := bind_eq_ok.mp h
  obtain ⟨q₂, h₂, h⟩ := bind_eq_ok.mp h
  cases h
  have hput := (keepsTracks_flowBacklogEnqueue _ _ _ _).of_ok h₁
  have hcount := (keepsTracks_packetCtrlBacklogUpdate _ _ _ _).of_ok h₂
  exact ⟨hcount.trans hput, rfl⟩

/-- Queueing a packet keeps the tables. -/
theorem sameTracks_enqueue {fuel : ℕ} {s s' : State} {p : Packet} {v : EnqueueResult}
    (h : enqueue fuel s p = .ok (v, s')) : SameTracks s s' := by
  unfold enqueue at h
  split at h
  · cases h
    exact .refl _
  · obtain ⟨e, -, h⟩ := bind_eq_ok.mp h
    dsimp only at h
    split at h
    · obtain ⟨⟨o, t⟩, -, h⟩ := bind_eq_ok.mp h
      cases o with
      | none =>
          cases h
          exact ⟨rfl, rfl⟩
      | some i =>
          obtain ⟨q₁, h₁, h⟩ := bind_eq_ok.mp h
          obtain ⟨s₂, h₂, h⟩ := bind_eq_ok.mp h
          cases h
          have hattach := (keepsTracks_flowBacklogAttach _ _ _ _ _ _).of_ok h₁
          have hput := sameTracks_putPacket h₂
          exact ⟨hput.tracks.trans hattach, hput.cfg⟩
    · obtain ⟨q₁, h₁, h⟩ := bind_eq_ok.mp h
      have hdrop := (keepsTracks_flowBacklogDrop _ _ _ _ _).of_ok h₁
      split at h
      · cases h
        exact ⟨hdrop, rfl⟩
      · obtain ⟨s₂, h₂, h⟩ := bind_eq_ok.mp h
        cases h
        have hput := sameTracks_putPacket h₂
        exact ⟨hput.tracks.trans hdrop, hput.cfg⟩

/-- Freeing a user's schedulers takes their entries off the timer. -/
theorem userSchedCleanup_rest {s s' : State} {u : UserId} {d : Dir} {m : RuleMask}
    (h : userSchedCleanup s u d m = .ok s') : s'.q = s.q ∧ s'.cfg = s.cfg := by
  unfold userSchedCleanup at h
  obtain ⟨t, -, h⟩ := bind_eq_ok.mp h
  obtain ⟨-, -, h⟩ := bind_eq_ok.mp h
  obtain ⟨-, -, h⟩ := bind_eq_ok.mp h
  cases h
  exact ⟨rfl, rfl⟩

/-- A user that is freed leaves the list of users. -/
theorem onUserFree_ok {s s' : State} {u : UserId} (h : onUserFree s u = .ok s') :
    s' = s ∨ s'.q = { s.q with users := s.q.users.erase u } ∧ s'.cfg = s.cfg := by
  unfold onUserFree at h
  split at h
  · obtain ⟨s₁, h₁, h⟩ := bind_eq_ok.mp h
    obtain ⟨hq₁, hc₁⟩ := userSchedCleanup_rest h₁
    obtain ⟨hq₂, hc₂⟩ := userSchedCleanup_rest h
    exact .inr ⟨hq₂.trans hq₁, hc₂.trans hc₁⟩
  · cases h
    exact .inl rfl

/-- A flow that is freed is cleared. -/
theorem onFlowFree_ok {s s' : State} {f : FlowId} (h : onFlowFree s f = .ok s') :
    s' = s ∨ s' = { s with q := flowTrackClear s.q f } := by
  unfold onFlowFree at h
  split at h
  · obtain ⟨q₁, h₁, h⟩ := bind_eq_ok.mp h
    cases h
    unfold flowTrackCleanup at h₁
    obtain ⟨out, -, h₁⟩ := bind_eq_ok.mp h₁
    obtain ⟨-, -, h₁⟩ := bind_eq_ok.mp h₁
    obtain ⟨inn, -, h₁⟩ := bind_eq_ok.mp h₁
    obtain ⟨-, -, h₁⟩ := bind_eq_ok.mp h₁
    cases h₁
    exact .inr rfl
  · cases h
    exact .inl rfl

end Tbq
