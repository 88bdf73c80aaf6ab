/-
# Removing a user

`tbq_on_user_free` takes the pending token controls of the user off the timer and then
asserts that nothing is left.  A user can be freed in debt: its last packet may have
parked any number of its token controls.
-/
import OpenwrtAc.TbqTrack

open Outcome MachineInt ListSum

namespace Tbq

/-- The token control is an entry of user `u` in direction `d`. -/
def TcId.ofSched (u : UserId) (d : Dir) : TcId → Bool
  | .user r => decide (r.u = u ∧ r.d = d)
  | .bucket _ _ => false

/-- The timer and the masks after the walk of `tbq_user_sched_cleanup`. -/
def schedCleared (t : TokenState) (u : UserId) (d : Dir) : TokenState :=
  { t with
    pending := t.pending.filter fun X => !X.ofSched u d
    nrPending := t.nrPending - (t.pending.filter fun X => X.ofSched u d).length
    userInactive := Function.update t.userInactive u (Function.update (t.userInactive u) d 0#32) }

/-! ## The walk over the inactive entries -/

theorem has_foldl_clr (l : List RuleIdx) (m : RuleMask) (i : RuleIdx) :
    (l.foldl RuleMask.clr m).has i = true ↔ m.has i = true ∧ i ∉ l := by
  induction l generalizing m with
  | nil => simp
  | cons j l ih =>
      rw [List.foldl_cons, ih, RuleMask.has_clr]
      by_cases hij : i = j
      · simp [hij]
      · simp [hij]

/-- The walk over the entries in `l`, all of them pending and without debt. -/
theorem foldlM_timerDel (u : UserId) (d : Dir) (l : List RuleIdx) (hl : l.Nodup) (t : TokenState)
    (hp : t.pending.Nodup) (hmem : ∀ i ∈ l, TcId.user ⟨u, d, i⟩ ∈ t.pending)
    (htok : ∀ i ∈ l, 0 ≤ (t.tc (.user ⟨u, d, i⟩)).tokens) :
    l.foldlM (fun t i => do
        let t ← timerDel t (.user ⟨u, d, i⟩)
        return t.clrInactive (.user ⟨u, d, i⟩)) t
      = .ok { t with
          pending := t.pending.filter fun X => X ∉ l.map fun i => TcId.user ⟨u, d, i⟩
          nrPending := t.nrPending - l.length
          userInactive := Function.update t.userInactive u
            (Function.update (t.userInactive u) d (l.foldl RuleMask.clr (t.userInactive u d))) } := by
  induction l generalizing t with
  | nil => simp [Function.update_eq_self]
  | cons i l ih =>
      obtain ⟨hil, hl⟩ := List.nodup_cons.mp hl
      have hne : ∀ j ∈ l, TcId.user ⟨u, d, j⟩ ≠ .user ⟨u, d, i⟩ := by
        intro j hj e
        cases e
        exact hil hj
      have hdel : timerDel t (.user ⟨u, d, i⟩) = .ok { t with
          pending := t.pending.erase (.user ⟨u, d, i⟩), nrPending := t.nrPending - 1 } := by
        unfold timerDel
        rw [stopIf_of_not (not_lt.mpr (htok i List.mem_cons_self)),
          stopIf_of_not (not_not.mpr (hmem i List.mem_cons_self))]
        rfl
      rw [List.foldlM_cons, hdel]
      refine (ih hl _ (hp.erase _) (fun j hj => ?_) (fun j hj => ?_)).trans ?_
      · exact (List.mem_erase_of_ne (hne j hj)).mpr (hmem j (List.mem_cons_of_mem i hj))
      · exact htok j (List.mem_cons_of_mem i hj)
      · congr 1
        simp only [TokenState.clrInactive, TokenState.mapInactive, Function.update_self,
          Function.update_idem, List.foldl_cons, TokenState.mk.injEq, true_and, and_true]
        refine ⟨?_, ?_⟩
        · rw [hp.erase_eq_filter, List.filter_filter]
          apply List.filter_congr
          intro X _
          by_cases hX : X = .user ⟨u, d, i⟩ <;> simp [hX]
        · rw [List.length_cons]
          omega

/-- The inactive mask of a user has the rules whose entry is on the timer. -/
theorem TokensOk.mem_userInactive {cfg : Config} {users : List UserId} {t : TokenState}
    (h : TokensOk cfg users t) {u : UserId} {d : Dir} (i : RuleIdx) :
    i ∈ (t.userInactive u d).bits ↔ TcId.user ⟨u, d, i⟩ ∈ t.pending := by
  rw [RuleMask.mem_bits, h.pendingOk.mask]
  rfl

/-- Of the entries on the timer, those of the mask are those of the user in this direction. -/
theorem TokensOk.mem_map_user {cfg : Config} {users : List UserId} {t : TokenState}
    (h : TokensOk cfg users t) {u : UserId} {d : Dir} {X : TcId} (hX : X ∈ t.pending) :
    X ∈ (t.userInactive u d).bits.map (fun i => TcId.user ⟨u, d, i⟩) ↔ X.ofSched u d = true := by
  cases X with
  | bucket d' i => simp [TcId.ofSched]
  | user r =>
      obtain ⟨v, e, i⟩ := r
      simp only [List.mem_map, TcId.ofSched, decide_eq_true_eq]
      constructor
      · rintro ⟨j, -, hj⟩
        cases hj
        exact ⟨rfl, rfl⟩
      · rintro ⟨rfl, rfl⟩
        exact ⟨i, (h.mem_userInactive i).mpr hX, rfl⟩

theorem TokensOk.length_ofSched {cfg : Config} {users : List UserId} {t : TokenState}
    (h : TokensOk cfg users t) (u : UserId) (d : Dir) :
    (t.pending.filter fun X => X.ofSched u d).length = (t.userInactive u d).bits.length := by
  have hperm : ((t.userInactive u d).bits.map fun i => TcId.user ⟨u, d, i⟩).Perm
      (t.pending.filter fun X => X.ofSched u d) := by
    refine (List.perm_ext_iff_of_nodup ?_ (h.pendingOk.nodup.filter _)).mpr fun X => ?_
    · refine (RuleMask.nodup_bits _).map ?_
      intro i j hij
      cases hij
      rfl
    · rw [List.mem_filter]
      constructor
      · intro hX
        obtain ⟨i, hi, rfl⟩ := List.mem_map.mp hX
        exact ⟨(h.mem_userInactive i).mp hi, by simp [TcId.ofSched]⟩
      · rintro ⟨hX, hs⟩
        exact (h.mem_map_user hX).mpr hs
  rw [← hperm.length_eq, List.length_map]

/-- The walk of `tbq_user_sched_cleanup` takes exactly the entries of the user in this
direction off the timer. -/
theorem schedCleared_eq {cfg : Config} {users : List UserId} {t : TokenState}
    (h : TokensOk cfg users t) (u : UserId) (d : Dir) :
    (t.userInactive u d).bits.foldlM (fun t i => do
        let t ← timerDel t (.user ⟨u, d, i⟩)
        return t.clrInactive (.user ⟨u, d, i⟩)) t = .ok (schedCleared t u d) := by
  rw [foldlM_timerDel u d _ (RuleMask.nodup_bits _) t h.pendingOk.nodup
    (fun i hi => (h.mem_userInactive i).mp hi) (fun i hi => h.pending_nonneg ((h.mem_userInactive i).mp hi))]
  unfold schedCleared
  have hzero : (t.userInactive u d).bits.foldl RuleMask.clr (t.userInactive u d) = 0#32 := by
    apply RuleMask.eq_zero_iff.mpr
    intro i
    rw [← Bool.not_eq_true, has_foldl_clr]
    simp
  have hfilter : (t.pending.filter fun X =>
      X ∉ (t.userInactive u d).bits.map fun i => TcId.user ⟨u, d, i⟩)
        = t.pending.filter fun X => !X.ofSched u d := by
    apply List.filter_congr
    intro X hX
    have := h.mem_map_user (u := u) (d := d) hX
    by_cases hs : X.ofSched u d = true
    · simp only [this.mpr hs, hs]
      simp
    · simp only [mt this.mp hs, hs]
      simp
  rw [hzero, hfilter, h.length_ofSched]

/-- Taking the entries of one direction off the timer keeps the token side in order. -/
theorem schedCleared_ok {cfg : Config} {users : List UserId} {t : TokenState}
    (h : TokensOk cfg users t) (u : UserId) (d : Dir) :
    TokensOk cfg users (schedCleared t u d) := by
  refine ⟨h.HZ, h.nrRule, ⟨h.pendingOk.nodup.filter _, ?_, fun X => ?_⟩,
    fun X hX => h.live X (List.mem_of_mem_filter hX), h.rate, h.ctrl, h.nonneg⟩
  · have := List.length_eq_length_filter_add (l := t.pending) fun X => X.ofSched u d
    show t.nrPending - (t.pending.filter fun X => X.ofSched u d).length
      = (t.pending.filter fun X => !X.ofSched u d).length
    rw [h.pendingOk.count]
    omega
  · show X ∈ t.pending.filter (fun X => !X.ofSched u d) ↔ _
    rw [List.mem_filter, h.pendingOk.mask]
    cases X with
    | bucket d' i => simp [TcId.ofSched, TokenState.inactive, schedCleared]
    | user r =>
        by_cases hu : r.u = u
        · by_cases hd : r.d = d
          · simp [TcId.ofSched, TokenState.inactive, schedCleared, hu, hd]
          · simp [TcId.ofSched, TokenState.inactive, schedCleared, hu, hd]
        · simp [TcId.ofSched, TokenState.inactive, schedCleared, hu]

/-! ## The assertions -/

theorem userCleanup_eq {s : State} {r : UserRef} (ha : Acct s.q)
    (hidle : ∀ f, f.user = r.u → ¬ Holding s.q f) {s' : State} (hp : TcId.user r ∉ s'.t.pending)
    (hunit : s'.q.unit = s.q.unit) (hbl : s'.q.bl = s.q.bl) : userCleanup s' r = .ok () := by
  obtain ⟨htc, hoct, hb⟩ := ha.idle_user hidle
  have hl : (s.q.unit (.user r)).linked = false := by
    rw [ha.links.linked, htc]
    rfl
  unfold userCleanup tokenCtrlAssertUnused backlogEmpty
  dsimp only
  rw [hunit, hbl, hb, hl, htc, hoct, stopIf_of_not hp]
  rfl

/-- `tbq_user_sched_cleanup` of an idle user. -/
theorem userSchedCleanup_eq {s₀ s : State} {u : UserId} (d : Dir) (m : RuleMask)
    {cfg : Config} {users : List UserId} (ha : Acct s₀.q)
    (hidle : ∀ f, f.user = u → ¬ Holding s₀.q f) (htok : TokensOk cfg users s.t)
    (hunit : s.q.unit = s₀.q.unit) (hbl : s.q.bl = s₀.q.bl) :
    userSchedCleanup s u d m = .ok { s with t := schedCleared s.t u d } := by
  have hclean : ∀ l : List RuleIdx,
      l.forM (fun i => userCleanup { s with t := schedCleared s.t u d } ⟨u, d, i⟩) = .ok () := by
    intro l
    induction l with
    | nil => rfl
    | cons i l ih =>
        have hoff : TcId.user ⟨u, d, i⟩ ∉ (schedCleared s.t u d).pending := by
          intro hmem
          have := (List.mem_filter.mp hmem).2
          simp [TcId.ofSched] at this
        have hone : userCleanup { s with t := schedCleared s.t u d } ⟨u, d, i⟩ = .ok () :=
          userCleanup_eq ha hidle hoff hunit hbl
        rw [List.forM_eq_forM, List.forM_cons, hone]
        exact ih
  unfold userSchedCleanup
  rw [schedCleared_eq htok u d]
  have hmask : (schedCleared s.t u d).userInactive u d = 0#32 := by
    simp [schedCleared]
  simp only [bind_eq_ok, pure_eq_ok, Except.ok.injEq, exists_eq_left', stopIf_eq_ok, hmask]
  exact ⟨(), by simp, (), hclean m.bits, trivial⟩

/-- The token side without the user `u`. -/
def userCleared (t : TokenState) (u : UserId) : TokenState :=
  schedCleared (schedCleared t u 0) u 1

/-- The scheduler without the user `u`. -/
def userFreed (s : State) (u : UserId) : State :=
  { s with t := userCleared s.t u, q := { s.q with users := s.q.users.erase u } }

/-- `tbq_on_user_free` of a user whose flows hold nothing runs through. -/
theorem onUserFree_eq {s : State} {u : UserId} (h : Base s) (hu : u ∈ s.q.users)
    (hidle : ∀ f, f.user = u → ¬ Holding s.q f) : onUserFree s u = .ok (userFreed s u) := by
  unfold onUserFree userTrackFree
  rw [if_pos hu]
  have h₀ : userSchedCleanup { s with q := { s.q with users := s.q.users.erase u } } u 0 _ = _ :=
    userSchedCleanup_eq 0 (s.q.userMask u) h.acct hidle h.tokens rfl rfl
  have h₁ : userSchedCleanup { s with
      t := schedCleared s.t u 0, q := { s.q with users := s.q.users.erase u } } u 1 _ = _ :=
    userSchedCleanup_eq 1 (s.q.userMask u) h.acct hidle (schedCleared_ok h.tokens u 0) rfl rfl
  dsimp only
  rw [h₀]
  exact h₁

/-! ## What is left -/

theorem ofUser_iff (u : UserId) (X : TcId) :
    X.ofUser u = (X.ofSched u 0 || X.ofSched u 1) := by
  cases X with
  | bucket d i => rfl
  | user r =>
      by_cases hu : r.u = u
      · rcases dir_cases r.d with hd | hd <;> simp [TcId.ofUser, TcId.ofSched, hu, hd]
      · simp [TcId.ofUser, TcId.ofSched, hu]

theorem userCleared_pending (t : TokenState) (u : UserId) :
    (userCleared t u).pending = t.pending.filter fun X => !X.ofUser u := by
  show (t.pending.filter fun X => !X.ofSched u 0).filter (fun X => !X.ofSched u 1) = _
  rw [List.filter_filter]
  apply List.filter_congr
  intro X _
  rw [ofUser_iff, Bool.not_or, Bool.and_comm]

/-- The masks of the buckets and of all other users are untouched. -/
theorem userCleared_inactive {cfg : Config} {users : List UserId} {t : TokenState}
    (h : TokensOk cfg users t) (u : UserId) (X : TcId) :
    (userCleared t u).inactive X = (t.inactive X && !X.ofUser u) := by
  have hok := schedCleared_ok (schedCleared_ok h u 0) u 1
  have hmask : X ∈ (userCleared t u).pending ↔ (userCleared t u).inactive X = true :=
    hok.pendingOk.mask X
  rw [userCleared_pending, List.mem_filter, h.pendingOk.mask] at hmask
  rw [Bool.eq_iff_iff, ← hmask, Bool.and_eq_true]

/-- Removing an idle user keeps the invariant. -/
theorem Inv.freeUser {b : Prop} {cfg : Config} {s : State} (h : Inv b cfg none s) {u : UserId}
    (hidle : ∀ f, f.user = u → ¬ s.Holds f) : Inv b cfg none (userFreed s u) := by
  have hacct := h.base.acct
  have hne : ∀ f, Holding s.q f → f.user ≠ u := fun f hf e => hidle f e (.inl hf)
  have hq : Quiet s.q (userFreed s u).q := by
    refine ⟨⟨fun _ => rfl, fun _ => rfl, fun _ => rfl⟩, fun _ => rfl, fun _ => rfl, fun _ => rfl,
      fun _ _ => rfl, hacct.flowsNodup, hacct.usersNodup.erase u,
      fun f ⟨d, hd⟩ => hacct.tracked f d (.inr hd), fun f hf => ?_, fun _ _ _ => rfl,
      fun _ _ => rfl, fun _ _ => rfl, rfl, rfl⟩
    obtain ⟨d, hd⟩ := hf
    exact (List.mem_erase_of_ne (hne f ⟨d, hd⟩)).mpr (hacct.userTracked f d (.inr hd))
  have hok := schedCleared_ok (schedCleared_ok h.base.tokens u 0) u 1
  have hlive : ∀ X, Live s.cfg (s.q.users.erase u) X → Live s.cfg s.q.users X := by
    intro X hX
    cases X with
    | bucket d i => exact hX
    | user r => exact ⟨List.mem_of_mem_erase hX.1, hX.2⟩
  refine h.quiet hq rfl ⟨fun v hv => ?_, fun r hr hi => ?_, h.base.classes.flowRule⟩
    ⟨hok.HZ, hok.nrRule, hok.pendingOk, fun X hX => ?_, fun X hX => hok.rate X (hlive X hX),
      fun X hX => hok.ctrl X (hlive X hX), hok.nonneg⟩ (fun p hp => ?_) (fun hb => ?_)
  · exact h.base.classes.userMask v (List.mem_of_mem_erase hv)
  · exact h.base.classes.userWeight r (List.mem_of_mem_erase hr) hi
  · have hX : X ∈ (userCleared s.t u).pending := hX
    rw [userCleared_pending, List.mem_filter] at hX
    obtain ⟨hl, hpos⟩ := h.base.tokens.live X hX.1
    refine ⟨?_, hpos⟩
    cases X with
    | bucket d i => exact hl
    | user r =>
        have hru : r.u ≠ u := by simpa [TcId.ofUser] using hX.2
        exact ⟨(List.mem_erase_of_ne hru).mpr hl.1, hl.2⟩
  · obtain ⟨h₁, h₂, h₃⟩ := h.base.inflight p hp
    exact ⟨h₁, (List.mem_erase_of_ne fun e => hidle p.flow e (.inr ⟨p, hp, rfl⟩)).mpr h₂, h₃⟩
  · -- nothing that waits waits for the user that is gone
    have hkeep : ∀ X, X ∈ s.t.pending → X.ofUser u = false →
        X ∈ (userCleared s.t u).pending := by
      intro X hX hu
      rw [userCleared_pending, List.mem_filter]
      exact ⟨hX, by rw [hu]; rfl⟩
    refine ⟨fun f d r hr => ?_, fun r hr => ?_⟩
    · obtain ⟨-, -, hru, -⟩ := hacct.attached_tracked hr
      have hfu : f.user ≠ u := hne f ⟨d, hacct.busy f d (by
        have : (s.q.unit (.flow f d)).tc = some (.user r) := hr
        rw [this]; simp)⟩
      rcases (h.served hb).flow f d r hr with hp | hw | hat
      · exact .inl (hkeep _ hp (by simp [TcId.ofUser, hru, hfu]))
      · cases hw
      · exact .inr (.inr hat)
    · rcases (h.served hb).user r hr with hp | hw
      · exact .inl (hkeep _ hp rfl)
      · cases hw

end Tbq
