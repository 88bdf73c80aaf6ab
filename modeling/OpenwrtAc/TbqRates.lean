/-
# The rate bound

Every token control in use behaves like a token bucket: charging it, firing it and the
passing of time are steps of the bucket, and what happens to other token controls leaves
it alone.  So the octets charged to it in any window of time are bounded.

The clock wraps.  A parked token control is less than `2 ^ 31` ticks ahead of the clock,
so the comparison of `tbq_timer_feed` never takes it for due too early.
-/
import OpenwrtAc.TbqRounds
import OpenwrtAc.TbqSafety
import OpenwrtAc.TokenBucket

open Outcome MachineInt ListSum

namespace Tbq

/-- The token control as a token bucket. -/
def ctrlBucket (t : TokenState) (X : TcId) : TokenBucket.Bucket where
  tokens := (t.tc X).tokens
  clock := (t.tc X).jiffies
  now := t.jiffies
  parked := decide (X ∈ t.pending)
  history := (t.charged.filter fun c => c.tc = X).map fun c => (c.time, c.len)

/-- The token control keeps its rate, and its expiry is near. -/
structure Paced (cfg : Config) (t : TokenState) (X : TcId) : Prop where
  ok : TokenBucket.Ok (cfg.rate X) cfg.HZ (ctrlBucket t X)
  near : (t.tc X).jiffies < t.jiffies + 2 ^ 31

/-- Every token control in use keeps its rate. -/
def RatesOk (cfg : Config) (users : List UserId) (t : TokenState) : Prop :=
  ∀ X, Live cfg users X → 0 < cfg.rate X → Paced cfg t X

/-- A token control that an operation does not touch. -/
theorem Paced.congr {cfg : Config} {t t' : TokenState} {X : TcId} (h : Paced cfg t X)
    (htc : t'.tc X = t.tc X) (hj : t'.jiffies = t.jiffies) (hp : X ∈ t'.pending ↔ X ∈ t.pending)
    (hc : t'.charged.filter (fun c => c.tc = X) = t.charged.filter fun c => c.tc = X) :
    Paced cfg t' X := by
  have heq : ctrlBucket t' X = ctrlBucket t X := by
    unfold ctrlBucket
    rw [htc, hj, hc, decide_eq_decide.mpr hp]
  refine ⟨by rw [heq]; exact h.ok, ?_⟩
  rw [htc, hj]
  exact h.near

/-! ## One charge -/

/-- The charged token control makes a step of its bucket. -/
theorem Paced.charge {cfg : Config} {users : List UserId} {t t' : TokenState} {X : TcId} {n : ℕ}
    (h : Paced cfg t X) (hok : TokensOk cfg users t) (hX : Live cfg users X) (hpos : 0 < cfg.rate X)
    (hnp : X ∉ t.pending) (hn : n < 2 ^ 30) (hrun : consumeOrDeactivate t X n = .ok t') :
    Paced cfg t' X := by
  have hch := consumeOrDeactivate_ok hrun
  have hctrl := hok.ctrl X hX hpos
  have hz : 12 ≤ t.HZ := by rw [hok.HZ]; exact cfg.hz_ge
  obtain ⟨b, hre, hpend⟩ := (consumeOrDeactivate_sat hz (hok.HZ ▸ hctrl) hnp hn).of_ok hrun
  have hactive : (ctrlBucket t X).parked = false := decide_eq_false hnp
  have hclock : (t.tc X).jiffies ≤ t.jiffies := h.ok.active hactive
  have hb : ctrlBucket t' X = ⟨(t'.tc X).tokens, (t'.tc X).jiffies, t.jiffies, b,
      (ctrlBucket t X).charge n⟩ := by
    have hparked : decide (X ∈ t'.pending) = b := by
      rw [hpend]
      cases b <;> simp [hnp]
    unfold ctrlBucket TokenBucket.Bucket.charge
    rw [hparked, hch.history, hch.frame.jiffies, List.filter_append, List.map_append]
    simp
  have hrate : (t.tc X).tokensPerJiffy = cfg.rate X := hok.rate X hX
  rw [hok.HZ] at hre
  have hjiffies := hch.frame.jiffies
  generalize t'.tc X = c at hre hb
  refine ⟨?_, ?_⟩
  · rw [hb]
    refine h.ok.step ?_
    cases hre with
    | kept h0 => exact .keep n hactive h0
    | fed k hneg hk hel h0 =>
        rw [hrate] at h0 ⊢
        refine .refill n k hactive hk ?_ hneg h0
        show k ≤ t.jiffies - (t.tc X).jiffies
        unfold u32 at hel
        omega
    | parked k hneg h0 hlt =>
        rw [hrate] at h0 hlt ⊢
        exact .park n k hactive h0 hlt
  · have hc : c.jiffies < t.jiffies + 2 ^ 31 := by
      cases hre with
      | kept h0 => exact h.near
      | fed k hneg hk hel h0 =>
          dsimp only
          omega
      | parked k hneg h0 hlt =>
          -- the debt is below `2 ^ 30` and paid at one token per tick at least
          have hnonneg := hctrl.nonneg
          rw [hrate] at h0 hlt
          have hk1 : 1 ≤ k := by
            by_contra hk0
            obtain rfl : k = 0 := by omega
            simp only [Nat.cast_zero, mul_zero] at h0
            omega
          have hk : (k : ℤ) - 1 ≤ cfg.rate X * (k - 1) := by
            have := mul_le_mul_of_nonneg_right (show 1 ≤ cfg.rate X by omega)
              (show 0 ≤ (k : ℤ) - 1 by omega)
            linarith
          have hmul : cfg.rate X * ((k : ℤ) - 1) = cfg.rate X * k - cfg.rate X := by ring
          dsimp only
          omega
    have hc' : (t'.tc X).jiffies < t'.jiffies + 2 ^ 31 := by
      have := congrArg TokenBucket.Bucket.clock hb
      have hcl : (t'.tc X).jiffies = c.jiffies := this
      rw [hcl, hjiffies]
      exact hc
    exact hc'

/-- A charge keeps every rate. -/
theorem RatesOk.chargeStep {cfg : Config} {users : List UserId} {t t' : TokenState}
    (h : RatesOk cfg users t) (hs : ChargeStep cfg users t t') : RatesOk cfg users t' := by
  obtain ⟨X, n, hok, hX, hnp, hn, hrun⟩ := hs
  have hch := consumeOrDeactivate_ok hrun
  intro Y hY hpos
  by_cases hYX : Y = X
  · subst hYX
    exact (h Y hY hpos).charge hok hY hpos hnp hn hrun
  · refine (h Y hY hpos).congr (hch.others Y hYX) hch.frame.jiffies ?_ ?_
    · rcases hch.parked with ⟨hp, -⟩ | ⟨hp, -⟩
      · rw [hp]
      · rw [hp, List.mem_append, List.mem_singleton]
        simp [hYX]
    · rw [hch.history, List.filter_append, List.filter_cons_of_neg (by simpa using fun e => hYX e.symm)]
      simp

theorem RatesOk.charges {cfg : Config} {users : List UserId} {t t' : TokenState}
    (h : RatesOk cfg users t) (hs : Charges cfg users t t') : RatesOk cfg users t' := by
  induction hs with
  | refl => exact h
  | tail _ hstep ih => exact ih.chargeStep hstep

/-! ## Firing, time, and users -/

/-- What is due as far as the clock can tell is due. -/
theorem Paced.due {cfg : Config} {t : TokenState} {X : TcId} (h : Paced cfg t X) (hdue : Due t X) :
    (t.tc X).jiffies ≤ t.jiffies := by
  have hnear := h.near
  by_contra hlt
  unfold Due at hdue
  rw [i32_of_range (by omega) (by omega)] at hdue
  omega

theorem RatesOk.fired {cfg : Config} {users : List UserId} {t t' : TokenState} {X : TcId}
    (h : RatesOk cfg users t) (hok : t.PendingOk) (hdue : Due t X) (hf : Fired t X t') :
    RatesOk cfg users t' := by
  intro Y hY hpos
  have hp := h Y hY hpos
  by_cases hYX : Y = X
  · subst hYX
    refine ⟨?_, ?_⟩
    · have hb : ctrlBucket t' Y = { ctrlBucket t Y with parked := false } := by
        have hoff : Y ∉ t'.pending := fun hm => ((hf.mem_pending hok).mp hm).1 rfl
        unfold ctrlBucket
        rw [hf.tc, hf.charged, hf.frame.jiffies, decide_eq_false hoff]
      rw [hb]
      exact hp.ok.step (.wake (decide_eq_true hf.wasPending) (hp.due hdue))
    · rw [hf.tc, hf.frame.jiffies]
      exact hp.near
  · refine hp.congr (by rw [hf.tc]) hf.frame.jiffies ?_ (by rw [hf.charged])
    rw [hf.mem_pending hok]
    simp [hYX]

theorem RatesOk.elapse {cfg : Config} {users : List UserId} {t : TokenState}
    (h : RatesOk cfg users t) (n : ℕ) : RatesOk cfg users { t with jiffies := t.jiffies + n } := by
  intro X hX hpos
  have hp := h X hX hpos
  have hnear := hp.near
  refine ⟨hp.ok.step (.elapse n), ?_⟩
  dsimp only
  omega

/-- A new user starts with new token controls. -/
theorem RatesOk.alloc {s : State} (h : RatesOk s.cfg s.q.users s.t) (u : UserId) :
    RatesOk s.cfg (s.q.users ++ [u]) (userTrackTokens s u) := by
  intro X hX hpos
  -- the history of another control does not change when that of the user is cleared
  have hother : X.ofUser u = false → Live s.cfg s.q.users X → Paced s.cfg (userTrackTokens s u) X := by
    intro hne hlive
    refine (h X hlive hpos).congr ?_ rfl Iff.rfl ?_
    · cases X with
      | bucket d i => rfl
      | user r =>
          have hne : r.u ≠ u := by simpa [TcId.ofUser] using hne
          simp [userTrackTokens, hne]
    · show (s.t.charged.filter _).filter _ = _
      rw [List.filter_filter]
      apply List.filter_congr
      intro c _
      by_cases hc : c.tc = X
      · simp [hc, hne]
      · simp [hc]
  cases X with
  | bucket d i => exact hother rfl hX
  | user r =>
      by_cases hru : r.u = u
      · -- a control of the user starts now, without tokens
        have htc : (userTrackTokens s u).tc (.user r) = ⟨0, s.t.jiffies, s.cfg.rate (.user r)⟩ := by
          have hi := hX.2
          rw [hru] at hi
          simp [userTrackTokens, hru, hi]
        have hhist : (ctrlBucket (userTrackTokens s u) (.user r)).history = [] := by
          show ((s.t.charged.filter _).filter _).map _ = _
          rw [List.filter_filter, List.map_eq_nil_iff, List.filter_eq_nil_iff]
          intro c _
          by_cases hc : c.tc = .user r
          · simp [hc, TcId.ofUser, hru]
          · simp [hc]
        refine ⟨TokenBucket.Ok.fresh hpos ?_ hhist ?_ ?_ ?_, ?_⟩
        · have := s.cfg.hz_ge
          omega
        · show 0 ≤ ((userTrackTokens s u).tc (.user r)).tokens
          rw [htc]
        · show ((userTrackTokens s u).tc (.user r)).tokens ≤ _
          rw [htc]
          exact mul_nonneg hpos.le (Int.natCast_nonneg _)
        · show ((userTrackTokens s u).tc (.user r)).jiffies ≤ s.t.jiffies
          rw [htc]
        · rw [htc]
          show s.t.jiffies < s.t.jiffies + 2 ^ 31
          omega
      · refine hother (by simp [TcId.ofUser, hru]) ⟨?_, hX.2⟩
        have := hX.1
        rw [List.mem_append, List.mem_singleton] at this
        exact this.resolve_right hru

/-- The other users do not notice that a user is gone. -/
theorem RatesOk.free {cfg : Config} {users : List UserId} {t : TokenState}
    (h : RatesOk cfg users t) (hn : users.Nodup) (u : UserId) :
    RatesOk cfg (users.erase u) (userCleared t u) := by
  intro X hX hpos
  have hne : X.ofUser u = false ∧ Live cfg users X := by
    cases X with
    | bucket d i => exact ⟨rfl, hX⟩
    | user r =>
        have hr := hn.mem_erase_iff.mp hX.1
        exact ⟨by simp [TcId.ofUser, hr.1], hr.2, hX.2⟩
  refine (h X hne.2 hpos).congr rfl rfl ?_ rfl
  rw [userCleared_pending, List.mem_filter, hne.1]
  simp

theorem RatesOk.trackStep {s s' : State} (h : RatesOk s.cfg s.q.users s.t) (hs : TrackStep s s') :
    RatesOk s'.cfg s'.q.users s'.t := by
  cases hs with
  | alloc _ => exact h.alloc _
  | init _ _ => exact h
  | classify _ _ => exact h

theorem RatesOk.trackSteps {s s' : State} (h : RatesOk s.cfg s.q.users s.t)
    (hs : Relation.ReflTransGen TrackStep s s') : RatesOk s'.cfg s'.q.users s'.t := by
  induction hs with
  | refl => exact h
  | tail _ hstep ih => exact ih.trackStep hstep

/-! ## Whole runs -/

theorem trackSteps_cfg {s s₁ : State} (h : Relation.ReflTransGen TrackStep s s₁) :
    s₁.cfg = s.cfg := by
  induction h with
  | refl => rfl
  | tail _ hstep ih => cases hstep <;> exact ih

/-- A call keeps every rate. -/
theorem Idle.step_rates {cfg : Config} {s s' : State} (hi : Idle False cfg s) {fuel : ℕ} {e : Event}
    (hno : ∀ order, e ≠ .tick order) (hadm : Admissible s e) (h : RatesOk s.cfg s.q.users s.t)
    (hs : step fuel s e = .ok s') : RatesOk s'.cfg s'.q.users s'.t := by
  have hcfg : s'.cfg = s.cfg := by
    have := (hi.step_sat fuel hadm fun hb => hb.elim).of_ok hs
    rw [this.inv.cfg_eq, hi.inv.cfg_eq]
  cases hi.step_effect hno hadm hs with
  | filter htrack hch hq _ =>
      have h₂ := h.trackSteps htrack
      rw [trackSteps_cfg htrack] at h₂
      rw [hcfg, hq]
      exact h₂.charges (hi.inv.cfg_eq ▸ hch)
  | enqueue _ _ hch henq =>
      rw [hcfg, henq.users]
      exact h.charges (hi.inv.cfg_eq ▸ hch)
  | elapse n => exact h.elapse n
  | userFree _ _ => exact h.free hi.inv.base.acct.usersNodup _
  | flowFree _ _ => exact h
  | status _ _ _ => exact h

/-- Every round keeps every rate. -/
theorem Round.rates {cfg : Config} {P : State → Event → Prop} {ph ph' : Phase} {s s' : State}
    (hr : Round P ph s ph' s') (hi : PhaseInv cfg ph s) (h : RatesOk s.cfg s.q.users s.t) :
    RatesOk s'.cfg s'.q.users s'.t := by
  cases hr with
  | call hno hadm _ hs => exact Idle.step_rates hi hno hadm h hs
  | start => exact h
  | slot n => exact h
  | fire hX hdue ht => exact h.fired hi.1.base.tokens.pendingOk hdue (fire_ok ht)
  | serve _ htc hnu hnb hs =>
      obtain ⟨hch, o, htried⟩ := hi.1.base.tried htc hnu hnb hs
      have hcfg := (tryDequeue_drained hs).cfg
      rw [hcfg, htried.users.1]
      exact h.charges hch
  | attach _ _ _ => rwa [← (sameRest_link s.q (.user _) _).users] at h
  | detach _ => rwa [← (sameRest_unlink s.q (.user _)).users] at h
  | leave _ => exact h
  | finish hs =>
      obtain rfl | rfl := timerEnd_ok hs
      · exact h
      · exact h

theorem initState_rates (cfg : Config) (now : ℕ) :
    RatesOk cfg (initState cfg now).q.users (initState cfg now).t := by
  intro X hX hpos
  cases X with
  | user r => cases hX.1
  | bucket d i =>
      have hi : i.val < cfg.rules.length := hX
      have htc : (initState cfg now).t.tc (.bucket d i) = ⟨0, now, cfg.rate (.bucket d i)⟩ := by
        simp [initState, hi]
      refine ⟨TokenBucket.Ok.fresh hpos ?_ rfl ?_ ?_ ?_, ?_⟩
      · have := cfg.hz_ge
        omega
      · show 0 ≤ ((initState cfg now).t.tc (.bucket d i)).tokens
        rw [htc]
      · show ((initState cfg now).t.tc (.bucket d i)).tokens ≤ _
        rw [htc]
        exact mul_nonneg hpos.le (Int.natCast_nonneg _)
      · show ((initState cfg now).t.tc (.bucket d i)).jiffies ≤ now
        rw [htc]
      · rw [htc]
        show now < now + 2 ^ 31
        omega

/-- Every token control in use keeps its rate, after every round of every run. -/
theorem Reaches.rates {P : State → Event → Prop} {cfg : Config} {now : ℕ} {ph : Phase} {s : State}
    (h : Reaches P (initState cfg now) ph s) : RatesOk cfg s.q.users s.t := by
  have hall : RatesOk s.cfg s.q.users s.t :=
    Reaches.invariant (J := fun s => RatesOk s.cfg s.q.users s.t) (initState_rates cfg now)
      (fun _ _ _ _ hi hJ hr => hr.rates hi hJ) h
  rwa [h.inv.base.2] at hall

/-! ## The bound -/

/-- The octets charged to the token control `X` from `t₀` to `t₁`. -/
def chargedTo (l : List Charge) (X : TcId) (t₀ t₁ : ℕ) : ℕ :=
  total l fun c => if c.tc = X ∧ t₀ ≤ c.time ∧ c.time ≤ t₁ then c.len else 0

/-- The largest packet charged to the token control `X` from `t₀` to `t₁`. -/
def largestTo (l : List Charge) (X : TcId) (t₀ t₁ : ℕ) : ℕ :=
  l.foldr (fun c m => if c.tc = X ∧ t₀ ≤ c.time ∧ c.time ≤ t₁ then max c.len m else m) 0

theorem chargedIn_history (t : TokenState) (X : TcId) (t₀ t₁ : ℕ) :
    TokenBucket.chargedIn (ctrlBucket t X).history t₀ t₁ = chargedTo t.charged X t₀ t₁ := by
  unfold ctrlBucket TokenBucket.chargedIn chargedTo
  dsimp only
  induction t.charged with
  | nil => rfl
  | cons c l ih =>
      by_cases hc : c.tc = X
      · rw [List.filter_cons_of_pos (by simpa using hc), List.map_cons, total_cons, total_cons, ih]
        simp [hc]
      · rw [List.filter_cons_of_neg (by simpa using hc), total_cons, ih]
        simp [hc]

theorem largestIn_history (t : TokenState) (X : TcId) (t₀ t₁ : ℕ) :
    TokenBucket.largestIn (ctrlBucket t X).history t₀ t₁ = largestTo t.charged X t₀ t₁ := by
  unfold ctrlBucket TokenBucket.largestIn largestTo
  dsimp only
  induction t.charged with
  | nil => rfl
  | cons c l ih =>
      by_cases hc : c.tc = X
      · rw [List.filter_cons_of_pos (by simpa using hc), List.map_cons, List.foldr_cons,
          List.foldr_cons, ih]
        simp [hc]
      · rw [List.filter_cons_of_neg (by simpa using hc), List.foldr_cons, ih]
        simp [hc]

/-- In every run the octets charged to a token control in any window of time are bounded by
its rate, two seconds of its rate and one packet; an admitted packet is charged in full to
the bucket and the user entry of every rule of its mask, and a pending one to none. -/
theorem charges_bounded_by_rate {P : State → Event → Prop} {cfg : Config} {now : ℕ} {ph : Phase}
    {s : State} (h : Reaches P (initState cfg now) ph s) :
    (∀ X, Live cfg s.q.users X → 0 < (s.t.tc X).tokensPerJiffy → ∀ t₀ t₁, t₀ ≤ t₁ →
      (chargedTo s.t.charged X t₀ t₁ : ℤ) ≤ (s.t.tc X).tokensPerJiffy * (t₁ - t₀)
        + 2 * (s.t.tc X).tokensPerJiffy * cfg.HZ + (s.t.tc X).tokensPerJiffy
        + largestTo s.t.charged X t₀ t₁)
    ∧ ∀ p o t', packetCtrlConsume s.t p = .ok (o, t') →
        (o = none → t'.charged = s.t.charged ++ ruleCharges p s.t.jiffies p.ruleMask.bits)
        ∧ (o ≠ none → t' = s.t) := by
  obtain ⟨hbase, hcfg⟩ := h.inv.base
  refine ⟨fun X hX hpos t₀ t₁ ht => ?_, fun p o t' hrun => ?_⟩
  · have hrate : (s.t.tc X).tokensPerJiffy = cfg.rate X := by
      have := hbase.tokens.rate X (hcfg ▸ hX)
      rwa [hcfg] at this
    rw [hrate] at hpos ⊢
    have hw := (h.rates X hX hpos).ok.window t₀ t₁ ht
    rw [chargedIn_history, largestIn_history] at hw
    linarith
  · rcases packetCtrlConsume_ok hrun with ⟨i, rfl, rfl, -⟩ | ⟨rfl, -, hhist, -⟩
    · exact ⟨fun e => absurd e (by simp), fun _ => rfl⟩
    · exact ⟨fun _ => hhist, fun e => absurd rfl e⟩

theorem charges_bounded_by_rate_slowRun :
    ∃ s, Reaches (Below (2 ^ 31)) (initState slowConfig 0) .idle s
      ∧ chargedTo s.t.charged (.bucket 0 0) 0 0 = 1500
      ∧ (chargedTo s.t.charged (.bucket 0 0) 0 0 : ℤ)
        ≤ 1000 * (0 - 0) + 2 * 1000 * 12 + 1000 + largestTo s.t.charged (.bucket 0 0) 0 0 := by
  obtain ⟨s, hs, hp⟩ := reach_of_play (B := 2 ^ 31) (c := slowConfig) (l := slowRun)
    (p := fun s => decide (chargedTo s.t.charged (.bucket 0 0) 0 0 = 1500
      ∧ (s.t.tc (.bucket 0 0)).tokensPerJiffy = 1000)) (by decide +kernel)
  obtain ⟨h₁, h₂⟩ := of_decide_eq_true hp
  have hlive : Live slowConfig s.q.users (.bucket 0 0) := by
    show 0 < slowConfig.rules.length
    decide
  have hb := (charges_bounded_by_rate hs.reaches).1 (.bucket 0 0) hlive (by rw [h₂]; decide) 0 0
    (le_refl 0)
  rw [h₂] at hb
  exact ⟨s, hs.reaches, h₁, hb⟩

end Tbq
