/-
# Token controls and the timer

The token side of `drivers/tbq/src/tbq_core.c`: spending tokens
(`tbq_token_ctrl_consume`), the lazy refill (`tbq_token_ctrl_feed`), running into
debt and waiting on the timer (`tbq_token_ctrl_deactivate`, `tbq_timer_mod`,
`tbq_timer_del`), and the charge of a packet to every rule of its mask
(`tbq_user_consume`, `tbq_packet_ctrl_consume`).

The timer wheel is taken as the list of pending token controls; a token control
keeps its expiry in its own `jiffies`.  The clock is kept unwrapped: wherever the
code subtracts or compares two `unsigned long` times, the difference is reduced
modulo `2 ^ 32`.  `charged` is a history of every `tc->tokens -= pkt_len` on a token
control, which the code does not keep.
-/
import OpenwrtAc.TbqTypes
import Mathlib.Data.List.Basic
import Mathlib.Tactic.Ring
import Mathlib.Tactic.Linarith

open Outcome MachineInt

namespace Tbq

/-- `struct tbq_token_ctrl`, without its backlog. -/
structure TokenCtrl where
  tokens : ℤ
  jiffies : ℕ
  tokensPerJiffy : ℤ
  deriving DecidableEq, Repr

/-- One `tc->tokens -= pkt_len`: which token control, when, how much. -/
structure Charge where
  tc : TcId
  time : ℕ
  len : ℕ
  deriving DecidableEq, Repr

/-- The token controls of all buckets and users, the masks of inactive rules, and
the timer. -/
structure TokenState where
  HZ : ℕ
  nrRule : ℕ
  jiffies : ℕ
  tc : TcId → TokenCtrl
  bucketInactive : Dir → RuleMask
  userInactive : UserId → Dir → RuleMask
  pending : List TcId
  nrPending : ℕ
  charged : List Charge

namespace TokenState

/-- Replace one token control. -/
def setTc (t : TokenState) (X : TcId) (c : TokenCtrl) : TokenState :=
  { t with tc := Function.update t.tc X c }

/-- The bit of the token control in the `inactive_mask` of its scheduler. -/
def inactive (t : TokenState) : TcId → Bool
  | .bucket d i => (t.bucketInactive d).has i
  | .user r => (t.userInactive r.u r.d).has r.i

/-- Apply `g` to the `inactive_mask` that holds the bit of the token control. -/
def mapInactive (t : TokenState) (g : RuleMask → RuleIdx → RuleMask) : TcId → TokenState
  | .bucket d i =>
      { t with bucketInactive := Function.update t.bucketInactive d (g (t.bucketInactive d) i) }
  | .user r =>
      { t with userInactive := Function.update t.userInactive r.u
                (Function.update (t.userInactive r.u) r.d (g (t.userInactive r.u r.d) r.i)) }

/-- `TBQ_RULE_MASK_SET(sched->inactive_mask, bucket_index)`. -/
def setInactive (t : TokenState) (X : TcId) : TokenState := t.mapInactive RuleMask.set X

/-- `TBQ_RULE_MASK_CLR(sched->inactive_mask, bucket_index)`. -/
def clrInactive (t : TokenState) (X : TcId) : TokenState := t.mapInactive RuleMask.clr X

end TokenState

/-! ## The functions -/

/-- `tbq_timer_mod`: the slot is given by the expiry in the token control. -/
def timerMod (t : TokenState) (X : TcId) : TokenState :=
  { t with pending := t.pending ++ [X], nrPending := t.nrPending + 1 }

/-- `tbq_timer_del`. -/
def timerDel (t : TokenState) (X : TcId) : Except Stop TokenState := do
  stopIf ((t.tc X).tokens < 0) (.token .timerDelTokens)
  stopIf (X ∉ t.pending) (.token .timerDelList)
  return { t with pending := t.pending.erase X, nrPending := t.nrPending - 1 }

/-- `tbq_token_ctrl_deactivate`. -/
def tokenCtrlDeactivate (t : TokenState) (X : TcId) : Except Stop TokenState := do
  let c := t.tc X
  stopIf (0 ≤ c.tokens) (.token .deactivateTokens)
  stopIf (X ∈ t.pending) (.token .deactivateList)
  stopIf (c.tokensPerJiffy = 0) (.token .deactivateDivide)
  let expireJiffies := u32 ((i32 (-c.tokens + c.tokensPerJiffy - 1)).tdiv c.tokensPerJiffy)
  let c' := { c with
    tokens := i32 (c.tokens + expireJiffies * c.tokensPerJiffy)
    jiffies := t.jiffies + expireJiffies }
  return timerMod (t.setTc X c') X

/-- `feed_jiffies` before it is capped. -/
def elapsed (t : TokenState) (X : TcId) : ℕ := u32 (t.jiffies - (t.tc X).jiffies)

/-- `tbq_token_ctrl_feed`. -/
def tokenCtrlFeed (t : TokenState) (X : TcId) : Except Stop (Bool × TokenState) := do
  let c := t.tc X
  stopIf (0 ≤ c.tokens) (.token .feedTokens)
  if elapsed t X = 0 then
    return (false, t)
  let feedJiffies := min (elapsed t X) t.HZ
  let feedTokens := i32 (c.tokensPerJiffy * feedJiffies)
  stopIf (feedTokens ≤ 0) (.token .feedNotPositive)
  let tokensAfterFeed := i32 (c.tokens + feedTokens)
  if tokensAfterFeed < 0 then
    return (false, t)
  return (true, t.setTc X { c with tokens := tokensAfterFeed, jiffies := t.jiffies })

/-- The statement `tc->tokens -= pkt_len`, recorded in the history. -/
def spend (t : TokenState) (X : TcId) (pktLen : ℕ) : TokenState :=
  { t.setTc X { t.tc X with tokens := i32 ((t.tc X).tokens - pktLen) } with
    charged := t.charged ++ [⟨X, t.jiffies, pktLen⟩] }

/-- `tbq_token_ctrl_consume`. -/
def tokenCtrlConsume (t : TokenState) (X : TcId) (pktLen : ℕ) :
    Except Stop (Bool × TokenState) := do
  stopIf ((t.tc X).tokens < 0) (.token .consumeTokens)
  stopIf (X ∈ t.pending) (.token .consumeList)
  let t := spend t X pktLen
  if 0 ≤ (t.tc X).tokens then
    return (true, t)
  else
    tokenCtrlFeed t X

/-- The half of `tbq_user_consume` that charges one token control and parks it on
the timer when it is out of tokens. -/
def consumeOrDeactivate (t : TokenState) (X : TcId) (pktLen : ℕ) : Except Stop TokenState := do
  let (active, t) ← tokenCtrlConsume t X pktLen
  if active then
    return t
  else
    tokenCtrlDeactivate (t.setInactive X) X

/-- `tbq_user_consume`. -/
def userConsume (t : TokenState) (r : UserRef) (pktLen : ℕ) : Except Stop TokenState := do
  stopIf (t.nrRule ≤ r.i.val) (.token .bucketIndex)
  let t ← consumeOrDeactivate t r.bucket pktLen
  consumeOrDeactivate t (.user r) pktLen

/-- `tbq_packet_ctrl_consume`: `none` is the `NULL` of an admitted packet, `some i`
the pending user entry of rule `i`. -/
def packetCtrlConsume (t : TokenState) (p : Packet) :
    Except Stop (Option RuleIdx × TokenState) := do
  match (t.bucketInactive p.dir &&& p.ruleMask).ffs with
  | some i => return (some i, t)
  | none =>
    match (t.userInactive p.flow.user p.dir &&& p.ruleMask).ffs with
    | some i => return (some i, t)
    | none =>
      let t ← p.ruleMask.bits.foldlM (fun t i => userConsume t (p.userRef i) p.pktLen) t
      return (none, t)

/-! ## The inactive masks -/

namespace TokenState

@[simp] theorem setTc_self (t : TokenState) (X : TcId) (c : TokenCtrl) :
    (t.setTc X c).tc X = c := by
  simp [setTc]

@[simp] theorem setTc_pending (t : TokenState) (X : TcId) (c : TokenCtrl) :
    (t.setTc X c).pending = t.pending := rfl

@[simp] theorem setTc_inactive (t : TokenState) (X Y : TcId) (c : TokenCtrl) :
    (t.setTc X c).inactive Y = t.inactive Y := by
  cases Y <;> rfl

@[simp] theorem mapInactive_tc (t : TokenState) (g : RuleMask → RuleIdx → RuleMask) (X : TcId) :
    (t.mapInactive g X).tc = t.tc := by
  cases X <;> rfl

@[simp] theorem mapInactive_pending (t : TokenState) (g : RuleMask → RuleIdx → RuleMask)
    (X : TcId) : (t.mapInactive g X).pending = t.pending := by
  cases X <;> rfl

/-- Updating the mask of one token control leaves the bits of all others alone, if
the update `g` itself does. -/
theorem mapInactive_inactive (t : TokenState) {g : RuleMask → RuleIdx → RuleMask}
    {b : Bool → Bool} (hself : ∀ m i, (g m i).has i = b (m.has i))
    (hother : ∀ m i j, j ≠ i → (g m i).has j = m.has j) (X Y : TcId) :
    (t.mapInactive g X).inactive Y = if Y = X then b (t.inactive Y) else t.inactive Y := by
  have hbit : ∀ m i j, (g m i).has j = if j = i then b (m.has j) else m.has j := by
    intro m i j
    by_cases hj : j = i
    · rw [if_pos hj, hj, hself]
    · rw [if_neg hj, hother m i j hj]
  cases X with
  | bucket d i =>
      cases Y with
      | bucket d' i' =>
          by_cases hd : d' = d
          · subst hd
            simp [inactive, mapInactive, hbit]
          · simp [inactive, mapInactive, hd]
      | user r => simp [inactive, mapInactive]
  | user r =>
      cases Y with
      | bucket d' i' => simp [inactive, mapInactive]
      | user r' =>
          obtain ⟨u, d, i⟩ := r
          obtain ⟨u', d', i'⟩ := r'
          by_cases hu : u' = u
          · subst hu
            by_cases hd : d' = d
            · subst hd
              simp [inactive, mapInactive, hbit]
            · simp [inactive, mapInactive, hd]
          · simp [inactive, mapInactive, hu]

@[simp] theorem setInactive_inactive (t : TokenState) (X Y : TcId) :
    (t.setInactive X).inactive Y = (t.inactive Y || decide (Y = X)) := by
  have h := mapInactive_inactive t (g := RuleMask.set) (b := fun _ => true)
    (fun m i => by simp) (fun m i j hj => by simp [hj]) X Y
  rw [setInactive, h]
  by_cases hY : Y = X <;> simp [hY]

@[simp] theorem clrInactive_inactive (t : TokenState) (X Y : TcId) :
    (t.clrInactive X).inactive Y = (t.inactive Y && decide (Y ≠ X)) := by
  have h := mapInactive_inactive t (g := RuleMask.clr) (b := fun _ => false)
    (fun m i => by simp) (fun m i j hj => by simp [hj]) X Y
  rw [clrInactive, h]
  by_cases hY : Y = X <;> simp [hY]

/-- The masks, the timer list and its counter are three views of one set. -/
structure PendingOk (t : TokenState) : Prop where
  nodup : t.pending.Nodup
  count : t.nrPending = t.pending.length
  mask : ∀ X, X ∈ t.pending ↔ t.inactive X = true

/-- What no token operation changes. -/
structure Frame (t t' : TokenState) : Prop where
  HZ : t'.HZ = t.HZ
  nrRule : t'.nrRule = t.nrRule
  jiffies : t'.jiffies = t.jiffies
  rate : ∀ X, (t'.tc X).tokensPerJiffy = (t.tc X).tokensPerJiffy

/-- A step that changes nothing keeps the frame. -/
theorem Frame.refl (t : TokenState) : Frame t t := ⟨rfl, rfl, rfl, fun _ => rfl⟩

/-- Keeping the frame is transitive. -/
theorem Frame.trans {t t' t'' : TokenState} (h : Frame t t') (h' : Frame t' t'') : Frame t t'' :=
  ⟨h'.HZ.trans h.HZ, h'.nrRule.trans h.nrRule, h'.jiffies.trans h.jiffies,
    fun X => (h'.rate X).trans (h.rate X)⟩

end TokenState

/-! ## Charging one token control -/

/-- What a charge that returns has done to the state around the token control `X`:
one entry of history, and `X` parked on the timer with its bit set, or nothing
parked at all. -/
structure Charged (t : TokenState) (X : TcId) (pktLen : ℕ) (t' : TokenState) : Prop where
  frame : t.Frame t'
  active : X ∉ t.pending
  others : ∀ Y, Y ≠ X → t'.tc Y = t.tc Y
  history : t'.charged = t.charged ++ [⟨X, t.jiffies, pktLen⟩]
  divides : X ∈ t'.pending → (t.tc X).tokensPerJiffy ≠ 0
  parked : (t'.pending = t.pending ∧ t'.nrPending = t.nrPending
      ∧ ∀ Y, t'.inactive Y = t.inactive Y) ∨
    (t'.pending = t.pending ++ [X] ∧ t'.nrPending = t.nrPending + 1
      ∧ ∀ Y, t'.inactive Y = (t.inactive Y || decide (Y = X)))

/-- A refill that returns changes the one token control, or nothing. -/
theorem tokenCtrlFeed_ok {t t' : TokenState} {X : TcId} {b : Bool}
    (h : tokenCtrlFeed t X = .ok (b, t')) :
    (b = false ∧ t' = t) ∨
      (b = true ∧ ∃ tokens jiffies, t' = t.setTc X { t.tc X with tokens, jiffies }) := by
  unfold tokenCtrlFeed at h
  simp only [bind_eq_ok, stopIf_eq_ok] at h
  obtain ⟨-, -, h⟩ := h
  split at h
  · simp only [pure_eq_ok, Prod.mk.injEq] at h
    exact .inl ⟨h.1.symm, h.2.symm⟩
  · simp only [bind_eq_ok, stopIf_eq_ok] at h
    obtain ⟨-, -, h⟩ := h
    split at h
    · simp only [pure_eq_ok, Prod.mk.injEq] at h
      exact .inl ⟨h.1.symm, h.2.symm⟩
    · simp only [pure_eq_ok, Prod.mk.injEq] at h
      exact .inr ⟨h.1.symm, _, _, h.2.symm⟩

/-- The charge itself and a possible refill change the one token control, which is off the
timer. -/
theorem tokenCtrlConsume_ok {t t' : TokenState} {X : TcId} {pktLen : ℕ} {active : Bool}
    (h : tokenCtrlConsume t X pktLen = .ok (active, t')) :
    X ∉ t.pending ∧ ∃ tokens jiffies, t' =
      { t.setTc X { t.tc X with tokens, jiffies } with
        charged := t.charged ++ [⟨X, t.jiffies, pktLen⟩] } := by
  unfold tokenCtrlConsume at h
  simp only [bind_eq_ok, stopIf_eq_ok] at h
  obtain ⟨-, -, -, hlist, h⟩ := h
  refine ⟨hlist, ?_⟩
  split at h
  · simp only [pure_eq_ok, Prod.mk.injEq] at h
    exact ⟨_, _, h.2.symm⟩
  · rcases tokenCtrlFeed_ok h with ⟨-, rfl⟩ | ⟨-, tokens, jiffies, rfl⟩
    · exact ⟨_, _, rfl⟩
    · refine ⟨tokens, jiffies, ?_⟩
      simp [spend, TokenState.setTc, Function.update_idem]

/-- The whole effect of a charge that returns, whatever the token values are. -/
theorem consumeOrDeactivate_ok {t t' : TokenState} {X : TcId} {pktLen : ℕ}
    (h : consumeOrDeactivate t X pktLen = .ok t') : Charged t X pktLen t' := by
  unfold consumeOrDeactivate at h
  obtain ⟨⟨active, t₁⟩, h₁, h₂⟩ := bind_eq_ok.mp h
  obtain ⟨hlist, tokens, jiffies, rfl⟩ := tokenCtrlConsume_ok h₁
  cases active with
  | true =>
      simp only [if_true, pure_eq_ok] at h₂
      subst h₂
      refine ⟨⟨rfl, rfl, rfl, fun Y => ?_⟩, hlist, fun Y hY => ?_, rfl, fun hp => absurd hp hlist,
        .inl ⟨rfl, rfl, fun Y => ?_⟩⟩
      · by_cases hY : Y = X
        · subst hY; simp [TokenState.setTc]
        · simp [TokenState.setTc, hY]
      · simp [TokenState.setTc, hY]
      · cases Y <;> rfl
  | false =>
      simp only [Bool.false_eq_true, if_false, tokenCtrlDeactivate, bind_eq_ok, stopIf_eq_ok,
        pure_eq_ok] at h₂
      obtain ⟨-, -, -, -, -, hdiv, rfl⟩ := h₂
      have hdiv' : (t.tc X).tokensPerJiffy ≠ 0 := by
        simpa [TokenState.setInactive] using hdiv
      refine ⟨⟨?_, ?_, ?_, fun Y => ?_⟩, hlist, fun Y hY => ?_, ?_, fun _ => hdiv',
        .inr ⟨?_, ?_, fun Y => ?_⟩⟩
      · cases X <;> rfl
      · cases X <;> rfl
      · cases X <;> rfl
      · by_cases hY : Y = X
        · subst hY; simp [TokenState.setTc, timerMod, TokenState.setInactive]
        · simp [TokenState.setTc, timerMod, TokenState.setInactive, hY]
      · simp [TokenState.setTc, timerMod, TokenState.setInactive, hY]
      · cases X <;> rfl
      · simp [timerMod, TokenState.setInactive]
      · cases X <;> rfl
      · have hset := TokenState.setInactive_inactive
          { t.setTc X { t.tc X with tokens, jiffies } with
            charged := t.charged ++ [⟨X, t.jiffies, pktLen⟩] } X Y
        have hleft : ∀ (v : TokenState) (c : TokenCtrl),
            (timerMod (v.setTc X c) X).inactive Y = v.inactive Y := by
          intro v c
          cases Y <;> rfl
        have hright : ({ t.setTc X { t.tc X with tokens, jiffies } with
            charged := t.charged ++ [⟨X, t.jiffies, pktLen⟩] } : TokenState).inactive Y
              = t.inactive Y := by
          cases Y <;> rfl
        rw [hleft, hset, hright]

/-- Charging keeps the masks, the timer list and its counter together. -/
theorem Charged.pendingOk {t t' : TokenState} {X : TcId} {pktLen : ℕ}
    (h : Charged t X pktLen t') (hok : t.PendingOk) : t'.PendingOk := by
  rcases h.parked with ⟨hp, hn, hm⟩ | ⟨hp, hn, hm⟩
  · refine ⟨by rw [hp]; exact hok.nodup, by rw [hp, hn]; exact hok.count, fun Y => ?_⟩
    rw [hp, hm]
    exact hok.mask Y
  · refine ⟨?_, ?_, fun Y => ?_⟩
    · rw [hp]
      refine hok.nodup.append (List.nodup_singleton X) ?_
      intro Y hY hYX
      rw [List.mem_singleton.mp hYX] at hY
      exact h.active hY
    · rw [hp, hn, hok.count, List.length_append, List.length_singleton]
    · rw [hp, hm, List.mem_append, List.mem_singleton, hok.mask Y]
      simp

/-- A charge takes nothing off the timer. -/
theorem Charged.pending_subset {t t' : TokenState} {X : TcId} {pktLen : ℕ}
    (h : Charged t X pktLen t') {Y : TcId} (hY : Y ∈ t.pending) : Y ∈ t'.pending := by
  rcases h.parked with ⟨hp, -, -⟩ | ⟨hp, -, -⟩
  · rwa [hp]
  · rw [hp]
    exact List.mem_append_left _ hY

/-! ## The token values of a charge -/

/-- A token control in its normal range: a positive rate that the parser accepts,
no debt, and at most one second worth of tokens. -/
structure CtrlOk (HZ : ℕ) (c : TokenCtrl) : Prop where
  rate_ok : RateOk HZ c.tokensPerJiffy
  rate_pos : 0 < c.tokensPerJiffy
  nonneg : 0 ≤ c.tokens
  le : c.tokens ≤ c.tokensPerJiffy * HZ

/-- The three outcomes of charging `len` to the token control `c` at time `now`,
in exact arithmetic: the tokens suffice; they do not, but the refill covers the
debt; or the token control is parked until the debt is paid. -/
inductive Refill (HZ now : ℕ) (c : TokenCtrl) (len : ℕ) : TokenCtrl → Bool → Prop
  | kept : 0 ≤ c.tokens - len → Refill HZ now c len { c with tokens := c.tokens - len } false
  | fed (n : ℕ) : c.tokens - len < 0 → n ≤ HZ → n ≤ u32 (now - c.jiffies) →
      0 ≤ c.tokens - len + c.tokensPerJiffy * n →
      Refill HZ now c len
        { c with tokens := c.tokens - len + c.tokensPerJiffy * n, jiffies := now } false
  | parked (n : ℕ) : c.tokens - len < 0 → 0 ≤ c.tokens - len + c.tokensPerJiffy * n →
      c.tokens - len + c.tokensPerJiffy * n < c.tokensPerJiffy →
      Refill HZ now c len
        { c with tokens := c.tokens - len + c.tokensPerJiffy * n, jiffies := now + n } true

/-- Twelve jiffies bring no more than the bound. -/
theorem CtrlOk.rate_le {HZ : ℕ} {c : TokenCtrl} (h : CtrlOk HZ c) (hz : 12 ≤ HZ) :
    c.tokensPerJiffy * 12 ≤ 2000000000 := by
  have hmul : c.tokensPerJiffy * 12 ≤ c.tokensPerJiffy * HZ := by
    apply mul_le_mul_of_nonneg_left _ h.rate_pos.le
    exact_mod_cast hz
  have hmax := h.rate_ok.2
  simp only [tbqBytesPerSecMax] at hmax
  linarith

/-- A token control in its range stays there: one charge leaves no debt and at most
one second worth of tokens. -/
theorem Refill.ctrlOk {HZ now len : ℕ} {c c' : TokenCtrl} {b : Bool}
    (h : Refill HZ now c len c' b) (hz : 12 ≤ HZ) (hc : CtrlOk HZ c) : CtrlOk HZ c' := by
  have hpos := hc.rate_pos
  cases h with
  | kept h0 =>
      refine ⟨hc.rate_ok, hpos, h0, ?_⟩
      have hle := hc.le
      show c.tokens - len ≤ c.tokensPerJiffy * HZ
      omega
  | fed n hneg hn _ h0 =>
      refine ⟨hc.rate_ok, hpos, h0, ?_⟩
      have hmul : c.tokensPerJiffy * n ≤ c.tokensPerJiffy * HZ :=
        mul_le_mul_of_nonneg_left (by exact_mod_cast hn) hpos.le
      show c.tokens - len + c.tokensPerJiffy * n ≤ c.tokensPerJiffy * HZ
      omega
  | parked n hneg h0 hlt =>
      refine ⟨hc.rate_ok, hpos, h0, ?_⟩
      have hmul : c.tokensPerJiffy * 1 ≤ c.tokensPerJiffy * HZ :=
        mul_le_mul_of_nonneg_left (by exact_mod_cast (by omega : 1 ≤ HZ)) hpos.le
      show c.tokens - len + c.tokensPerJiffy * n ≤ c.tokensPerJiffy * HZ
      omega

/-- Rounding the debt up to whole jiffies. -/
theorem debt_jiffies {debt rate : ℤ} (hd : 0 < debt) (hr : 0 < rate) :
    0 ≤ (debt + rate - 1).tdiv rate
      ∧ 0 ≤ -debt + rate * (debt + rate - 1).tdiv rate
      ∧ -debt + rate * (debt + rate - 1).tdiv rate < rate := by
  have hnum : 0 ≤ debt + rate - 1 := by omega
  rw [Int.tdiv_eq_ediv_of_nonneg hnum]
  have hdiv := Int.mul_ediv_add_emod (debt + rate - 1) rate
  have hlo := Int.emod_nonneg (debt + rate - 1) hr.ne'
  have hhi := Int.emod_lt_of_pos (debt + rate - 1) hr
  refine ⟨Int.ediv_nonneg hnum hr.le, ?_, ?_⟩ <;> linarith

/-- In its normal range a token control is charged without stopping, and its new
value is one of the three outcomes. -/
theorem consumeOrDeactivate_sat {t : TokenState} {X : TcId} {pktLen : ℕ} (hz : 12 ≤ t.HZ)
    (hc : CtrlOk t.HZ (t.tc X)) (hX : X ∉ t.pending) (hlen : pktLen < 2 ^ 30) :
    Sat (consumeOrDeactivate t X pktLen)
      (fun t' => ∃ b, Refill t.HZ t.jiffies (t.tc X) pktLen (t'.tc X) b
        ∧ t'.pending = if b then t.pending ++ [X] else t.pending)
      (fun _ => False) := by
  obtain ⟨hrate, hpos, hnn, hle⟩ := hc
  have hr12 := CtrlOk.rate_le ⟨hrate, hpos, hnn, hle⟩ hz
  have hmax : (t.tc X).tokensPerJiffy * t.HZ ≤ 2000000000 := hrate.2
  set c := t.tc X with hcdef
  have hspend : i32 (c.tokens - pktLen) = c.tokens - pktLen := i32_of_range (by omega) (by omega)
  unfold consumeOrDeactivate tokenCtrlConsume
  rw [sat_bind, sat_bind, stopIf_of_not (by rw [← hcdef]; omega), sat_ok, sat_bind,
    stopIf_of_not hX, sat_ok]
  have htc : (spend t X pktLen).tc X = { c with tokens := c.tokens - pktLen } := by
    simp [spend, ← hcdef, hspend]
  simp only [htc]
  by_cases h0 : 0 ≤ c.tokens - pktLen
  · rw [if_pos h0, sat_pure]
    refine ⟨false, ?_, rfl⟩
    rw [htc]
    exact .kept h0
  · rw [if_neg h0]
    have hneg : c.tokens - pktLen < 0 := by omega
    -- what happens when the refill does not cover the debt
    have hpark : Sat (tokenCtrlDeactivate ((spend t X pktLen).setInactive X) X)
        (fun t' => ∃ b, Refill t.HZ t.jiffies c pktLen (t'.tc X) b
          ∧ t'.pending = if b then t.pending ++ [X] else t.pending) (fun _ => False) := by
      have htc' : ((spend t X pktLen).setInactive X).tc X = { c with tokens := c.tokens - pktLen } := by
        rw [TokenState.setInactive, TokenState.mapInactive_tc, htc]
      have hlist : X ∉ ((spend t X pktLen).setInactive X).pending := by
        rw [TokenState.setInactive, TokenState.mapInactive_pending]
        exact hX
      have hj : ((spend t X pktLen).setInactive X).jiffies = t.jiffies := by cases X <;> rfl
      unfold tokenCtrlDeactivate
      simp only [htc', hj]
      rw [sat_bind, stopIf_of_not h0, sat_ok, sat_bind, stopIf_of_not hlist, sat_ok, sat_bind,
        stopIf_of_not hpos.ne', sat_ok, sat_pure]
      have hdebt : 0 < -(c.tokens - pktLen) := by omega
      obtain ⟨hd0, hd1, hd2⟩ := debt_jiffies hdebt hpos
      rw [i32_of_range (x := -(c.tokens - pktLen) + c.tokensPerJiffy - 1) (by omega) (by omega)]
      set n := (-(c.tokens - pktLen) + c.tokensPerJiffy - 1).tdiv c.tokensPerJiffy with hn
      have hn31 : n < 2 ^ 32 := by nlinarith
      have hun : (u32 n : ℤ) = n := u32_of_range hd0 hn31
      have hval : i32 (c.tokens - pktLen + u32 n * c.tokensPerJiffy)
          = c.tokens - pktLen + c.tokensPerJiffy * (u32 n : ℕ) := by
        rw [hun, mul_comm n]
        exact i32_of_range (by omega) (by omega)
      refine ⟨true, ?_, ?_⟩
      · rw [timerMod, TokenState.setTc_self, hval]
        exact .parked (u32 n) hneg (by rw [hun]; omega) (by rw [hun]; omega)
      · simp [timerMod, TokenState.setInactive, spend]
    unfold tokenCtrlFeed
    simp only [htc]
    rw [sat_bind, stopIf_of_not h0, sat_ok]
    by_cases he : elapsed (spend t X pktLen) X = 0
    · rw [if_pos he, sat_pure]
      exact hpark
    · rw [if_neg he]
      have hel : elapsed (spend t X pktLen) X = u32 (t.jiffies - c.jiffies) := by
        unfold elapsed
        rw [htc]
        rfl
      have hHZ : (spend t X pktLen).HZ = t.HZ := rfl
      rw [hHZ]
      set n := min (elapsed (spend t X pktLen) X) t.HZ with hn
      have hn1 : 1 ≤ n := by omega
      have hlo : c.tokensPerJiffy * 1 ≤ c.tokensPerJiffy * n :=
        mul_le_mul_of_nonneg_left (by exact_mod_cast hn1) hpos.le
      have hhi : c.tokensPerJiffy * n ≤ c.tokensPerJiffy * t.HZ :=
        mul_le_mul_of_nonneg_left (by exact_mod_cast min_le_right _ _) hpos.le
      rw [i32_of_range (x := c.tokensPerJiffy * n) (by omega) (by omega),
        i32_of_range (x := c.tokens - pktLen + c.tokensPerJiffy * n) (by omega) (by omega)]
      rw [sat_bind, stopIf_of_not (by omega), sat_ok]
      by_cases hafter : c.tokens - pktLen + c.tokensPerJiffy * n < 0
      · rw [if_pos hafter, sat_pure]
        exact hpark
      · rw [if_neg hafter, sat_pure]
        refine ⟨false, ?_, rfl⟩
        rw [TokenState.setTc_self]
        exact .fed n hneg (min_le_right _ _) (by rw [← hel]; exact min_le_left _ _) (by omega)

/-! ## Charging a packet -/

/-- The charges of a packet of length `pktLen` to the bucket and the user of the
rules in `l`. -/
def ruleCharges (p : Packet) (now : ℕ) (l : List RuleIdx) : List Charge :=
  l.flatMap fun i =>
    [⟨(p.userRef i).bucket, now, p.pktLen⟩, ⟨.user (p.userRef i), now, p.pktLen⟩]

/-- What any number of charges does: nothing leaves the timer, the masks follow it,
and the history grows by `new`. -/
structure Advance (t t' : TokenState) : Prop where
  frame : t.Frame t'
  subset : ∀ X, X ∈ t.pending → X ∈ t'.pending
  pendingOk : t.PendingOk → t'.PendingOk

/-- A step that changes nothing advances nothing. -/
theorem Advance.refl (t : TokenState) : Advance t t :=
  ⟨.refl t, fun _ h => h, fun h => h⟩

/-- Advances compose. -/
theorem Advance.trans {t t' t'' : TokenState} (h : Advance t t') (h' : Advance t' t'') :
    Advance t t'' :=
  ⟨h.frame.trans h'.frame, fun X hX => h'.subset X (h.subset X hX),
    fun hok => h'.pendingOk (h.pendingOk hok)⟩

/-- A charge is an advance. -/
theorem Charged.advance {t t' : TokenState} {X : TcId} {pktLen : ℕ}
    (h : Charged t X pktLen t') : Advance t t' :=
  ⟨h.frame, fun _ => h.pending_subset, h.pendingOk⟩

/-- Charging a user charges its bucket and then the user. -/
theorem userConsume_ok {t t' : TokenState} {r : UserRef} {pktLen : ℕ}
    (h : userConsume t r pktLen = .ok t') :
    ∃ t₁, Charged t r.bucket pktLen t₁ ∧ Charged t₁ (.user r) pktLen t' := by
  unfold userConsume at h
  simp only [bind_eq_ok, stopIf_eq_ok] at h
  obtain ⟨-, -, t₁, h₁, h₂⟩ := h
  exact ⟨t₁, consumeOrDeactivate_ok h₁, consumeOrDeactivate_ok h₂⟩

/-- The walk over the mask charges every rule once and keeps the timer in step. -/
theorem foldlM_userConsume_ok {p : Packet} (l : List RuleIdx) {t t' : TokenState}
    (h : l.foldlM (fun t i => userConsume t (p.userRef i) p.pktLen) t = .ok t') :
    Advance t t' ∧ t'.charged = t.charged ++ ruleCharges p t.jiffies l := by
  induction l generalizing t with
  | nil =>
      obtain rfl := pure_eq_ok.mp h
      exact ⟨.refl _, by simp [ruleCharges]⟩
  | cons i l ih =>
      rw [List.foldlM_cons, bind_eq_ok] at h
      obtain ⟨t₂, h₁, h₂⟩ := h
      obtain ⟨t₁, hb, hu⟩ := userConsume_ok h₁
      obtain ⟨hadv, hhist⟩ := ih h₂
      refine ⟨hb.advance.trans (hu.advance.trans hadv), ?_⟩
      rw [hhist, hu.history, hb.history, hu.frame.jiffies, hb.frame.jiffies]
      simp [ruleCharges]

/-- A packet is admitted only if no rule of its mask is inactive, and then it is
charged to the bucket and the user of every rule of its mask; a pending packet is
charged to none, and is sent to a rule of its mask whose bucket or user is
inactive. -/
theorem packetCtrlConsume_ok {t t' : TokenState} {p : Packet} {o : Option RuleIdx}
    (h : packetCtrlConsume t p = .ok (o, t')) :
    (∃ i, o = some i ∧ t' = t ∧ p.ruleMask.has i = true
        ∧ (t.inactive (p.userRef i).bucket = true ∨ t.inactive (.user (p.userRef i)) = true)) ∨
      (o = none ∧ Advance t t' ∧ t'.charged = t.charged ++ ruleCharges p t.jiffies p.ruleMask.bits
        ∧ ∀ i, p.ruleMask.has i = true →
          t.inactive (p.userRef i).bucket = false ∧ t.inactive (.user (p.userRef i)) = false) := by
  unfold packetCtrlConsume at h
  split at h
  · rename_i i hi
    have hhas := RuleMask.ffs_has hi
    simp only [RuleMask.has_and, Bool.and_eq_true] at hhas
    simp only [pure_eq_ok, Prod.mk.injEq] at h
    exact .inl ⟨i, h.1.symm, h.2.symm, hhas.2, .inl hhas.1⟩
  · rename_i hnone
    split at h
    · rename_i i hi
      have hhas := RuleMask.ffs_has hi
      simp only [RuleMask.has_and, Bool.and_eq_true] at hhas
      simp only [pure_eq_ok, Prod.mk.injEq] at h
      exact .inl ⟨i, h.1.symm, h.2.symm, hhas.2, .inr hhas.1⟩
    · rename_i hnone'
      simp only [bind_eq_ok, pure_eq_ok, Prod.mk.injEq] at h
      obtain ⟨t₁, hfold, rfl, rfl⟩ := h
      obtain ⟨hadv, hhist⟩ := foldlM_userConsume_ok _ hfold
      refine .inr ⟨rfl, hadv, hhist, fun i hi => ?_⟩
      have hb := RuleMask.eq_zero_iff.mp (RuleMask.ffs_eq_none.mp hnone) i
      have hu := RuleMask.eq_zero_iff.mp (RuleMask.ffs_eq_none.mp hnone') i
      simp only [RuleMask.has_and, hi, Bool.and_true] at hb hu
      exact ⟨hb, hu⟩

/-! ## Firing -/

/-- `time_before_eq(tc->jiffies, jiffies)`: the expiry of the token control is not ahead of
the clock, as far as the width of the clock can tell. -/
def Due (t : TokenState) (X : TcId) : Prop := 0 ≤ i32 ((t.jiffies : ℤ) - (t.tc X).jiffies)

/-- The start of `tbq_token_ctrl_activate`: off the timer, and its bit cleared. -/
def fire (t : TokenState) (X : TcId) : Except Stop TokenState := do
  let t ← timerDel t X
  stopIf (t.nrRule ≤ X.rule.val) (.token .bucketIndex)
  return t.clrInactive X

/-- The effect of firing a pending token control. -/
structure Fired (t : TokenState) (X : TcId) (t' : TokenState) : Prop where
  frame : t.Frame t'
  tc : t'.tc = t.tc
  wasPending : X ∈ t.pending
  pending : t'.pending = t.pending.erase X
  nrPending : t'.nrPending = t.nrPending - 1
  inactive : ∀ Y, t'.inactive Y = (t.inactive Y && decide (Y ≠ X))
  charged : t'.charged = t.charged

/-- A control that fires is what `Fired` says. -/
theorem fire_ok {t t' : TokenState} {X : TcId} (h : fire t X = .ok t') : Fired t X t' := by
  unfold fire timerDel at h
  simp only [bind_eq_ok, stopIf_eq_ok, pure_eq_ok] at h
  obtain ⟨t₁, ⟨-, -, -, hlist, rfl⟩, -, -, rfl⟩ := h
  have hmem : X ∈ t.pending := by simpa using hlist
  refine ⟨⟨?_, ?_, ?_, fun Y => ?_⟩, ?_, hmem, ?_, ?_, fun Y => ?_, ?_⟩
  · cases X <;> rfl
  · cases X <;> rfl
  · cases X <;> rfl
  · simp [TokenState.clrInactive]
  · simp [TokenState.clrInactive]
  · simp [TokenState.clrInactive]
  · cases X <;> rfl
  · rw [TokenState.clrInactive_inactive]
    cases Y <;> rfl
  · cases X <;> rfl

/-- Firing keeps the pending controls in order. -/
theorem Fired.pendingOk {t t' : TokenState} {X : TcId} (h : Fired t X t') (hok : t.PendingOk) :
    t'.PendingOk := by
  refine ⟨?_, ?_, fun Y => ?_⟩
  · rw [h.pending]
    exact hok.nodup.erase X
  · rw [h.pending, h.nrPending, hok.count, List.length_erase_of_mem h.wasPending]
  · rw [h.pending, h.inactive, hok.nodup.mem_erase_iff, hok.mask Y]
    simp [and_comm]

/-- Who waits after a control has fired. -/
theorem Fired.mem_pending {t t' : TokenState} {X Y : TcId} (h : Fired t X t')
    (hok : t.PendingOk) : Y ∈ t'.pending ↔ Y ≠ X ∧ Y ∈ t.pending := by
  rw [h.pending, hok.nodup.mem_erase_iff]

end Tbq
