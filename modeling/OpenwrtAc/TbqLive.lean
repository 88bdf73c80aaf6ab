/-
# Token controls in use

The token controls that packets are charged to are the buckets of the configured rules
and the entries of the tracked users for the rules that match them.  `TokensOk` is the
invariant of the token side: the masks, the timer list and its counter agree, only
token controls in use are on the timer, and each of them that has a positive rate is
within its range.
-/
import OpenwrtAc.TbqErrors

open Outcome MachineInt

namespace Tbq

/-! ## Matching -/

theorem userMatch_has {c : Config} {u : UserId} {i : RuleIdx} :
    (userMatch c u).has i = true ↔ userMatchWeight c u i ≠ 0 := by
  unfold userMatch
  rw [RuleMask.has_foldl_set]
  simp

theorem appMatch_has {c : Config} {app : ℕ} {all : RuleMask} {i : RuleIdx} :
    (appMatch c app all).has i = true ↔ all.has i = true ∧ appMatchWeight c app i ≠ 0 := by
  unfold appMatch
  rw [RuleMask.has_foldl_set]
  simp

/-- A rule that matches exists. -/
theorem rule_lt_of_userMatch {c : Config} {u : UserId} {i : RuleIdx}
    (h : (userMatch c u).has i = true) : i.val < c.rules.length := by
  rw [userMatch_has] at h
  by_contra hlt
  apply h
  unfold userMatchWeight
  rw [List.getElem?_eq_none (by omega)]

/-! ## The invariant of the token side -/

/-- The token control belongs to a configured rule, and to a tracked user that the rule
matches. -/
def Live (cfg : Config) (users : List UserId) : TcId → Prop
  | .bucket _ i => i.val < cfg.rules.length
  | .user r => r.u ∈ users ∧ (userMatch cfg r.u).has r.i = true

theorem Live.rule_lt {cfg : Config} {users : List UserId} {X : TcId} (h : Live cfg users X) :
    X.rule.val < cfg.rules.length := by
  cases X with
  | bucket d i => exact h
  | user r => exact rule_lt_of_userMatch h.2

theorem Live.rate_pos {cfg : Config} {users : List UserId} {X : TcId} (h : Live cfg users X)
    (hpos : cfg.RatesPositive) : 0 < cfg.rate X := by
  cases X with
  | bucket d i => exact (hpos.rate_pos h).1
  | user r => exact (hpos.rate_pos (rule_lt_of_userMatch h.2)).2

/-- The user entry and the bucket of a rule of a tracked user. -/
theorem live_of_rule {cfg : Config} {users : List UserId} {r : UserRef} (hu : r.u ∈ users)
    (hr : (userMatch cfg r.u).has r.i = true) :
    Live cfg users r.bucket ∧ Live cfg users (.user r) :=
  ⟨rule_lt_of_userMatch hr, hu, hr⟩

/-- The invariant of the token side. -/
structure TokensOk (cfg : Config) (users : List UserId) (t : TokenState) : Prop where
  HZ : t.HZ = cfg.HZ
  nrRule : t.nrRule = cfg.rules.length
  pendingOk : t.PendingOk
  live : ∀ X ∈ t.pending, Live cfg users X ∧ 0 < cfg.rate X
  rate : ∀ X, Live cfg users X → (t.tc X).tokensPerJiffy = cfg.rate X
  ctrl : ∀ X, Live cfg users X → 0 < cfg.rate X → CtrlOk cfg.HZ (t.tc X)
  nonneg : cfg.RatesPositive → ∀ X, 0 ≤ (t.tc X).tokens

/-- One packet is charged to a token control in use that is off the timer. -/
def ChargeStep (cfg : Config) (users : List UserId) (t t' : TokenState) : Prop :=
  ∃ X n, TokensOk cfg users t ∧ Live cfg users X ∧ X ∉ t.pending ∧ n < 2 ^ 30
    ∧ consumeOrDeactivate t X n = .ok t'

/-- Any number of charges. -/
abbrev Charges (cfg : Config) (users : List UserId) : TokenState → TokenState → Prop :=
  Relation.ReflTransGen (ChargeStep cfg users)

/-- With a rate of zero somewhere, the assertions and the division on the token side can
stop a call. -/
def TokenStop (cfg : Config) (e : Stop) : Prop := ¬ cfg.RatesPositive ∧ ∃ b, e = .token b

/-- Only token reasons. -/
def TokenRun {α : Type} (x : Except Stop α) : Prop :=
  Sat x (fun _ => True) fun e => ∃ b, e = .token b

theorem TokenRun.bind {α β : Type} {x : Except Stop α} {f : α → Except Stop β}
    (hx : TokenRun x) (hf : ∀ a, TokenRun (f a)) : TokenRun (x >>= f) :=
  Sat.bind hx fun a _ => hf a

theorem TokenRun.of_error {α : Type} {x : Except Stop α} (h : TokenRun x) {e : Stop}
    (hx : x = .error e) : ∃ b, e = .token b := by
  subst hx
  exact h

theorem tokenRun_stopIf {β : Type} {c : Prop} [Decidable c] {b : TokenBug}
    {f : Unit → Except Stop β} (hf : TokenRun (f ())) :
    TokenRun (stopIf c (Stop.token b) >>= f) :=
  TokenRun.bind (sat_stopIf (fun _ => trivial) fun _ => ⟨b, rfl⟩) fun _ => hf

theorem tokenRun_ite {α : Type} {c : Prop} [Decidable c] {x y : Except Stop α} (hx : TokenRun x)
    (hy : TokenRun y) : TokenRun (if c then x else y) := by
  split
  · exact hx
  · exact hy

theorem tokenRun_consumeOrDeactivate (t : TokenState) (X : TcId) (n : ℕ) :
    TokenRun (consumeOrDeactivate t X n) := by
  have hpure : ∀ {α : Type} (a : α), TokenRun (pure a) := fun _ => trivial
  have hfeed : ∀ t, TokenRun (tokenCtrlFeed t X) := fun t =>
    tokenRun_stopIf (tokenRun_ite (hpure _)
      (tokenRun_stopIf (tokenRun_ite (hpure _) (hpure _))))
  refine TokenRun.bind ?_ fun r => tokenRun_ite (hpure _)
    (tokenRun_stopIf (tokenRun_stopIf (tokenRun_stopIf (hpure _))))
  exact tokenRun_stopIf (tokenRun_stopIf (tokenRun_ite (hpure _) (hfeed _)))

namespace TokensOk

variable {cfg : Config} {users : List UserId} {t : TokenState}

/-- One charge keeps the invariant, and with positive rates it does not stop. -/
theorem charge_sat (h : TokensOk cfg users t) {X : TcId} (hX : Live cfg users X)
    (hnp : X ∉ t.pending) {n : ℕ} (hn : n < 2 ^ 30) :
    Sat (consumeOrDeactivate t X n)
      (fun t' => TokensOk cfg users t' ∧ Charged t X n t' ∧ ChargeStep cfg users t t')
      (TokenStop cfg) := by
  have hz : 12 ≤ t.HZ := by rw [h.HZ]; exact cfg.hz_ge
  have hsat : 0 < cfg.rate X → Sat (consumeOrDeactivate t X n)
      (fun t' => ∃ b, Refill t.HZ t.jiffies (t.tc X) n (t'.tc X) b
        ∧ t'.pending = if b then t.pending ++ [X] else t.pending) (fun _ => False) := fun hpos =>
    consumeOrDeactivate_sat hz (h.HZ ▸ h.ctrl X hX hpos) hnp hn
  refine sat_intro (fun t' ht' => ?_) (fun e he => ⟨fun hpos => ?_, ?_⟩)
  · have hch := consumeOrDeactivate_ok ht'
    have hself : 0 < cfg.rate X → CtrlOk cfg.HZ (t'.tc X) := by
      intro hpos
      obtain ⟨b, hre, -⟩ := (hsat hpos).of_ok ht'
      have := hre.ctrlOk hz (h.HZ ▸ h.ctrl X hX hpos)
      rwa [h.HZ] at this
    refine ⟨⟨hch.frame.HZ.trans h.HZ, hch.frame.nrRule.trans h.nrRule, hch.pendingOk h.pendingOk,
      fun Y hY => ?_, fun Y hY => (hch.frame.rate Y).trans (h.rate Y hY), fun Y hY hpos => ?_,
      fun hpos Y => ?_⟩, hch, X, n, h, hX, hnp, hn, ht'⟩
    · by_cases hYX : Y = X
      · subst hYX
        -- it is parked after a division by its rate, so the rate is not zero
        have hne := hch.divides hY
        rw [h.rate Y hX] at hne
        exact ⟨hX, lt_of_le_of_ne (cfg.rateOk Y).1 hne.symm⟩
      · rcases hch.parked with ⟨hp, -⟩ | ⟨hp, -⟩
        · exact h.live Y (hp ▸ hY)
        · rw [hp, List.mem_append, List.mem_singleton] at hY
          exact h.live Y (hY.resolve_right hYX)
    · by_cases hYX : Y = X
      · subst hYX
        exact hself hpos
      · rw [hch.others Y hYX]
        exact h.ctrl Y hY hpos
    · by_cases hYX : Y = X
      · subst hYX
        exact (hself (hX.rate_pos hpos)).nonneg
      · rw [hch.others Y hYX]
        exact h.nonneg hpos Y
  · exact (hsat (hX.rate_pos hpos)).of_error he
  · exact (tokenRun_consumeOrDeactivate t X n).of_error he

/-- The two charges of one rule. -/
theorem userConsume_sat (h : TokensOk cfg users t) {r : UserRef} (hu : r.u ∈ users)
    (hr : (userMatch cfg r.u).has r.i = true) (hb : r.bucket ∉ t.pending)
    (hnu : TcId.user r ∉ t.pending) {n : ℕ} (hn : n < 2 ^ 30) :
    Sat (userConsume t r n) (fun t' => TokensOk cfg users t' ∧ Charges cfg users t t'
      ∧ ∀ X ∈ t'.pending, X ∈ t.pending ∨ X = r.bucket ∨ X = .user r) (TokenStop cfg) := by
  obtain ⟨hlb, hlu⟩ := live_of_rule hu hr
  have hgrow : ∀ {t t' : TokenState} {X : TcId}, Charged t X n t' →
      ∀ Y ∈ t'.pending, Y ∈ t.pending ∨ Y = X := by
    intro t t' X hch Y hY
    rcases hch.parked with ⟨hp, -⟩ | ⟨hp, -⟩
    · exact .inl (hp ▸ hY)
    · rw [hp, List.mem_append, List.mem_singleton] at hY
      exact hY
  unfold userConsume
  rw [sat_bind, stopIf_of_not (by rw [h.nrRule]; exact not_le.mpr hlb), sat_ok]
  refine (h.charge_sat hlb hb hn).bind fun t₁ ⟨h₁, hch₁, hstep₁⟩ => ?_
  have hnu₁ : TcId.user r ∉ t₁.pending := by
    intro hmem
    rcases hgrow hch₁ _ hmem with hmem | he
    · exact hnu hmem
    · exact bucket_ne_user r r he.symm
  refine (h₁.charge_sat hlu hnu₁ hn).mono (fun t₂ ⟨h₂, hch₂, hstep₂⟩ =>
    ⟨h₂, (Relation.ReflTransGen.single hstep₁).tail hstep₂, fun X hX => ?_⟩) fun _ he => he
  rcases hgrow hch₂ X hX with hX | rfl
  · rcases hgrow hch₁ X hX with hX | rfl
    · exact .inl hX
    · exact .inr (.inl rfl)
  · exact .inr (.inr rfl)

/-- A packet of a tracked user is charged or told what it has to wait for. -/
theorem packetCtrlConsume_sat (h : TokensOk cfg users t) {p : Packet}
    (hu : p.flow.user ∈ users)
    (hp : ∀ i, p.ruleMask.has i = true → (userMatch cfg p.flow.user).has i = true) :
    Sat (packetCtrlConsume t p) (fun a => (TokensOk cfg users a.2 ∧ Charges cfg users t a.2)
      ∧ ∀ i, a.1 = some i → a.2 = t ∧ p.ruleMask.has i = true
        ∧ ((p.userRef i).bucket ∈ t.pending ∨ TcId.user (p.userRef i) ∈ t.pending))
      (TokenStop cfg) := by
  have hok : ∀ a, packetCtrlConsume t p = .ok a → ∀ i, a.1 = some i →
      a.2 = t ∧ p.ruleMask.has i = true
        ∧ ((p.userRef i).bucket ∈ t.pending ∨ TcId.user (p.userRef i) ∈ t.pending) := by
    rintro ⟨o, t'⟩ ha i hi
    obtain rfl : o = some i := hi
    rcases packetCtrlConsume_ok ha with ⟨j, hj, rfl, hhas, hin⟩ | ⟨hnone, -⟩
    · obtain rfl := Option.some.inj hj
      refine ⟨rfl, hhas, ?_⟩
      rw [h.pendingOk.mask, h.pendingOk.mask]
      exact hin
    · cases hnone
  suffices hs : Sat (packetCtrlConsume t p)
      (fun a => TokensOk cfg users a.2 ∧ Charges cfg users t a.2) (TokenStop cfg) from
    sat_intro (fun a ha => ⟨hs.of_ok ha, hok a ha⟩) fun e he => hs.of_error he
  unfold packetCtrlConsume
  split
  · exact ⟨h, .refl⟩
  · rename_i hnone
    split
    · exact ⟨h, .refl⟩
    · rename_i hnone'
      -- no rule of the mask is on the timer
      have hidle : ∀ i, p.ruleMask.has i = true →
          (p.userRef i).bucket ∉ t.pending ∧ TcId.user (p.userRef i) ∉ t.pending := by
        intro i hi
        have hb := RuleMask.eq_zero_iff.mp (RuleMask.ffs_eq_none.mp hnone) i
        have hu := RuleMask.eq_zero_iff.mp (RuleMask.ffs_eq_none.mp hnone') i
        simp only [RuleMask.has_and, hi, Bool.and_true] at hb hu
        rw [h.pendingOk.mask, h.pendingOk.mask]
        refine ⟨fun e => ?_, fun e => ?_⟩
        · exact Bool.false_ne_true (hb.symm.trans e)
        · exact Bool.false_ne_true (hu.symm.trans e)
      have hfold := sat_foldlM (f := fun t i => userConsume t (p.userRef i) p.pktLen)
        (E := TokenStop cfg)
        (fun l t₁ => (TokensOk cfg users t₁ ∧ Charges cfg users t t₁) ∧ l.Nodup ∧
          ∀ i ∈ l, p.ruleMask.has i = true ∧
            (p.userRef i).bucket ∉ t₁.pending ∧ TcId.user (p.userRef i) ∉ t₁.pending)
        p.ruleMask.bits t
        ⟨⟨h, .refl⟩, p.ruleMask.nodup_bits, fun i hi =>
          ⟨RuleMask.mem_bits.mp hi, hidle i (RuleMask.mem_bits.mp hi)⟩⟩ ?_
      · exact hfold.bind fun t' ht' => ht'.1
      · rintro i l t₁ ⟨⟨ht, hpath⟩, hnd, hl⟩
        obtain ⟨hi, hb, hnu⟩ := hl i List.mem_cons_self
        obtain ⟨hil, hnd⟩ := List.nodup_cons.mp hnd
        refine (ht.userConsume_sat (r := p.userRef i) hu (hp i hi) hb hnu p.len_lt).mono ?_ fun _ he => he
        rintro t' ⟨ht', hpath', hgrow⟩
        refine ⟨⟨ht', hpath.trans hpath'⟩, hnd, fun j hj => ?_⟩
        obtain ⟨hj', hjb, hju⟩ := hl j (List.mem_cons_of_mem i hj)
        have hji : j ≠ i := fun e => hil (e ▸ hj)
        obtain ⟨hne₁, hne₂⟩ := userRef_ne (p := p) hji
        refine ⟨hj', fun hmem => ?_, fun hmem => ?_⟩
        · rcases hgrow _ hmem with hm | he | he
          · exact hjb hm
          · exact hne₂ he
          · exact bucket_ne_user _ _ he
        · rcases hgrow _ hmem with hm | he | he
          · exact hju hm
          · exact bucket_ne_user _ _ he.symm
          · exact hne₁ he

/-- A pending token control has no debt. -/
theorem pending_nonneg (h : TokensOk cfg users t) {X : TcId} (hX : X ∈ t.pending) :
    0 ≤ (t.tc X).tokens :=
  (h.ctrl X (h.live X hX).1 (h.live X hX).2).nonneg

/-- A pending token control can be fired. -/
theorem fire_sat (h : TokensOk cfg users t) {X : TcId} (hX : X ∈ t.pending) :
    Sat (fire t X) (fun t' => TokensOk cfg users t' ∧ Fired t X t') (fun _ => False) := by
  have hrule : ¬ t.nrRule ≤ X.rule.val := by
    rw [h.nrRule]
    exact not_le.mpr (h.live X hX).1.rule_lt
  have hrun : fire t X = .ok (({ t with
      pending := t.pending.erase X, nrPending := t.nrPending - 1 } : TokenState).clrInactive X) := by
    simp only [fire, timerDel, bind_eq_ok, stopIf_eq_ok, pure_eq_ok]
    exact ⟨_, ⟨(), not_lt.mpr (h.pending_nonneg hX), (), by simpa using hX, rfl⟩, (), hrule, rfl⟩
  refine sat_intro (fun t' ht' => ?_) (fun e he => ?_)
  · have hf := fire_ok ht'
    refine ⟨⟨hf.frame.HZ.trans h.HZ, hf.frame.nrRule.trans h.nrRule, hf.pendingOk h.pendingOk,
      fun Y hY => ?_, fun Y hY => (hf.frame.rate Y).trans (h.rate Y hY), fun Y hY hpos => ?_,
      fun hpos Y => ?_⟩, hf⟩
    · exact h.live Y ((hf.mem_pending h.pendingOk).mp hY).2
    · rw [hf.tc]
      exact h.ctrl Y hY hpos
    · rw [hf.tc]
      exact h.nonneg hpos Y
  · rw [hrun] at he
    cases he

end TokensOk

end Tbq
