/-
# On whose behalf the broker publishes

A message comes from a client that has passed the checks of its connect command, except
for the will of one that was turned down: its parameters are stored before they are
checked, and `close_client` publishes what they say.
-/
import OpenwrtAc.SandsRegistry

open CString LuaTable Rds Outcome

namespace Sands

variable {N : Type}

/-- While `fd` is served, messages that were written come from connections that have passed their
    checks, and so do the clients that are authenticated or have left a will. -/
structure Authentic (fd : Fd) (s : Broker N) : Prop where
  out : ∀ fd' o t m, (fd', Written.pb o t m) ∈ s.out → o ∈ s.passed
  auth : ∀ fd' c, get s.clientmap fd' = some c → c.state = .auth →
    c.conn ∈ s.passed ∧ ∃ kp, c.param.bind Param.kp = some kp
  will : ∀ fd' c p, get s.clientmap fd' = some c → c.param = some p → p.will ≠ none →
    c.conn ∈ s.passed
  new : ∀ fd' c, fd' ≠ fd → get s.clientmap fd' = some c → c.state = .new → c.param = none

theorem Authentic.dropped {fd fd₀ : Fd} {s : Broker N} (h : Authentic fd s) (c₀ : Client N) :
    Authentic fd (s.dropped fd₀ c₀) := by
  obtain ⟨hpassed, hout, -⟩ := dropped_frame s fd₀ c₀
  refine ⟨?_, fun fd' c hc => ?_, fun fd' c p hc => ?_,
    fun fd' c hne hc => h.new fd' c hne (get_dropped_iff.1 hc).2⟩
  · rw [hpassed, hout]
    exact h.out
  · rw [hpassed]
    exact h.auth fd' c (get_dropped_iff.1 hc).2
  · rw [hpassed]
    exact h.will fd' c p (get_dropped_iff.1 hc).2

theorem Authentic.wrote {fd fd₀ : Fd} {s : Broker N} (h : Authentic fd s) (m : Written) (ok : Bool)
    (hm : ∀ o t p, m = .pb o t p → o ∈ s.passed) : Authentic fd (s.wrote fd₀ m ok) where
  out fd' o t p hmem := by
    cases ok with
    | false => exact h.out fd' o t p hmem
    | true =>
      rcases List.mem_append.1 hmem with hmem | hmem
      · exact h.out fd' o t p hmem
      · have heq := List.mem_singleton.1 hmem
        exact hm o t p (Prod.mk.inj heq).2.symm
  auth := h.auth
  will := h.will
  new := h.new

/-- A client is stored again. -/
theorem Authentic.setClient {fd fd₀ : Fd} {s : Broker N} {c' : Client N} (h : Authentic fd s)
    (hauth : c'.state = .auth → c'.conn ∈ s.passed ∧ ∃ kp, c'.param.bind Param.kp = some kp)
    (hwill : ∀ p, c'.param = some p → p.will ≠ none → c'.conn ∈ s.passed)
    (hnew : fd₀ ≠ fd → c'.state = .new → c'.param = none) : Authentic fd (s.setClient fd₀ c') where
  out := h.out
  auth := forall_setClient h.auth hauth
  will fd' c p hc := forall_setClient (P := fun _ c => ∀ p, c.param = some p → p.will ≠ none → c.conn ∈ s.passed)
    (fun fd' c hc p => h.will fd' c p hc) hwill fd' c hc p
  new fd' c hne hc := forall_setClient (P := fun fd' c => fd' ≠ fd → c.state = .new → c.param = none)
    (fun fd' c hc hne => h.new fd' c hne hc) hnew fd' c hc hne

/-- What is published on behalf of connections that have passed is authentic. -/
theorem authentic_serves (w : World) (fd : Fd) (passed : List ℕ) :
    Serves (N := N) w (fun s => s.passed = passed ∧ Authentic fd s) (fun o _ _ => o ∈ passed)
      fun _ => True where
  tick h := ⟨h.1, h.2.out, h.2.auth, h.2.will, h.2.new⟩
  drop {_ _ c} h _ _ := ⟨(dropped_frame _ _ _).1.trans h.1, h.2.dropped c⟩
  noId _ _ _ _ := trivial
  will h hc hp hwill := h.1 ▸ h.2.will _ _ _ hc hp (by simp [hwill])
  encode _ _ := trivial
  dead _ _ _ := trivial
  wrote ok h hP := ⟨h.1, h.2.wrote _ ok fun o t p heq => by cases heq; exact h.1 ▸ hP⟩
  fail _ := trivial
  touch {_ _ c} _ _ h hc :=
    ⟨h.1, h.2.setClient (h.2.auth _ c hc) (h.2.will _ c · hc) (h.2.new _ c · hc)⟩
  other m ok hm h := ⟨h.1, h.2.wrote m ok fun o t p heq => absurd heq (hm o t p)⟩
  authed h hc hs := (h.2.auth _ _ hc hs).2

/-! ## Runs -/

/-- A chunk does not make a new client leave a will with a connect command that is turned down: for
    its parameters, its version or its password, for its topics or for its name. -/
def WillChecked (num : Numbers N) (_ : World) (s : Broker N) : Event → Prop
  | .data fd data => ∀ c m, get s.clientmap fd = some c → connectParam num c data = some m →
      m.will ≠ none → m.checks num = true ∧ [] ∉ m.parts ∧
        ∀ cd, m.cd = some cd → get s.clientid2fd cd = none
  | _ => True

/-- A client that was served is authenticated or gone. -/
theorem authentic_of_finished {fd : Fd} {s : Broker N} (h : Authentic fd s)
    (hdone : ∀ c, get s.clientmap fd = some c → c.state = .auth) (fd' : Fd) : Authentic fd' s where
  out := h.out
  auth := h.auth
  will := h.will
  new fd'' c _ hc hs := by
    by_cases heq : fd'' = fd
    · exact absurd ((hdone c (heq ▸ hc)).symm.trans hs) (by decide)
    · exact h.new fd'' c heq hc hs

/-- A new client offers parameters without a will. -/
theorem Authentic.offer {fd : Fd} {s : Broker N} {c : Client N} {m : Param N} (h : Authentic fd s)
    (hnew : c.state = .new) (hwill : m.will = none) : Authentic fd (s.offer fd c m) :=
  h.setClient (fun hs => absurd (hnew.symm.trans hs) (by decide))
    (fun p hp hne => absurd hwill ((Option.some.inj hp) ▸ hne)) fun hne => absurd rfl hne

/-- Subscriptions do not matter. -/
theorem Authentic.subscribeAll {fd fd₀ : Fd} {s : Broker N} (h : Authentic fd s)
    (topics : List Bytes) : Authentic fd (s.subscribeAll fd₀ topics) := by
  obtain ⟨hclients, -, hpassed, hout⟩ := subscribeAll_frame s fd₀ topics
  refine ⟨?_, ?_, ?_, ?_⟩
  · rw [hout, hpassed]
    exact h.out
  · rw [hclients, hpassed]
    exact h.auth
  · rw [hclients, hpassed]
    exact h.will
  · rw [hclients]
    exact h.new

/-- A new client passes all checks. -/
theorem Authentic.enroll {fd : Fd} {s : Broker N} {c : Client N} {m : Param N} (cd : Bytes)
    (h : Authentic fd s) (hnew : c.state = .new) :
    Authentic fd ((s.enroll fd c m).register cd fd c.conn) := by
  have hget : ∀ fd', get ((s.enroll fd c m).register cd fd c.conn).clientmap fd'
      = if fd' = fd then some { c with param := some m.withTopics } else get s.clientmap fd' :=
    fun fd' => get_enroll s fd fd' c m
  have hpassed : ((s.enroll fd c m).register cd fd c.conn).passed = c.conn :: s.passed := by
    rw [Broker.register, (enroll_frame s fd c m).2.1]
  refine ⟨fun fd' o t p hmem => ?_, fun fd' c' hc' hs => ?_, fun fd' c' p hc' hp hne => ?_,
    fun fd' c' hne hc' => ?_⟩
  · rw [Broker.register, (enroll_frame s fd c m).2.2] at hmem
    rw [hpassed]
    exact List.mem_cons_of_mem _ (h.out fd' o t p hmem)
  · rw [hpassed]
    rw [hget] at hc'
    split at hc'
    · cases hc'
      exact absurd (hnew.symm.trans hs) (by decide)
    · obtain ⟨hmem, hkp⟩ := h.auth fd' c' hc' hs
      exact ⟨List.mem_cons_of_mem _ hmem, hkp⟩
  · rw [hpassed]
    rw [hget] at hc'
    split at hc'
    · cases hc'
      exact List.mem_cons_self
    · exact List.mem_cons_of_mem _ (h.will fd' c' p hc' hp hne)
  · rw [hget, if_neg hne] at hc'
    exact h.new fd' c' hne hc'

/-- A connect command of a new client that leaves no will if it is turned down. -/
theorem authentic_cn {num : Numbers N} {w : World} {fd : Fd} {map : Table Bytes Bytes}
    {r : List (List Bytes)} {s : Broker N} {c : Client N} (h : Authentic fd s)
    (hc : get s.clientmap fd = some c) (hs : c.state = .new)
    (hok : (Param.ofMap num map).will ≠ none → (Param.ofMap num map).checks num = true ∧
      [] ∉ (Param.ofMap num map).parts ∧
      ∀ cd, (Param.ofMap num map).cd = some cd → get s.clientid2fd cd = none) :
    Sat (cn num w fd map s >>= afterFirst num w fd r) (Finished (Authentic fd) fd) fun _ => True := by
  have k := authentic_serves (N := N) w fd s.passed
  -- a command that is turned down leaves no will, and nothing is published for it
  have hreject : ∀ (msg : Bytes) (s' : Broker N), s'.passed = s.passed → Authentic fd s' →
      Sat (reject w fd msg s' >>= afterFirst num w fd r) (Finished (Authentic fd) fd) fun _ => True :=
    fun msg s' hpassed h' => Sat.mono (k.rejected (s := s') ⟨hpassed, h'⟩ fun _ _ => trivial)
      (fun _ h => ⟨h.1.2, h.2⟩) fun _ _ => trivial
  rcases cn_cases num w map hc hs with ⟨hchecks, msg, -, heq⟩ | ⟨-, hempty, heq⟩ |
      ⟨-, -, cd, hcd, ⟨fd', hreg⟩, heq⟩ | ⟨hchecks, -, cd, hcd, hfree, heq⟩
  · have hno : (Param.ofMap num map).will = none := by
      by_contra hne
      exact absurd ((hok hne).1.symm.trans hchecks) (by decide)
    rw [heq]
    exact hreject msg _ rfl (h.offer hs hno)
  · have hno : (Param.ofMap num map).will = none := by
      by_contra hne
      exact absurd hempty (hok hne).2.1
    rw [heq]
    exact hreject _ _ (subscribeAll_frame _ _ _).2.2.1 ((h.offer hs hno).subscribeAll _)
  · have hno : (Param.ofMap num map).will = none := by
      by_contra hne
      exact absurd (((hok hne).2.2 cd hcd).symm.trans hreg) (by simp)
    rw [heq]
    exact hreject _ _ (enroll_frame _ _ _ _).2.1 (((h.offer hs hno).subscribeAll _).offer hs hno)
  · have k' := authentic_serves (N := N) w fd (c.conn :: s.passed)
    have henroll : ((s.enroll fd c (Param.ofMap num map)).register cd fd c.conn).passed
        = c.conn :: s.passed := by
      rw [Broker.register, (enroll_frame _ _ _ _).2.1]
    rw [heq]
    refine (k'.accepted (c := { c with param := some (Param.ofMap num map).withTopics })
      ⟨henroll, h.enroll cd hs⟩ ?_ (fun _ _ _ => List.mem_cons_self) ?_
      fun _ _ _ _ _ _ _ => List.mem_cons_self).mono (fun _ h => ⟨h.1.2, h.2⟩) fun _ _ => trivial
    · rw [get_enroll, if_pos rfl]
    · rintro s' ⟨hpassed', h'⟩ hc'
      obtain ⟨kp, hkp⟩ := Param.checks_kp hchecks
      have hmem : c.conn ∈ s'.passed := hpassed' ▸ List.mem_cons_self
      exact ⟨hpassed', h'.setClient (fun _ => ⟨hmem, kp, hkp⟩) (fun _ _ _ => hmem) (by simp)⟩

/-- A chunk of a run in which wills are checked. -/
theorem authentic_data {num : Numbers N} {w : World} {fd : Fd} {data : Bytes} {s : Broker N}
    {c : Client N} (h : ∀ fd, Authentic fd s) (hc : get s.clientmap fd = some c)
    (hok : WillChecked num w s (.data fd data)) :
    Sat (onClientData num w fd data s) (Finished (Authentic fd) fd) fun _ => True := by
  have k := authentic_serves (N := N) w fd s.passed
  cases hs : c.state with
  | auth =>
    have hconn := (h fd).auth fd c hc hs
    exact (k.onClientData_auth ⟨rfl, h fd⟩ hc hs (fun _ _ => trivial)
      fun _ _ _ _ _ _ _ _ _ _ => hconn.1).mono (fun _ h => ⟨h.1.2, h.2⟩) fun _ _ => trivial
  | new =>
    have hnone := (h (fd + 1)).new fd c (Nat.ne_of_lt fd.lt_succ_self) hc hs
    refine (k.onClientData_new (F := Finished (Authentic fd) fd) (fun _ h => ⟨h.1.2, h.2⟩) ⟨rfl, h fd⟩
      hc hs hnone (fun _ _ => trivial) (fun _ _ => trivial) fun arr r d hdec hid htouch => ?_).mono
      (fun _ h => h) fun _ _ => trivial
    exact Sat.mono (authentic_cn htouch.2 (get_set_self _ _ _) hs
      (hok c _ hc (connectParam_eq num hs hdec hid))) (fun _ h => h) fun _ _ => .inl trivial

theorem authentic_step {num : Numbers N} {w : World} {s s' : Broker N} {e : Event}
    (h : ∀ fd, Authentic fd s) (hp : Possible s e) (hok : WillChecked num w s e)
    (hs : step num w s e = .ok s') (fd : Fd) : Authentic fd s' := by
  have hclose : ∀ fd₀, s.close w fd₀ = .ok s' → Authentic fd s' := by
    intro fd₀ hs
    have := ((authentic_serves w fd₀ s.passed).close ⟨rfl, h fd₀⟩).of_ok hs
    exact authentic_of_finished this.1.2 (fun c hc => by simp [this.2] at hc) fd
  cases e with
  | connection fd₀ =>
    have hnone : get s.clientmap fd₀ = none := hp
    simp only [step, onConnection, hnone] at hs
    cases hs
    have hset : Authentic fd (s.setClient fd₀ ⟨s.conns, none, .new, true, rdsNew⟩) :=
      (h fd).setClient (by simp) (by simp) (by simp)
    exact ⟨hset.out, hset.auth, hset.will, hset.new⟩
  | data fd₀ data =>
    obtain ⟨c, hc⟩ := hp
    have := (authentic_data h hc hok).of_ok hs
    exact authentic_of_finished this.1 (fun c hc => (this.2 c hc).1) fd
  | hangup fd₀ => exact hclose fd₀ hs
  | timeout fd₀ => exact hclose fd₀ hs

theorem authentic_reachable {num : Numbers N} {s : Broker N} (h : Reachable num (WillChecked num) s)
    (fd : Fd) : Authentic fd s := by
  induction h generalizing fd with
  | new => exact ⟨by simp [new], by simp [new], by simp [new], by simp [new]⟩
  | step _ hp hok hs ih => exact authentic_step ih hp hok hs fd

/-- In every run in which wills are checked, what is delivered comes from connections that have
    passed all checks of their connect command. -/
theorem delivered_authentic (num : Numbers N) (s : Broker N) (h : Reachable num (WillChecked num) s)
    (fd : Fd) (origin : ℕ) (topic payload : Bytes)
    (hout : (fd, Written.pb origin topic payload) ∈ s.out) : origin ∈ s.passed :=
  (authentic_reachable h fd).out fd origin topic payload hout

/-- A client connects and publishes to itself. -/
def connectPublish : Bytes := connectA ++ writeMsg (["idpb", "tpt", "plm"].map asciiBytes)

theorem delivered_authentic_self :
    ∃ s, step naturals calm oneClient (.data 1 connectPublish) = .ok s
      ∧ (1, Written.pb 0 [116] [109]) ∈ s.out ∧ 0 ∈ s.passed := by
  obtain ⟨s, hs, htest⟩ := ok_of_any (show ((step naturals calm oneClient
    (.data 1 connectPublish)).toOption.any fun s => (1, Written.pb 0 [116] [109]) ∈ s.out) = true by
      decide +kernel)
  have hout : (1, Written.pb 0 [116] [109]) ∈ s.out := by simpa using htest
  have h₁ : Reachable naturals (WillChecked naturals) oneClient :=
    .step (w := calm) (e := .connection 1) .new rfl trivial rfl
  have hok : WillChecked naturals calm oneClient (.data 1 connectPublish) := by
    intro c m hc hm hwill
    obtain rfl := Option.some.inj hc
    have hno : (connectParam naturals ⟨0, none, .new, true, rdsNew⟩ connectPublish).all
        (fun m => m.will = none) = true := by decide +kernel
    rw [hm] at hno
    exact absurd (by simpa using hno) hwill
  have h₂ := Reachable.step (e := .data 1 connectPublish) h₁ ⟨_, rfl⟩ hok hs
  exact ⟨s, hs, hout, delivered_authentic naturals s h₂ 1 0 [116] [109] hout⟩

/-- A client with a will and the wrong password. -/
def badPassword : Bytes :=
  writeMsg (["idcn", "cdb", "vvv0.1", "unx", "pwx", "kp30", "tpu", "wtt", "wpm"].map asciiBytes)

/-- The will of a client with a wrong password is published. -/
theorem will_not_authentic :
    ¬ ∀ s : Broker ℕ, Reachable naturals (fun _ _ _ => True) s → ∀ fd origin topic payload,
      (fd, Written.pb origin topic payload) ∈ s.out → origin ∈ s.passed := by
  intro h
  have hrun : ((run naturals calm [.connection 1, .data 1 connectA, .connection 2,
      .data 2 badPassword] new).any fun s =>
        decide ((1, Written.pb 1 [116] [109]) ∈ s.out) && decide (1 ∉ s.passed)) = true := by
    decide +kernel
  cases hs : run naturals calm [.connection 1, .data 1 connectA, .connection 2,
      .data 2 badPassword] new with
  | none => simp [hs] at hrun
  | some s =>
    simp only [hs, Option.any_some, Bool.and_eq_true, decide_eq_true_eq] at hrun
    exact hrun.2 (h s (Reachable.new.run hs) 1 1 [116] [109] hrun.1)

end Sands
