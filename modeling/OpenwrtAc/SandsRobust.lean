/-
# Callbacks of the broker that come to their end

What a client may send without stopping the broker: chunks that the decoder gets through
and that, before the client is authenticated, bring a whole message; connect commands
with a name; messages that are short enough to be sent on.
-/
import OpenwrtAc.SandsAuth

open CString LuaTable Rds Outcome

namespace Sands

variable {N : Type}

/-- While `fd` is served, clients with parameters have a name and a will that can be sent, and
    `topic2client` has no dead subscribers. -/
structure Sturdy (fd : Fd) (s : Broker N) : Prop where
  topics : TopicsMatch s
  params : ∀ fd' c p, get s.clientmap fd' = some c → c.param = some p →
    p.cd ≠ none ∧ ∀ t m, p.will = some (t, m) → Fits t m
  auth : ∀ fd' c, get s.clientmap fd' = some c → c.state = .auth →
    ∃ kp, c.param.bind Param.kp = some kp
  new : ∀ fd' c, fd' ≠ fd → get s.clientmap fd' = some c → c.state = .new → c.param = none

theorem Sturdy.dropped {fd fd₀ : Fd} {s : Broker N} {c₀ : Client N} (h : Sturdy fd s)
    (hc₀ : get s.clientmap fd₀ = some c₀) : Sturdy fd (s.dropped fd₀ c₀) where
  topics := h.topics.dropped hc₀
  params fd' c p hc := h.params fd' c p (get_dropped_iff.1 hc).2
  auth fd' c hc := h.auth fd' c (get_dropped_iff.1 hc).2
  new fd' c hne hc := h.new fd' c hne (get_dropped_iff.1 hc).2

/-- A client that is stored again with the same parameters. -/
theorem Sturdy.setClient {fd fd₀ : Fd} {s : Broker N} {c c' : Client N} (h : Sturdy fd s)
    (hc : get s.clientmap fd₀ = some c) (hparam : c'.param = c.param)
    (hauth : c'.state = .auth → ∃ kp, c'.param.bind Param.kp = some kp)
    (hnew : c'.state = .new → c.state = .new) : Sturdy fd (s.setClient fd₀ c') := by
  refine ⟨h.topics.setClient hc hparam, fun fd' c₁ p h₁ hp => ?_, forall_setClient h.auth hauth,
    fun fd' c₁ hne h₁ => ?_⟩
  · exact forall_setClient (P := fun _ c => ∀ p, c.param = some p → p.cd ≠ none ∧ ∀ t m, p.will = some (t, m) → Fits t m)
      (fun fd' c hc p => h.params fd' c p hc) (fun p hp => h.params fd₀ c p hc (hparam ▸ hp)) fd' c₁ h₁ p hp
  · exact forall_setClient (P := fun fd' c => fd' ≠ fd → c.state = .new → c.param = none)
      (fun fd' c hc hne => h.new fd' c hne hc)
      (fun hne hs => hparam.trans (h.new fd₀ c hne hc (hnew hs))) fd' c₁ h₁ hne

/-- Nothing stops closing and publishing. -/
theorem sturdy_serves (w : World) (fd : Fd) :
    Serves (N := N) w (Sturdy fd) (fun _ t m => Fits t m) fun _ => False where
  tick h := ⟨h.topics, h.params, h.auth, h.new⟩
  drop h _ hc := h.dropped hc
  noId h hc hp hcd := (h.params _ _ _ hc hp).1 hcd
  will h hc hp hwill := (h.params _ _ _ hc hp).2 _ _ hwill
  encode hP herr := by
    obtain ⟨out, hout⟩ := publish_encodes hP
    rw [hout] at herr
    cases herr
  dead h hmem hnone := by
    obtain ⟨c, p, hc, -⟩ := (h.topics _ _).1 hmem
    exact absurd (hnone.symm.trans hc) (by simp)
  wrote _ h _ := ⟨h.topics, h.params, h.auth, h.new⟩
  fail _ := trivial
  touch {_ _ c} _ _ h hc := h.setClient hc rfl (fun hs => h.auth _ c hc hs) id
  other _ _ _ h := ⟨h.topics, h.params, h.auth, h.new⟩
  authed h hc hs := h.auth _ _ hc hs

/-- A new client gets parameters and the subscriptions to their topics. -/
theorem Sturdy.update {fd : Fd} {s s' : Broker N} {c : Client N} {p : Param N} (h : Sturdy fd s)
    (hc : get s.clientmap fd = some c) (hs : c.state = .new) (hnone : c.param = none)
    (hget : ∀ fd', get s'.clientmap fd'
      = if fd' = fd then some { c with param := some p } else get s.clientmap fd')
    (hmem : ∀ t fd', fd' ∈ s'.subscribers t ↔ fd' ∈ s.subscribers t ∨ (fd' = fd ∧ t ∈ p.topics))
    (hcd : p.cd ≠ none) (hwill : ∀ t m, p.will = some (t, m) → Fits t m) : Sturdy fd s' where
  topics := h.topics.update hc hnone hget rfl hmem
  params fd' c' p' hc' hp' := by
    rw [hget] at hc'
    split at hc'
    · cases hc'
      cases hp'
      exact ⟨hcd, hwill⟩
    · exact h.params fd' c' p' hc' hp'
  auth fd' c' hc' hs' := by
    rw [hget] at hc'
    split at hc'
    · cases hc'
      exact absurd (hs.symm.trans hs') (by decide)
    · exact h.auth fd' c' hc' hs'
  new fd' c' hne hc' hs' := by
    rw [hget, if_neg hne] at hc'
    exact h.new fd' c' hne hc' hs'

/-! ## Runs -/

/-- Parameters with which a connect command stops nothing: they have a name, what is published for
    them can be sent, an empty topic is not behind others, and an answer with the name can be
    sent. -/
structure ParamCareful (num : Numbers N) (s : Broker N) (m : Param N) : Prop where
  cd : m.cd ≠ none
  will : ∀ topic payload, m.will = some (topic, payload) → Fits topic payload
  notice : ∀ topic payload, m.notice = some (topic, payload) → Fits topic payload
  topics : m.checks num = true → [] ∈ m.parts → m.parts.head? = some []
  name : m.checks num = true → [] ∉ m.parts → ∀ cd, m.cd = some cd →
    get s.clientid2fd cd ≠ none → cd.length + 16 ≤ 128 * 1024

/-- A chunk that stops nothing: the decoder returns and gives a new client a whole message, a
    connect command and the messages to be published are in order, and writing the client's own
    messages to itself does not fail. -/
structure DataCareful (num : Numbers N) (w : World) (s : Broker N) (fd : Fd) (c : Client N)
    (data : Bytes) : Prop where
  decode : ∀ e, lDecode c.decoder data ≠ .error e
  whole : c.state = .new → ∀ d, lDecode c.decoder data ≠ .ok (some [], d)
  connect : ∀ m, connectParam num c data = some m → ParamCareful num s m
  publish : c.state = .auth ∨ connectParam num c data ≠ none → ∀ r d,
    lDecode c.decoder data = .ok (some r, d) → PublishIn (fun _ t m => Fits t m) c.conn r
  write : ¬ Hurt w fd

/-- The condition on a run: its chunks stop nothing. -/
def Careful (num : Numbers N) (w : World) (s : Broker N) : Event → Prop
  | .data fd data => ∀ c, get s.clientmap fd = some c → DataCareful num w s fd c data
  | _ => True

theorem sturdy_cn {num : Numbers N} {w : World} {fd : Fd} {map : Table Bytes Bytes}
    {r : List (List Bytes)} {s : Broker N} {c : Client N} (h : Sturdy fd s)
    (hc : get s.clientmap fd = some c) (hs : c.state = .new) (hnone : c.param = none)
    (hok : ParamCareful num s (Param.ofMap num map))
    (hr : PublishIn (fun _ t m => Fits t m) c.conn r) :
    Sat (cn num w fd map s >>= afterFirst num w fd r) (Finished (Sturdy fd) fd)
      (StopsFor w (fun _ => False) fd) := by
  have k := sturdy_serves (N := N) w fd
  have htext : (Param.ofMap num map).topics = [] := by
    unfold Param.topics
    split
    next l hl => simp [Param.ofMap] at hl
    · rfl
  have hoffer : Sturdy fd (s.offer fd c (Param.ofMap num map)) :=
    h.update hc hs hnone (fun _ => get_offer _ _ _ _ _)
      (fun t fd' => by simp [htext, Broker.offer, Broker.setClient, Broker.subscribers]) hok.cd hok.will
  have henroll : Sturdy fd (s.enroll fd c (Param.ofMap num map)) :=
    h.update hc hs hnone (fun _ => get_enroll _ _ _ _ _) (fun _ _ => mem_enroll) hok.cd hok.will
  rcases cn_cases num w map hc hs with ⟨-, msg, hlen, heq⟩ | ⟨hchecks, hempty, heq⟩ |
      ⟨hchecks, hne, cd, hcd, ⟨fd', hreg⟩, heq⟩ | ⟨hchecks, -, cd, -, -, heq⟩
  · rw [heq]
    exact k.rejected hoffer fun e he => short_encodes (E := fun _ => False) ⟨by decide, hlen⟩ he
  · rw [heq, takeWhile_of_head (hok.topics hchecks hempty)]
    exact k.rejected hoffer fun e he => short_encodes (E := fun _ => False) (by decide) he
  · rw [heq]
    refine k.rejected henroll fun e herr => ?_
    -- the only answer with a text of the client: its name has to fit into it
    have hname := hok.name hchecks hne cd hcd (by simp [hreg])
    have hprefix : (asciiBytes "already exist ").length = 14 := by decide
    obtain ⟨out, hout⟩ : ∃ out, rdsEncode (connackArr "1" (asciiBytes "already exist " ++ cd)) = .ok out := by
      refine connack_encodes (by decide) ?_
      rw [List.length_append, hprefix]
      omega
    rw [hout] at herr
    cases herr
  · rw [heq]
    refine k.accepted (c := { c with param := some (Param.ofMap num map).withTopics })
      ⟨henroll.topics, henroll.params, henroll.auth, henroll.new⟩ ?_ hok.notice ?_ hr
    · rw [get_enroll, if_pos rfl]
    · intro s' h' hc'
      obtain ⟨kp, hkp⟩ := Param.checks_kp hchecks
      exact h'.setClient hc' rfl (fun _ => ⟨kp, hkp⟩) (by simp)

/-- A chunk that stops nothing. -/
theorem sturdy_data {num : Numbers N} {w : World} {fd : Fd} {data : Bytes} {s : Broker N}
    {c : Client N} (h : ∀ fd, Sturdy fd s) (hc : get s.clientmap fd = some c)
    (hok : DataCareful num w s fd c data) :
    Sat (onClientData num w fd data s) (Finished (Sturdy fd) fd) fun _ => False := by
  have k := sturdy_serves (N := N) w fd
  have hstop : ∀ e, StopsFor w (fun _ => False) fd e → False := by
    rintro e (h | ⟨hhurt, -⟩)
    exacts [h, hok.write hhurt]
  cases hs : c.state with
  | auth =>
    exact (k.onClientData_auth (h fd) hc hs hok.decode (hok.publish (.inl hs))).mono (fun _ h => h) hstop
  | new =>
    have hnone := (h (fd + 1)).new fd c (Nat.ne_of_lt fd.lt_succ_self) hc hs
    refine (k.onClientData_new (F := Finished (Sturdy fd) fd) (fun _ h => h) (h fd) hc hs hnone hok.decode
      (hok.whole hs) fun arr r d hdec hid htouch => ?_).mono (fun _ h => h) hstop
    have hparam := connectParam_eq num hs hdec hid
    have hr := hok.publish (.inr (by simp [hparam])) _ _ hdec
    exact sturdy_cn htouch (get_set_self _ _ _) hs hnone
      (let m := hok.connect _ hparam; ⟨m.cd, m.will, m.notice, m.topics, m.name⟩)
      fun a ha => hr a (List.mem_cons_of_mem arr ha)

/-- Between events a client is authenticated or new, whoever is served next. -/
theorem sturdy_of_finished {fd : Fd} {s : Broker N} (h : Sturdy fd s)
    (hdone : ∀ c, get s.clientmap fd = some c → c.state = .auth) (fd' : Fd) : Sturdy fd' s where
  topics := h.topics
  params := h.params
  auth := h.auth
  new fd'' c _ hc hs := by
    by_cases heq : fd'' = fd
    · exact absurd ((hdone c (heq ▸ hc)).symm.trans hs) (by decide)
    · exact h.new fd'' c heq hc hs

theorem sturdy_connection {fd : Fd} {s s' : Broker N} (h : ∀ fd, Sturdy fd s)
    (hs : onConnection fd s = .ok s') (fd₀ : Fd) : Sturdy fd₀ s' where
  topics := (h fd₀).topics.connection hs
  params fd' c p hc hp := (h fd').params fd' c p ((param_connection hs hp).1 hc) hp
  auth fd' c hc hauth := (h fd').auth fd' c (auth_connection hs hc hauth) hauth
  new fd' c hne hc hnew := by
    obtain ⟨hnone, -⟩ | hc := (onConnection_ok hs).2.2.2 fd' c hc
    · exact hnone
    · exact (h fd₀).new fd' c hne hc hnew

/-- Every callback of a careful run comes to its end. -/
theorem sturdy_step {num : Numbers N} {w : World} {s : Broker N} {e : Event}
    (h : ∀ fd, Sturdy fd s) (hp : Possible s e) (hok : Careful num w s e) :
    Sat (step num w s e) (fun s' => (∀ fd, Sturdy fd s') ∧
      ∀ fd data, e = .data fd data → ∀ c, get s'.clientmap fd = some c → c.timer = true)
      fun _ => False := by
  have hclose : ∀ fd, Sat (s.close w fd) (fun s' => ∀ fd, Sturdy fd s') fun _ => False :=
    fun fd => ((sturdy_serves w fd).close (h fd)).mono
      (fun s' h' => sturdy_of_finished h'.1 fun c hc => by simp [h'.2] at hc) fun _ h => h
  cases e with
  | connection fd =>
    refine sat_intro (fun s' hs => ⟨sturdy_connection h hs, by simp⟩) fun e he => ?_
    have hnone : get s.clientmap fd = none := hp
    simp [step, onConnection, hnone] at he
  | data fd data =>
    obtain ⟨c, hc⟩ := hp
    refine (sturdy_data h hc (hok c hc)).mono (fun s' h' => ⟨?_, ?_⟩) fun _ h => h
    · exact sturdy_of_finished h'.1 fun c hc => (h'.2 c hc).1
    · rintro fd' data' heq c hc
      cases heq
      exact (h'.2 c hc).2
  | hangup fd => exact (hclose fd).mono (fun s' h' => ⟨h', by simp⟩) fun _ h => h
  | timeout fd => exact (hclose fd).mono (fun s' h' => ⟨h', by simp⟩) fun _ h => h

theorem sturdy_reachable {num : Numbers N} {s : Broker N} (h : Reachable num (Careful num) s)
    (fd : Fd) : Sturdy fd s := by
  induction h generalizing fd with
  | new =>
    refine ⟨fun t fd' => ?_, by simp [new], by simp [new], by simp [new]⟩
    simp [new, Broker.subscribers]
  | step _ hp hok hs ih => exact ((sturdy_step ih hp hok).of_ok hs).1 fd

/-- In a careful run every callback comes to its end, and a chunk leaves its client with a running
    timer or closes it. -/
theorem careful_step (num : Numbers N) (s : Broker N) (h : Reachable num (Careful num) s)
    (w : World)
    (e : Event) (hp : Possible s e) (hok : Careful num w s e) :
    ∃ s', step num w s e = .ok s' ∧ ∀ fd data, e = .data fd data →
      ∀ c, get s'.clientmap fd = some c → c.timer = true := by
  obtain ⟨s', hs, -, htimer⟩ := (sturdy_step (sturdy_reachable h) hp hok).exists_ok
  exact ⟨s', hs, htimer⟩

/-- A whole connect command in one chunk. -/
theorem careful_connectA : Careful naturals calm oneClient (.data 1 connectA) := by
  intro c hc
  obtain rfl := Option.some.inj hc
  have hdec : lDecode rdsNew connectA
      = .ok (some [connectFields ["cda", "tpt"]], ⟨[], 32 * 1024, .new, 0, []⟩) := by decide +kernel
  refine ⟨fun e => ?_, fun _ d => ?_, fun m hm => ?_, fun _ r d hr => ?_, ?_⟩
  · simp [hdec]
  · simp [hdec]
  · have htest : (connectParam naturals ⟨0, none, .new, true, rdsNew⟩ connectA).all (fun m =>
        m.cd = some [97] ∧ m.will = none ∧ m.notice = none ∧ m.parts = [[116]]) = true := by
      decide +kernel
    rw [hm] at htest
    obtain ⟨hcd, hwill, hnotice, hparts⟩ : m.cd = some [97] ∧ m.will = none ∧ m.notice = none
        ∧ m.parts = [[116]] := by simpa using htest
    refine ⟨by simp [hcd], by simp [hwill], by simp [hnotice], fun _ h => ?_, fun _ _ cd _ h => ?_⟩
    · simp [hparts] at h
    · exact absurd rfl h
  · simp only [hdec, Except.ok.injEq, Prod.mk.injEq, Option.some.injEq] at hr
    obtain ⟨rfl, -⟩ := hr
    intro arr harr hid
    obtain rfl := List.mem_singleton.1 harr
    exact absurd hid (by decide +kernel)
  · rintro ⟨n, hn⟩
    cases hn

theorem careful_step_connectA :
    ∃ s, step naturals calm oneClient (.data 1 connectA) = .ok s ∧ ∀ fd data,
      Event.data 1 connectA = .data fd data → ∀ c, get s.clientmap fd = some c → c.timer = true := by
  have h₁ : Reachable naturals (Careful naturals) oneClient :=
    .step (w := calm) (e := .connection 1) .new rfl trivial rfl
  exact careful_step naturals oneClient h₁ calm (.data 1 connectA) ⟨_, rfl⟩ careful_connectA

/-- The first byte of a connect command, alone in a chunk, ends in an error. -/
theorem part_not_robust :
    ¬ ∀ (s : Broker ℕ), Reachable naturals (fun _ _ _ => True) s → ∀ w e, Possible s e →
      ∃ s', step naturals w s e = .ok s' ∧ ∀ fd data, e = .data fd data →
        ∀ c, get s'.clientmap fd = some c → c.timer = true := by
  intro h
  have h₁ : Reachable naturals (fun _ _ _ => True) oneClient :=
    .step (w := calm) (e := .connection 1) .new rfl trivial rfl
  obtain ⟨s', hs, -⟩ := h oneClient h₁ calm (.data 1 [42]) ⟨_, rfl⟩
  have herr : step naturals calm oneClient (.data 1 [42]) = .error .indexNil := by decide
  rw [herr] at hs
  cases hs

end Sands
