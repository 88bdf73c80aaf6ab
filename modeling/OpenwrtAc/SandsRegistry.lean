/-
# Who is registered with the broker

`clientid2fd` and `topic2client` say the same as the parameters of the clients, as long
as no client offers a name that is taken or a list of topics with an empty one behind
others: `close_client` undoes what the parameters say and not what was done.
-/
import OpenwrtAc.SandsCommands

open CString LuaTable Rds Outcome

namespace Sands

variable {N : Type}

/-- `topic2client` is what the parameters of the clients say. -/
def TopicsMatch (s : Broker N) : Prop :=
  ∀ t fd, fd ∈ s.subscribers t ↔
    ∃ c p, get s.clientmap fd = some c ∧ c.param = some p ∧ t ∈ p.topics

theorem get_dropped_iff {s : Broker N} {fd fd' : Fd} {c c' : Client N} :
    get (s.dropped fd c).clientmap fd' = some c' ↔ fd' ≠ fd ∧ get s.clientmap fd' = some c' := by
  rw [get_dropped]
  split
  next heq => simp [heq]
  next hne => simp [hne]

/-- What holds of every client holds still when one of which it holds is stored again. -/
theorem forall_setClient {s : Broker N} {fd₀ : Fd} {c' : Client N} {P : Fd → Client N → Prop}
    (h : ∀ fd c, get s.clientmap fd = some c → P fd c) (hP : P fd₀ c') :
    ∀ fd c, get (s.setClient fd₀ c').clientmap fd = some c → P fd c := by
  intro fd c hc
  rw [Broker.setClient, get_set] at hc
  split at hc
  next heq =>
    cases hc
    exact heq ▸ hP
  · exact h fd c hc

theorem TopicsMatch.dropped {s : Broker N} {fd : Fd} {c : Client N} (h : TopicsMatch s)
    (hc : get s.clientmap fd = some c) : TopicsMatch (s.dropped fd c) := by
  intro t fd'
  rw [mem_dropped, h]
  constructor
  · rintro ⟨⟨c', p, hc', hp, ht⟩, hnot⟩
    refine ⟨c', p, get_dropped_iff.2 ⟨?_, hc'⟩, hp, ht⟩
    rintro rfl
    obtain rfl := Option.some.inj (hc.symm.trans hc')
    exact hnot ⟨rfl, p, hp, ht⟩
  · rintro ⟨c', p, hc', hp, ht⟩
    obtain ⟨hne, hc'⟩ := get_dropped_iff.1 hc'
    exact ⟨⟨c', p, hc', hp, ht⟩, fun hnot => hne hnot.1⟩

/-- A client without topics gets parameters and subscribes to their topics. -/
theorem TopicsMatch.update {s s' : Broker N} {fd : Fd} {c c' : Client N} {p : Param N}
    (h : TopicsMatch s) (hc : get s.clientmap fd = some c) (hnone : c.param = none)
    (hget : ∀ fd', get s'.clientmap fd' = if fd' = fd then some c' else get s.clientmap fd')
    (hp : c'.param = some p)
    (hmem : ∀ t fd', fd' ∈ s'.subscribers t ↔ fd' ∈ s.subscribers t ∨ (fd' = fd ∧ t ∈ p.topics)) :
    TopicsMatch s' := by
  intro t fd'
  rw [hmem, hget, h]
  by_cases heq : fd' = fd
  · subst heq
    simp [hc, hnone, hp]
  · simp [heq]

/-- A client that is stored again with the same parameters. -/
theorem TopicsMatch.setClient {s : Broker N} {fd : Fd} {c c' : Client N} (h : TopicsMatch s)
    (hc : get s.clientmap fd = some c) (hparam : c'.param = c.param) :
    TopicsMatch (s.setClient fd c') := by
  intro t fd'
  refine (h t fd').trans ?_
  rw [Broker.setClient, get_set]
  split
  next heq =>
    subst heq
    simp [hc, hparam]
  next => rfl

/-- The tables while `fd` is served: they are those of the parameters, a name that is offered is
    not taken, and a client has parameters with topics if it is authenticated and none before. -/
structure Registry (fd : Fd) (s : Broker N) : Prop where
  topics : TopicsMatch s
  ids : ∀ cd fd', get s.clientid2fd cd = some fd' ↔
    ∃ c p l, get s.clientmap fd' = some c ∧ c.param = some p ∧ p.cd = some cd
      ∧ p.tp = some (.topics l)
  pending : ∀ c p cd, get s.clientmap fd = some c → c.param = some p →
    (∀ l, p.tp ≠ some (.topics l)) → p.cd = some cd → get s.clientid2fd cd = none
  auth : ∀ fd' c, get s.clientmap fd' = some c → c.state = .auth →
    ∃ p l kp, c.param = some p ∧ p.tp = some (.topics l) ∧ p.kp = some kp
  new : ∀ fd' c, fd' ≠ fd → get s.clientmap fd' = some c → c.state = .new → c.param = none

/-- Of the clients that are not served, what has parameters has topics. -/
theorem Registry.settled {fd fd' : Fd} {s : Broker N} (h : Registry fd s) (hne : fd' ≠ fd)
    {c : Client N} {p : Param N} (hc : get s.clientmap fd' = some c) (hp : c.param = some p) :
    ∃ l, p.tp = some (.topics l) := by
  cases hs : c.state with
  | new => exact absurd (h.new fd' c hne hc hs) (by simp [hp])
  | auth =>
    obtain ⟨p', l, kp, hp', htp, -⟩ := h.auth fd' c hc hs
    obtain rfl := Option.some.inj (hp.symm.trans hp')
    exact ⟨l, htp⟩

/-- The name of a client is no other client's name in `clientid2fd`. -/
theorem Registry.name_unique {fd fd₀ fd' : Fd} {s : Broker N} (h : Registry fd s) {c₀ : Client N}
    {p₀ : Param N} {cd : Bytes} (hc₀ : get s.clientmap fd₀ = some c₀) (hp₀ : c₀.param = some p₀)
    (hcd : p₀.cd = some cd) (hid : get s.clientid2fd cd = some fd') : fd' = fd₀ := by
  by_cases htopics : ∃ l, p₀.tp = some (.topics l)
  · obtain ⟨l, hl⟩ := htopics
    exact Option.some.inj (hid.symm.trans ((h.ids cd fd₀).2 ⟨c₀, p₀, l, hc₀, hp₀, hcd, hl⟩))
  · -- without topics it is the client that is served, and its name is not taken
    by_cases hfd : fd₀ = fd
    · subst hfd
      have := h.pending c₀ p₀ cd hc₀ hp₀ (not_exists.1 htopics) hcd
      exact absurd (this.symm.trans hid) (by simp)
    · exact absurd (h.settled hfd hc₀ hp₀) htopics

theorem Registry.dropped {fd fd₀ : Fd} {s : Broker N} {c₀ : Client N} (h : Registry fd s)
    (hc₀ : get s.clientmap fd₀ = some c₀) : Registry fd (s.dropped fd₀ c₀) where
  topics := h.topics.dropped hc₀
  ids cd fd' := by
    rw [get_clientid2fd_dropped]
    constructor
    · intro hid
      split at hid
      · cases hid
      next hnot =>
        obtain ⟨c, p, l, hc, hp, hcd, hl⟩ := (h.ids cd fd').1 hid
        refine ⟨c, p, l, get_dropped_iff.2 ⟨?_, hc⟩, hp, hcd, hl⟩
        rintro rfl
        obtain rfl := Option.some.inj (hc₀.symm.trans hc)
        exact hnot (by rw [hp]; exact hcd)
    · rintro ⟨c, p, l, hc, hp, hcd, hl⟩
      obtain ⟨hne, hc⟩ := get_dropped_iff.1 hc
      have hid := (h.ids cd fd').2 ⟨c, p, l, hc, hp, hcd, hl⟩
      rw [if_neg, hid]
      intro hname
      obtain ⟨p₀, hp₀, hcd₀⟩ := Option.bind_eq_some_iff.1 hname
      exact hne (h.name_unique hc₀ hp₀ hcd₀ hid)
  pending c p cd hc hp htp hcd := by
    have := h.pending c p cd (get_dropped_iff.1 hc).2 hp htp hcd
    rw [get_clientid2fd_dropped, this, ite_self]
  auth fd' c hc := h.auth fd' c (get_dropped_iff.1 hc).2
  new fd' c hne hc := h.new fd' c hne (get_dropped_iff.1 hc).2

/-- A client that is stored again with the same parameters. -/
theorem Registry.setClient {fd fd₀ : Fd} {s : Broker N} {c c' : Client N} (h : Registry fd s)
    (hc : get s.clientmap fd₀ = some c) (hparam : c'.param = c.param)
    (hauth : c'.state = .auth → ∃ p l kp, c'.param = some p ∧ p.tp = some (.topics l)
      ∧ p.kp = some kp) (hnew : c'.state = .new → c.state = .new) :
    Registry fd (s.setClient fd₀ c') := by
  have hget : ∀ fd', get (s.setClient fd₀ c').clientmap fd'
      = if fd' = fd₀ then some c' else get s.clientmap fd' := fun fd' => get_set _ _ _ _
  refine ⟨h.topics.setClient hc hparam, fun cd fd' => ?_, fun c₁ p cd h₁ hp htp hcd => ?_,
    forall_setClient h.auth hauth, fun fd' c₁ hne h₁ => ?_⟩
  · refine (h.ids cd fd').trans ?_
    rw [hget]
    split
    next heq =>
      subst heq
      simp [hc, hparam]
    next => rfl
  · rw [hget] at h₁
    split at h₁
    next heq =>
      cases h₁
      exact h.pending c p cd (heq ▸ hc) (hparam ▸ hp) htp hcd
    next => exact h.pending c₁ p cd h₁ hp htp hcd
  · exact forall_setClient (P := fun fd' c => fd' ≠ fd → c.state = .new → c.param = none)
      (fun fd' c hc hne => h.new fd' c hne hc)
      (fun hne hs => hparam.trans (h.new fd₀ c hne hc (hnew hs))) fd' c₁ h₁ hne

/-- The tables are kept by closing and publishing, and no subscriber is dead. -/
theorem registry_serves (w : World) (fd : Fd) :
    Serves (N := N) w (Registry fd) (fun _ _ _ => True) (· ≠ .deadSubscriber) where
  tick h := ⟨h.topics, h.ids, h.pending, h.auth, h.new⟩
  drop h _ hc := h.dropped hc
  noId _ _ _ _ := by decide
  will _ _ _ _ := trivial
  encode _ _ := by simp
  dead h hmem hnone := by
    obtain ⟨c, p, hc, -⟩ := (h.topics _ _).1 hmem
    exact absurd (hnone.symm.trans hc) (by simp)
  wrote _ h _ := ⟨h.topics, h.ids, h.pending, h.auth, h.new⟩
  fail _ := trivial
  touch {_ _ c} _ _ h hc := h.setClient hc rfl (fun hs => h.auth _ c hc hs) id
  other _ _ _ h := ⟨h.topics, h.ids, h.pending, h.auth, h.new⟩
  authed h hc hs := by
    obtain ⟨p, l, kp, hp, -, hkp⟩ := h.auth _ _ hc hs
    exact ⟨kp, by rw [hp]; exact hkp⟩

/-- A new client offers parameters with a name that is not taken. -/
theorem Registry.offer {fd : Fd} {s : Broker N} {c : Client N} {m : Param N} (h : Registry fd s)
    (hc : get s.clientmap fd = some c) (hnew : c.state = .new) (hnone : c.param = none)
    (htext : ∀ l, m.tp ≠ some (.topics l)) (hname : ∀ cd, m.cd = some cd → get s.clientid2fd cd = none) :
    Registry fd (s.offer fd c m) where
  topics := h.topics.update hc hnone (fun _ => get_offer _ _ _ _ _) rfl fun t fd' => by
    have hno : m.topics = [] := by
      unfold Param.topics
      split
      next l hl => exact absurd hl (htext l)
      · rfl
    simp [hno, Broker.offer, Broker.setClient, Broker.subscribers]
  ids cd fd' := by
    refine (h.ids cd fd').trans ?_
    rw [get_offer]
    split
    next heq =>
      subst heq
      simp [hc, hnone, htext]
    next => rfl
  pending c' p cd hc' hp htp hcd := by
    rw [get_offer, if_pos rfl] at hc'
    cases hc'
    cases hp
    exact hname cd hcd
  auth fd' c' hc' hs := by
    rw [get_offer] at hc'
    split at hc'
    · cases hc'
      exact absurd (hnew.symm.trans hs) (by decide)
    · exact h.auth fd' c' hc' hs
  new fd' c' hne hc' hs := by
    rw [get_offer, if_neg hne] at hc'
    exact h.new fd' c' hne hc' hs

/-- A new client gets its topics and its name. -/
theorem Registry.enroll {fd : Fd} {s : Broker N} {c : Client N} {m : Param N} {cd : Bytes}
    (h : Registry fd s) (hc : get s.clientmap fd = some c) (hnew : c.state = .new)
    (hnone : c.param = none) (hcd : m.cd = some cd) (hname : get s.clientid2fd cd = none) :
    Registry fd ((s.enroll fd c m).register cd fd c.conn) where
  topics := h.topics.update hc hnone (fun _ => get_enroll _ _ _ _ _) rfl fun _ _ => mem_enroll
  ids cd' fd' := by
    have hids : get ((s.enroll fd c m).register cd fd c.conn).clientid2fd cd'
        = if cd' = cd then some fd else get s.clientid2fd cd' := by
      rw [Broker.register, get_set, (enroll_frame _ _ _ _).1]
    have hget : get ((s.enroll fd c m).register cd fd c.conn).clientmap fd'
        = if fd' = fd then some { c with param := some m.withTopics } else get s.clientmap fd' :=
      get_enroll _ _ _ _ _
    rw [hids, hget]
    by_cases hfd : fd' = fd
    · subst hfd
      rw [if_pos rfl]
      by_cases hcd' : cd' = cd
      · subst hcd'
        rw [if_pos rfl]
        exact ⟨fun _ => ⟨_, _, m.parts, rfl, rfl, hcd, rfl⟩, fun _ => rfl⟩
      · rw [if_neg hcd', h.ids]
        constructor
        · -- the client had no parameters, so no name led to it
          rintro ⟨c', p, l, hc', hp, -⟩
          obtain rfl := Option.some.inj (hc.symm.trans hc')
          exact absurd (hnone.symm.trans hp) (by simp)
        · rintro ⟨c', p, l, hc', hp, hcd'', -⟩
          cases hc'
          cases hp
          exact absurd (Option.some.inj (hcd''.symm.trans hcd)) hcd'
    · rw [if_neg hfd]
      by_cases hcd' : cd' = cd
      · subst hcd'
        -- the name was free, so it led to no other client
        rw [if_pos rfl, ← h.ids, hname]
        simp [Ne.symm hfd]
      · rw [if_neg hcd', h.ids]
  pending c' p cd' hc' hp htp _ := by
    have hget := get_enroll s fd fd c m
    rw [if_pos rfl] at hget
    obtain rfl := Option.some.inj (hget.symm.trans hc')
    cases hp
    exact absurd rfl (htp m.parts)
  auth fd' c' hc' hs := by
    have hget := get_enroll s fd fd' c m
    split at hget
    · obtain rfl := Option.some.inj (hget.symm.trans hc')
      exact absurd (hnew.symm.trans hs) (by decide)
    · exact h.auth fd' c' (hget.symm.trans hc') hs
  new fd' c' hne hc' hs := by
    have hget := get_enroll s fd fd' c m
    rw [if_neg hne] at hget
    exact h.new fd' c' hne (hget.symm.trans hc') hs

/-! ## Runs -/

/-- A chunk does not make a new client offer a name that is taken, nor topics, behind parameters
    that pass the checks, of which one is empty and not the first. -/
def Honest (num : Numbers N) (_ : World) (s : Broker N) : Event → Prop
  | .data fd data => ∀ c m, get s.clientmap fd = some c → connectParam num c data = some m →
      (∀ cd, m.cd = some cd → get s.clientid2fd cd = none) ∧
      (m.checks num = true → [] ∈ m.parts → m.parts.head? = some [])
  | _ => True

/-- The tables agree with the clients that have completed their connect command. -/
structure Consistent (s : Broker N) : Prop where
  ids : ∀ cd fd, get s.clientid2fd cd = some fd ↔
    ∃ c p, get s.clientmap fd = some c ∧ c.state = .auth ∧ c.param = some p ∧ p.cd = some cd
  topics : ∀ t fd, fd ∈ s.subscribers t ↔
    ∃ c p, get s.clientmap fd = some c ∧ c.state = .auth ∧ c.param = some p ∧ t ∈ p.topics

/-- Between events the tables are those of the parameters, whoever is served next. -/
theorem consistent_of_registry {s : Broker N} (h : ∀ fd, Registry fd s) : Consistent s := by
  have hstate : ∀ {fd c p}, get s.clientmap fd = some c → c.param = some p → c.state = .auth := by
    intro fd c p hc hp
    cases hs : c.state with
    | new => exact absurd ((h (fd + 1)).new fd c (Nat.ne_of_lt fd.lt_succ_self) hc hs) (by simp [hp])
    | auth => rfl
  refine ⟨fun cd fd => ((h fd).ids cd fd).trans ⟨?_, ?_⟩, fun t fd => ((h fd).topics t fd).trans ⟨?_, ?_⟩⟩
  · rintro ⟨c, p, l, hc, hp, hcd, -⟩
    exact ⟨c, p, hc, hstate hc hp, hp, hcd⟩
  · rintro ⟨c, p, hc, hs, hp, hcd⟩
    obtain ⟨p', l, kp, hp', hl, -⟩ := (h fd).auth fd c hc hs
    obtain rfl := Option.some.inj (hp.symm.trans hp')
    exact ⟨c, p, l, hc, hp, hcd, hl⟩
  · rintro ⟨c, p, hc, hp, ht⟩
    exact ⟨c, p, hc, hstate hc hp, hp, ht⟩
  · rintro ⟨c, p, hc, -, hp, ht⟩
    exact ⟨c, p, hc, hp, ht⟩

/-- A client that was served is authenticated or gone. -/
theorem registry_of_finished {fd : Fd} {s : Broker N} (h : Registry fd s)
    (hdone : ∀ c, get s.clientmap fd = some c → c.state = .auth) (fd' : Fd) : Registry fd' s where
  topics := h.topics
  ids := h.ids
  auth := h.auth
  pending c p cd hc hp htp _ := by
    have hauth : c.state = .auth := by
      by_cases heq : fd' = fd
      · exact hdone c (heq ▸ hc)
      · cases hs : c.state with
        | new => exact absurd (h.new fd' c heq hc hs) (by simp [hp])
        | auth => rfl
    obtain ⟨p', l, kp, hp', hl, -⟩ := h.auth fd' c hc hauth
    obtain rfl := Option.some.inj (hp.symm.trans hp')
    exact absurd hl (htp l)
  new fd'' c _ hc hs := by
    by_cases heq : fd'' = fd
    · exact absurd ((hdone c (heq ▸ hc)).symm.trans hs) (by decide)
    · exact h.new fd'' c heq hc hs

/-- A connection adds a client, which is new and has no parameters. -/
theorem onConnection_ok {fd : Fd} {s s' : Broker N} (hs : onConnection fd s = .ok s') :
    (∀ t, s'.subscribers t = s.subscribers t) ∧ s'.clientid2fd = s.clientid2fd ∧
      (∀ fd' c, get s.clientmap fd' = some c → get s'.clientmap fd' = some c) ∧
      ∀ fd' c, get s'.clientmap fd' = some c →
        c.param = none ∧ c.state = .new ∨ get s.clientmap fd' = some c := by
  unfold onConnection at hs
  split at hs
  · cases hs
  next hnone =>
    cases hs
    refine ⟨fun _ => rfl, rfl, fun fd' c hc => ?_, fun fd' c hc => ?_⟩
    · refine (get_set _ _ _ _).trans ?_
      rwa [if_neg (by rintro rfl; simp [hnone] at hc)]
    · have hc := (get_set _ _ _ _).symm.trans hc
      split at hc
      · cases hc
        exact .inl ⟨rfl, rfl⟩
      · exact .inr hc

/-- The parameters that there are, are there before and after a connection. -/
theorem param_connection {fd : Fd} {s s' : Broker N} (hs : onConnection fd s = .ok s') {fd' : Fd}
    {c : Client N} {p : Param N} (hp : c.param = some p) :
    get s'.clientmap fd' = some c ↔ get s.clientmap fd' = some c := by
  obtain ⟨-, -, hkeep, hfrom⟩ := onConnection_ok hs
  refine ⟨fun hc => ?_, hkeep fd' c⟩
  obtain ⟨hnone, -⟩ | hc := hfrom fd' c hc
  · exact absurd (hnone.symm.trans hp) (by simp)
  · exact hc

theorem TopicsMatch.connection {fd : Fd} {s s' : Broker N} (h : TopicsMatch s)
    (hs : onConnection fd s = .ok s') : TopicsMatch s' := by
  intro t fd'
  rw [(onConnection_ok hs).1, h]
  constructor
  · rintro ⟨c, p, hc, hp, ht⟩
    exact ⟨c, p, (param_connection hs hp).2 hc, hp, ht⟩
  · rintro ⟨c, p, hc, hp, ht⟩
    exact ⟨c, p, (param_connection hs hp).1 hc, hp, ht⟩

theorem auth_connection {fd fd' : Fd} {s s' : Broker N} {c : Client N}
    (hs : onConnection fd s = .ok s') (hc : get s'.clientmap fd' = some c)
    (hauth : c.state = .auth) : get s.clientmap fd' = some c := by
  obtain ⟨-, hnew⟩ | hc := (onConnection_ok hs).2.2.2 fd' c hc
  · exact absurd (hnew.symm.trans hauth) (by decide)
  · exact hc

theorem registry_connection {fd : Fd} {s s' : Broker N} (h : ∀ fd, Registry fd s)
    (hs : onConnection fd s = .ok s') (fd₀ : Fd) : Registry fd₀ s' where
  topics := (h fd₀).topics.connection hs
  ids cd fd' := by
    rw [(onConnection_ok hs).2.1, (h fd').ids]
    constructor
    · rintro ⟨c, p, l, hc, hp, hcd⟩
      exact ⟨c, p, l, (param_connection hs hp).2 hc, hp, hcd⟩
    · rintro ⟨c, p, l, hc, hp, hcd⟩
      exact ⟨c, p, l, (param_connection hs hp).1 hc, hp, hcd⟩
  pending c p cd hc hp := by
    rw [(onConnection_ok hs).2.1]
    exact (h fd₀).pending c p cd ((param_connection hs hp).1 hc) hp
  auth fd' c hc hauth := (h fd').auth fd' c (auth_connection hs hc hauth) hauth
  new fd' c hne hc hnew := by
    obtain ⟨hnone, -⟩ | hc := (onConnection_ok hs).2.2.2 fd' c hc
    · exact hnone
    · exact (h fd₀).new fd' c hne hc hnew

/-- A chunk of an honest run. -/
theorem registry_data {num : Numbers N} {w : World} {fd : Fd} {data : Bytes} {s : Broker N}
    {c : Client N} (h : ∀ fd, Registry fd s) (hc : get s.clientmap fd = some c)
    (hok : Honest num w s (.data fd data)) :
    Sat (onClientData num w fd data s) (Finished (Registry fd) fd)
      (StopsFor w (· ≠ .deadSubscriber) fd) := by
  have k := registry_serves (N := N) w fd
  cases hs : c.state with
  | auth => exact k.onClientData_auth (h fd) hc hs (by simp) fun _ _ _ _ _ _ _ _ _ _ => trivial
  | new =>
    have hnone := (h (fd + 1)).new fd c (Nat.ne_of_lt fd.lt_succ_self) hc hs
    refine k.onClientData_new (fun _ h => h) (h fd) hc hs hnone (by simp) (by simp) ?_
    intro arr r d hdec hid htouch
    obtain ⟨hname, htopics⟩ := hok c _ hc (connectParam_eq num hs hdec hid)
    have hget : get (s.setClient fd { c with timer := false, decoder := d }).clientmap fd
        = some { c with timer := false, decoder := d } := get_set_self _ _ _
    have htext : ∀ l, (Param.ofMap num (tomap arr)).tp ≠ some (.topics l) := by
      intro l
      simp [Param.ofMap]
    have hoffer := htouch.offer hget hs hnone htext hname
    rcases cn_cases num w (tomap arr) hget hs with ⟨-, msg, -, heq⟩ | ⟨hchecks, hempty, heq⟩ |
        ⟨-, -, cd, hcd, ⟨fd', hreg⟩, -⟩ | ⟨hchecks, -, cd, hcd, hfree, heq⟩
    · rw [heq]
      exact k.rejected hoffer (by simp)
    · -- the empty topic is the first one, so there is no subscription
      rw [heq, takeWhile_of_head (htopics hchecks hempty)]
      exact k.rejected hoffer (by simp)
    · exact absurd ((hname cd hcd).symm.trans hreg) (by simp)
    · rw [heq]
      refine k.accepted (htouch.enroll hget hs hnone hcd hfree) ?_ (fun _ _ _ => trivial) ?_
        fun _ _ _ _ _ _ _ => trivial
      · rw [get_enroll, if_pos rfl]
      · intro s' h' hc'
        obtain ⟨kp, hkp⟩ := Param.checks_kp hchecks
        exact h'.setClient hc' rfl (fun _ => ⟨_, _, kp, rfl, rfl, hkp⟩) (by simp)

/-- The callbacks of an honest run keep the tables, and publish to no dead subscriber. -/
theorem registry_step {num : Numbers N} {w : World} {s : Broker N} {e : Event}
    (h : ∀ fd, Registry fd s) (hp : Possible s e) (hok : Honest num w s e) :
    Sat (step num w s e) (fun s' => ∀ fd, Registry fd s') (· ≠ .deadSubscriber) := by
  have hclose : ∀ fd, Sat (s.close w fd) (fun s' => ∀ fd, Registry fd s') (· ≠ .deadSubscriber) :=
    fun fd => ((registry_serves w fd).close (h fd)).mono
      (fun s' h' => registry_of_finished h'.1 fun c hc => by simp [h'.2] at hc) fun _ h => h
  cases e with
  | connection fd =>
    refine sat_intro (fun s' hs => registry_connection h hs) fun e he => ?_
    have hnone : get s.clientmap fd = none := hp
    simp [step, onConnection, hnone] at he
  | data fd data =>
    obtain ⟨c, hc⟩ := hp
    refine (registry_data h hc hok).mono
      (fun s' h' => registry_of_finished h'.1 fun c hc => (h'.2 c hc).1) ?_
    rintro e (he | ⟨-, rfl | rfl⟩)
    · exact he
    · decide
    · decide
  | hangup fd => exact hclose fd
  | timeout fd => exact hclose fd

theorem registry_reachable {num : Numbers N} {s : Broker N} (h : Reachable num (Honest num) s)
    (fd : Fd) : Registry fd s := by
  induction h generalizing fd with
  | new =>
    refine ⟨fun t fd' => ?_, fun cd fd' => ?_, fun c p cd hc => ?_, fun fd' c hc => ?_,
      fun fd' c hne hc => ?_⟩
    all_goals simp [new, Broker.subscribers] at *
  | step _ hp hok hs ih => exact (registry_step ih hp hok).of_ok hs fd

/-- In every state of an honest run the tables are those of the clients, and the next callback does
    not find a dead subscriber. -/
theorem reachable_consistent (num : Numbers N) (s : Broker N) (h : Reachable num (Honest num) s) :
    Consistent s ∧ ∀ w e, Possible s e → Honest num w s e →
      step num w s e ≠ .error .deadSubscriber := by
  have hreg := registry_reachable h
  refine ⟨consistent_of_registry hreg, fun w e hp hok herr => ?_⟩
  exact (registry_step hreg hp hok).of_error herr rfl

/-- Numbers that are written with digits only. -/
def naturals : Numbers ℕ where
  tonumber s :=
    if s ≠ [] ∧ s.all (fun c => 48 ≤ c && c ≤ 57) then
      some (s.foldl (fun n c => n * 10 + (c.toNat - 48)) 0)
    else none
  atLeastFive n := 5 ≤ n

/-- A connect command with the version and the password that the broker wants, and some more
    fields. -/
def connectFields (fields : List String) : List Bytes :=
  (["idcn", "vvv0.1", "unewrdcv34!@@@zvdasfFD*s34!@@@fadefsasfvadsfewa123$",
    "pw1fff89167~!223423@$$%^^&&&*&*\x7d\x7b\x7d|/.,/.,.,<>?", "kp30"] ++ fields).map asciiBytes

/-- The broker when a client has connected. -/
def oneClient : Broker ℕ := { new.setClient 1 ⟨0, none, .new, true, rdsNew⟩ with conns := 1 }

/-- What a client sends to connect under the name "a". -/
def connectA : Bytes := writeMsg (connectFields ["cda", "tpt"])

theorem honest_connectA : Honest naturals calm oneClient (.data 1 connectA) := by
  intro c m hc hm
  obtain rfl := Option.some.inj hc
  have htest : (connectParam naturals ⟨0, none, .new, true, rdsNew⟩ connectA).all
      (fun m => m.parts = [[116]]) = true := by decide +kernel
  rw [hm] at htest
  have hparts : m.parts = [[116]] := by simpa using htest
  exact ⟨fun _ _ => rfl, fun _ hempty => by simp [hparts] at hempty⟩

/-- A client connects and subscribes. -/
theorem reachable_consistent_connect :
    ∃ s, step naturals calm oneClient (.data 1 connectA) = .ok s ∧ get s.clientid2fd [97] = some 1
      ∧ Consistent s := by
  obtain ⟨s, hs, htest⟩ := ok_of_any (show ((step naturals calm oneClient (.data 1 connectA)).toOption.any
    fun s => get s.clientid2fd [97] = some 1) = true by decide +kernel)
  have h₁ : Reachable naturals (Honest naturals) oneClient :=
    .step (w := calm) (e := .connection 1) .new rfl trivial rfl
  have h₂ := Reachable.step (e := .data 1 connectA) h₁ ⟨_, rfl⟩ honest_connectA hs
  exact ⟨s, hs, by simpa using htest, (reachable_consistent naturals s h₂).1⟩

/-- A second client offers the name of the first one and is turned down.  The name is gone. -/
theorem duplicate_not_consistent :
    ¬ ∀ s : Broker ℕ, Reachable naturals (fun _ _ _ => True) s →
      Consistent s ∧ ∀ w e, Possible s e → step naturals w s e ≠ .error .deadSubscriber := by
  intro h
  have hrun : ((run naturals calm [.connection 1, .data 1 connectA, .connection 2,
      .data 2 connectA] new).any fun s => get s.clientid2fd [97] = none ∧
        (get s.clientmap 1).any fun c => c.state = .auth ∧ c.param.bind Param.cd = some [97]) = true := by
    decide +kernel
  cases hs : run naturals calm [.connection 1, .data 1 connectA, .connection 2, .data 2 connectA] new with
  | none => simp [hs] at hrun
  | some s =>
    simp only [hs, Option.any_some, Bool.decide_and, Bool.and_eq_true, decide_eq_true_eq,
      Option.any_eq_true] at hrun
    obtain ⟨hgone, c, hc, hauth, hcd⟩ := hrun
    obtain ⟨p, hp, hcd⟩ := Option.bind_eq_some_iff.1 hcd
    have := ((h s (Reachable.new.run hs)).1.ids [97] 1).2 ⟨c, p, hc, hauth, hp, hcd⟩
    exact absurd (hgone.symm.trans this) (by simp)

end Sands
