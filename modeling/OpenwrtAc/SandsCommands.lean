/-
# Rules for the commands of the broker

A client that is authenticated stays what it is until it is closed, and whatever a
command does with it is publishing, closing and answering.  Only a connect command of a
new client does more, so what has to be shown for a property of the broker is what this
command does to it.
-/
import Mathlib.Data.List.TakeWhile
import OpenwrtAc.SandsRules

open CString LuaTable Rds Outcome

namespace Sands

variable {N : Type}

/-- What the command handlers need beside the rule for closing: the timer and the decoder of a
    client do not matter, nor do messages to a client that are not published, and a client that is
    authenticated has a keepalive time. -/
structure Serves (w : World) (I : Broker N → Prop) (P : ℕ → Bytes → Bytes → Prop)
    (E : Stop → Prop) : Prop extends Keeps w I P (fun _ => True) E where
  touch : ∀ {s fd c} (timer : Bool) (decoder : Decoder), I s → get s.clientmap fd = some c →
    I (s.setClient fd { c with timer := timer, decoder := decoder })
  other : ∀ {s fd} (m : Written) (ok : Bool), (∀ o t p, m ≠ .pb o t p) → I s → I (s.wrote fd m ok)
  authed : ∀ {s fd c}, I s → get s.clientmap fd = some c → c.state = .auth →
    ∃ kp, c.param.bind Param.kp = some kp

variable {num : Numbers N} {w : World} {I : Broker N → Prop} {P : ℕ → Bytes → Bytes → Prop}
  {E : Stop → Prop} {s : Broker N} {fd : Fd} {c : Client N}

/-- A message to the client cannot be written. -/
def Hurt (w : World) (fd : Fd) : Prop := ∃ n, w.publishWrite n fd = false

/-- A client is as it was, or it was closed because a message to it could not be written. -/
def Stays (w : World) (fd : Fd) (c : Client N) (s : Broker N) : Prop :=
  get s.clientmap fd = some c ∨ (get s.clientmap fd = none ∧ Hurt w fd)

/-- Why a handler stops: for a reason in `E`, or because the client was closed while one of its own
    messages was published. -/
def StopsFor (w : World) (E : Stop → Prop) (fd : Fd) (e : Stop) : Prop :=
  E e ∨ (Hurt w fd ∧ (e = .closedClient ∨ e = .badArgument))

/-- A publish keeps the invariant and the client that sends it. -/
theorem Serves.publish (k : Serves w I P E) {o : ℕ} {t m : Bytes} (hI : I s)
    (hc : get s.clientmap fd = some c) (hP : P o t m) :
    Sat (s.publish w o t m) (fun s' => I s' ∧ Stays w fd c s') E := by
  by_cases hw : Hurt w fd
  · refine ((k.toKeeps.same fd c).publish hP ⟨hI, .inl hc⟩).mono (fun s' h => ⟨h.1, ?_⟩) fun _ h => h
    exact h.2.imp id fun h => ⟨h, hw⟩
  · have hwrite : ∀ n, w.publishWrite n fd = true := fun n => by simpa using not_exists.1 hw n
    have hlive := k.toKeeps.live hwrite c
    exact (hlive.publish hP ⟨hI, hc⟩).mono (fun s' h => ⟨h.1, .inl h.2⟩) fun _ h => h

/-- A close keeps the invariant and forgets the client. -/
theorem Serves.close (k : Serves w I P E) (hI : I s) :
    Sat (s.close w fd) (fun s' => I s' ∧ get s'.clientmap fd = none) E :=
  k.toKeeps.close hI trivial

/-- The answer to a connect keeps the invariant and the clients. -/
theorem Serves.publishConnack (k : Serves w I P E) {st : String} {msg : Bytes} (hI : I s)
    (henc : ∀ e, rdsEncode (connackArr st msg) = .error e → E (.encoder e)) :
    Sat (publishConnack w fd st msg s)
      (fun r => I r.2 ∧ r.2.clientmap = s.clientmap) E := by
  unfold Sands.publishConnack
  cases h : rdsEncode (connackArr st msg) with
  | error e => exact henc e h
  | ok b => exact ⟨k.other _ _ (by simp) hI, rfl⟩

/-- A refused connect keeps the invariant and ends the client's service. -/
theorem Serves.reject (k : Serves w I P E) {msg : Bytes} (hI : I s)
    (henc : ∀ e, rdsEncode (connackArr "1" msg) = .error e → E (.encoder e)) :
    Sat (reject w fd msg s) (fun r => I r.2 ∧ r.1 = false) E := by
  unfold Sands.reject
  exact (k.publishConnack hI henc).bind fun r hr => ⟨hr.1, rfl⟩

/-- A short answer can be written. -/
theorem short_encodes {st : String} {msg : Bytes}
    (h : (asciiBytes st).length ≤ 100 ∧ msg.length ≤ 100)
    {e : Rds.Stop} (he : rdsEncode (connackArr st msg) = .error e) : E (.encoder e) := by
  obtain ⟨out, hout⟩ := connack_encodes h.1 (show msg.length + 2 ≤ 128 * 1024 by omega)
  rw [hout] at he
  cases he

/-! ## Clients that are authenticated -/

/-- Every message of a chunk that is to be published is in `P`. -/
def PublishIn (P : ℕ → Bytes → Bytes → Prop) (conn : ℕ) (r : List (List Bytes)) : Prop :=
  ∀ arr ∈ r, field (tomap arr) "id" = some (asciiBytes "pb") → ∀ topic payload,
    field (tomap arr) "tp" = some topic → field (tomap arr) "pl" = some payload →
    P conn topic payload

/-- What a handler leaves behind: the property and, if the loop goes on, the client. -/
def Served (w : World) (I : Broker N → Prop) (fd : Fd) (c : Client N) (r : Bool × Broker N) : Prop :=
  I r.2 ∧ (r.1 = true → Stays w fd c r.2)

/-- A second connect of a client that is connected. -/
theorem Serves.cn_auth (k : Serves w I P E) (map : Table Bytes Bytes) (hauth : c.state = .auth)
    (hI : I s) (hs : Stays w fd c s) :
    Sat (cn num w fd map s) (Served w I fd c) (StopsFor w E fd) := by
  unfold cn
  rcases hs with hc | ⟨hc, hhurt⟩
  · simp only [hc]
    rw [if_pos (by rw [hauth]; decide)]
    exact (k.reject hI fun e => short_encodes (by decide)).mono
      (fun r h => ⟨h.1, fun ht => by simp [h.2] at ht⟩) fun _ h => .inl h
  · simp only [hc]
    exact .inr ⟨hhurt, .inl rfl⟩

/-- A disconnect keeps the invariant and ends the client's service. -/
theorem Serves.dc (k : Serves w I P E) (hI : I s) :
    Sat (dc w fd s) (fun r => I r.2 ∧ r.1 = false) E := by
  unfold Sands.dc
  exact (k.close hI).bind fun s' h => ⟨h.1, rfl⟩

/-- A publish of a connected client. -/
theorem Serves.pb_auth (k : Serves w I P E) {map : Table Bytes Bytes} (hauth : c.state = .auth)
    (hP : ∀ topic payload, field map "tp" = some topic → field map "pl" = some payload →
      P c.conn topic payload)
    (hI : I s) (hs : Stays w fd c s) : Sat (pb w fd map s) (Served w I fd c) (StopsFor w E fd) := by
  unfold pb
  rcases hs with hc | ⟨hc, hhurt⟩
  · simp only [hc]
    rw [if_neg (by rw [hauth]; decide)]
    split
    next topic payload ht hp =>
      have hpub := k.publish hI hc (hP topic payload ht hp)
      refine Sat.bind (hpub.mono (fun _ h => h) fun _ h => .inl h) fun s' h => ?_
      exact ⟨h.1, fun _ => h.2⟩
    · exact ⟨hI, by simp⟩
  · simp only [hc]
    exact .inr ⟨hhurt, .inl rfl⟩

/-- A ping of a connected client. -/
theorem Serves.pi_auth (k : Serves w I P E) (hauth : c.state = .auth) (hI : I s)
    (hs : Stays w fd c s) : Sat (pi w fd s) (Served w I fd c) (StopsFor w E fd) := by
  unfold pi
  rcases hs with hc | ⟨hc, hhurt⟩
  · have henc : rdsEncode (toarr [("id", asciiBytes "po")])
        = .ok [42, 49, 13, 10, 36, 52, 13, 10, 105, 100, 112, 111, 13, 10] := by decide
    simp only [hc, henc]
    rw [if_neg (by rw [hauth]; decide)]
    exact ⟨k.other _ _ (by simp) hI, fun _ => .inl hc⟩
  · simp only [hc]
    exact .inr ⟨hhurt, .inl rfl⟩

/-- Any command of a connected client. -/
theorem Serves.command_auth (k : Serves w I P E) {map : Table Bytes Bytes} (hauth : c.state = .auth)
    (hP : field map "id" = some (asciiBytes "pb") → ∀ topic payload,
      field map "tp" = some topic → field map "pl" = some payload → P c.conn topic payload)
    (hI : I s) (hs : Stays w fd c s) :
    Sat (command num w fd map s) (Served w I fd c) (StopsFor w E fd) := by
  unfold command
  dsimp only
  split
  · exact k.cn_auth map hauth hI hs
  · split
    · exact (k.dc hI).mono (fun r h => ⟨h.1, fun ht => by simp [h.2] at ht⟩) fun _ h => .inl h
    · split
      next hid => exact k.pb_auth hauth (hP hid) hI hs
      · split
        · exact k.pi_auth hauth hI hs
        · exact ⟨hI, by simp⟩

/-- What a message leaves behind: the property and, if the loop goes on, the client. -/
def Handled (w : World) (I : Broker N → Prop) (fd : Fd) (c : Client N) (r : Bool × Broker N) : Prop :=
  I r.2 ∧ if r.1 then Stays w fd c r.2 else get r.2.clientmap fd = none

/-- A message of a client that is authenticated. -/
theorem Serves.handle_auth (k : Serves w I P E) {arr : List Bytes} (hauth : c.state = .auth)
    (hP : field (tomap arr) "id" = some (asciiBytes "pb") → ∀ topic payload,
      field (tomap arr) "tp" = some topic → field (tomap arr) "pl" = some payload →
      P c.conn topic payload)
    (hI : I s) (hs : Stays w fd c s) :
    Sat (handle num w fd arr s) (Handled w I fd c) (StopsFor w E fd) := by
  unfold handle
  refine (k.command_auth hauth hP hI hs).bind ?_
  rintro ⟨ok, s'⟩ ⟨hI', hstay⟩
  cases ok with
  | true => exact ⟨hI', hstay rfl⟩
  | false =>
    have hclose : Sat (s'.close w fd) (fun s'' => I s'' ∧ get s''.clientmap fd = none) E := k.close hI'
    refine Sat.bind (hclose.mono (fun _ h => h) fun _ h => .inl h) fun s'' h => ?_
    exact ⟨h.1, h.2⟩

/-- All messages of a client that is authenticated. -/
theorem Serves.handleAll_auth (k : Serves w I P E) {r : List (List Bytes)} (hauth : c.state = .auth)
    (hP : PublishIn P c.conn r)
    (hI : I s) (hs : Stays w fd c s) :
    Sat (handleAll num w fd r s) (Handled w I fd c) (StopsFor w E fd) := by
  induction r generalizing s with
  | nil => exact ⟨hI, hs⟩
  | cons arr r ih =>
    rw [handleAll]
    refine (k.handle_auth hauth (hP arr List.mem_cons_self) hI hs).bind ?_
    rintro ⟨more, s'⟩ ⟨hI', hrest⟩
    cases more with
    | true => exact ih (fun a ha => hP a (List.mem_cons_of_mem arr ha)) hI' hrest
    | false => exact ⟨hI', hrest⟩

/-- The timer of a client that is authenticated. -/
theorem Serves.startTimer_auth (k : Serves w I P E) (hauth : c.state = .auth) (hI : I s)
    (hs : Stays w fd c s) :
    Sat (startTimer fd s)
      (fun s' => I s' ∧ get s'.clientmap fd = some { c with timer := true }) (StopsFor w E fd) := by
  unfold startTimer
  rcases hs with hc | ⟨hc, hhurt⟩
  · obtain ⟨kp, hkp⟩ := k.authed hI hc hauth
    simp only [hc, hkp]
    exact ⟨k.touch true c.decoder hI hc, get_set_self _ _ _⟩
  · simp only [hc]
    exact .inr ⟨hhurt, .inr rfl⟩

/-- What a chunk leaves behind: the property, and the client authenticated with a running timer, or
    closed. -/
def Finished (I : Broker N → Prop) (fd : Fd) (s : Broker N) : Prop :=
  I s ∧ ∀ c, get s.clientmap fd = some c → c.state = .auth ∧ c.timer = true

/-- The end of the loop for a client that is authenticated. -/
theorem Serves.finish_auth (k : Serves w I P E) {ret : Except Stop (Bool × Broker N)}
    (hauth : c.state = .auth) (h : Sat ret (Handled w I fd c) (StopsFor w E fd)) :
    Sat (ret >>= fun r => if r.1 then startTimer fd r.2 else pure r.2) (Finished I fd)
      (StopsFor w E fd) := by
  refine h.bind ?_
  rintro ⟨more, s'⟩ ⟨hI', hrest⟩
  cases more with
  | true =>
    refine (k.startTimer_auth hauth hI' hrest).mono (fun s'' h => ⟨h.1, fun c' hc' => ?_⟩) fun _ h => h
    obtain rfl := Option.some.inj (h.2.symm.trans hc')
    exact ⟨hauth, rfl⟩
  | false => exact ⟨hI', fun c' hc' => absurd (hrest.symm.trans hc') (by simp)⟩

/-! ## The connect command -/

/-- The checks of a connect command before its topics are looked at. -/
def Param.checks (num : Numbers N) (m : Param N) : Bool :=
  m.valid num && checkVersion m.vv && checkPassword m.un m.pw

/-- The parameters once the topics are stored in them. -/
def Param.withTopics (m : Param N) : Param N := { m with tp := some (.topics m.parts) }

/-- The broker when a client has subscribed to topics. -/
def Broker.subscribeAll (s : Broker N) (fd : Fd) (topics : List Bytes) : Broker N :=
  topics.foldl (fun s tp => s.subscribe fd tp) s

/-- The broker when the parameters of a client are stored. -/
def Broker.offer (s : Broker N) (fd : Fd) (c : Client N) (m : Param N) : Broker N :=
  s.setClient fd { c with param := some m }

/-- The broker when a client has its parameters, with topics, and has subscribed to them. -/
def Broker.enroll (s : Broker N) (fd : Fd) (c : Client N) (m : Param N) : Broker N :=
  ((s.offer fd c m).subscribeAll fd m.parts).offer fd c m.withTopics

/-- What a lookup finds after a connect's parameters are stored. -/
theorem get_offer (s : Broker N) (fd fd' : Fd) (c : Client N) (m : Param N) :
    get (s.offer fd c m).clientmap fd'
      = if fd' = fd then some { c with param := some m } else get s.clientmap fd' := get_set _ _ _ _

/-- Subscribing changes the subscriptions only. -/
theorem subscribeAll_frame (s : Broker N) (fd : Fd) (topics : List Bytes) :
    (s.subscribeAll fd topics).clientmap = s.clientmap
      ∧ (s.subscribeAll fd topics).clientid2fd = s.clientid2fd
      ∧ (s.subscribeAll fd topics).passed = s.passed ∧ (s.subscribeAll fd topics).out = s.out := by
  obtain ⟨table, htable⟩ := foldl_subscribe_frame fd topics s
  rw [Broker.subscribeAll, htable]
  exact ⟨rfl, rfl, rfl, rfl⟩

/-- What a lookup finds after the topics are cut into parts. -/
theorem get_enroll (s : Broker N) (fd fd' : Fd) (c : Client N) (m : Param N) :
    get (s.enroll fd c m).clientmap fd'
      = if fd' = fd then some { c with param := some m.withTopics } else get s.clientmap fd' := by
  rw [Broker.enroll, get_offer, (subscribeAll_frame _ _ _).1, get_offer]
  split <;> rfl

/-- Who subscribes after the topics of a connect are entered. -/
theorem mem_enroll {s : Broker N} {fd fd' : Fd} {c : Client N} {m : Param N} {t : Bytes} :
    fd' ∈ (s.enroll fd c m).subscribers t ↔ fd' ∈ s.subscribers t ∨ (fd' = fd ∧ t ∈ m.parts) :=
  mem_foldl_subscribe m.parts (s.offer fd c m)

/-- Entering the topics changes neither the ids nor the output. -/
theorem enroll_frame (s : Broker N) (fd : Fd) (c : Client N) (m : Param N) :
    (s.enroll fd c m).clientid2fd = s.clientid2fd ∧ (s.enroll fd c m).passed = s.passed
      ∧ (s.enroll fd c m).out = s.out :=
  (subscribeAll_frame (s.offer fd c m) fd m.parts).2

/-- What the loop over the parts of the topics computes. -/
theorem addTopics_eq (fd : Fd) (parts : List Bytes) (count : ℕ) (topics : List Bytes)
    (s : Broker N) :
    addTopics fd parts count topics s =
      (if [] ∈ parts then 0 else count + parts.length, topics ++ parts.takeWhile (· ≠ []),
        s.subscribeAll fd (parts.takeWhile (· ≠ []))) := by
  induction parts generalizing count topics s with
  | nil => simp [addTopics, Broker.subscribeAll]
  | cons part parts ih =>
    rw [addTopics]
    split
    next h => simp [h, Broker.subscribeAll]
    next h =>
      have h' : ¬ [] = part := fun heq => h heq.symm
      rw [ih]
      simp [h, h', Broker.subscribeAll, Nat.add_assoc, Nat.add_comm 1]

/-- Without an empty part every topic is taken. -/
theorem takeWhile_of_not_mem {parts : List Bytes} (h : [] ∉ parts) :
    parts.takeWhile (· ≠ []) = parts := by
  refine List.takeWhile_eq_self_iff.2 fun part hpart => ?_
  simp only [decide_eq_true_eq]
  rintro rfl
  exact h hpart

/-- An empty part in front and no topic is taken. -/
theorem takeWhile_of_head {parts : List Bytes} (h : parts.head? = some []) :
    parts.takeWhile (· ≠ []) = [] := by
  cases parts with
  | nil => rfl
  | cons part parts =>
    obtain rfl := Option.some.inj h
    rfl

/-- A connect that passes the checks has a client id. -/
theorem Param.checks_cd {m : Param N} (h : m.checks num = true) :
    ∃ cd, m.cd = some cd := by
  simp only [Param.checks, Param.valid, given, Bool.and_eq_true] at h
  cases hcd : m.cd with
  | none => simp [hcd] at h
  | some cd => exact ⟨cd, rfl⟩

/-- A connect that passes the checks has a keepalive time. -/
theorem Param.checks_kp {m : Param N} (h : m.checks num = true) : ∃ kp, m.kp = some kp := by
  simp only [Param.checks, Param.valid, Bool.and_eq_true] at h
  cases hkp : m.kp with
  | none => simp [hkp] at h
  | some kp => exact ⟨kp, rfl⟩

/-- A connect that passes the checks has a topic. -/
theorem Param.checks_parts {m : Param N} (h : m.checks num = true) : m.parts ≠ [] := by
  simp only [Param.checks, Param.valid, Bool.and_eq_true] at h
  unfold Param.parts
  split
  · simp
  next hne =>
    cases htp : m.tp with
    | none => simp [htp] at h
    | some tp =>
      cases tp with
      | text s => exact absurd htp (hne s)
      | topics l => simp [htp] at h

/-- A connect command of a new client, with its parameters and its topics in the tables. -/
theorem cn_new (num : Numbers N) (w : World) (map : Table Bytes Bytes) {m : Param N}
    (hm : Param.ofMap num map = m) (hc : get s.clientmap fd = some c) (hnew : c.state = .new) :
    cn num w fd map s =
      if !m.valid num then reject w fd (asciiBytes "invalid param") (s.offer fd c m)
      else if !checkVersion m.vv then reject w fd (asciiBytes "invalid version") (s.offer fd c m)
      else if !checkPassword m.un m.pw then
        reject w fd (asciiBytes "invalid authorization") (s.offer fd c m)
      else
        let (count, topics, s) := addTopics fd m.parts 0 [] (s.offer fd c m)
        if count = 0 then reject w fd (asciiBytes "invalid topics") s
        else
          let m := { m with tp := some (.topics topics) }
          match get s.clientid2fd (m.cd.getD []) with
          | some _ => reject w fd (asciiBytes "already exist " ++ m.cd.getD []) (s.offer fd c m)
          | none => connect w fd { c with param := some m } m (m.cd.getD []) (s.offer fd c m) := by
  subst hm
  unfold cn
  simp only [hc]
  rw [if_neg (by simp [hnew])]
  rfl

/-- Parameters that do not pass the checks. -/
theorem cn_unchecked (num : Numbers N) (w : World) (map : Table Bytes Bytes)
    (hc : get s.clientmap fd = some c) (hnew : c.state = .new)
    (hchecks : ¬ (Param.ofMap num map).checks num = true) :
    ∃ msg : Bytes, msg.length ≤ 100 ∧
      cn num w fd map s = reject w fd msg (s.offer fd c (Param.ofMap num map)) := by
  rw [cn_new num w map rfl hc hnew]
  split
  · exact ⟨_, by decide, rfl⟩
  next hvalid =>
    split
    · exact ⟨_, by decide, rfl⟩
    next hversion =>
      split
      · exact ⟨_, by decide, rfl⟩
      next hpassword =>
        simp only [Bool.not_eq_true', Bool.not_eq_false] at hvalid hversion hpassword
        exact absurd (by simp [Param.checks, hvalid, hversion, hpassword]) hchecks

/-- What a connect command does for a new client: it is turned down for its parameters, its topics
    or its name, or it is accepted. -/
theorem cn_cases (num : Numbers N) (w : World) (map : Table Bytes Bytes)
    (hc : get s.clientmap fd = some c)
    (hnew : c.state = .new) :
    let m := Param.ofMap num map
    (m.checks num = false ∧ ∃ msg : Bytes, msg.length ≤ 100
      ∧ cn num w fd map s = reject w fd msg (s.offer fd c m)) ∨
    (m.checks num = true ∧ [] ∈ m.parts ∧ cn num w fd map s = reject w fd (asciiBytes "invalid topics")
      ((s.offer fd c m).subscribeAll fd (m.parts.takeWhile (· ≠ [])))) ∨
    (m.checks num = true ∧ [] ∉ m.parts ∧ ∃ cd, m.cd = some cd
      ∧ (∃ fd', get s.clientid2fd cd = some fd')
      ∧ cn num w fd map s = reject w fd (asciiBytes "already exist " ++ cd)
        (s.enroll fd c m)) ∨
    (m.checks num = true ∧ [] ∉ m.parts ∧ ∃ cd, m.cd = some cd ∧ get s.clientid2fd cd = none
      ∧ cn num w fd map s = connect w fd { c with param := some m.withTopics } m.withTopics cd
        (s.enroll fd c m)) := by
  intro m
  have hcn := cn_new num w map (m := m) rfl hc hnew
  by_cases hchecks : m.checks num = true
  · right
    have hvalid := hchecks
    simp only [Param.checks, Bool.and_eq_true] at hvalid
    simp only [hvalid.1.1, hvalid.1.2, hvalid.2, Bool.not_true, Bool.false_eq_true, if_false,
      addTopics_eq] at hcn
    -- an empty topic makes the count zero, whatever stands before it
    by_cases hempty : [] ∈ m.parts
    · simp only [hempty, if_true] at hcn
      exact .inl ⟨hchecks, hempty, hcn⟩
    · right
      have hpos := List.length_pos_of_ne_nil (Param.checks_parts hchecks)
      obtain ⟨cd, hcd⟩ := Param.checks_cd hchecks
      rw [if_neg hempty, if_neg (by omega), takeWhile_of_not_mem hempty] at hcn
      have hget : m.cd.getD [] = cd := by rw [hcd]; rfl
      simp only [hget, List.nil_append] at hcn
      -- subscribing leaves the names alone
      have hids : ((s.offer fd c m).subscribeAll fd m.parts).clientid2fd = s.clientid2fd :=
        (subscribeAll_frame _ _ _).2.1
      rw [hids] at hcn
      cases hreg : get s.clientid2fd cd with
      | some fd' =>
        simp only [hreg] at hcn
        exact .inl ⟨hchecks, hempty, cd, hcd, ⟨fd', hreg⟩, hcn⟩
      | none =>
        simp only [hreg] at hcn
        exact .inr ⟨hchecks, hempty, cd, hcd, hreg, hcn⟩
  · exact .inl ⟨by simpa using hchecks, cn_unchecked num w map hc hnew hchecks⟩

/-- The broker when a connect command has passed all checks. -/
def Broker.register (s : Broker N) (cd : Bytes) (fd : Fd) (conn : ℕ) : Broker N :=
  { s with clientid2fd := set s.clientid2fd cd fd, passed := conn :: s.passed }

/-- A connect that is accepted. -/
theorem Serves.connect (k : Serves w I P E) {m : Param N} {cd : Bytes}
    (hI : I (s.register cd fd c.conn)) (hc : get s.clientmap fd = some c)
    (hP : ∀ ct cp, m.notice = some (ct, cp) → P c.conn ct cp)
    (hauth : ∀ s, I s → get s.clientmap fd = some c → I (s.setClient fd { c with state := .auth })) :
    Sat (connect w fd c m cd s)
      (fun r => I r.2 ∧ get r.2.clientmap fd = some { c with state := .auth }) (StopsFor w E fd) := by
  have hnotice : Sat (notify w c.conn m (s.register cd fd c.conn))
      (fun s' => I s' ∧ Stays w fd c s') E := by
    unfold notify
    split
    · exact ⟨hI, .inl hc⟩
    next ct cp h => exact k.publish hI hc (hP ct cp h)
  unfold Sands.connect
  refine Sat.bind (hnotice.mono (fun _ h => h) fun _ h => .inl h) ?_
  rintro s' ⟨hI', hc' | ⟨hc', hhurt⟩⟩
  · simp only [hc']
    refine (k.publishConnack (hauth s' hI' hc') fun e => short_encodes (by decide)).mono
      (fun r h => ⟨h.1, ?_⟩) fun _ h => .inl h
    rw [h.2]
    exact get_set_self _ _ _
  · simp only [hc']
    exact .inr ⟨hhurt, .inr rfl⟩

/-! ## Chunks -/

/-- What `on_client_data` does behind the first command of a chunk, with the other messages. -/
def afterFirst (num : Numbers N) (w : World) (fd : Fd) (r : List (List Bytes))
    (ret : Bool × Broker N) : Except Stop (Broker N) :=
  if ret.1 then handleAll num w fd r ret.2 >>= fun x => if x.1 then startTimer fd x.2 else pure x.2
  else ret.2.close w fd

/-- The commands are handled one after the other. -/
theorem handleAll_cons (num : Numbers N) (w : World) (fd : Fd) (arr : List Bytes)
    (r : List (List Bytes)) (s : Broker N) :
    (handleAll num w fd (arr :: r) s >>= fun x => if x.1 then startTimer fd x.2 else pure x.2)
      = command num w fd (tomap arr) s >>= afterFirst num w fd r := by
  rw [handleAll, handle]
  cases command num w fd (tomap arr) s with
  | error e => rfl
  | ok ret =>
    obtain ⟨ok, s'⟩ := ret
    cases ok with
    | true => rfl
    | false =>
      change ((s'.close w fd >>= fun s => pure (false, s)) >>= fun x =>
        if x.1 then handleAll num w fd r x.2 else pure (false, x.2)) >>= (fun x =>
        if x.1 then startTimer fd x.2 else pure x.2) = s'.close w fd
      cases s'.close w fd <;> rfl

/-- A chunk of a client that is authenticated. -/
theorem Serves.onClientData_auth (k : Serves w I P E) {data : Bytes} (hI : I s)
    (hc : get s.clientmap fd = some c) (hauth : c.state = .auth)
    (hdec : ∀ e, lDecode c.decoder data = .error e → E (.decoder e))
    (hP : ∀ r d, lDecode c.decoder data = .ok (some r, d) → PublishIn P c.conn r) :
    Sat (onClientData num w fd data s) (Finished I fd) (StopsFor w E fd) := by
  unfold onClientData
  simp only [hc]
  cases h : lDecode c.decoder data with
  | error e => exact .inl (hdec e h)
  | ok ret =>
    obtain ⟨r, d⟩ := ret
    have htouch := k.touch false d hI hc
    cases r with
    | none =>
      refine (k.close htouch).mono (fun s' h => ⟨h.1, fun c' hc' => ?_⟩) fun _ h => .inl h
      exact absurd (h.2.symm.trans hc') (by simp)
    | some r =>
      refine k.finish_auth (c := { c with timer := false, decoder := d }) hauth ?_
      exact k.handleAll_auth hauth (hP r d h) htouch (.inl (get_set_self _ _ _))

/-- Behind a command that ends the service nothing is handled. -/
theorem Serves.afterFirst_closed (k : Serves w I P E) {r : List (List Bytes)}
    {ret : Bool × Broker N} (hI : I ret.2) (hret : ret.1 = false) :
    Sat (afterFirst num w fd r ret) (Finished I fd) (StopsFor w E fd) := by
  unfold afterFirst
  rw [if_neg (by simp [hret])]
  refine (k.close hI).mono (fun s' h => ⟨h.1, fun c' hc' => ?_⟩) fun _ h => .inl h
  exact absurd (h.2.symm.trans hc') (by simp)

/-- The commands behind the first one of a connected client. -/
theorem Serves.afterFirst_auth (k : Serves w I P E) {r : List (List Bytes)} {ret : Bool × Broker N}
    (hauth : c.state = .auth) (hP : PublishIn P c.conn r) (hI : I ret.2)
    (hc : get ret.2.clientmap fd = some c) :
    Sat (afterFirst num w fd r ret) (Finished I fd) (StopsFor w E fd) := by
  cases hret : ret.1 with
  | true =>
    unfold afterFirst
    rw [if_pos hret]
    exact k.finish_auth hauth (k.handleAll_auth hauth hP hI (.inl hc))
  | false => exact k.afterFirst_closed hI hret

/-- A chunk that begins with a connect command which is turned down. -/
theorem Serves.rejected (k : Serves w I P E) {msg : Bytes} {r : List (List Bytes)} (hI : I s)
    (henc : ∀ e, rdsEncode (connackArr "1" msg) = .error e → E (.encoder e)) :
    Sat (Sands.reject w fd msg s >>= afterFirst num w fd r) (Finished I fd) (StopsFor w E fd) :=
  Sat.bind ((k.reject hI henc).mono (fun _ h => h) fun _ h => .inl h) fun _ h =>
    k.afterFirst_closed h.1 h.2

/-- A chunk that begins with a connect command which is accepted. -/
theorem Serves.accepted (k : Serves w I P E) {m : Param N} {cd : Bytes} {r : List (List Bytes)}
    (hI : I (s.register cd fd c.conn)) (hc : get s.clientmap fd = some c)
    (hP : ∀ ct cp, m.notice = some (ct, cp) → P c.conn ct cp)
    (hauth : ∀ s, I s → get s.clientmap fd = some c → I (s.setClient fd { c with state := .auth }))
    (hr : PublishIn P c.conn r) :
    Sat (Sands.connect w fd c m cd s >>= afterFirst num w fd r) (Finished I fd) (StopsFor w E fd) :=
  (k.connect hI hc hP hauth).bind fun _ h =>
    k.afterFirst_auth (c := { c with state := .auth }) rfl hr h.1 h.2

/-- A command of a new client that is not a connect command. -/
theorem Serves.command_new (k : Serves w I P E) {map : Table Bytes Bytes} (hI : I s)
    (hc : get s.clientmap fd = some c) (hnew : c.state = .new)
    (hid : field map "id" ≠ some (asciiBytes "cn")) :
    Sat (command num w fd map s) (fun r => I r.2 ∧ r.1 = false) E := by
  have hstate : c.state ≠ .auth := by rw [hnew]; decide
  unfold command
  dsimp only
  rw [if_neg hid]
  split
  · exact k.dc hI
  · split
    · unfold pb
      simp only [hc, if_pos hstate]
      exact ⟨hI, rfl⟩
    · split
      · unfold pi
        simp only [hc, if_pos hstate]
        exact ⟨hI, rfl⟩
      · exact ⟨hI, rfl⟩

/-- A client without parameters gets no timer. -/
theorem startTimer_noParam (hc : get s.clientmap fd = some c) (hparam : c.param = none) :
    startTimer fd s = .error .indexNil := by
  unfold startTimer
  simp only [hc, hparam, Option.bind_none]

/-- A chunk of a new client, of which only a connect command at its beginning counts. -/
theorem Serves.onClientData_new (k : Serves w I P E) {data : Bytes} {F : Broker N → Prop}
    (hF : ∀ s, Finished I fd s → F s) (hI : I s) (hc : get s.clientmap fd = some c)
    (hnew : c.state = .new) (hparam : c.param = none)
    (hdec : ∀ e, lDecode c.decoder data = .error e → E (.decoder e))
    (hpart : ∀ d, lDecode c.decoder data = .ok (some [], d) → E .indexNil)
    (hcn : ∀ arr r d, lDecode c.decoder data = .ok (some (arr :: r), d) →
      field (tomap arr) "id" = some (asciiBytes "cn") →
      I (s.setClient fd { c with timer := false, decoder := d }) →
      Sat (cn num w fd (tomap arr) (s.setClient fd { c with timer := false, decoder := d })
        >>= afterFirst num w fd r) F (StopsFor w E fd)) :
    Sat (onClientData num w fd data s) F (StopsFor w E fd) := by
  have hclosed : ∀ ret : Bool × Broker N, I ret.2 ∧ ret.1 = false → ∀ r,
      Sat (afterFirst num w fd r ret) F (StopsFor w E fd) := fun ret h r =>
    (k.afterFirst_closed h.1 h.2).mono hF fun _ h => h
  unfold onClientData
  simp only [hc]
  cases h : lDecode c.decoder data with
  | error e => exact .inl (hdec e h)
  | ok ret =>
    obtain ⟨r, d⟩ := ret
    have htouch := k.touch false d hI hc
    have hget : get (s.setClient fd { c with timer := false, decoder := d }).clientmap fd
        = some { c with timer := false, decoder := d } := get_set_self _ _ _
    match r with
    | none => exact hclosed (false, _) ⟨htouch, rfl⟩ []
    | some [] =>
      change Sat (startTimer fd _) F (StopsFor w E fd)
      -- nothing was handled, and the timer is started for a client without parameters
      rw [startTimer_noParam hget hparam]
      exact .inl (hpart d h)
    | some (arr :: r) =>
      change Sat (handleAll num w fd (arr :: r) _ >>= fun x =>
        if x.1 then startTimer fd x.2 else pure x.2) F (StopsFor w E fd)
      rw [handleAll_cons]
      by_cases hid : field (tomap arr) "id" = some (asciiBytes "cn")
      · have hcommand : command num w fd (tomap arr) (s.setClient fd { c with timer := false, decoder := d })
            = cn num w fd (tomap arr) (s.setClient fd { c with timer := false, decoder := d }) := by
          unfold command
          dsimp only
          rw [if_pos hid]
        rw [hcommand]
        exact hcn arr r d h hid htouch
      · -- any other first command of a new client closes it, and the rest is not handled
        refine Sat.bind ((k.command_new htouch hget hnew hid).mono (fun _ h => h) fun _ h => .inl h)
          fun ret hret => hclosed ret hret r

/-- The parameters of the connect command with which a chunk begins, for a new client. -/
def connectParam (num : Numbers N) (c : Client N) (data : Bytes) : Option (Param N) :=
  if c.state = .new then
    match lDecode c.decoder data with
    | .ok (some (arr :: _), _) =>
      if field (tomap arr) "id" = some (asciiBytes "cn") then some (Param.ofMap num (tomap arr))
      else none
    | _ => none
  else none

/-- The parameters that the first message of a new client carries. -/
theorem connectParam_eq (num : Numbers N) {data : Bytes} {arr : List Bytes} {r : List (List Bytes)}
    {d : Decoder}
    (hnew : c.state = .new) (h : lDecode c.decoder data = .ok (some (arr :: r), d))
    (hid : field (tomap arr) "id" = some (asciiBytes "cn")) :
    connectParam num c data = some (Param.ofMap num (tomap arr)) := by
  simp only [connectParam, if_pos hnew, h, if_pos hid]

end Sands
