/-
# Rules for the broker

What closing a connection and publishing do in between is a chain of two steps: a client
is taken out of the tables, and a message is written.  A property that both keep is kept
by `close_client` and `do_publish`, however they call each other (`Keeps`).
-/
import OpenwrtAc.SandsForward

open CString LuaTable Rds Outcome

namespace Sands

variable {N : Type}

/-! ## Tables of the broker -/

/-- Who has subscribed to a topic when `fd` no longer has subscribed to `topic`. -/
theorem mem_unsubscribe {s : Broker N} {fd fd' : Fd} {topic t : Bytes} :
    fd' ∈ (s.unsubscribe fd topic).subscribers t
      ↔ fd' ∈ s.subscribers t ∧ ¬ (fd' = fd ∧ t = topic) := by
  unfold Broker.unsubscribe
  cases htable : get s.topic2client topic with
  | none =>
    refine ⟨fun h => ⟨h, ?_⟩, fun h => h.1⟩
    rintro ⟨-, rfl⟩
    simp [Broker.subscribers, htable] at h
  | some tmap =>
    simp only [Broker.subscribers, get_set]
    split
    next h =>
      subst h
      simp [htable]
    next h => simp [h]

/-- Who has subscribed to a topic when `fd` has also subscribed to `topic`. -/
theorem mem_subscribe {s : Broker N} {fd fd' : Fd} {topic t : Bytes} :
    fd' ∈ (s.subscribe fd topic).subscribers t
      ↔ fd' ∈ s.subscribers t ∨ (fd' = fd ∧ t = topic) := by
  have hset : (s.subscribe fd topic).subscribers t
      = if t = topic then
          (if fd ∈ s.subscribers topic then s.subscribers topic else s.subscribers topic ++ [fd])
        else s.subscribers t := by
    rw [Broker.subscribers, Broker.subscribe, get_set]
    split <;> rfl
  rw [hset]
  split
  next h =>
    subst h
    split
    next hmem =>
      refine ⟨.inl, ?_⟩
      rintro (h | ⟨rfl, -⟩)
      exacts [h, hmem]
    next => simp
  next h => simp [h]

/-- Who subscribes after a client has left its topics. -/
theorem mem_foldl_unsubscribe {fd fd' : Fd} {t : Bytes} (topics : List Bytes) (s : Broker N) :
    fd' ∈ (topics.foldl (fun s tp => s.unsubscribe fd tp) s).subscribers t
      ↔ fd' ∈ s.subscribers t ∧ ¬ (fd' = fd ∧ t ∈ topics) := by
  induction topics generalizing s with
  | nil => simp
  | cons topic topics ih =>
    rw [List.foldl_cons, ih, mem_unsubscribe, List.mem_cons]
    tauto

/-- Who subscribes after a client has entered its topics. -/
theorem mem_foldl_subscribe {fd fd' : Fd} {t : Bytes} (topics : List Bytes) (s : Broker N) :
    fd' ∈ (topics.foldl (fun s tp => s.subscribe fd tp) s).subscribers t
      ↔ fd' ∈ s.subscribers t ∨ (fd' = fd ∧ t ∈ topics) := by
  induction topics generalizing s with
  | nil => simp
  | cons topic topics ih =>
    rw [List.foldl_cons, ih, mem_subscribe, List.mem_cons]
    tauto

/-- Subscriptions change nothing but the table of topics. -/
theorem foldl_unsubscribe_frame (fd : Fd) (topics : List Bytes) (s : Broker N) :
    ∃ table, topics.foldl (fun s tp => s.unsubscribe fd tp) s = { s with topic2client := table } := by
  induction topics generalizing s with
  | nil => exact ⟨_, rfl⟩
  | cons topic topics ih =>
    obtain ⟨table, htable⟩ := ih (s.unsubscribe fd topic)
    refine ⟨table, ?_⟩
    rw [List.foldl_cons, htable]
    unfold Broker.unsubscribe
    split <;> rfl

/-- Subscribing changes the subscriptions only. -/
theorem foldl_subscribe_frame (fd : Fd) (topics : List Bytes) (s : Broker N) :
    ∃ table, topics.foldl (fun s tp => s.subscribe fd tp) s = { s with topic2client := table } := by
  induction topics generalizing s with
  | nil => exact ⟨_, rfl⟩
  | cons topic topics ih =>
    obtain ⟨table, htable⟩ := ih (s.subscribe fd topic)
    exact ⟨table, by rw [List.foldl_cons, htable]; rfl⟩

/-! ## Taking a client out -/

/-- The broker when `close_client` comes to the will. -/
def Broker.dropped (s : Broker N) (fd : Fd) (c : Client N) : Broker N :=
  match c.param with
  | none => { s with clientmap := erase s.clientmap fd }
  | some p =>
    let s := p.topics.foldl (fun s tp => s.unsubscribe fd tp)
      { s with clientmap := erase s.clientmap fd }
    { s with clientid2fd := p.cd.elim s.clientid2fd (erase s.clientid2fd) }

/-- A client that is dropped is gone. -/
theorem get_dropped (s : Broker N) (fd fd' : Fd) (c : Client N) :
    get (s.dropped fd c).clientmap fd' = if fd' = fd then none else get s.clientmap fd' := by
  unfold Broker.dropped
  split
  · exact get_erase _ _ _
  next p _ =>
    obtain ⟨table, htable⟩ := foldl_unsubscribe_frame fd p.topics
      { s with clientmap := erase s.clientmap fd }
    simp only [htable]
    exact get_erase _ _ _

/-- So is its id. -/
theorem get_clientid2fd_dropped (s : Broker N) (fd : Fd) (c : Client N) (cd : Bytes) :
    get (s.dropped fd c).clientid2fd cd
      = if c.param.bind Param.cd = some cd then none else get s.clientid2fd cd := by
  unfold Broker.dropped
  split
  next h => simp [h]
  next p h =>
    obtain ⟨table, htable⟩ := foldl_unsubscribe_frame fd p.topics
      { s with clientmap := erase s.clientmap fd }
    simp only [htable, h, Option.bind_some]
    cases hcd : p.cd with
    | none => simp
    | some cd' =>
      simp only [Option.elim_some, get_erase, Option.some.injEq]
      simp only [eq_comm]

/-- So are its subscriptions. -/
theorem mem_dropped {s : Broker N} {fd fd' : Fd} {c : Client N} {t : Bytes} :
    fd' ∈ (s.dropped fd c).subscribers t
      ↔ fd' ∈ s.subscribers t ∧ ¬ (fd' = fd ∧ ∃ p, c.param = some p ∧ t ∈ p.topics) := by
  unfold Broker.dropped
  split
  next h =>
    simp only [h, Broker.subscribers]
    simp
  next p h =>
    refine (mem_foldl_unsubscribe p.topics { s with clientmap := erase s.clientmap fd }).trans ?_
    simp only [h, Broker.subscribers]
    simp

/-- Dropping a client sends nothing. -/
theorem dropped_frame (s : Broker N) (fd : Fd) (c : Client N) :
    (s.dropped fd c).passed = s.passed ∧ (s.dropped fd c).out = s.out
      ∧ (s.dropped fd c).conns = s.conns := by
  unfold Broker.dropped
  split
  · exact ⟨rfl, rfl, rfl⟩
  next p _ =>
    obtain ⟨table, htable⟩ := foldl_unsubscribe_frame fd p.topics
      { s with clientmap := erase s.clientmap fd }
    simp only [htable]
    trivial

/-- `close_client` of a client that is there. -/
theorem closeClient_succ {w : World} {n : ℕ} {s : Broker N} {fd : Fd} {c : Client N}
    (hc : get s.clientmap fd = some c) :
    closeClient w (n + 1) s fd =
      match c.param with
      | none => .ok (s.dropped fd c)
      | some p =>
        if p.cd = none then .error .nilKey
        else
          match p.will with
          | none => .ok (s.dropped fd c)
          | some (wt, wp) => publishWith (closeClient w n) w c.conn wt wp (s.dropped fd c) := by
  obtain ⟨conn, param, state, timer, decoder⟩ := c
  rw [closeClient, hc]
  cases param with
  | none => rfl
  | some p =>
    simp only [Broker.dropped]
    cases hcd : p.cd with
    | none => rfl
    | some cd => cases p.will <;> rfl

/-- Closing a client that is gone does nothing. -/
theorem closeClient_none {w : World} {n : ℕ} {s : Broker N} {fd : Fd}
    (hc : get s.clientmap fd = none) : closeClient w n s fd = .ok s := by
  cases n with
  | zero => rfl
  | succ n => rw [closeClient, hc]

/-! ## The rule -/

/-- `I` is kept by taking out a client in `D` and by writing a message in `P`, a will is in `P`, a
    client whose message could not be written is in `D`, and where the broker stops the reason is
    in `E`. -/
structure Keeps (w : World) (I : Broker N → Prop) (P : ℕ → Bytes → Bytes → Prop) (D : Fd → Prop)
    (E : Stop → Prop) : Prop where
  tick : ∀ {s : Broker N}, I s → I { s with clock := s.clock + 1 }
  drop : ∀ {s fd c}, I s → D fd → get s.clientmap fd = some c → I (s.dropped fd c)
  noId : ∀ {s fd c p}, I s → get s.clientmap fd = some c → c.param = some p → p.cd = none → E .nilKey
  will : ∀ {s fd c p t m}, I s → get s.clientmap fd = some c → c.param = some p →
    p.will = some (t, m) → P c.conn t m
  encode : ∀ {o t m e}, P o t m → rdsEncode (publishArr t m) = .error e → E (.encoder e)
  dead : ∀ {s fd t}, I s → fd ∈ s.subscribers t → get s.clientmap fd = none → E .deadSubscriber
  wrote : ∀ {s fd o t m} (ok : Bool), I s → P o t m → I (s.wrote fd (.pb o t m) ok)
  fail : ∀ {n fd}, w.publishWrite n fd = false → D fd

variable {w : World} {I : Broker N → Prop} {P : ℕ → Bytes → Bytes → Prop} {D : Fd → Prop}
  {E : Stop → Prop}

/-- `do_publish` keeps what closing keeps: for one subscriber, and for all. -/
theorem Keeps.publishTo (k : Keeps w I P D E) {close : Broker N → Fd → Except Stop (Broker N)}
    (hclose : ∀ s fd, I s → D fd → Sat (close s fd) I E) {o : ℕ} {t m : Bytes} (hP : P o t m)
    {s : Broker N} (hI : I s) (fd : Fd) : Sat (publishTo close w o t m s fd) I E := by
  unfold Sands.publishTo
  split
  · exact hI
  next hmem =>
    cases hc : get s.clientmap fd with
    | none => exact k.dead hI (not_not.1 hmem) hc
    | some c =>
      cases hok : w.publishWrite s.clock fd with
      | true => exact k.wrote true hI hP
      | false => exact hclose _ fd (k.wrote false hI hP) (k.fail hok)

/-- The rule of a publish, given one for the closing of clients. -/
theorem Keeps.publishWith (k : Keeps w I P D E) {close : Broker N → Fd → Except Stop (Broker N)}
    (hclose : ∀ s fd, I s → D fd → Sat (close s fd) I E) {o : ℕ} {t m : Bytes} (hP : P o t m)
    {s : Broker N} (hI : I s) : Sat (publishWith close w o t m s) I E := by
  unfold Sands.publishWith
  split
  · exact hI
  · cases henc : rdsEncode (publishArr t m) with
    | error e => exact k.encode hP henc
    | ok b =>
      exact sat_foldlM (fun _ => I) _ _ (k.tick hI) fun fd _ s hs => k.publishTo hclose hP hs fd

/-- The rule of closing a client, with what it publishes. -/
theorem Keeps.closeClient (k : Keeps w I P D E) (n : ℕ) {s : Broker N} {fd : Fd} (hI : I s)
    (hD : D fd) : Sat (closeClient w n s fd) I E := by
  induction n generalizing s fd with
  | zero => exact hI
  | succ n ih =>
    cases hc : get s.clientmap fd with
    | none =>
      rw [closeClient_none hc]
      exact hI
    | some c =>
      have hdrop := k.drop hI hD hc
      rw [closeClient_succ hc]
      split
      · exact hdrop
      next p hp =>
        split
        next hcd => exact k.noId hI hc hp hcd
        · split
          · exact hdrop
          next wt wp hwill =>
            exact k.publishWith (fun s fd hs hfd => ih hs hfd) (k.will hI hc hp hwill) hdrop

/-- The rule of a publish. -/
theorem Keeps.publish (k : Keeps w I P D E) {o : ℕ} {t m : Bytes} (hP : P o t m) {s : Broker N}
    (hI : I s) : Sat (s.publish w o t m) I E :=
  k.publishWith (fun _ _ hs hfd => k.closeClient _ hs hfd) hP hI

/-- What is said of every client holds of those that are left. -/
def Clients (Q : Fd → Client N → Prop) (s : Broker N) : Prop :=
  ∀ fd c, get s.clientmap fd = some c → Q fd c

/-- Dropping a client keeps what holds of the others. -/
theorem Clients.dropped {Q : Fd → Client N → Prop} {s : Broker N} (h : Clients Q s) (fd : Fd)
    (c : Client N) : Clients Q (s.dropped fd c) := by
  intro fd' c' hc'
  rw [get_dropped] at hc'
  split at hc'
  · cases hc'
  · exact h fd' c' hc'

/-- A closed connection stays closed. -/
theorem Keeps.gone (k : Keeps w I P D E) (fd : Fd) :
    Keeps w (fun s => I s ∧ get s.clientmap fd = none) P D E where
  tick h := ⟨k.tick h.1, h.2⟩
  drop h hD hc := ⟨k.drop h.1 hD hc, by rw [get_dropped, h.2, ite_self]⟩
  noId h := k.noId h.1
  will h := k.will h.1
  encode := k.encode
  dead h := k.dead h.1
  wrote ok h hP := ⟨k.wrote ok h.1 hP, h.2⟩
  fail := k.fail

/-- A client that every message can be written to is not touched by what others do. -/
theorem Keeps.live (k : Keeps w I P D E) {fd : Fd} (hw : ∀ n, w.publishWrite n fd = true)
    (c : Client N) :
    Keeps w (fun s => I s ∧ get s.clientmap fd = some c) P (fun fd' => D fd' ∧ fd' ≠ fd) E where
  tick h := ⟨k.tick h.1, h.2⟩
  drop h hD hc := ⟨k.drop h.1 hD.1 hc, by rw [get_dropped, if_neg hD.2.symm, h.2]⟩
  noId h := k.noId h.1
  will h := k.will h.1
  encode := k.encode
  dead h := k.dead h.1
  wrote ok h hP := ⟨k.wrote ok h.1 hP, h.2⟩
  fail {n fd'} hfail := by
    refine ⟨k.fail hfail, ?_⟩
    rintro rfl
    exact absurd (hw n) (by simp [hfail])

/-- Whatever happens, a client that is there is as it was. -/
theorem Keeps.same (k : Keeps w I P D E) (fd : Fd) (c : Client N) :
    Keeps w (fun s => I s ∧ (get s.clientmap fd = some c ∨ get s.clientmap fd = none)) P D E where
  tick h := ⟨k.tick h.1, h.2⟩
  drop {s fd' c'} h hD hc := by
    refine ⟨k.drop h.1 hD hc, ?_⟩
    rw [get_dropped]
    split
    · exact .inr rfl
    · exact h.2
  noId h := k.noId h.1
  will h := k.will h.1
  encode := k.encode
  dead h := k.dead h.1
  wrote ok h hP := ⟨k.wrote ok h.1 hP, h.2⟩
  fail := k.fail

/-- `close_client` of a client in `D`: it is gone. -/
theorem Keeps.close (k : Keeps w I P D E) {s : Broker N} {fd : Fd} (hI : I s) (hD : D fd) :
    Sat (s.close w fd) (fun s' => I s' ∧ get s'.clientmap fd = none) E := by
  unfold Broker.close
  cases hc : get s.clientmap fd with
  | none =>
    rw [closeClient_none hc]
    exact ⟨hI, hc⟩
  | some c =>
    obtain ⟨n, hn⟩ : ∃ n, s.clientmap.length = n + 1 :=
      Nat.exists_eq_add_of_lt (Nat.zero_lt_of_lt (length_erase_lt hc)) |>.imp fun n h => by omega
    rw [hn, closeClient_succ hc]
    have hdrop : I (s.dropped fd c) ∧ get (s.dropped fd c).clientmap fd = none :=
      ⟨k.drop hI hD hc, by rw [get_dropped, if_pos rfl]⟩
    split
    · exact hdrop
    next p hp =>
      split
      next hcd => exact k.noId hI hc hp hcd
      · split
        · exact hdrop
        next wt wp hwill =>
          exact (k.gone fd).publishWith (fun s fd' hs hfd => (k.gone fd).closeClient n hs hfd)
            (k.will hI hc hp hwill) hdrop

/-! ## The bound of `close_client` -/

/-- Dropping a client leaves fewer of them. -/
theorem length_dropped {s : Broker N} {fd : Fd} {c : Client N} (h : get s.clientmap fd = some c) :
    (s.dropped fd c).clientmap.length < s.clientmap.length := by
  have := length_erase_lt h
  unfold Broker.dropped
  split
  · exact this
  next p _ =>
    obtain ⟨table, htable⟩ := foldl_unsubscribe_frame fd p.topics
      { s with clientmap := erase s.clientmap fd }
    simpa only [htable] using this

/-- The number of clients does not grow. -/
theorem keeps_length (w : World) (n : ℕ) :
    Keeps (N := N) w (fun s => s.clientmap.length ≤ n) (fun _ _ _ => True) (fun _ => True)
      fun _ => True where
  tick h := h
  drop h _ hc := ((length_dropped hc).trans_le h).le
  noId _ _ _ _ := trivial
  will _ _ _ _ := trivial
  encode _ _ := trivial
  dead _ _ _ := trivial
  wrote _ h _ := h
  fail _ := trivial

theorem foldlM_congr_of {ε σ α : Type} {f g : σ → α → Except ε σ} {J : σ → Prop}
    (hfg : ∀ s a, J s → f s a = g s a) (hJ : ∀ s a, J s → Sat (g s a) J fun _ => True) (l : List α)
    {s : σ} (hs : J s) : l.foldlM f s = l.foldlM g s := by
  induction l generalizing s with
  | nil => rfl
  | cons a l ih =>
    rw [List.foldlM_cons, List.foldlM_cons, hfg s a hs]
    cases hg : g s a with
    | error e => rfl
    | ok s' => exact ih ((hJ s a hs).of_ok hg)

/-- Two ways of closing that agree on so many clients. -/
theorem publishWith_congr {w : World}
    {close close' : Broker N → Fd → Except Stop (Broker N)} {n : ℕ}
    (h : ∀ s fd, s.clientmap.length ≤ n → close s fd = close' s fd)
    (hclose : ∀ s fd, s.clientmap.length ≤ n →
      Sat (close' s fd) (fun s => s.clientmap.length ≤ n) fun _ => True)
    {o : ℕ} {t m : Bytes} {s : Broker N} (hs : s.clientmap.length ≤ n) :
    publishWith close w o t m s = publishWith close' w o t m s := by
  have hto : ∀ s fd, s.clientmap.length ≤ n →
      publishTo close w o t m s fd = publishTo close' w o t m s fd := by
    intro s fd hs
    unfold publishTo
    split
    · rfl
    · cases get s.clientmap fd with
      | none => rfl
      | some c =>
        cases w.publishWrite s.clock fd with
        | true => rfl
        | false => exact h (s.wrote fd (.pb o t m) false) fd hs
  unfold publishWith
  split
  · rfl
  · cases rdsEncode (publishArr t m) with
    | error e => rfl
    | ok b =>
      exact foldlM_congr_of (J := fun s => s.clientmap.length ≤ n) hto
        (fun s fd hs => (keeps_length w n).publishTo (fun s fd h _ => hclose s fd h) trivial hs fd)
        _ hs

/-- Enough is enough: the bound on the number of connections that are closed plays no part, since
    every one of them is taken out of the map. -/
theorem closeClient_bound {w : World} {n n' : ℕ} {s : Broker N} {fd : Fd}
    (hn : s.clientmap.length ≤ n) (hn' : s.clientmap.length ≤ n') :
    closeClient w n s fd = closeClient w n' s fd := by
  induction n generalizing n' s fd with
  | zero =>
    have hempty : s.clientmap = [] := List.length_eq_zero_iff.1 (by omega)
    rw [closeClient_none (by rw [hempty]; rfl), closeClient_none (by rw [hempty]; rfl)]
  | succ n ih =>
    cases hc : get s.clientmap fd with
    | none => rw [closeClient_none hc, closeClient_none hc]
    | some c =>
      have hlt := length_dropped hc
      obtain ⟨n', rfl⟩ : ∃ m, n' = m + 1 := ⟨n' - 1, by omega⟩
      have hclose : ∀ (s : Broker N) fd, s.clientmap.length ≤ min n n' →
          closeClient w n s fd = closeClient w n' s fd := fun s fd h => ih (by omega) (by omega)
      have hpublish := fun o t m => publishWith_congr (w := w) (o := o) (t := t) (m := m) hclose
        (fun s fd h => (keeps_length w (min n n')).closeClient n' h trivial)
        (show (s.dropped fd c).clientmap.length ≤ min n n' by omega)
      rw [closeClient_succ hc, closeClient_succ hc]
      simp only [hpublish]

end Sands
