/-
# The logins of web users (`authd/web.lua`, `batch.lua`)

The requests that arrive while a batch is worked at make the next batch.  A batch is gone
through in slices, and each slice is checked against what `memo.online` has when the slice
begins; what passes is put into the table at the end of the slice.
-/
import OpenwrtAc.AuthOnline
import OpenwrtAc.Outcome
import Mathlib.Data.List.Induction

namespace AuthLogin

open LuaTable AuthOnline Outcome

/-! ## Checking a request -/

/-- A row of the table `user`. -/
structure User where
  password : String
  enable : ℤ
  multi : ℤ
  bindip : String
  bindmac : String
  expire : String
  gid : ℤ

/-- A request `/cloudlogin` that fits what the kernel knows of the client, with the address
to reply to. -/
structure Request where
  uid : ℤ
  magic : ℤ
  username : String
  password : String
  ip : String
  mac : String
  ext : Option String
  rid : ℤ
  uIp : String
  uPort : ℕ

/-- `ukey`. -/
def Request.ukey (r : Request) : String := toString r.uid ++ "_" ++ toString r.magic

/-- `numb_expire`. -/
def numbExpire : List String := ["0000-00-00 00:00:00", "1970-01-01 00:00:00"]

/-- `check_user` of a user that there is, at the date `date`; an account that is online
already is refused without a text. -/
def checkUser (date : String) (r : User) (p : Request) (isonline : Bool) :
    Except (Option String) Unit :=
  if r.enable ≠ 1 then .error (some "disable")
  else if r.password ≠ p.password then .error (some "invalid password")
  else if r.bindip ≠ "" ∧ r.bindip ≠ p.ip then .error (some "invalid ip")
  else if r.bindmac ≠ "" ∧ r.bindmac ≠ p.mac then .error (some "invalid mac")
  else if r.expire ≠ "" ∧ r.expire ∉ numbExpire ∧ r.expire < date then .error (some "expire")
  else if r.multi = 1 then .ok ()
  else if isonline then .error none
  else .ok ()

/-- Refused, as far as the count of its clients goes, is an account that is online. -/
theorem checkUser_online {date : String} {r : User} {p : Request} {isonline : Bool}
    (h : checkUser date r p isonline = .ok ()) (hm : r.multi ≠ 1) : isonline = false := by
  simp only [checkUser, ite_error_eq_ok, if_neg hm] at h
  obtain ⟨-, -, -, -, -, hon, -⟩ := h
  exact Bool.eq_false_iff.2 hon

/-! ## A slice of a batch -/

/-- A reply: its address, its status and its data. -/
structure Reply where
  uIp : String
  uPort : ℕ
  status : ℕ
  data : Option String

/-- What a slice is worked at with: the redirections of `authrule`, the date and the time. -/
structure Env where
  redirect : ℤ → Option String
  date : String
  now : ℤ

/-- The account has a row of its name in `memo.online`. -/
def hasName (online : Online) (username : String) : Bool :=
  online.any fun e => e.2.username = username

/-- What `on_login` makes of a request: no such account, online already, refused, or to be
put online. -/
inductive Outcome where
  | invalid
  | online
  | refused (e : Option String)
  | passes (gid : ℤ)

section Slice

variable (user : String → Option User) (env : Env)

/-- The tests of `on_login` on a request, with what `memo.online` has. -/
def outcome (online : Online) (r : Request) : Outcome :=
  match user r.username with
  | none => .invalid
  | some u =>
    if (get online r.ukey).isSome then .online
    else
      match checkUser env.date u r (hasName online r.username) with
      | .error e => .refused e
      | .ok () => .passes u.gid

/-- `offline`: the requests that pass, by their `ukey`; a later one is put in the place of
an earlier one. -/
def offline (online : Online) (users : List Request) : Table String (Request × ℤ) :=
  users.foldl (fun t r =>
    match outcome user env online r with
    | .passes gid => set t r.ukey (r, gid)
    | _ => t) []

/-- The entry of a request for `insert_online`. -/
def client (r : Request) (gid : ℤ) : Client where
  ukey := r.ukey
  username := r.username
  ip := r.ip
  mac := r.mac
  ext := r.ext
  rid := r.rid
  gid := gid

/-- `login_names[username].rid`, of which the redirection is. -/
def redirectOf (users : List Request) (username : String) : String :=
  let rid := (users.reverse.find? fun r => r.username = username).map Request.rid
  (rid.bind env.redirect).getD "http://www.baidu.com"

/-- The replies of a slice, in the order of the loops over it. -/
def replies (online : Online) (users : List Request) : List Reply :=
  users.filterMap (fun r =>
    match outcome user env online r with
    | .invalid => some ⟨r.uIp, r.uPort, 1, some "invalid user"⟩
    | _ => none) ++
  users.filterMap (fun r =>
    match outcome user env online r with
    | .online => some ⟨r.uIp, r.uPort, 0, some (redirectOf env users r.username)⟩
    | .refused e => some ⟨r.uIp, r.uPort, 1, e⟩
    | _ => none) ++
  (offline user env online users).map fun e =>
    ⟨e.2.1.uIp, e.2.1.uPort, 0, some (redirectOf env users e.2.1.username)⟩

/-- `memo.online` after a slice. -/
def loginSlice (online : Online) (users : List Request) : Online :=
  insertRows "web" env.now online
    ((offline user env online users).map fun e => client e.2.1 e.2.2)

end Slice

/-- `fp.limit`, which takes one more than `count`. -/
def limit (arr : List Request) (start count : ℕ) : List Request :=
  (arr.drop (start - 1)).take (count + 1)

/-! ## The batches -/

/-- The login daemon: the table, the requests collected, the batch that `on_login` is at and
the replies given. -/
structure State where
  online : Online
  cache : List Request
  batch : Option (List Request × ℕ)
  sent : List Reply

def State.init : State := ⟨[], [], none, []⟩

inductive Event where
  /-- `emit`. -/
  | emit (r : Request)
  /-- The loop of `emit` hands the requests collected to `on_login`. -/
  | take
  /-- `on_login` works at its next slice, or returns. -/
  | slice (env : Env)

/-- The slice that `on_login` is at. -/
def State.users (s : State) : List Request :=
  match s.batch with
  | some (arr, i) => limit arr i 100
  | none => []

section Step

variable (user : String → Option User)

def step (s : State) : Event → Option State
  | .emit r => some { s with cache := s.cache ++ [r] }
  | .take =>
    match s.batch, s.cache with
    | none, r :: rs => some { s with cache := [], batch := some (r :: rs, 1) }
    | _, _ => none
  | .slice env =>
    match s.batch with
    | none => none
    | some (arr, i) =>
      if i ≤ arr.length then
        some { s with
          online := loginSlice user env s.online s.users
          batch := some (arr, i + 100)
          sent := s.sent ++ replies user env s.online s.users }
      else some { s with batch := none }

/-- The events one after the other. -/
def run (s : State) (es : List Event) : Option State := es.foldlM (step user) s

end Step

/-! ## The requests that a slice puts online -/

section Taken

variable {user : String → Option User} {env : Env} {online : Online} {users : List Request}

/-- The request passes the tests of `on_login`. -/
def Passes (user : String → Option User) (env : Env) (online : Online) (r : Request) : Prop :=
  ∃ gid, outcome user env online r = .passes gid

/-- The request passes, and is the last of the slice to do so for its client. -/
def Taken (user : String → Option User) (env : Env) (online : Online) (users : List Request)
    (r : Request) : Prop :=
  ∃ pre post, users = pre ++ r :: post ∧ Passes user env online r ∧
    ∀ r' ∈ post, r'.ukey = r.ukey → ¬ Passes user env online r'

/-- A client whose account is limited to one has passed only if that account was offline. -/
theorem Passes.hasName {r : Request} (h : Passes user env online r) {u : User}
    (hu : user r.username = some u) (hm : u.multi ≠ 1) : hasName online r.username = false := by
  obtain ⟨gid, h⟩ := h
  simp only [outcome, hu] at h
  split at h
  · cases h
  · split at h
    · cases h
    next hok => exact checkUser_online hok hm

/-- A client that passes has no row. -/
theorem Passes.notMem {r : Request} (h : Passes user env online r) :
    get online r.ukey = none := by
  obtain ⟨gid, h⟩ := h
  unfold outcome at h
  split at h
  · cases h
  · split at h
    · cases h
    next hnone => simpa using hnone

/-- One more request is taken where it passes, and replaces an earlier one of its client. -/
theorem taken_concat {r x : Request} :
    Taken user env online (users ++ [r]) x ↔
      x = r ∧ Passes user env online r ∨
        Taken user env online users x ∧ ¬ (Passes user env online r ∧ r.ukey = x.ukey) := by
  constructor
  · rintro ⟨pre, post, heq, hp, hlast⟩
    rcases List.eq_nil_or_concat post with rfl | ⟨post, y, rfl⟩
    · obtain ⟨rfl, hx⟩ := List.append_inj' heq rfl
      cases hx
      exact .inl ⟨rfl, hp⟩
    · rw [List.concat_eq_append, ← List.cons_append, ← List.append_assoc] at heq
      obtain ⟨rfl, hy⟩ := List.append_inj' heq rfl
      cases hy
      refine .inr ⟨⟨pre, post, rfl, hp, fun r' hr' => hlast r' (by simp [hr'])⟩, ?_⟩
      rintro ⟨hr, hk⟩
      exact hlast r (by simp) hk hr
  · rintro (⟨rfl, hp⟩ | ⟨⟨pre, post, rfl, hp, hlast⟩, hnot⟩)
    · exact ⟨users, [], rfl, hp, fun _ h => by cases h⟩
    · refine ⟨pre, post ++ [r], by simp, hp, fun r' hr' hk hpass => ?_⟩
      rcases List.mem_append.1 hr' with hr' | hr'
      · exact hlast r' hr' hk hpass
      · obtain rfl := List.mem_singleton.1 hr'
        exact hnot ⟨hpass, hk⟩

/-- The clients that are let in, and with which group. -/
theorem mem_offline {k : String} {r : Request} {gid : ℤ} :
    (k, (r, gid)) ∈ offline user env online users ↔
      Taken user env online users r ∧ k = r.ukey ∧
        outcome user env online r = .passes gid := by
  induction users using List.reverseRecOn with
  | nil => simp [offline, Taken]
  | append_singleton users x ih =>
    have hstep : offline user env online (users ++ [x]) =
        match outcome user env online x with
        | .passes gid => set (offline user env online users) x.ukey (x, gid)
        | _ => offline user env online users := by
      rw [offline, List.foldl_append]
      rfl
    rw [hstep, taken_concat]
    by_cases hp : Passes user env online x
    · obtain ⟨gid', hx⟩ := hp
      simp only [hx, mem_set, ih, Prod.mk.injEq]
      constructor
      · rintro (⟨rfl, rfl, rfl⟩ | ⟨⟨ht, rfl, hr⟩, hne⟩)
        · exact ⟨.inl ⟨rfl, _, hx⟩, rfl, hx⟩
        · exact ⟨.inr ⟨ht, fun h => hne h.2.symm⟩, rfl, hr⟩
      · rintro ⟨⟨rfl, -⟩ | ⟨ht, hnot⟩, rfl, hr⟩
        · rw [hx] at hr
          cases hr
          exact .inl ⟨rfl, rfl, rfl⟩
        · exact .inr ⟨⟨ht, rfl, hr⟩, fun h => hnot ⟨⟨_, hx⟩, h.symm⟩⟩
    · have hsame : (match outcome user env online x with
          | .passes gid => set (offline user env online users) x.ukey (x, gid)
          | _ => offline user env online users) = offline user env online users := by
        split
        next gid' hx => exact absurd ⟨gid', hx⟩ hp
        · rfl
      rw [hsame, ih]
      simp [hp]

/-- No client is let in twice. -/
theorem nodup_offline (user : String → Option User) (env : Env) (online : Online)
    (users : List Request) : ((offline user env online users).map Prod.fst).Nodup := by
  induction users using List.reverseRecOn with
  | nil => exact List.nodup_nil
  | append_singleton users x ih =>
    rw [offline, List.foldl_append, ← offline]
    simp only [List.foldl_cons, List.foldl_nil]
    split
    · exact nodup_set ih ..
    · exact ih

/-- After a slice, the clients taken have their rows beside those that were there. -/
theorem mem_loginSlice {e : String × OnlineRow} :
    e ∈ loginSlice user env online users ↔
      (∃ r gid, Taken user env online users r ∧
        e = (r.ukey, (client r gid).row "web" env.now) ∧
        outcome user env online r = .passes gid) ∨ e ∈ online := by
  have hkeys : ((offline user env online users).map fun e => client e.2.1 e.2.2).map
      Client.ukey = (offline user env online users).map Prod.fst := by
    rw [List.map_map]
    refine List.map_congr_left fun e he => ?_
    exact (mem_offline.1 he).2.1.symm
  rw [loginSlice, mem_insertRows (hkeys ▸ nodup_offline user env online users)]
  constructor
  · rintro (⟨p, hp, rfl⟩ | ⟨he, -⟩)
    · obtain ⟨⟨k, r, gid⟩, hr, rfl⟩ := List.mem_map.1 hp
      obtain ⟨ht, -, hpass⟩ := mem_offline.1 hr
      exact .inl ⟨r, gid, ht, rfl, hpass⟩
    · exact .inr he
  · rintro (⟨r, gid, ht, rfl, hpass⟩ | he)
    · exact .inl ⟨client r gid, List.mem_map.2 ⟨_, mem_offline.2 ⟨ht, rfl, hpass⟩, rfl⟩, rfl⟩
    · refine .inr ⟨he, fun p hp => ?_⟩
      obtain ⟨⟨k, r, gid⟩, hr, rfl⟩ := List.mem_map.1 hp
      obtain ⟨-, -, hpass⟩ := mem_offline.1 hr
      exact (get_eq_none.1 (Passes.notMem ⟨gid, hpass⟩) e he).symm

/-- An account that is online is found. -/
theorem hasName_of_mem {e : String × OnlineRow} (he : e ∈ online) :
    hasName online e.2.username = true :=
  List.any_eq_true.2 ⟨e, he, by simp⟩

/-- An account whose `multi` is not 1 has one client online at most. -/
def Single (user : String → Option User) (online : Online) : Prop :=
  ∀ e ∈ online, ∀ e' ∈ online, e.2.username = e'.2.username →
    (∃ u, user e.2.username = some u ∧ u.multi ≠ 1) → e.1 = e'.1

/-- The clients that a slice puts online are not two of one such account. -/
def Apart (user : String → Option User) (env : Env) (online : Online) (users : List Request) :
    Prop :=
  ∀ r r', Taken user env online users r → Taken user env online users r' →
    r.username = r'.username → (∃ u, user r.username = some u ∧ u.multi ≠ 1) →
    r.ukey = r'.ukey

/-- A slice keeps one client an account exactly where its requests are apart. -/
theorem single_loginSlice (h : Single user online) :
    Single user (loginSlice user env online users) ↔ Apart user env online users := by
  constructor
  · intro hs r r' hr hr' hname hlim
    obtain ⟨-, -, -, ⟨gid, hg⟩, -⟩ := id hr
    obtain ⟨-, -, -, ⟨gid', hg'⟩, -⟩ := id hr'
    exact hs _ (mem_loginSlice.2 (.inl ⟨r, gid, hr, rfl, hg⟩))
      _ (mem_loginSlice.2 (.inl ⟨r', gid', hr', rfl, hg'⟩)) hname hlim
  · -- a client taken has no other of its account online before the slice
    have hnew {r : Request} {e : String × OnlineRow} (hr : Passes user env online r)
        (he : e ∈ online) (hname : r.username = e.2.username) {u : User}
        (hu : user r.username = some u) (hm : u.multi ≠ 1) : False := by
      have hoff := hr.hasName hu hm
      rw [hname, hasName_of_mem he] at hoff
      cases hoff
    intro hap e he e' he' hname hlim
    rcases mem_loginSlice.1 he with ⟨r, gid, hr, rfl, hg⟩ | he
    · rcases mem_loginSlice.1 he' with ⟨r', gid', hr', rfl, hg'⟩ | he'
      · exact hap r r' hr hr' hname hlim
      · obtain ⟨u, hu, hm⟩ := hlim
        exact (hnew ⟨gid, hg⟩ he' hname hu hm).elim
    · rcases mem_loginSlice.1 he' with ⟨r', gid', hr', rfl, hg'⟩ | he'
      · obtain ⟨u, hu, hm⟩ := hlim
        have hu' : user r'.username = some u := (congrArg user hname).symm.trans hu
        exact (hnew ⟨gid', hg'⟩ he hname.symm hu' hm).elim
      · exact h e he e' he' hname hlim

end Taken

/-! ## The runs -/

section Runs

variable {user : String → Option User}

/-- Two lists of events, one behind the other. -/
theorem run_append {s s' : State} {es es' : List Event} :
    run user s (es ++ es') = some s' ↔
      ∃ s₁, run user s es = some s₁ ∧ run user s₁ es' = some s' := by
  rw [run, List.foldlM_append, Option.bind_eq_bind, Option.bind_eq_some_iff]
  rfl

/-- The first event and the others. -/
theorem run_cons {s s' : State} {e : Event} {es : List Event} :
    run user s (e :: es) = some s' ↔
      ∃ s₁, step user s e = some s₁ ∧ run user s₁ es = some s' := by
  rw [run, List.foldlM_cons, Option.bind_eq_bind, Option.bind_eq_some_iff]
  rfl

/-- The last event. -/
theorem run_concat {s s' : State} {es : List Event} {e : Event} :
    run user s (es ++ [e]) = some s' ↔
      ∃ s₁, run user s es = some s₁ ∧ step user s₁ e = some s' := by
  rw [run_append]
  simp [run]

/-- No slice begins behind the end. -/
theorem limit_eq_nil {arr : List Request} {i : ℕ} (h : ¬ i ≤ arr.length) (count : ℕ) :
    limit arr i count = [] := by
  rw [limit, List.drop_of_length_le (by omega), List.take_nil]

/-- No requests are apart. -/
theorem apart_nil (env : Env) (online : Online) : Apart user env online [] := by
  rintro r r' ⟨pre, post, h, -⟩
  simp at h

/-- What a step does to the accounts: only a slice puts clients online. -/
theorem single_step {s s' : State} {e : Event} (hs : Single user s.online)
    (h : step user s e = some s') :
    Single user s'.online ↔ ∀ env, e = .slice env → Apart user env s.online s.users := by
  cases e with
  | emit r =>
    cases h
    exact ⟨fun _ _ => by rintro ⟨⟩, fun _ => hs⟩
  | take =>
    simp only [step] at h
    split at h
    · cases h
      exact ⟨fun _ _ => by rintro ⟨⟩, fun _ => hs⟩
    · cases h
  | slice env =>
    simp only [step] at h
    split at h
    · cases h
    next arr i hb =>
      split at h
      · cases h
        rw [single_loginSlice hs]
        exact ⟨fun hap env' => by rintro ⟨⟩; exact hap, fun hap => hap env rfl⟩
      next hi =>
        cases h
        refine ⟨fun _ env' _ => ?_, fun _ => hs⟩
        rw [State.users, hb]
        simp only [limit_eq_nil hi]
        exact apart_nil env' s.online

/-- In a run of logins, whatever the batches, no account limited to one client ever has two
online if and only if no slice puts two clients of one such account online. -/
theorem single_run_iff {es : List Event} {s : State} (h : run user State.init es = some s) :
    (∀ pre post s', es = pre ++ post → run user State.init pre = some s' →
      Single user s'.online) ↔
    ∀ pre env post s', es = pre ++ Event.slice env :: post →
      run user State.init pre = some s' → Apart user env s'.online s'.users := by
  constructor
  · rintro hsingle pre env post s₁ rfl h₁
    have hs₁ := hsingle pre _ s₁ rfl h₁
    obtain ⟨s₁', h₁', hrest⟩ := run_append.1 h
    obtain rfl : s₁ = s₁' := Option.some.inj (h₁.symm.trans h₁')
    obtain ⟨s₂, h₂, -⟩ := run_cons.1 hrest
    refine (single_step hs₁ h₂).1 ?_ env rfl
    exact hsingle (pre ++ [.slice env]) post s₂ (by simp) (run_concat.2 ⟨s₁, h₁, h₂⟩)
  · intro hap pre
    induction pre using List.reverseRecOn with
    | nil =>
      rintro post s' - ⟨⟩
      intro e he
      cases he
    | append_singleton pre e ih =>
      rintro post s' rfl hs'
      obtain ⟨s₁, h₁, h₂⟩ := run_concat.1 hs'
      refine (single_step (ih (e :: post) s₁ (by simp) h₁) h₂).2 ?_
      rintro env rfl
      exact hap pre env post s₁ (by simp) h₁

end Runs

/-! ## Two requests of one account in a slice -/

/-- An account limited to one client. -/
def sampleUser (username : String) : Option User :=
  if username = "bob" then some ⟨"secret", 1, 0, "", "", "", 63⟩ else none

/-- A request of the account, from the client with this number. -/
def sampleRequest (uid : ℤ) : Request where
  uid := uid
  magic := 142
  username := "bob"
  password := "secret"
  ip := "172.16.24.186"
  mac := "28:a0:2b:65:4d:62"
  ext := none
  rid := 0
  uIp := "127.0.0.1"
  uPort := 50000

def sampleEnv : Env where
  redirect _ := none
  date := "2016-08-25 00:00:00"
  now := 0

/-- The requests of these clients arrive before the batch is taken. -/
def sampleEvents (uids : List ℤ) : List Event :=
  uids.map (fun uid => .emit (sampleRequest uid)) ++ [.take, .slice sampleEnv]

/-- What is taken was asked for. -/
theorem Taken.mem {user : String → Option User} {env : Env} {online : Online}
    {users : List Request} {r : Request} (h : Taken user env online users r) : r ∈ users := by
  obtain ⟨pre, post, rfl, -⟩ := h
  simp

/-- A client logs in, its batch ends, and a second client of the account asks. -/
def laterEvents : List Event := sampleEvents [70] ++ .slice sampleEnv :: sampleEvents [71]

/-- The second client is refused in its slice, so that at no time two are online. -/
theorem single_of_later_slice :
    ∃ s, run sampleUser State.init laterEvents = some s ∧
      s.online.map (fun e => (e.1, e.2.username)) = [("70_142", "bob")] ∧
      ∀ pre post s', laterEvents = pre ++ post → run sampleUser State.init pre = some s' →
        Single sampleUser s'.online := by
  have hrun : (run sampleUser State.init laterEvents).map
      (fun s => s.online.map fun e => (e.1, e.2.username)) = some [("70_142", "bob")] := by
    decide +kernel
  obtain ⟨s, hs, honline⟩ := Option.map_eq_some_iff.1 hrun
  refine ⟨s, hs, honline, (single_run_iff hs).2 fun pre env post s' hpre hs' => ?_⟩
  -- each slice has one request at most
  obtain ⟨r₀, hr₀⟩ : ∃ r₀, ∀ r ∈ s'.users, r = r₀ := by
    simp only [laterEvents, sampleEvents, List.map_cons, List.map_nil, List.cons_append,
      List.nil_append] at hpre
    match pre, hpre with
    | [_, _], hpre =>
      simp only [List.cons_append, List.nil_append, List.cons.injEq] at hpre
      obtain ⟨rfl, rfl, -⟩ := hpre
      cases hs'
      exact ⟨sampleRequest 70, fun r hr => List.mem_singleton.1 hr⟩
    | [_, _, _], hpre =>
      simp only [List.cons_append, List.nil_append, List.cons.injEq] at hpre
      obtain ⟨rfl, rfl, rfl, -⟩ := hpre
      cases hs'
      exact ⟨sampleRequest 70, fun r hr => (List.not_mem_nil hr).elim⟩
    | [_, _, _, _, _, _], hpre =>
      simp only [List.cons_append, List.nil_append, List.cons.injEq] at hpre
      obtain ⟨rfl, rfl, rfl, rfl, rfl, rfl, -⟩ := hpre
      cases hs'
      exact ⟨sampleRequest 71, fun r hr => List.mem_singleton.1 hr⟩
    | [], hpre => simp at hpre
    | [_], hpre => simp at hpre
    | [_, _, _, _], hpre => simp at hpre
    | [_, _, _, _, _], hpre => simp at hpre
    | _ :: _ :: _ :: _ :: _ :: _ :: _ :: _, hpre => simp at hpre
  intro r r' hr hr' _ _
  rw [hr₀ r hr.mem, hr₀ r' hr'.mem]

/-- Both pass, since the account was offline when the slice began. -/
theorem two_clients_of_one_account :
    ∃ s, run sampleUser State.init (sampleEvents [70, 71]) = some s ∧
      ¬ Single sampleUser s.online := by
  have hrun : (run sampleUser State.init (sampleEvents [70, 71])).map
      (fun s => s.online.map fun e => (e.1, e.2.username)) =
      some [("70_142", "bob"), ("71_142", "bob")] := by decide +kernel
  obtain ⟨s, hs, honline⟩ := Option.map_eq_some_iff.1 hrun
  refine ⟨s, hs, fun hsingle => ?_⟩
  obtain ⟨e, he, hk⟩ := List.mem_map.1 (honline ▸ List.mem_cons_self)
  obtain ⟨e', he', hk'⟩ := List.mem_map.1
    (honline ▸ List.mem_cons_of_mem _ (List.mem_cons_self))
  obtain ⟨hkey, hname⟩ : e.1 = "70_142" ∧ e.2.username = "bob" := by simpa using hk
  obtain ⟨hkey', hname'⟩ : e'.1 = "71_142" ∧ e'.2.username = "bob" := by simpa using hk'
  have hone := hsingle e he e' he' (hname.trans hname'.symm)
    ⟨⟨"secret", 1, 0, "", "", "", 63⟩, by rw [hname]; rfl, by decide⟩
  rw [hkey, hkey'] at hone
  revert hone
  decide

end AuthLogin
