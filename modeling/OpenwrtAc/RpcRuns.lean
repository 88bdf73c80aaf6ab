/-
# What a call can rely on

A call that returns a value has run its function once, and every function that ran for a
call but the last one failed with the text `miss`.  The state is the one that the functions
leave that ran, one after the other, whatever was lost, late or started anew.
-/
import OpenwrtAc.RpcCall

namespace Rpc

variable {Key Code Fn Arg V W : Type} {env : Env Code Fn Arg V W}
  {calls : ℕ → Call Key Code Arg} {world : W} {s : State Key Fn V W}

/-! ## The functions that run -/

/-- The text of a request that the call has sent compiles to `fn`. -/
def Texts (env : Env Code Fn Arg V W) (calls : ℕ → Call Key Code Arg) (sent : List (ℕ × Round)) (j : ℕ)
    (fn : Fn) : Prop :=
  ∃ round code, (j, round) ∈ sent ∧ ((calls j).request round).f = some code ∧ env.load code = .ok fn

/-- A text that the call has sent, or for a key one that a call with the key has sent, compiles to
    `fn`. -/
def Carries (env : Env Code Fn Arg V W) (calls : ℕ → Call Key Code Arg) (sent : List (ℕ × Round)) (i : ℕ)
    (fn : Fn) : Prop :=
  Texts env calls sent i fn ∨
    ∃ j, (calls i).key.isSome ∧ (calls j).key = (calls i).key ∧ Texts env calls sent j fn

/-- The functions of the log ran one after the other from `world`, each with the argument of its
    call, and left the last state; the answers are theirs. -/
inductive Replays (env : Env Code Fn Arg V W) (calls : ℕ → Call Key Code Arg) (world : W) :
    List (Entry Fn V) → W → Prop
  | nil : Replays env calls world [] world
  | snoc {log : List (Entry Fn V)} {w w' : W} {e : Entry Fn V} (h : Replays env calls world log w)
      (hrun : execute env e.fn (calls e.call).arg w = (e.reply, w')) :
      Replays env calls world (log ++ [e]) w'

/-- The functions that are kept under a key come from texts that calls with the key have sent. -/
def Kept (env : Env Code Fn Arg V W) (calls : ℕ → Call Key Code Arg) (sent : List (ℕ × Round))
    (cache : Key → Option Fn) : Prop :=
  ∀ k fn, cache k = some fn → ∃ j, (calls j).key = some k ∧ Texts env calls sent j fn

/-- What was sent stays sent. -/
theorem Texts.mono {sent sent' : List (ℕ × Round)} {j : ℕ} {fn : Fn} (h : Texts env calls sent j fn)
    (hsub : sent ⊆ sent') : Texts env calls sent' j fn := by
  obtain ⟨round, code, hmem, hcode, hload⟩ := h
  exact ⟨round, code, hsub hmem, hcode, hload⟩

/-- A text that was sent has been sent later too. -/
theorem Carries.mono {sent sent' : List (ℕ × Round)} {i : ℕ} {fn : Fn}
    (h : Carries env calls sent i fn) (hsub : sent ⊆ sent') : Carries env calls sent' i fn := by
  rcases h with h | ⟨j, hkey, hj, h⟩
  · exact .inl (h.mono hsub)
  · exact .inr ⟨j, hkey, hj, h.mono hsub⟩

/-- A cache that holds texts sent holds texts sent later too. -/
theorem Kept.mono {sent sent' : List (ℕ × Round)} {cache : Key → Option Fn}
    (h : Kept env calls sent cache) (hsub : sent ⊆ sent') : Kept env calls sent' cache := by
  intro k fn hk
  obtain ⟨j, hj, htext⟩ := h k fn hk
  exact ⟨j, hj, htext.mono hsub⟩

/-- What serving a request of a call comes to, with the state before and after: a function runs, or
    the server has none under the key, or the text does not compile. -/
inductive Serves (env : Env Code Fn Arg V W) (calls : ℕ → Call Key Code Arg) (sent : List (ℕ × Round))
    (i : ℕ) (round : Round) (w : W) : Option Fn → Reply V → W → Prop
  | ran {fn : Fn} {r : Reply V} {w' : W} (hfn : Carries env calls sent i fn)
      (hrun : execute env fn (calls i).arg w = (r, w')) :
      Serves env calls sent i round w (some fn) r w'
  | missed (hround : round = .first) (hkey : (calls i).key.isSome) :
      Serves env calls sent i round w none ⟨some env.miss, true⟩ w
  | unloaded {e : V} (hload : env.load (calls i).code = .error e) :
      Serves env calls sent i round w none ⟨some e, true⟩ w

variable {sent : List (ℕ × Round)}

/-- What one execution answers, and that the cache keeps texts that were sent. -/
theorem run_serves {serv : Serv Key Fn W} {i : ℕ} {round : Round} {fn : Fn}
    (hk : Kept env calls sent serv.cache) (hfn : Carries env calls sent i fn) :
    ∃ ran r serv', serv.run env fn (calls i).arg true = (⟨ran, some r⟩, serv') ∧
      Kept env calls sent serv'.cache ∧ Serves env calls sent i round serv.world ran r serv'.world :=
  ⟨_, _, _, rfl, hk, .ran hfn rfl⟩

variable [DecidableEq Key]

/-- The cache may take a text that was sent under the key. -/
theorem Kept.update {cache : Key → Option Fn} {i : ℕ} {k : Key} {fn : Fn}
    (hk : Kept env calls sent cache) (hkey : (calls i).key = some k)
    (htext : Texts env calls sent i fn) :
    Kept env calls sent (Function.update cache k (some fn)) := by
  intro k' fn' h
  by_cases hkk : k' = k
  · subst hkk
    rw [Function.update_self] at h
    cases h
    exact ⟨i, hkey, htext⟩
  · rw [Function.update_of_ne hkk] at h
    exact hk k' fn' h

/-- A request that a call has sent is always answered. -/
theorem execute_serves {serv : Serv Key Fn W} (hk : Kept env calls sent serv.cache) {i : ℕ}
    {round : Round} (hsent : (i, round) ∈ sent) :
    ∃ ran r serv', serv.execute env ((calls i).request round) = (⟨ran, some r⟩, serv') ∧
      Kept env calls sent serv'.cache ∧
      Serves env calls sent i round serv.world ran r serv'.world := by
  cases hc : calls i with
  | once f p =>
    have hcode : (calls i).code = f := by rw [hc]; rfl
    have harg : (calls i).arg = p := by rw [hc]; rfl
    have hreq : (Call.once f p : Call Key Code Arg).request round = ⟨none, p, some f, true⟩ := by
      cases round <;> rfl
    rw [hreq]
    cases hload : env.load f with
    | error e =>
      refine ⟨none, ⟨some e, true⟩, serv, ?_, hk, .unloaded (hcode ▸ hload)⟩
      simp only [Serv.execute, hload]
    | ok fn =>
      simp only [Serv.execute, hload]
      rw [← harg]
      have htext : Texts env calls sent i fn := ⟨round, f, hsent, by rw [hc, hreq], hload⟩
      exact run_serves hk (Or.inl htext)
  | fetch k f p =>
    have hcode : (calls i).code = f := by rw [hc]; rfl
    have harg : (calls i).arg = p := by rw [hc]; rfl
    have hkey : (calls i).key = some k := by rw [hc]; rfl
    cases round with
    | second =>
      cases hload : env.load f with
      | error e =>
        refine ⟨none, ⟨some e, true⟩, serv, ?_, hk, .unloaded (hcode ▸ hload)⟩
        simp only [Call.request, Serv.execute, hload]
      | ok fn =>
        simp only [Call.request, Serv.execute, hload]
        rw [← harg]
        have htext : Texts env calls sent i fn := ⟨.second, f, hsent, by rw [hc]; rfl, hload⟩
        exact run_serves (hk.update hkey htext) (Or.inl htext)
    | first =>
      cases hcache : serv.cache k with
      | none =>
        refine ⟨none, ⟨some env.miss, true⟩, serv, ?_, hk, .missed rfl (by rw [hkey]; rfl)⟩
        simp only [Call.request, Serv.execute, hcache]
      | some fn =>
        simp only [Call.request, Serv.execute, hcache]
        rw [← harg]
        obtain ⟨j, hj, htext⟩ := hk k fn hcache
        exact run_serves hk (Or.inr ⟨j, by rw [hkey]; rfl, hj.trans hkey.symm, htext⟩)

/-! ## The course of one call -/

section

omit [DecidableEq Key]

/-- The functions that ran for a call. -/
def mine (i : ℕ) (log : List (Entry Fn V)) : List (Entry Fn V) := log.filter fun e => e.call = i

/-- The answer that makes a `fetch` send the text. -/
def missReply (env : Env Code Fn Arg V W) : Reply V := ⟨some env.miss, true⟩

/-- The functions that ran for a call before a round of it is served: none, or in the first round
    one that failed with the text of the answer. -/
inductive Before (env : Env Code Fn Arg V W) (c : Call Key Code Arg) : Round → List (Entry Fn V) → Prop
  | first : Before env c .first []
  | none (hkey : c.key.isSome) : Before env c .second []
  | again {e : Entry Fn V} (hkey : c.key.isSome) (he : e.reply = missReply env) :
      Before env c .second [e]

/-- The functions that ran for a call when a round is answered. -/
inductive After (env : Env Code Fn Arg V W) (c : Call Key Code Arg) (round : Round) (r : Reply V) :
    List (Entry Fn V) → Prop
  | ran {log : List (Entry Fn V)} {e : Entry Fn V} (h : Before env c round log) (he : e.reply = r) :
      After env c round r (log ++ [e])
  | missed (hround : round = .first) (hkey : c.key.isSome) (hr : r = missReply env) :
      After env c round r []
  | unloaded {log : List (Entry Fn V)} {e : V} (h : Before env c round log)
      (hload : env.load c.code = .error e) (hr : r = ⟨some e, true⟩) : After env c round r log

/-- A call waits for a round, or has given it up. -/
def Waits (phase : Phase V) (round : Round) : Prop := phase = .waiting round ∨ phase = .done .lost

/-- A call that is given up waits for any round. -/
theorem waits_lost {round : Round} : Waits (.done .lost : Phase V) round := Or.inr rfl

/-- A second round starts with the functions that ran in the first. -/
theorem After.before {c : Call Key Code Arg} {log : List (Entry Fn V)} {r : Reply V}
    (h : After env c .first r log) (hkey : c.key.isSome) (hr : r = missReply env) :
    Before env c .second log := by
  cases h with
  | ran h he =>
    cases h with
    | first => exact .again hkey (he.trans hr)
  | missed _ _ _ => exact .none hkey
  | unloaded h _ _ =>
    cases h with
    | first => exact .none hkey

variable [DecidableEq V]

/-- A call, with what is on its way for it and the functions that ran for it. -/
inductive Track (env : Env Code Fn Arg V W) (c : Call Key Code Arg) :
    Client V → List (Entry Fn V) → Prop
  | idle : Track env c ⟨.idle, [], []⟩ []
  | asked {phase : Phase V} {round : Round} {log : List (Entry Fn V)} (hp : Waits phase round)
      (h : Before env c round log) : Track env c ⟨phase, [round], []⟩ log
  | answered {phase : Phase V} {round : Round} {r : Reply V} {log : List (Entry Fn V)}
      (hp : Waits phase round) (h : After env c round r log) : Track env c ⟨phase, [], [(round, r)]⟩ log
  | unserved {phase : Phase V} {round : Round} {log : List (Entry Fn V)} (hp : Waits phase round)
      (h : Before env c round log) : Track env c ⟨phase, [], []⟩ log
  | unanswered {phase : Phase V} {round : Round} {r : Reply V} {log : List (Entry Fn V)}
      (hp : Waits phase round) (h : After env c round r log) : Track env c ⟨phase, [], []⟩ log
  | done {round : Round} {r : Reply V} {log : List (Entry Fn V)}
      (hnext : c.next env round r = .done r.result) (h : After env c round r log) :
      Track env c ⟨.done r.result, [], []⟩ log

variable {c : Call Key Code Arg} {cl : Client V} {log : List (Entry Fn V)}

/-- A second round is for the answer `miss` to a `fetch`, and else a call is over. -/
theorem next_cases (env : Env Code Fn Arg V W) (c : Call Key Code Arg) (round : Round)
    (r : Reply V) :
    (c.next env round r = .waiting .second ∧ round = .first ∧ c.key.isSome ∧ r = missReply env) ∨
      c.next env round r = .done r.result := by
  cases c with
  | once f p =>
    right
    rfl
  | fetch k f p =>
    cases round with
    | second =>
      right
      rfl
    | first =>
      by_cases h : r.isMiss env = true
      · left
        refine ⟨by simp only [Call.next, h, if_true], rfl, rfl, ?_⟩
        obtain ⟨d, e⟩ := r
        simp only [Reply.isMiss, Bool.and_eq_true, decide_eq_true_eq] at h
        rw [missReply, ← h.1, ← h.2]
      · right
        simp only [Call.next, h]
        rfl

/-! ## What a step does to a call -/

/-- A call begins with its first round. -/
theorem Track.start (h : Track env c cl log) (hp : cl.phase = .idle) :
    Track env c ⟨.waiting .first, cl.requests ++ [.first], cl.replies⟩ log := by
  cases h with
  | idle => exact .asked (Or.inl rfl) .first
  | asked hw _ | answered hw _ | unserved hw _ | unanswered hw _ =>
    rcases hw with h | h <;> cases hp.symm.trans h
  | done _ _ => cases hp

/-- A call may be given up while it waits. -/
theorem Track.timeout {round : Round} (h : Track env c cl log) (hp : cl.phase = .waiting round) :
    Track env c { cl with phase := .done .lost } log := by
  cases h with
  | idle => cases hp
  | asked _ h => exact .asked waits_lost h
  | answered _ h => exact .answered waits_lost h
  | unserved _ h => exact .unserved waits_lost h
  | unanswered _ h => exact .unanswered waits_lost h
  | done _ _ => cases hp

/-- A request may be lost. -/
theorem Track.loseRequest (h : Track env c cl log) (n : ℕ) :
    Track env c { cl with requests := cl.requests.eraseIdx n } log := by
  cases h with
  | idle => exact .idle
  | asked hp h =>
    cases n with
    | zero => exact .unserved hp h
    | succ n => exact .asked hp h
  | answered hp h => exact .answered hp h
  | unserved hp h => exact .unserved hp h
  | unanswered hp h => exact .unanswered hp h
  | done hn h => exact .done hn h

/-- A reply may be lost. -/
theorem Track.loseReply (h : Track env c cl log) (n : ℕ) :
    Track env c { cl with replies := cl.replies.eraseIdx n } log := by
  cases h with
  | idle => exact .idle
  | asked hp h => exact .asked hp h
  | answered hp h =>
    cases n with
    | zero => exact .unanswered hp h
    | succ n => exact .answered hp h
  | unserved hp h => exact .unserved hp h
  | unanswered hp h => exact .unanswered hp h
  | done hn h => exact .done hn h

/-- The one place of a list of one. -/
theorem getElem?_singleton {α : Type} {a b : α} {n : ℕ} (h : [a][n]? = some b) : n = 0 ∧ a = b := by
  cases n with
  | zero => exact ⟨rfl, Option.some.inj h⟩
  | succ n => cases h

/-- A reply that arrives belongs to the round waited for. -/
theorem Track.receive {n : ℕ} {round round' : Round} {r : Reply V} (h : Track env c cl log)
    (hr : cl.replies[n]? = some (round, r)) (hp : cl.phase = .waiting round') :
    round = round' ∧ Track env c ⟨c.next env round r, cl.requests ++ (c.next env round r).asks,
      cl.replies.eraseIdx n⟩ log := by
  cases h with
  | answered hw h =>
    obtain ⟨rfl, heq⟩ := getElem?_singleton hr
    cases heq
    have hround : round = round' := by
      rcases hw with hw | hw
      · cases hw.symm.trans hp
        rfl
      · cases hw.symm.trans hp
    refine ⟨hround, ?_⟩
    rcases next_cases env c round r with ⟨hnext, rfl, hkey, hmiss⟩ | hnext
    · rw [hnext]
      exact .asked (Or.inl rfl) (h.before hkey hmiss)
    · have htrack := Track.done hnext h
      rw [hnext]
      exact htrack
  | idle | asked _ _ | unserved _ _ | unanswered _ _ | done _ _ => cases hr

/-- The server answers a request. -/
theorem Track.serve {n i : ℕ} {round : Round} {ran : Option Fn} {r : Reply V} {w w' : W}
    (h : Track env (calls i) cl log) (hn : cl.requests[n]? = some round)
    (hs : Serves env calls sent i round w ran r w') :
    Track env (calls i) ⟨cl.phase, cl.requests.eraseIdx n, cl.replies ++ [(round, r)]⟩
      (log ++ (ran.map fun fn => (⟨i, fn, r⟩ : Entry Fn V)).toList) := by
  cases h with
  | asked hp h =>
    obtain ⟨rfl, rfl⟩ := getElem?_singleton hn
    refine .answered hp ?_
    cases hs with
    | ran _ _ => exact .ran h rfl
    | missed hround hkey =>
      subst hround
      cases h with
      | first => exact .missed rfl hkey rfl
    | unloaded hload =>
      rw [Option.map_none, Option.toList_none, List.append_nil]
      exact .unloaded h hload rfl
  | idle | answered _ _ | unserved _ _ | unanswered _ _ | done _ _ => cases hn

/-! ## What the course says of the result -/

omit [DecidableEq V] in
/-- Before its round a call has no entry in the log, or the miss of the first round. -/
theorem Before.cases {round : Round} (h : Before env c round log) :
    log = [] ∨ ∃ e, log = [e] ∧ e.reply = missReply env := by
  cases h with
  | first => exact Or.inl rfl
  | none _ => exact Or.inl rfl
  | again _ he => exact Or.inr ⟨_, rfl, he⟩

/-- Of the functions that ran for a call, all but the last failed with `miss`, and there are two at
    most. -/
structure Course (env : Env Code Fn Arg V W) (log : List (Entry Fn V)) : Prop where
  length : log.length ≤ 2
  again : ∀ e ∈ log.dropLast, e.reply = missReply env

omit [DecidableEq V] in
/-- This is a course of a call. -/
theorem Before.course {round : Round} (h : Before env c round log) : Course env log := by
  rcases h.cases with rfl | ⟨e, rfl, _⟩
  · exact ⟨by simp, by simp⟩
  · exact ⟨by simp, by simp⟩

omit [DecidableEq V] in
/-- So is what the log holds behind the round. -/
theorem After.course {round : Round} {r : Reply V} (h : After env c round r log) :
    Course env log := by
  cases h with
  | ran h _ =>
    rcases h.cases with rfl | ⟨e, rfl, he⟩
    · exact ⟨by simp, by simp⟩
    · exact ⟨by simp, by simpa using he⟩
  | missed _ _ _ => exact ⟨by simp, by simp⟩
  | unloaded h _ _ => exact h.course

/-- In every state the log of a call is one of its courses. -/
theorem Track.course (h : Track env c cl log) : Course env log := by
  cases h with
  | idle => exact ⟨by simp, by simp⟩
  | asked _ h | unserved _ h => exact h.course
  | answered _ h | unanswered _ h | done _ h => exact h.course

/-- A value is that of the function that ran last. -/
theorem Track.value {d : Option V} (h : Track env c cl log) (hp : cl.phase = .done (.value d)) :
    ∃ e, log.getLast? = some e ∧ e.reply = ⟨d, false⟩ := by
  cases h with
  | idle => cases hp
  | asked hw _ | answered hw _ | unserved hw _ | unanswered hw _ =>
    rcases hw with hw | hw <;> cases hw.symm.trans hp
  | @done round r _ hnext h =>
    obtain ⟨rd, re⟩ := r
    cases re with
    | true => cases hp
    | false =>
      cases hp
      cases h with
      | ran h he => exact ⟨_, List.getLast?_concat, he⟩
      | missed _ _ hr => cases hr
      | unloaded _ _ hr => cases hr

/-- A failure is that of the function that ran last, or the text does not compile. -/
theorem Track.failed {d : Option V} (h : Track env c cl log) (hp : cl.phase = .done (.failed d)) :
    (∃ e, log.getLast? = some e ∧ e.reply = ⟨d, true⟩) ∨ ∃ e, env.load c.code = .error e ∧ d = some e := by
  cases h with
  | idle => cases hp
  | asked hw _ | answered hw _ | unserved hw _ | unanswered hw _ =>
    rcases hw with hw | hw <;> cases hw.symm.trans hp
  | @done round r _ hnext h =>
    obtain ⟨rd, re⟩ := r
    cases re with
    | false => cases hp
    | true =>
      cases hp
      cases h with
      | ran h he => exact Or.inl ⟨_, List.getLast?_concat, he⟩
      | missed hround hkey hr =>
        -- such an answer does not end a call
        cases c with
        | once f p => cases hkey
        | fetch k f p =>
          subst hround
          rw [hr] at hnext
          simp [Call.next, Reply.isMiss, missReply] at hnext
      | unloaded _ hload hr =>
        cases hr
        exact Or.inr ⟨_, hload, rfl⟩

end

/-! ## Runs -/

variable [DecidableEq V]

/-- What holds in every run; the requests on their way are among those that were sent. -/
structure Inv (env : Env Code Fn Arg V W) (calls : ℕ → Call Key Code Arg) (world : W)
    (s : State Key Fn V W) : Prop where
  kept : Kept env calls s.sent s.serv.cache
  replays : Replays env calls world s.log s.serv.world
  carries : ∀ e ∈ s.log, Carries env calls s.sent e.call e.fn
  asked : ∀ i, ∀ round ∈ (s.clients i).requests, (i, round) ∈ s.sent
  track : ∀ i, Track env (calls i) (s.clients i) (mine i s.log)

omit [DecidableEq Key] in
/-- The invariant at the start. -/
theorem inv_init (env : Env Code Fn Arg V W) (calls : ℕ → Call Key Code Arg) (world : W) :
    Inv env calls world (State.init world) where
  kept := fun _ _ h => by cases h
  replays := .nil
  carries := fun _ h => by cases h
  asked := fun _ _ h => by cases h
  track := fun _ => .idle

omit [DecidableEq Key] in
/-- A step that is about one call and not about the server, and sends nothing. -/
theorem Inv.set {i : ℕ} {cl : Client V} (h : Inv env calls world s)
    (hsub : cl.requests ⊆ (s.clients i).requests) (ht : Track env (calls i) cl (mine i s.log)) :
    Inv env calls world (s.set i cl) := by
  refine { h with track := ?_, asked := ?_ }
  · intro j round hround
    by_cases hj : j = i
    · subst hj
      simp only [State.set, Function.update_self] at hround
      exact h.asked j round (hsub hround)
    · simp only [State.set, Function.update_of_ne hj] at hround
      exact h.asked j round hround
  · intro j
    by_cases hj : j = i
    · subst hj
      simpa only [State.set, Function.update_self] using ht
    · simpa only [State.set, Function.update_of_ne hj] using h.track j

omit [DecidableEq Key] in
/-- A call that goes on, with the request that it sends. -/
theorem Inv.ask {i : ℕ} {phase : Phase V} {replies : List (Round × Reply V)}
    (h : Inv env calls world s)
    (ht : Track env (calls i) ⟨phase, (s.clients i).requests ++ phase.asks, replies⟩ (mine i s.log)) :
    Inv env calls world (s.ask i phase replies) := by
  have hsub : s.sent ⊆ s.sent ++ phase.asks.map fun round => (i, round) :=
    List.subset_append_left _ _
  refine ⟨h.kept.mono hsub, h.replays, fun e he => (h.carries e he).mono hsub, ?_, ?_⟩
  · intro j round hround
    by_cases hj : j = i
    · subst hj
      simp only [State.ask, State.set, Function.update_self] at hround
      rcases List.mem_append.1 hround with hround | hround
      · exact hsub (h.asked j round hround)
      · exact List.mem_append_right _ (List.mem_map_of_mem hround)
    · simp only [State.ask, State.set, Function.update_of_ne hj] at hround
      exact hsub (h.asked j round hround)
  · intro j
    by_cases hj : j = i
    · subst hj
      simpa only [State.ask, State.set, Function.update_self] using ht
    · simpa only [State.ask, State.set, Function.update_of_ne hj] using h.track j

omit [DecidableEq Key] [DecidableEq V] in
/-- What the server adds to the log of the call it serves. -/
theorem mine_append_self {i : ℕ} {log : List (Entry Fn V)} {ran : Option Fn} {r : Reply V} :
    mine i (log ++ (ran.map fun fn => (⟨i, fn, r⟩ : Entry Fn V)).toList)
      = mine i log ++ (ran.map fun fn => (⟨i, fn, r⟩ : Entry Fn V)).toList := by
  rw [mine, List.filter_append]
  cases ran <;> simp [mine]

omit [DecidableEq Key] [DecidableEq V] in
/-- It adds nothing to the log of another. -/
theorem mine_append_other {i j : ℕ} {log : List (Entry Fn V)} {ran : Option Fn} {r : Reply V}
    (hj : j ≠ i) : mine j (log ++ (ran.map fun fn => (⟨i, fn, r⟩ : Entry Fn V)).toList) = mine j log := by
  rw [mine, List.filter_append]
  cases ran <;> simp [mine, hj.symm]

/-- Serving a request keeps the invariant. -/
theorem Inv.serve {i n : ℕ} {round : Round} (h : Inv env calls world s)
    (hn : (s.clients i).requests[n]? = some round) :
    Inv env calls world (s.serve env calls i n round) := by
  obtain ⟨ran, r, ⟨cache, w⟩, hexec, hkept, hserves⟩ :=
    execute_serves h.kept (h.asked i round (List.mem_of_getElem? hn))
  have heq : s.serve env calls i n round =
      { s.set i ⟨(s.clients i).phase, (s.clients i).requests.eraseIdx n,
          (s.clients i).replies ++ [(round, r)]⟩ with
        serv := ⟨cache, w⟩
        log := s.log ++ (ran.map fun fn => (⟨i, fn, r⟩ : Entry Fn V)).toList } := by
    simp only [State.serve, hexec]
    cases ran <;> rfl
  rw [heq]
  refine ⟨hkept, ?_, ?_, ?_, ?_⟩
  · cases hserves with
    | ran _ hrun => exact .snoc h.replays hrun
    | missed _ _ | unloaded _ =>
      rw [Option.map_none, Option.toList_none, List.append_nil]
      exact h.replays
  · cases hserves with
    | ran hfn _ =>
      intro e he
      rcases List.mem_append.1 he with he | he
      · exact h.carries e he
      · rw [List.mem_singleton.1 he]
        exact hfn
    | missed _ _ | unloaded _ =>
      rw [Option.map_none, Option.toList_none, List.append_nil]
      exact h.carries
  · intro j round' hround
    by_cases hj : j = i
    · subst hj
      simp only [State.set, Function.update_self] at hround
      exact h.asked j round' (List.mem_of_mem_eraseIdx hround)
    · simp only [State.set, Function.update_of_ne hj] at hround
      exact h.asked j round' hround
  · intro j
    by_cases hj : j = i
    · subst hj
      rw [mine_append_self]
      simpa only [State.set, Function.update_self] using (h.track j).serve hn hserves
    · rw [mine_append_other hj]
      simpa only [State.set, Function.update_of_ne hj] using h.track j

/-- Every event keeps the invariant. -/
theorem Inv.step (h : Inv env calls world s) (ev : Event) :
    Inv env calls world (step env calls s ev) := by
  cases ev with
  | start i =>
    simp only [Rpc.step]
    split
    · exact h.ask ((h.track i).start ‹_›)
    · exact h
  | serve i n =>
    simp only [Rpc.step]
    split
    · exact h.serve ‹_›
    · exact h
  | receive i n =>
    simp only [Rpc.step]
    split
    · split
      · split
        · exact h.ask ((h.track i).receive ‹_› ‹_›).2
        · exact h.set (List.Subset.refl _) ((h.track i).loseReply n)
      · exact h.set (List.Subset.refl _) ((h.track i).loseReply n)
    · exact h
  | loseRequest i n => exact h.set (fun _ => List.mem_of_mem_eraseIdx) ((h.track i).loseRequest n)
  | loseReply i n => exact h.set (List.Subset.refl _) ((h.track i).loseReply n)
  | timeout i =>
    simp only [Rpc.step]
    split
    · exact h.set (List.Subset.refl _) ((h.track i).timeout ‹_›)
    · exact h
  | restart => exact { h with kept := fun _ _ hk => by cases hk }

/-- Every list of events keeps the invariant. -/
theorem Inv.run (h : Inv env calls world s) (evs : List Event) :
    Inv env calls world (run env calls s evs) := by
  induction evs generalizing s with
  | nil => exact h
  | cons ev evs ih => exact ih (h.step ev)

/-- What the calls can rely on: the functions that ran did so one after the other, each is from a
    text that its call has sent or another call with its key, for a call all but the last failed
    with `miss` and there are two at most, and the result of a call that was answered is that of
    the last, or its text does not compile. -/
structure Reliable (env : Env Code Fn Arg V W) (calls : ℕ → Call Key Code Arg) (world : W)
    (s : State Key Fn V W) : Prop where
  replays : Replays env calls world s.log s.serv.world
  carries : ∀ e ∈ s.log, Carries env calls s.sent e.call e.fn
  course : ∀ i, Course env (mine i s.log)
  value : ∀ i d, (s.clients i).phase = .done (.value d) →
    ∃ e, (mine i s.log).getLast? = some e ∧ e.reply = ⟨d, false⟩
  failed : ∀ i d, (s.clients i).phase = .done (.failed d) →
    (∃ e, (mine i s.log).getLast? = some e ∧ e.reply = ⟨d, true⟩) ∨
      ∃ e, env.load (calls i).code = .error e ∧ d = some e

/-- In every run the calls are executed as the property says. -/
theorem run_reliable (env : Env Code Fn Arg V W) (calls : ℕ → Call Key Code Arg) (world : W)
    (evs : List Event) : Reliable env calls world (run env calls (State.init world) evs) := by
  have h := (inv_init env calls world).run evs
  exact ⟨h.replays, h.carries, fun i => (h.track i).course, fun i _ => (h.track i).value,
    fun i _ => (h.track i).failed⟩

/-- A function that counts its runs and fails with the text of the server's answer. -/
def failing : Env Unit Unit Unit ℕ ℕ :=
  ⟨fun _ => .ok (), fun _ _ w => (.returned none (some 0), w + 1), 0⟩

-- the second call finds the function under the key, and runs it twice
example : (run failing (fun _ => .fetch () () none) (State.init 0 : State Unit Unit ℕ ℕ)
    [.start 0, .serve 0 0, .receive 0 0, .serve 0 0, .receive 0 0,
      .start 1, .serve 1 0, .receive 1 0, .serve 1 0]).serv.world = 3 := by
  decide

end Rpc
