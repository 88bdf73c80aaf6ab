/-
# Calls of functions in another process

A client sends the key of a function and an argument; a server that has no function under
the key answers `miss`, and the client sends the text of the function as well, which the
server compiles, keeps under the key, and calls.  Requests and replies go through the
broker, which may lose them; a client waits for a limited time.
-/
import Mathlib.Logic.Function.Basic
import Mathlib.Tactic.Common

namespace Rpc

/-! ## The server -/

/-- How a function that was called under `pcall` ends. -/
inductive Outcome (V : Type) where
  | raised (m : V)
  | returned (m e : Option V)

/-- The texts of functions and what they do: `load` is `loadstring`, `call` runs a function with
    `arg` on the state that the functions share, and `miss` is the text of the server's answer. -/
structure Env (Code Fn Arg V W : Type) where
  load : Code → Except V Fn
  call : Fn → Option Arg → W → Outcome V × W
  miss : V

/-- `{d = d, e = e}`, where `e` is 1 or nil. -/
structure Reply (V : Type) where
  d : Option V
  e : Bool
  deriving DecidableEq

/-- `{cmd = "rpc", k = k, p = p, f = f, r = r}`. -/
structure Request (Key Code Arg : Type) where
  k : Option Key
  p : Option Arg
  f : Option Code
  r : Bool

/-- The functions that are kept, and the state that they work on. -/
structure Serv (Key Fn W : Type) where
  cache : Key → Option Fn
  world : W

variable {Key Code Fn Arg V W : Type}

/-- The local function `execute`. -/
def execute (env : Env Code Fn Arg V W) (f : Fn) (p : Option Arg) (world : W) : Reply V × W :=
  match env.call f p world with
  | (.raised m, world) => (⟨some m, true⟩, world)
  | (.returned none e, world) => (⟨e, true⟩, world)
  | (.returned (some m) _, world) => (⟨some m, false⟩, world)

/-- What a request made the server do: the function that it ran, if it did, and the answer. -/
structure Served (Fn V : Type) where
  ran : Option Fn
  reply : Option (Reply V)

/-- `execute`, and the answer where one is asked for. -/
def Serv.run (env : Env Code Fn Arg V W) (s : Serv Key Fn W) (f : Fn) (p : Option Arg) (ret : Bool) :
    Served Fn V × Serv Key Fn W :=
  let (reply, world) := execute env f p s.world
  (⟨some f, if ret then some reply else none⟩, { s with world := world })

/-- The method `execute`. -/
def Serv.execute [DecidableEq Key] (env : Env Code Fn Arg V W) (s : Serv Key Fn W)
    (rpc : Request Key Code Arg) : Served Fn V × Serv Key Fn W :=
  match rpc.k with
  | none =>
    match rpc.f with
    | none => (⟨none, none⟩, s)
    | some bt =>
      match env.load bt with
      | .error e => (⟨none, some ⟨some e, true⟩⟩, s)
      | .ok f => s.run env f rpc.p rpc.r
  | some k =>
    match rpc.f with
    | some bt =>
      match env.load bt with
      | .error e => (⟨none, some ⟨some e, true⟩⟩, s)
      | .ok f => Serv.run env { s with cache := Function.update s.cache k (some f) } f rpc.p true
    | none =>
      match s.cache k with
      | none => (⟨none, some ⟨some env.miss, true⟩⟩, s)
      | some f => s.run env f rpc.p true

/-! ## The clients -/

/-- A call of `fetch` or `once`. -/
inductive Call (Key Code Arg : Type) where
  | fetch (k : Key) (f : Code) (p : Option Arg)
  | once (f : Code) (p : Option Arg)

/-- The first query of a call, or the one with the text. -/
inductive Round where
  | first
  | second
  deriving DecidableEq

def Call.arg : Call Key Code Arg → Option Arg
  | .fetch _ _ p => p
  | .once _ p => p

def Call.code : Call Key Code Arg → Code
  | .fetch _ f _ => f
  | .once f _ => f

def Call.key : Call Key Code Arg → Option Key
  | .fetch k _ _ => some k
  | .once _ _ => none

/-- What a call asks in a round. -/
def Call.request : Call Key Code Arg → Round → Request Key Code Arg
  | .fetch k _ p, .first => ⟨some k, p, none, false⟩
  | .fetch k f p, .second => ⟨some k, p, some f, false⟩
  | .once f p, _ => ⟨none, p, some f, true⟩

/-- What a call returns: the value, the error of the answer, or the error of the query. -/
inductive Result (V : Type) where
  | value (d : Option V)
  | failed (d : Option V)
  | lost

inductive Phase (V : Type) where
  | idle
  | waiting (round : Round)
  | done (res : Result V)

def Reply.result (r : Reply V) : Result V := if r.e then .failed r.d else .value r.d

/-- The answer that makes a `fetch` send the text. -/
def Reply.isMiss [DecidableEq V] (env : Env Code Fn Arg V W) (r : Reply V) : Bool :=
  r.e && r.d = some env.miss

/-- Where a call goes on from its answer. -/
def Call.next [DecidableEq V] (env : Env Code Fn Arg V W) (c : Call Key Code Arg) (round : Round)
    (r : Reply V) : Phase V :=
  match c, round with
  | .fetch _ _ _, .first => if r.isMiss env then .waiting .second else .done r.result
  | _, _ => .done r.result

/-! ## Runs -/

/-- A call, with its requests and its replies that are on their way. -/
structure Client (V : Type) where
  phase : Phase V
  requests : List Round
  replies : List (Round × Reply V)

/-- A function that ran, for which call, and its answer. -/
structure Entry (Fn V : Type) where
  call : ℕ
  fn : Fn
  reply : Reply V

/-- The clients and the server, with the functions that ran and the rounds whose requests the calls
    have sent. -/
structure State (Key Fn V W : Type) where
  clients : ℕ → Client V
  serv : Serv Key Fn W
  log : List (Entry Fn V)
  sent : List (ℕ × Round)

def State.init (world : W) : State Key Fn V W where
  clients := fun _ => ⟨.idle, [], []⟩
  serv := ⟨fun _ => none, world⟩
  log := []
  sent := []

/-- What happens: a call starts, the server takes a request, a client takes a reply, the broker
    loses one, a client has waited too long, the server starts anew. -/
inductive Event where
  | start (i : ℕ)
  | serve (i n : ℕ)
  | receive (i n : ℕ)
  | loseRequest (i n : ℕ)
  | loseReply (i n : ℕ)
  | timeout (i : ℕ)
  | restart

def State.set (s : State Key Fn V W) (i : ℕ) (c : Client V) : State Key Fn V W :=
  { s with clients := Function.update s.clients i c }

/-- The rounds that start with a phase: each sends a request. -/
def Phase.asks : Phase V → List Round
  | .waiting round => [round]
  | _ => []

/-- A call goes on to a phase: the round that starts with it sends its request. -/
def State.ask (s : State Key Fn V W) (i : ℕ) (phase : Phase V) (replies : List (Round × Reply V)) :
    State Key Fn V W :=
  { s.set i ⟨phase, (s.clients i).requests ++ phase.asks, replies⟩ with
    sent := s.sent ++ phase.asks.map fun round => (i, round) }

variable [DecidableEq Key] [DecidableEq V]

/-- The answer of the server goes on its way, and a function that ran is in the log. -/
def State.serve (env : Env Code Fn Arg V W) (calls : ℕ → Call Key Code Arg) (s : State Key Fn V W)
    (i n : ℕ) (round : Round) : State Key Fn V W :=
  let c := s.clients i
  let (served, serv) := s.serv.execute env ((calls i).request round)
  let replies := c.replies ++ (served.reply.map fun r => (round, r)).toList
  let log := s.log ++ (served.ran.bind fun f => served.reply.map fun r => ⟨i, f, r⟩).toList
  { (s.set i ⟨c.phase, c.requests.eraseIdx n, replies⟩) with serv := serv, log := log }

def step (env : Env Code Fn Arg V W) (calls : ℕ → Call Key Code Arg) (s : State Key Fn V W) :
    Event → State Key Fn V W
  | .start i =>
    match (s.clients i).phase with
    | .idle => s.ask i (.waiting .first) (s.clients i).replies
    | _ => s
  | .serve i n =>
    match (s.clients i).requests[n]? with
    | some round => s.serve env calls i n round
    | none => s
  | .receive i n =>
    match (s.clients i).replies[n]? with
    | some (round, r) =>
      match (s.clients i).phase with
      | .waiting round' =>
        if round = round' then
          s.ask i ((calls i).next env round r) ((s.clients i).replies.eraseIdx n)
        else s.set i { s.clients i with replies := (s.clients i).replies.eraseIdx n }
      | _ => s.set i { s.clients i with replies := (s.clients i).replies.eraseIdx n }
    | none => s
  | .loseRequest i n =>
    s.set i { s.clients i with requests := (s.clients i).requests.eraseIdx n }
  | .loseReply i n =>
    s.set i { s.clients i with replies := (s.clients i).replies.eraseIdx n }
  | .timeout i =>
    match (s.clients i).phase with
    | .waiting _ => s.set i { s.clients i with phase := .done .lost }
    | _ => s
  | .restart => { s with serv := { s.serv with cache := fun _ => none } }

def run (env : Env Code Fn Arg V W) (calls : ℕ → Call Key Code Arg) (s : State Key Fn V W)
    (evs : List Event) : State Key Fn V W :=
  evs.foldl (step env calls) s

end Rpc
