/-
# The message broker

`sands.lua`: clients connect, say who they are and what they want to hear of, and
publish messages, which go to all clients that have subscribed to their topic.  A
client may leave a will, a message that is published when its connection is closed.

What the broker cannot know comes from a `World`: whether a write succeeds, and in which
order `pairs` goes through the keys of a table.  Memory and the stack are large enough.
-/
import OpenwrtAc.CString
import OpenwrtAc.LuaTable
import OpenwrtAc.Outcome
import OpenwrtAc.RdsParser

open CString LuaTable Rds

namespace Sands

/-- A descriptor of a connection. -/
abbrev Fd := ℕ

/-- Why a callback does not come to its end: the `assert`s of `do_publish` and of the others, an
    index or an operand that is `nil`, a key that is `nil`, a handle that is gone, and what
    `rdsparser` stops with. -/
inductive Stop where
  | deadSubscriber
  | closedClient
  | indexNil
  | nilKey
  | badArgument
  | encoder (e : Rds.Stop)
  | decoder (e : Rds.Stop)
deriving DecidableEq, Repr

/-! ## Messages -/

/-- `tomap`: the first two bytes of a string are the key of the rest. -/
def tomap (arr : List Bytes) : Table Bytes Bytes :=
  arr.foldl (fun map s => set map (s.take 2) (s.drop 2)) []

/-- `%s` of a string: what is short ends at its first 0. -/
def formatS (s : Bytes) : Bytes := if s.length < 100 then s.takeWhile (· != 0) else s

/-- `toarr`.  The order of the strings is not specified, and nothing here depends on it. -/
def toarr (map : List (String × Bytes)) : List Bytes :=
  map.map fun e => formatS (asciiBytes e.1) ++ formatS e.2

/-- `map.key`. -/
def field (map : Table Bytes Bytes) (key : String) : Option Bytes := get map (asciiBytes key)

/-- The message that `do_publish` sends. -/
def publishArr (topic payload : Bytes) : List Bytes :=
  toarr [("id", asciiBytes "pb"), ("tp", topic), ("pl", payload)]

/-- The message that `publish_connack` sends. -/
def connackArr (st : String) (msg : Bytes) : List Bytes :=
  toarr [("id", asciiBytes "ca"), ("st", asciiBytes st), ("da", msg)]

/-! ## State -/

/-- `tonumber` for the numbers of Lua, and their comparison with 5. -/
structure Numbers (N : Type) where
  tonumber : Bytes → Option N
  atLeastFive : N → Bool

variable {N : Type}

/-- `param.tp`: the string of the message, later the table of its topics. -/
inductive TopicField where
  | text (s : Bytes)
  | topics (l : List Bytes)
deriving DecidableEq, Repr

/-- The parameters of a connect command. -/
structure Param (N : Type) where
  cd : Option Bytes
  vv : Option Bytes
  un : Option Bytes
  pw : Option Bytes
  kp : Option N
  tp : Option TopicField
  ct : Option Bytes
  cp : Option Bytes
  wt : Option Bytes
  wp : Option Bytes
deriving DecidableEq, Repr

/-- `st_new` and `st_auth`. -/
inductive ClientState where
  | new
  | auth
deriving DecidableEq, Repr

/-- A connection.  `timer` says whether the keepalive timer runs, and `conn` is a number that no
    other connection has had. -/
structure Client (N : Type) where
  conn : ℕ
  param : Option (Param N)
  state : ClientState
  timer : Bool
  decoder : Decoder
deriving DecidableEq, Repr

/-- What is written to a client: a message with the connection that it comes from, the answer to
    a connect command and the answer to a ping. -/
inductive Written where
  | pb (origin : ℕ) (topic payload : Bytes)
  | ca (st : String) (msg : Bytes)
  | po
deriving DecidableEq, Repr

/-- The broker.  A table of `topic2client` is the list of its descriptors.  Behind the three tables
    stand the number of questions put to the world, the number of connections so far, those of them
    whose connect command has passed all checks, and what was written to whom. -/
structure Broker (N : Type) where
  clientmap : Table Fd (Client N)
  clientid2fd : Table Bytes Fd
  topic2client : Table Bytes (List Fd)
  clock : ℕ
  conns : ℕ
  passed : List ℕ
  out : List (Fd × Written)
deriving DecidableEq, Repr

/-- `new`. -/
def new : Broker N := ⟨[], [], [], 0, 0, [], []⟩

/-- What the broker cannot know: whether a write of `do_publish` and one of the others succeeds,
    and the order of `pairs`. -/
structure World where
  publishWrite : ℕ → Fd → Bool
  clientWrite : ℕ → Fd → Bool
  pairs : ℕ → List Fd → List Fd
  pairs_perm : ∀ n l, (pairs n l).Perm l

/-- A world without failures. -/
def calm : World := ⟨fun _ _ => true, fun _ _ => true, fun _ l => l, fun _ l => .refl l⟩

/-- The descriptors that have subscribed to a topic. -/
def Broker.subscribers (s : Broker N) (topic : Bytes) : List Fd :=
  (get s.topic2client topic).getD []

/-- `tmap[fd] = 1` for the table of a topic, which is made if there is none. -/
def Broker.subscribe (s : Broker N) (fd : Fd) (topic : Bytes) : Broker N :=
  let tmap := s.subscribers topic
  let tmap := if fd ∈ tmap then tmap else tmap ++ [fd]
  { s with topic2client := set s.topic2client topic tmap }

/-- `tmap[fd] = nil`. -/
def Broker.unsubscribe (s : Broker N) (fd : Fd) (topic : Bytes) : Broker N :=
  match get s.topic2client topic with
  | none => s
  | some tmap => { s with topic2client := set s.topic2client topic (tmap.filter (· ≠ fd)) }

def Broker.setClient (s : Broker N) (fd : Fd) (c : Client N) : Broker N :=
  { s with clientmap := set s.clientmap fd c }

/-- A write with its result. -/
def Broker.wrote (s : Broker N) (fd : Fd) (m : Written) (ok : Bool) : Broker N :=
  { s with clock := s.clock + 1, out := if ok then s.out ++ [(fd, m)] else s.out }

/-! ## Publishing and closing -/

/-- The topics that `close_client` goes through. -/
def Param.topics (p : Param N) : List Bytes :=
  match p.tp with
  | some (.topics l) => l
  | _ => []

/-- A topic and a payload that are both given, of which those in `test` must not be empty. -/
def message (topic payload : Option Bytes) (test : Bytes → Bytes → Bool) : Option (Bytes × Bytes) :=
  match topic, payload with
  | some t, some p => if test t p then some (t, p) else none
  | _, _ => none

/-- The will.  A payload may be empty, since 0 is true in Lua. -/
def Param.will (p : Param N) : Option (Bytes × Bytes) := message p.wt p.wp fun t _ => t ≠ []

/-- The notification of a connection. -/
def Param.notice (p : Param N) : Option (Bytes × Bytes) :=
  message p.ct p.cp fun t p => t ≠ [] && p ≠ []

/-- `do_publish` for one descriptor of the table; `pairs` skips one that is gone by now. -/
def publishTo (close : Broker N → Fd → Except Stop (Broker N)) (w : World) (origin : ℕ)
    (topic payload : Bytes) (s : Broker N) (fd : Fd) : Except Stop (Broker N) :=
  if fd ∉ s.subscribers topic then .ok s
  else
    match get s.clientmap fd with
    | none => .error .deadSubscriber
    | some _ =>
      let ok := w.publishWrite s.clock fd
      let s := s.wrote fd (.pb origin topic payload) ok
      if ok then .ok s else close s fd

/-- `do_publish`, with what it calls to close a connection.  The origin is the connection on
    whose behalf it publishes. -/
def publishWith (close : Broker N → Fd → Except Stop (Broker N)) (w : World) (origin : ℕ)
    (topic payload : Bytes) (s : Broker N) : Except Stop (Broker N) :=
  if s.subscribers topic = [] then .ok s
  else
    match rdsEncode (publishArr topic payload) with
    | .error e => .error (.encoder e)
    | .ok _ =>
      (w.pairs s.clock (s.subscribers topic)).foldlM (publishTo close w origin topic payload)
        { s with clock := s.clock + 1 }

/-- `close_client`, for at most `clients` connections.  A client is taken out of the map before its
    will is published, and closing one that is not in the map does nothing. -/
def closeClient (w : World) : ℕ → Broker N → Fd → Except Stop (Broker N)
  | 0, s, _ => .ok s
  | clients + 1, s, fd =>
    match get s.clientmap fd with
    | none => .ok s
    | some climap =>
      let s := { s with clientmap := erase s.clientmap fd }
      match climap.param with
      | none => .ok s
      | some param =>
        let s := param.topics.foldl (fun s tp => s.unsubscribe fd tp) s
        match param.cd with
        | none => .error .nilKey
        | some cd =>
          let s := { s with clientid2fd := erase s.clientid2fd cd }
          match param.will with
          | none => .ok s
          | some (wt, wp) => publishWith (closeClient w clients) w climap.conn wt wp s

/-- `close_client`. -/
def Broker.close (w : World) (s : Broker N) (fd : Fd) : Except Stop (Broker N) :=
  closeClient w s.clientmap.length s fd

/-- `do_publish`. -/
def Broker.publish (w : World) (origin : ℕ) (topic payload : Bytes) (s : Broker N) :
    Except Stop (Broker N) :=
  publishWith (closeClient w s.clientmap.length) w origin topic payload s

/-! ## Commands -/

/-- `publish_connack`. -/
def publishConnack (w : World) (fd : Fd) (st : String) (msg : Bytes) (s : Broker N) :
    Except Stop (Bool × Broker N) :=
  match rdsEncode (connackArr st msg) with
  | .error e => .error (.encoder e)
  | .ok _ =>
    let ok := w.clientWrite s.clock fd
    .ok (ok, s.wrote fd (.ca st msg) ok)

/-- A connect command that is turned down. -/
def reject (w : World) (fd : Fd) (msg : Bytes) (s : Broker N) : Except Stop (Bool × Broker N) := do
  let (_, s) ← publishConnack w fd "1" msg s
  return (false, s)

/-- `check_version`. -/
def checkVersion (version : Option Bytes) : Bool := version == some (asciiBytes "v0.1")

/-- `check_password`. -/
def checkPassword (username password : Option Bytes) : Bool :=
  username == some (asciiBytes "ewrdcv34!@@@zvdasfFD*s34!@@@fadefsasfvadsfewa123$") &&
  password == some (asciiBytes "1fff89167~!223423@$$%^^&&&*&*\x7d\x7b\x7d|/.,/.,.,<>?")

/-- The parameters in a message. -/
def Param.ofMap (num : Numbers N) (map : Table Bytes Bytes) : Param N :=
  ⟨field map "cd", field map "vv", field map "un", field map "pw",
    (field map "kp").bind num.tonumber, (field map "tp").map .text, field map "ct", field map "cp",
    field map "wt", field map "wp"⟩

/-- A string that is given and not empty. -/
def given (s : Option Bytes) : Bool := s.any (· ≠ [])

/-- The parameters that a connect command must have. -/
def Param.valid (num : Numbers N) (p : Param N) : Bool :=
  given p.cd && given p.vv && given p.un && given p.pw && p.kp.any num.atLeastFive &&
  match p.tp with
  | some (.text s) => s ≠ []
  | _ => false

/-- The parts between tabs. -/
def Param.parts (p : Param N) : List Bytes :=
  match p.tp with
  | some (.text s) => s.splitOn 9
  | _ => []

/-- The loop over the topics, which subscribes to each and stops at one that is empty: their
    number, or 0 then, the topics and the broker. -/
def addTopics (fd : Fd) : List Bytes → ℕ → List Bytes → Broker N → ℕ × List Bytes × Broker N
  | [], count, topics, s => (count, topics, s)
  | part :: rest, count, topics, s =>
    if part = [] then (0, topics, s)
    else addTopics fd rest (count + 1) (topics ++ [part]) (s.subscribe fd part)

/-- The clients who listen to the connect topic are notified. -/
def notify (w : World) (conn : ℕ) (m : Param N) (s : Broker N) : Except Stop (Broker N) :=
  match m.notice with
  | none => .ok s
  | some (ct, cp) => s.publish w conn ct cp

/-- `cmd_map.cn` behind the checks. -/
def connect (w : World) (fd : Fd) (c : Client N) (m : Param N) (cd : Bytes) (s : Broker N) :
    Except Stop (Bool × Broker N) := do
  let s := { s with clientid2fd := set s.clientid2fd cd fd, passed := c.conn :: s.passed }
  let s ← notify w c.conn m s
  match get s.clientmap fd with
  | none => .error .badArgument
  | some climap =>
    publishConnack w fd "0" (asciiBytes "ok") (s.setClient fd { climap with state := .auth })

/-- `cmd_map.cn`: whether the connection goes on. -/
def cn (num : Numbers N) (w : World) (fd : Fd) (map : Table Bytes Bytes) (s : Broker N) :
    Except Stop (Bool × Broker N) :=
  match get s.clientmap fd with
  | none => .error .closedClient
  | some climap =>
    if climap.state ≠ .new then reject w fd (asciiBytes "invalid state") s
    else
      let m := Param.ofMap num map
      let s := s.setClient fd { climap with param := some m }
      if !m.valid num then reject w fd (asciiBytes "invalid param") s
      else if !checkVersion m.vv then reject w fd (asciiBytes "invalid version") s
      else if !checkPassword m.un m.pw then reject w fd (asciiBytes "invalid authorization") s
      else
        let (count, topics, s) := addTopics fd m.parts 0 [] s
        if count = 0 then reject w fd (asciiBytes "invalid topics") s
        else
          let m := { m with tp := some (.topics topics) }
          let s := s.setClient fd { climap with param := some m }
          let cd := m.cd.getD []
          match get s.clientid2fd cd with
          | some _ => reject w fd (asciiBytes "already exist " ++ cd) s
          | none => connect w fd { climap with param := some m } m cd s

/-- `cmd_map.dc`. -/
def dc (w : World) (fd : Fd) (s : Broker N) : Except Stop (Bool × Broker N) := do
  let s ← s.close w fd
  return (false, s)

/-- `cmd_map.pb`. -/
def pb (w : World) (fd : Fd) (map : Table Bytes Bytes) (s : Broker N) :
    Except Stop (Bool × Broker N) :=
  match get s.clientmap fd with
  | none => .error .closedClient
  | some climap =>
    if climap.state ≠ .auth then .ok (false, s)
    else
      match field map "tp", field map "pl" with
      | some topic, some payload => do
        let s ← s.publish w climap.conn topic payload
        return (true, s)
      | _, _ => .ok (false, s)

/-- `cmd_map.pi`; the result of the write is not looked at. -/
def pi (w : World) (fd : Fd) (s : Broker N) : Except Stop (Bool × Broker N) :=
  match get s.clientmap fd with
  | none => .error .closedClient
  | some climap =>
    if climap.state ≠ .auth then .ok (false, s)
    else
      match rdsEncode (toarr [("id", asciiBytes "po")]) with
      | .error e => .error (.encoder e)
      | .ok _ => .ok (true, s.wrote fd .po (w.clientWrite s.clock fd))

/-- `cmd_map[datamap.id]`, called.  Without a command, or with one that there is not, the connection
    does not go on either. -/
def command (num : Numbers N) (w : World) (fd : Fd) (datamap : Table Bytes Bytes) (s : Broker N) :
    Except Stop (Bool × Broker N) :=
  let id := field datamap "id"
  if id = some (asciiBytes "cn") then cn num w fd datamap s
  else if id = some (asciiBytes "dc") then dc w fd s
  else if id = some (asciiBytes "pb") then pb w fd datamap s
  else if id = some (asciiBytes "pi") then pi w fd s
  else .ok (false, s)

/-- One message of `on_client_data`: whether the loop goes on. -/
def handle (num : Numbers N) (w : World) (fd : Fd) (arr : List Bytes) (s : Broker N) :
    Except Stop (Bool × Broker N) := do
  let (ok, s) ← command num w fd (tomap arr) s
  if ok then return (true, s)
  let s ← s.close w fd
  return (false, s)

/-- The loop of `on_client_data`: whether it comes to its end. -/
def handleAll (num : Numbers N) (w : World) (fd : Fd) : List (List Bytes) → Broker N →
    Except Stop (Bool × Broker N)
  | [], s => .ok (true, s)
  | arr :: r, s => do
    let (more, s) ← handle num w fd arr s
    if more then handleAll num w fd r s else return (false, s)

/-- The end of `on_client_data`: the timer is started. -/
def startTimer (fd : Fd) (s : Broker N) : Except Stop (Broker N) :=
  match get s.clientmap fd with
  | none => .error .badArgument
  | some climap =>
    match climap.param.bind Param.kp with
    | none => .error .indexNil
    | some _ => .ok (s.setClient fd { climap with timer := true })

/-- `on_client_data`.  The timer can always be stopped. -/
def onClientData (num : Numbers N) (w : World) (fd : Fd) (data : Bytes) (s : Broker N) :
    Except Stop (Broker N) :=
  match get s.clientmap fd with
  | none => .error .closedClient
  | some climap =>
    match lDecode climap.decoder data with
    | .error e => .error (.decoder e)
    | .ok (none, decoder) =>
      (s.setClient fd { climap with timer := false, decoder := decoder }).close w fd
    | .ok (some r, decoder) => do
      let (more, s) ← handleAll num w fd r
        (s.setClient fd { climap with timer := false, decoder := decoder })
      if more then startTimer fd s else return s

/-- `on_connection`. -/
def onConnection (fd : Fd) (s : Broker N) : Except Stop (Broker N) :=
  match get s.clientmap fd with
  | some _ => .error .closedClient
  | none => .ok { s.setClient fd ⟨s.conns, none, .new, true, rdsNew⟩ with conns := s.conns + 1 }

/-! ## Runs -/

/-- What happens to the broker: a new connection, bytes, the end of a connection or an error when
    reading, and the end of a keepalive time. -/
inductive Event where
  | connection (fd : Fd)
  | data (fd : Fd) (data : Bytes)
  | hangup (fd : Fd)
  | timeout (fd : Fd)
deriving DecidableEq, Repr

/-- The callback of an event. -/
def step (num : Numbers N) (w : World) (s : Broker N) : Event → Except Stop (Broker N)
  | .connection fd => onConnection fd s
  | .data fd data => onClientData num w fd data s
  | .hangup fd => s.close w fd
  | .timeout fd => s.close w fd

/-- Which events there can be: a new descriptor is not in use, and a closed one gets no callback. -/
def Possible (s : Broker N) : Event → Prop
  | .connection fd => get s.clientmap fd = none
  | .data fd _ => ∃ c, get s.clientmap fd = some c
  | .hangup fd => ∃ c, get s.clientmap fd = some c
  | .timeout fd => ∃ c, get s.clientmap fd = some c ∧ c.timer = true

/-- The states of runs whose steps all meet `ok`.  A callback that stops ends the process. -/
inductive Reachable (num : Numbers N) (ok : World → Broker N → Event → Prop) : Broker N → Prop
  | new : Reachable num ok new
  | step {s s' : Broker N} {w : World} {e : Event} (h : Reachable num ok s) (hp : Possible s e)
      (hok : ok w s e) (hs : step num w s e = .ok s') : Reachable num ok s'

instance (s : Broker N) (e : Event) : Decidable (Possible s e) :=
  match e with
  | .connection fd => decidable_of_iff ((get s.clientmap fd).isNone = true) Option.isNone_iff_eq_none
  | .data fd _ => decidable_of_iff ((get s.clientmap fd).isSome = true) Option.isSome_iff_exists
  | .hangup fd => decidable_of_iff ((get s.clientmap fd).isSome = true) Option.isSome_iff_exists
  | .timeout fd =>
    decidable_of_iff ((get s.clientmap fd).any (·.timer) = true) (by simp [Possible, Option.any_eq_true])

/-- The state behind some events, if all of them are possible and no callback stops. -/
def run (num : Numbers N) (w : World) : List Event → Broker N → Option (Broker N)
  | [], s => some s
  | e :: es, s => if Possible s e then (step num w s e).toOption.bind (run num w es) else none

theorem Reachable.run {num : Numbers N} {w : World} {es : List Event} {s s' : Broker N}
    (h : Reachable num (fun _ _ _ => True) s) (hs : run num w es s = some s') :
    Reachable num (fun _ _ _ => True) s' := by
  induction es generalizing s with
  | nil =>
    cases hs
    exact h
  | cons e es ih =>
    rw [Sands.run] at hs
    split at hs
    next hp =>
      cases hstep : Sands.step num w s e with
      | error e =>
        rw [hstep] at hs
        cases hs
      | ok s₁ =>
        rw [hstep] at hs
        exact ih (.step h hp trivial hstep) hs
    · cases hs

end Sands
