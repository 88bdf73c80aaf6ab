/-
# The cloud client

`sandc1.lua`, whose messages go over one connection: `publish` writes the topic and the
length of the payload, encoded, and then the payload, encoded; a ping is one write.  At the
other end the bytes are cut by the lengths in the headers.

The connection stays up; a write hands its bytes to the connection at once and the coroutine
that has called it goes on later.  `lua-redis-parser` and the numbers of Lua are parameters.
-/
import OpenwrtAc.Encrypt
import OpenwrtAc.SandsBroker

open CString LuaTable Rds

namespace Sandc1

/-- What `parse_reply` returns: a table of strings, nil, or something else. -/
inductive Reply where
  | array (l : List Bytes)
  | nil
  | other
deriving DecidableEq, Repr

/-- What the program takes from elsewhere: `lz4.c`, the parser, `tonumber`, the comparisons `m <
    x` and `x == 0`, and the integer that `string.sub` makes of a number. -/
structure Env (N : Type) where
  lz4 : Encrypt.Lz4
  buildQuery : List Bytes → Bytes
  parseReply : Bytes → Reply
  tonumber : Bytes → Option N
  natLt : ℕ → N → Bool
  isZero : N → Bool
  toInteger : N → ℤ

/-- A query is parsed to what it was built of, and the digits of a number are that number. -/
structure Env.Lawful {N : Type} (env : Env N) : Prop where
  lz4 : env.lz4.Lawful
  parse : ∀ arr : List Bytes, arr ≠ [] → env.parseReply (env.buildQuery arr) = .array arr
  number : ∀ n < 2 ^ 53, ∃ x, env.tonumber (decimal n) = some x ∧
    (∀ m, env.natLt m x = decide (m < n)) ∧ env.toInteger x = n

/-- Why a function does not return: the codec, an `assert`, an argument of the wrong type. -/
inductive Abort where
  | encrypt (a : Encrypt.Abort)
  | assertion
  | badArgument
  | rounds
deriving DecidableEq, Repr

variable {N : Type}

/-- `encode`, and the `assert` on its error. -/
def encode (env : Env N) (type : ℤ) (s : Bytes) : Except Abort Bytes :=
  match Encrypt.lEncode env.lz4 type s with
  | .ok (.ok e) => .ok e
  | .ok (.error _) => .error .assertion
  | .error a => .error (.encrypt a)

/-! ## Sending -/

/-- A call of `publish` between its two writes, with `pl_str`. -/
structure Half where
  topic : Bytes
  payload : Bytes
  plStr : Bytes
deriving DecidableEq, Repr

/-- The sender: `encode_type`, the bytes that were written, the calls of `publish` that have one
    more write to do, what has been published, and the number of pings. -/
structure Sender where
  encodeType : ℤ
  wire : Bytes
  half : List Half
  published : List (Bytes × Bytes)
  pings : ℕ

/-- `tpmap` with the length of `pl_str`. -/
def tpmap (topic : Bytes) (pl : ℕ) : List (String × Bytes) :=
  [("id", asciiBytes "pt"), ("tp", topic), ("pl", decimal pl)]

/-- A table in the order in which `pairs` has its keys. -/
def inOrder (order : List String) (map : List (String × Bytes)) : List (String × Bytes) :=
  order.filterMap fun k => (map.lookup k).map fun v => (k, v)

/-- `publish`, until it has written `tp_str`. -/
def Sender.publish (env : Env N) (order : List String) (topic payload : Bytes) (s : Sender) :
    Except Abort Sender := do
  let plStr ← encode env s.encodeType payload
  let map := inOrder order (tpmap topic plStr.length)
  let tpStr ← encode env s.encodeType (env.buildQuery (Sands.toarr map))
  return { s with wire := s.wire ++ tpStr, half := s.half ++ [⟨topic, payload, plStr⟩] }

/-- The write of `pl_str` by one of the calls. -/
def Sender.second (i : ℕ) (s : Sender) : Sender :=
  match s.half[i]? with
  | none => s
  | some h =>
    { s with
      wire := s.wire ++ h.plStr
      half := s.half.eraseIdx i
      published := s.published ++ [(h.topic, h.payload)] }

/-- The write of `timeout_ping`. -/
def Sender.ping (env : Env N) (s : Sender) : Except Abort Sender := do
  let s1 ← encode env s.encodeType (env.buildQuery (Sands.toarr [("id", asciiBytes "pi")]))
  return { s with wire := s.wire ++ s1, pings := s.pings + 1 }

/-- What happens at the sender: `publish` is called, one of its calls goes on, a ping, and
    `set_encode_type`. -/
inductive Event where
  | publish (order : List String) (topic payload : Bytes)
  | second (i : ℕ)
  | ping
  | setEncodeType (type : ℤ)

def Sender.step (env : Env N) (s : Sender) : Event → Except Abort Sender
  | .publish order topic payload => s.publish env order topic payload
  | .second i => .ok (s.second i)
  | .ping => s.ping env
  | .setEncodeType type => .ok { s with encodeType := type }

/-- A sender that has just connected. -/
def Sender.start (type : ℤ) : Sender := ⟨type, [], [], [], 0⟩

/-- `pairs` goes through all keys of `tpmap`. -/
def Event.Possible : Event → Prop
  | .publish order _ _ => order.Perm ["id", "tp", "pl"]
  | _ => True

/-- The states of the runs with steps in `ok`. -/
inductive Reached (env : Env N) (ok : Sender → Event → Prop) : Sender → Prop
  | start (type : ℤ) : Reached env ok (.start type)
  | step {s s' : Sender} {e : Event} (h : Reached env ok s) (hp : e.Possible) (ho : ok s e)
      (hs : s.step env e = .ok s') : Reached env ok s'

/-! ## Receiving -/

/-- `string.sub`. -/
def strSub (s : Bytes) (i j : ℤ) : Bytes :=
  let rel (p : ℤ) : ℤ := if p < 0 then max 0 (p + s.length + 1) else p
  let l := max 1 (rel i)
  let e := min (s.length : ℤ) (rel j)
  if l ≤ e then (s.drop (l - 1).toNat).take (e - l + 1).toNat else []

/-- What the functions return behind a nil. -/
inductive Err where
  | lack
  | decode (e : Encrypt.Err)
  | dataError
  | invalidPt
  | whyExists (topic : Bytes)
  | refused (data : Option Bytes)
deriving DecidableEq, Repr

/-- The receiver: `data`, `pbcache` with its topic and length, `encode_type`, and what the callbacks
    were called with; for an `id` without a function it prints that there is none. -/
structure Ins (N : Type) where
  data : Bytes
  pbcache : Option (Bytes × Option N)
  encodeType : ℤ
  messages : List (Option Bytes × Option Bytes)
  connects : ℕ
  unknown : List Bytes
  encodeTypes : List ℕ

/-- `new`, connected. -/
def Ins.new (type : ℤ) : Ins N := ⟨[], none, type, [], 0, [], []⟩

/-- `checkarr` of a table. -/
def checkarr (arr : List Bytes) : Bool := arr.all fun s => ¬s.length < 3

/-- `map.key`. -/
abbrev field (map : Table Bytes Bytes) (key : String) : Option Bytes := Sands.field map key

/-- `dispatch`, with the functions of `cmd_map`; none is true. -/
def Ins.dispatch (env : Env N) (map : Table Bytes Bytes) (ins : Ins N) : Except Abort (Option Err × Ins N) :=
  match field map "id" with
  | none => .ok (none, ins)
  | some id =>
    if id = asciiBytes "pb" then
      .ok (none, { ins with messages := ins.messages ++ [(field map "tp", field map "pl")] })
    else if id = asciiBytes "ca" then
      if ((field map "st").bind env.tonumber).any env.isZero ∧ (field map "da").isSome then
        .ok (none, { ins with connects := ins.connects + 1 })
      else .ok (some (.refused (field map "data")), ins)
    else if id = asciiBytes "po" then .ok (none, ins)
    else if id = asciiBytes "pt" then
      match field map "tp", field map "pl" with
      | some tp, some pl =>
        match ins.pbcache with
        | some (topic, _) => .ok (some (.whyExists topic), ins)
        | none => .ok (none, { ins with pbcache := some (tp, env.tonumber pl) })
      | _, _ => .ok (some .invalidPt, ins)
    -- `pp` decodes a table
    else if id = asciiBytes "pp" then .error .badArgument
    else .ok (none, { ins with unknown := ins.unknown ++ [id] })

/-- `decode`. -/
def decode (env : Env N) (s : Bytes) : Except Abort (Except Encrypt.Err Bytes) :=
  match Encrypt.lDecode env.lz4 s with
  | .ok r => .ok r
  | .error a => .error (.encrypt a)

/-- `cmd_map.pp` of the payload for a topic. -/
def Ins.pp (env : Env N) (topic data : Bytes) (ins : Ins N) : Except Abort (Option Err × Ins N) := do
  match ← decode env data with
  | .error e => return (some (.decode e), ins)
  | .ok payload =>
    return (none, { ins with pbcache := none, messages := ins.messages ++ [(some topic, some payload)] })

/-- `get_payload`, with a `pbcache`. -/
def Ins.getPayload (env : Env N) (topic : Bytes) (paylen : Option N) (ins : Ins N) :
    Except Abort (Option Err × Ins N) :=
  match paylen with
  | none => .error .assertion
  | some paylen =>
    if env.natLt ins.data.length paylen then .ok (some .lack, ins)
    else
      Ins.pp env topic (strSub ins.data 1 (env.toInteger paylen))
        { ins with data := strSub ins.data (env.toInteger paylen + 1) (-1) }

/-- `parse_normal`. -/
def Ins.parseNormal (env : Env N) (ins : Ins N) : Except Abort (Option Err × Ins N) :=
  if ins.data.length < 4 then .ok (some .lack, ins)
  else match Encrypt.lHeader ins.data with
  | .error _ => .error .badArgument
  | .ok (len, ntp) =>
    if len > ins.data.length then .ok (some .lack, ins)
    else do
      let ins' := { ins with data := ins.data.drop len }
      match ← decode env (ins.data.take len) with
      | .error e => return (some (.decode e), ins')
      | .ok ds =>
        match env.parseReply ds with
        | .other => throw .badArgument
        | .nil => return (some .dataError, ins')
        | .array arr =>
          if checkarr arr then
            match ← ins'.dispatch env (Sands.tomap arr) with
            | (some e, ins) => return (some e, ins)
            | (none, ins) =>
              if (ntp : ℤ) = ins.encodeType then return (none, ins)
              else return (none, { ins with encodeTypes := ins.encodeTypes ++ [ntp] })
          else return (some .dataError, ins')

/-- One round of `on_recv`. -/
def Ins.round (env : Env N) (ins : Ins N) : Except Abort (Option Err × Ins N) :=
  match ins.pbcache with
  | some (topic, paylen) => ins.getPayload env topic paylen
  | none => ins.parseNormal env

/-- `on_recv`; a round takes at least one byte or is the last. -/
def Ins.onRecv (env : Env N) : ℕ → Ins N → Except Abort (Option Err × Ins N)
  | 0, _ => .error .rounds
  | n + 1, ins =>
    if ins.data = [] then .ok (none, ins)
    else do
      match ← ins.round env with
      | (none, ins) => onRecv env n ins
      | (some .lack, ins) => return (none, ins)
      | (some e, ins) => return (some e, ins)

/-- `run_internal`, with what `read2` returns each time; it ends when the connection is closed on an
    error. -/
def Ins.run (env : Env N) : List Bytes → Ins N → Except Abort (Option Err × Ins N)
  | [], ins => .ok (none, ins)
  | data :: rest, ins => do
    let ins := { ins with data := ins.data ++ data }
    match ← ins.onRecv env (ins.data.length + 1) with
    | (none, ins) => run env rest ins
    | (some e, ins) => return (some e, ins)

end Sandc1
