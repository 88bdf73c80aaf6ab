/-
# The scheduler of coroutines

`ski/core.lua` as a whole: coroutines wait for themselves or for a channel, those that are
woken wait in the running list, and one runs at a time until it yields.  A channel has a
capacity, and one coroutine at either end.
-/
import Mathlib.Data.Finset.Erase
import Mathlib.Data.Finset.Insert
import Mathlib.Data.Finset.Dedup
import Mathlib.Data.List.Infix
import Mathlib.Logic.Function.Basic

namespace SkiSched

/-- `yt_none`, `yt_self` and `yt_chan`. -/
inductive Sig where
  | none
  | self
  | chan
deriving DecidableEq, Repr

/-- A coroutine: whether it has a timer, `wait_seq`, the two fields of `sig_type`, `chan_map`, and
    whether `ski_thread_map` has it. -/
structure Thread where
  timer : Bool
  waitSeq : ℕ
  sig : Sig
  flag : Bool
  chanMap : Finset ℕ
  mapped : Bool

/-- A channel, of items that are not nil; `mapped` is whether `ski_chan_map` has it. -/
structure Chan (Tid α : Type) where
  active : Bool
  max : ℕ
  list : List α
  r : Option Tid
  w : Option Tid
  mapped : Bool

/-- The coroutines, the channels by their `seq`, `ski_running_list`, and `chanseq`. -/
structure World (Tid α : Type) where
  threads : Tid → Thread
  chans : ℕ → Chan Tid α
  running : List Tid
  seq : ℕ

/-- The assertions: of `register`, "logical error", one reader, one writer, `wait_seq` before and
    behind a yield, "only writer should notify" and its like, and those of `thread_method:close`. -/
inductive Failure where
  | registered
  | logical
  | oneReader
  | oneWriter
  | waiting
  | resumed
  | notify
  | unmapped
deriving DecidableEq, Repr

/-- How a call ends that has not failed: the channel is closed, the call returns, or it yields. -/
inductive Went (β : Type) where
  | closed
  | back (b : β)
  | yields

variable {Tid α : Type} [DecidableEq Tid]

def World.onChan (s : World Tid α) (c : ℕ) (f : Chan Tid α → Chan Tid α) : World Tid α :=
  { s with chans := Function.update s.chans c (f (s.chans c)) }

def World.onThread (s : World Tid α) (th : Tid) (f : Thread → Thread) : World Tid α :=
  { s with threads := Function.update s.threads th (f (s.threads th)) }

/-! ## Coroutines -/

/-- `clear_sig`. -/
def World.clearSig (s : World Tid α) (th : Tid) : World Tid α :=
  s.onThread th fun t => { t with sig := .none, flag := false }

/-- `yield_common`, until it yields. -/
def World.yieldCommon (s : World Tid α) (th : Tid) (sig : Sig) : Except Failure (World Tid α) :=
  if (s.threads th).sig = .none ∧ (s.threads th).flag = false then
    .ok (s.onThread th fun t => { t with sig := sig })
  else .error .logical

/-- `wakeup_common`. -/
def World.wakeupCommon (s : World Tid α) (th : Tid) (sig : Sig) : World Tid α :=
  if (s.threads th).sig = .none then s
  else if (s.threads th).sig = sig ∧ (s.threads th).flag = false then
    { s.onThread th fun t => { t with flag := true } with running := s.running ++ [th] }
  else s

/-- `wakeup_chan`. -/
def World.wakeupChan (s : World Tid α) (th : Tid) (c : ℕ) : World Tid α :=
  if (s.threads th).waitSeq = c then s.wakeupCommon th .chan else s

/-- `local _ = th and wakeup_chan(th, self.seq)`. -/
def World.wakeupEnd (s : World Tid α) (c : ℕ) : Option Tid → World Tid α
  | none => s
  | some th => s.wakeupChan th c

def World.register (s : World Tid α) (th : Tid) (c : ℕ) : Except Failure (World Tid α) :=
  if c ∈ (s.threads th).chanMap then .error .registered
  else .ok (s.onThread th fun t => { t with chanMap := insert c t.chanMap })

def World.unregister (s : World Tid α) (c : ℕ) : Option Tid → World Tid α
  | none => s
  | some th =>
    if c ∈ (s.threads th).chanMap then
      (s.onThread th fun t => { t with chanMap := t.chanMap.erase c }).wakeupChan th c
    else s

/-- `new_thread`, and the `wakeup` of it by `go` and `run`. -/
def World.go (s : World Tid α) (th : Tid) : World Tid α :=
  (s.onThread th fun _ => ⟨true, 0, .self, false, ∅, true⟩).wakeupCommon th .self

/-! ## Channels -/

/-- The coroutine waits, as `read` and `write` have it. -/
def World.waitOn (s : World Tid α) (cur : Tid) (c : ℕ) : Except Failure (World Tid α) :=
  if (s.threads cur).waitSeq ≠ 0 then .error .waiting
  else (s.onThread cur fun t => { t with waitSeq := c }).yieldCommon cur .chan

/-- The first lines of `read`: the first reader is entered. -/
def World.enterReader (s : World Tid α) (cur : Tid) (c : ℕ) : Except Failure (World Tid α) :=
  if (s.chans c).r = none then (s.onChan c fun ch => { ch with r := some cur }).register cur c else .ok s

def World.enterWriter (s : World Tid α) (cur : Tid) (c : ℕ) : Except Failure (World Tid α) :=
  if (s.chans c).w = none then (s.onChan c fun ch => { ch with w := some cur }).register cur c else .ok s

/-- `chan:read`, until it returns or yields. -/
def World.read (s : World Tid α) (cur : Tid) (c : ℕ) : Except Failure (Went α × World Tid α) :=
  if (s.chans c).active = false then .ok (.closed, s)
  else do
    let s ← s.enterReader cur c
    if (s.chans c).r ≠ some cur then throw .oneReader
    else
      let s := s.wakeupEnd c (s.chans c).w
      match (s.chans c).list with
      | d :: rest => return (.back d, s.onChan c fun ch => { ch with list := rest })
      | [] => return (.yields, ← s.waitOn cur c)

/-- `chan:read` behind its yield; it returns none when the channel is closed. -/
def World.readOn (s : World Tid α) (cur : Tid) (c : ℕ) : Except Failure (Option α × World Tid α) :=
  if (s.threads cur).waitSeq ≠ c then throw .resumed
  else
    let s := s.onThread cur fun t => { t with waitSeq := 0 }
    if (s.chans c).active = false then .ok (none, s)
    else
      match (s.chans c).list, (s.chans c).w with
      | d :: rest, some w =>
        return (some d, (s.wakeupChan w c).onChan c fun ch => { ch with list := rest })
      | _, _ => throw .notify

/-- `chan:write`, until it returns or yields. -/
def World.write (s : World Tid α) (cur : Tid) (c : ℕ) (d : α) : Except Failure (Went Unit × World Tid α) :=
  if (s.chans c).active = false then .ok (.closed, s)
  else do
    let s ← s.enterWriter cur c
    if (s.chans c).w ≠ some cur then throw .oneWriter
    else
      let s := s.wakeupEnd c (s.chans c).r
      if (s.chans c).list.length < (s.chans c).max then
        return (.back (), s.onChan c fun ch => { ch with list := ch.list ++ [d] })
      else return (.yields, ← s.waitOn cur c)

/-- `chan:write` behind its yield. -/
def World.writeOn (s : World Tid α) (cur : Tid) (c : ℕ) (d : α) :
    Except Failure (Option Unit × World Tid α) :=
  if (s.threads cur).waitSeq ≠ c then throw .resumed
  else
    let s := s.onThread cur fun t => { t with waitSeq := 0 }
    if (s.chans c).active = false then .ok (none, s)
    else
      match (s.chans c).r with
      | none => throw .notify
      | some r =>
        return (some (), (s.wakeupChan r c).onChan c fun ch => { ch with list := ch.list ++ [d] })

/-- `chan:close`. -/
def World.close (s : World Tid α) (c : ℕ) : World Tid α :=
  if (s.chans c).active = false then s
  else
    let r := (s.chans c).r
    let w := (s.chans c).w
    let s := s.onChan c fun ch => { ch with active := false, list := [] }
    let s := (s.unregister c r).unregister c w
    s.onChan c fun ch => { ch with r := none, w := none, mapped := false }

/-- `new_chan`. -/
def World.newChan (s : World Tid α) (n : ℕ) : World Tid α :=
  { s with seq := s.seq + 1 }.onChan (s.seq + 1) fun _ => ⟨true, n, [], none, none, true⟩

/-- `thread_method:close`; `order` is how `pairs` goes through `chan_map`. -/
def World.threadClose (s : World Tid α) (th : Tid) (order : List ℕ) : Except Failure (World Tid α) :=
  if (s.threads th).timer = false ∨ (s.threads th).mapped = false then .error .unmapped
  else .ok (order.foldl World.close (s.onThread th fun t => { t with timer := false, mapped := false }))

/-- The assertions of `on_debug`. -/
def World.OnDebug (s : World Tid α) : Prop :=
  (∀ c, (s.chans c).mapped → (s.chans c).active ∧
    (∀ r, (s.chans c).r = some r → c ∈ (s.threads r).chanMap) ∧
    ∀ w, (s.chans c).w = some w → c ∈ (s.threads w).chanMap) ∧
  ∀ th, (s.threads th).mapped → (s.threads th).timer ∧
    ∀ c ∈ (s.threads th).chanMap, (s.chans c).r = some th ∨ (s.chans c).w = some th

/-! ## Runs -/

/-- Where a coroutine is: there is none yet, it is dead, it waits for itself (as a new one does), it
    runs, or it is at the yield of `read` or of `write`. -/
inductive Doing (α : Type) where
  | absent
  | dead
  | self
  | runs
  | reading (c : ℕ)
  | writing (c : ℕ) (d : α)

/-- The whole system, with `ski_cur_thread`; `got` is what the calls of `read` on a channel have
    returned, `put` what the calls of `write` have accepted. -/
structure State (Tid α : Type) where
  world : World Tid α
  doing : Tid → Doing α
  cur : Option Tid
  got : ℕ → List α
  put : ℕ → List α

/-- What happens: `go`, a `wakeup` by a timer or by a connection, the next of the running list is
    resumed, `new_chan`, `close`; and what the coroutine that runs does: `read`, `write`, `yield`
    (or `sleep`), and its end. -/
inductive Event (Tid α : Type) where
  | go (th : Tid)
  | signal (th : Tid)
  | resume
  | newChan (n : ℕ)
  | close (c : ℕ)
  | read (c : ℕ)
  | write (c : ℕ) (d : α)
  | yield
  | finish (order : List ℕ)

/-- A coroutine goes on. -/
def State.goesOn (s : State Tid α) (th : Tid) (w : World Tid α) : State Tid α :=
  { s with world := w, cur := some th, doing := Function.update s.doing th .runs }

/-- The coroutine that runs yields. -/
def State.stops (s : State Tid α) (th : Tid) (x : Doing α) (w : World Tid α) : State Tid α :=
  { s with world := w, cur := none, doing := Function.update s.doing th x }

def State.gets (s : State Tid α) (c : ℕ) (d : α) : State Tid α :=
  { s with got := Function.update s.got c (s.got c ++ [d]) }

def State.puts (s : State Tid α) (c : ℕ) (d : α) : State Tid α :=
  { s with put := Function.update s.put c (s.put c ++ [d]) }

/-- `resume`. -/
def State.resume (s : State Tid α) (th : Tid) (w : World Tid α) : Except Failure (State Tid α) :=
  match s.doing th with
  | .self => .ok (s.goesOn th w)
  | .reading c => do
    match ← w.readOn th c with
    | (none, w) => return s.goesOn th w
    | (some d, w) => return (s.goesOn th w).gets c d
  | .writing c d => do
    match ← w.writeOn th c d with
    | (none, w) => return s.goesOn th w
    | (some _, w) => return (s.goesOn th w).puts c d
  -- a dead coroutine is closed a second time
  | .absent | .dead | .runs => .error .unmapped

/-- What the coroutine that runs does. -/
def State.act (s : State Tid α) (cur : Tid) : Event Tid α → Except Failure (State Tid α)
  | .read c => do
    match ← s.world.read cur c with
    | (.closed, w) => return { s with world := w }
    | (.back d, w) => return State.gets { s with world := w } c d
    | (.yields, w) => return s.stops cur (.reading c) w
  | .write c d => do
    match ← s.world.write cur c d with
    | (.closed, w) => return { s with world := w }
    | (.back _, w) => return State.puts { s with world := w } c d
    | (.yields, w) => return s.stops cur (.writing c d) w
  | .yield => do return s.stops cur .self (← s.world.yieldCommon cur .self)
  | .finish order => do return s.stops cur .dead (← s.world.threadClose cur order)
  | _ => .ok s

def State.step (s : State Tid α) : Event Tid α → Except Failure (State Tid α)
  | .go th => .ok { s with world := s.world.go th, doing := Function.update s.doing th .self }
  | .signal th => .ok { s with world := s.world.wakeupCommon th .self }
  | .newChan n => .ok { s with world := s.world.newChan n }
  | .close c => .ok { s with world := s.world.close c }
  | .resume =>
    match s.world.running with
    | [] => .ok s
    | th :: rest => s.resume th ({ s.world with running := rest }.clearSig th)
  | e =>
    match s.cur with
    | none => .ok s
    | some cur => s.act cur e

/-- Before `run`. -/
def State.start : State Tid α :=
  ⟨⟨fun _ => ⟨false, 0, .none, false, ∅, false⟩, fun _ => ⟨false, 0, [], none, none, false⟩, [], 0⟩,
    fun _ => .absent, none, fun _ => [], fun _ => []⟩

/-- When an event can happen: a coroutine is created once, one runs at a time, and `pairs` goes
    through the whole of `chan_map`. -/
def State.Possible (s : State Tid α) : Event Tid α → Prop
  | .go th => s.doing th = .absent
  | .resume => s.cur = none
  | .read _ | .write _ _ | .yield => s.cur ≠ none
  | .finish order => ∃ cur, s.cur = some cur ∧ order.Nodup ∧
    order.toFinset = (s.world.threads cur).chanMap
  | .signal _ | .newChan _ | .close _ => True

/-- A channel for `n ≥ 1` items that one coroutine reads and another one writes. -/
structure Ends (Tid : Type) where
  c : ℕ
  n : ℕ
  room : 1 ≤ n
  reader : Tid
  writer : Tid
  apart : reader ≠ writer

/-- An event that uses the channel as `Ends` has it; all other channels are used in any way. -/
def Ends.Uses (p : Ends Tid) (s : State Tid α) : Event Tid α → Prop
  | .newChan n => s.world.seq + 1 = p.c → n = p.n
  | .read c => c = p.c → s.cur = some p.reader
  | .write c _ => c = p.c → s.cur = some p.writer
  | _ => True

/-- The channel at which an event calls `read` or `write` or goes on behind their yields. -/
def State.at (s : State Tid α) : Event Tid α → Option ℕ
  | .read c | .write c _ => some c
  | .resume =>
    match s.world.running with
    | [] => none
    | th :: _ =>
      match s.doing th with
      | .reading c | .writing c _ => some c
      | _ => none
  | _ => none

/-- The states of the runs in which the channel is used so. -/
inductive Ends.Reached (p : Ends Tid) : State Tid α → Prop
  | start : p.Reached State.start
  | step {s s' : State Tid α} {e : Event Tid α} (h : p.Reached s) (hp : s.Possible e) (hu : p.Uses s e)
      (hs : s.step e = .ok s') : p.Reached s'

end SkiSched
