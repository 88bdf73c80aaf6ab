/-
# Queries of the proxy

`sandcproxy.lua` on the channels of `ski`: a query enters a channel in `out_seq_map`,
publishes, and reads from the channel; the callback for messages writes a reply to it, and
a coroutine of its own writes a timeout.  The connection stays up: `publish` returns true
in the end, and the two coroutines go on.
-/
import OpenwrtAc.SkiChan

open Ski

namespace Sandcproxy

/-- The coroutines: the one that makes a query, named by the `seq` of the query, that of the
    connection, which calls the callback, and that of the timeouts. -/
inductive Tid where
  | caller (seq : ℕ)
  | callback
  | timeout
deriving DecidableEq, Repr

/-- What is written to a channel: `{map.pld}` or `{nil, "timeout"}`. -/
inductive Item (D : Type) where
  | reply (pld : D)
  | timeout
deriving DecidableEq, Repr

/-- An entry of `out_seq_map` but for its channel, which is named by the `seq` as well. -/
structure SeqItem where
  m : ℕ
  t : ℕ
deriving DecidableEq, Repr

/-- Where the coroutine of a query is: not in it, in `publish`, in `read`, or back from it. -/
inductive At where
  | elsewhere
  | publishing
  | reading
  | returned
deriving DecidableEq, Repr

variable {D : Type}

/-- The proxy: the time, `seq`, `out_seq_map`, the coroutines and channels, where the queries are,
    the write of the callback and of the timeouts that has not returned (the latter with the rest
    of `del`), and what the queries have returned. -/
structure Proxy (D : Type) where
  now : ℕ
  seq : ℕ
  outSeqMap : ℕ → Option SeqItem
  ski : World Tid (Item D)
  query : ℕ → At
  callback : Option (ℕ × Item D)
  timeout : Option (ℕ × List ℕ)
  results : List (ℕ × Item D)

/-- How the process fails: an assertion of the channels, `out_seq_map[seq]` is nil for the
    timeouts, or `ch:read()` says that the channel is closed. -/
inductive Fault where
  | channel (f : Failure)
  | noEntry
  | notRead
deriving DecidableEq, Repr

/-- What happens: a query with its time limit, the end of its `publish`, a message with a `seq`, the
    timeouts with the queries they are for in the order of `pairs`, a coroutine that was woken is
    resumed, and time. -/
inductive Event (D : Type) where
  | query (m : ℕ)
  | published (seq : ℕ)
  | message (seq : ℕ) (pld : D)
  | scan (del : List ℕ)
  | resume (th : Tid)
  | tick (d : ℕ)

/-- A call of the channels. -/
def onSki {β : Type} (x : Except Failure β) : Except Fault β :=
  match x with
  | .ok b => .ok b
  | .error f => .error (.channel f)

/-- A coroutine of the connection or of the timeouts goes to wait for something else. -/
def Proxy.park (s : Proxy D) (th : Tid) : Except Fault (Proxy D) := do
  let ski ← onSki (s.ski.yieldCommon th .self)
  return { s with ski := ski }

/-- `query` and `query_r`, up to the `publish`. -/
def Proxy.start (s : Proxy D) (m : ℕ) : Except Fault (Proxy D) := do
  let ski ← onSki (World.yieldCommon (s.ski.newChan s.seq) (.caller s.seq) .self)
  return { s with
    seq := s.seq + 1
    ski := ski
    outSeqMap := Function.update s.outSeqMap s.seq (some ⟨m, s.now⟩)
    query := Function.update s.query s.seq .publishing }

/-- `query`, from the return of `read` on; `d` is what it read. -/
def Proxy.finish (s : Proxy D) (seq : ℕ) (d : Item D) : Proxy D :=
  { s with
    outSeqMap := Function.update s.outSeqMap seq none
    ski := s.ski.close seq
    query := Function.update s.query seq .returned
    results := s.results ++ [(seq, d)] }

/-- What a `read` of a query comes to. -/
def Proxy.afterRead (s : Proxy D) (seq : ℕ) :
    Went (Item D) × World Tid (Item D) → Except Fault (Proxy D)
  | (.closed, _) => .error .notRead
  | (.back d, ski) => .ok (Proxy.finish { s with ski := ski } seq d)
  | (.yields, ski) => .ok { s with ski := ski, query := Function.update s.query seq .reading }

/-- The loop over `del`. -/
def Proxy.writeTimeouts : List ℕ → Proxy D → Except Fault (Proxy D)
  | [], s => Proxy.park { s with timeout := none } .timeout
  | seq :: rest, s =>
    match s.outSeqMap seq with
    | none => .error .noEntry
    | some _ => do
      match ← onSki (s.ski.write .timeout seq .timeout) with
      | (.yields, ski) => return { s with ski := ski, timeout := some (seq, rest) }
      | (_, ski) => writeTimeouts rest { s with ski := ski }

/-- The callback for messages, when the message has a `seq` and a `pld`. -/
def Proxy.onMessage (s : Proxy D) (seq : ℕ) (pld : D) : Except Fault (Proxy D) :=
  match s.outSeqMap seq with
  | none => s.park .callback
  | some _ => do
    match ← onSki (s.ski.write .callback seq (.reply pld)) with
    | (.yields, ski) => return { s with ski := ski, callback := some (seq, .reply pld) }
    | (_, ski) => Proxy.park { s with ski := ski } .callback

/-- A coroutine that waits on a channel goes on. -/
def Proxy.resume (s : Proxy D) : Tid → Except Fault (Proxy D)
  | .caller seq => do
    let r ← onSki (s.ski.readOn (.caller seq) seq)
    s.afterRead seq r
  | .callback =>
    match s.callback with
    | none => .ok s
    | some (seq, d) => do
      let (_, ski) ← onSki (s.ski.writeOn .callback seq d)
      Proxy.park { s with ski := ski, callback := none } .callback
  | .timeout =>
    match s.timeout with
    | none => .ok s
    | some (seq, rest) => do
      let (_, ski) ← onSki (s.ski.writeOn .timeout seq .timeout)
      writeTimeouts rest { s with ski := ski }

/-- A coroutine is resumed. -/
def Proxy.clear (s : Proxy D) (th : Tid) : Proxy D := { s with ski := s.ski.clearSig th }

def Proxy.step (s : Proxy D) : Event D → Except Fault (Proxy D)
  | .query m => s.start m
  | .published seq => do
    let s := s.clear (.caller seq)
    let r ← onSki (s.ski.read (.caller seq) seq)
    s.afterRead seq r
  | .message seq pld => (s.clear .callback).onMessage seq pld
  | .scan del => (s.clear .timeout).writeTimeouts del
  | .resume th => (s.clear th).resume th
  | .tick d => .ok { s with now := s.now + d }

/-- The query has waited longer than its limit: `now - v.t > v.m`. -/
def Proxy.expired (s : Proxy D) (seq : ℕ) : Prop := ∃ v, s.outSeqMap seq = some v ∧ v.m + v.t < s.now

/-- The coroutine waits on a channel. -/
def Proxy.onChannel (s : Proxy D) : Tid → Prop
  | .caller seq => s.query seq = .reading
  | .callback => s.callback ≠ none
  | .timeout => s.timeout ≠ none

/-- What can happen: a coroutine runs only when it is not in another call, and one that waits on a
    channel only when it was woken. -/
def Proxy.Possible (s : Proxy D) : Event D → Prop
  | .published seq => s.query seq = .publishing
  | .message _ _ => s.callback = none
  | .scan del => s.timeout = none ∧ del.Nodup ∧ ∀ seq, seq ∈ del ↔ s.expired seq
  | .resume th => s.onChannel th ∧ (s.ski.threads th).woken = true
  | _ => True

/-- The proxy before the first query. -/
def Proxy.init : Proxy D where
  now := 0
  seq := 0
  outSeqMap := fun _ => none
  ski :=
    { threads := fun th => match th with
        | .caller _ => ⟨none, .none, false, fun _ => false⟩
        | _ => ⟨none, .self, false, fun _ => false⟩
      chans := fun _ => ⟨false, [], none, none⟩ }
  query := fun _ => .elsewhere
  callback := none
  timeout := none
  results := []

/-- The states of runs whose events all meet `ok`, with what happened. -/
inductive Reached (ok : Proxy D → Event D → Prop) : List (Event D) → Proxy D → Prop
  | init : Reached ok [] Proxy.init
  | step {hist : List (Event D)} {s s' : Proxy D} {ev : Event D} (h : Reached ok hist s)
      (hev : s.Possible ev) (hok : ok s ev) (hs : s.step ev = .ok s') : Reached ok (hist ++ [ev]) s'

end Sandcproxy
