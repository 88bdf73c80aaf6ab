/-
# Coroutines and channels

The channels of `ski/core.lua`: a coroutine that has to wait on a channel yields, and the
other end wakes it up.  What a function does before it yields and what it does when it is
resumed are two functions here.
-/
import OpenwrtAc.Outcome

namespace Ski

/-- What a coroutine waits for: nothing, itself, or a channel. -/
inductive Sig where
  | none
  | self
  | chan
deriving DecidableEq, Repr

/-- A coroutine: the channel in `wait_seq` (none is 0), `sig_type`, and the channels it has
    registered. -/
structure Thread where
  waitSeq : Option ℕ
  sig : Sig
  woken : Bool
  chanMap : ℕ → Bool

/-- A channel for one item. -/
structure Chan (Tid α : Type) where
  active : Bool
  list : List α
  r : Option Tid
  w : Option Tid

structure World (Tid α : Type) where
  threads : Tid → Thread
  chans : ℕ → Chan Tid α

/-- The assertions of the channels, in the order of the source: `register`, "already block", one
    reader, the wait_seq before and behind a yield, "only writer should notify", and those of a
    writer. -/
inductive Failure where
  | registered
  | logical
  | oneReader
  | oneWriter
  | waiting
  | resumed
  | notify
deriving DecidableEq, Repr

/-- How a call that has not failed ends: the channel is closed, the call returns, or it yields. -/
inductive Went (β : Type) where
  | closed
  | back (b : β)
  | yields
deriving DecidableEq, Repr

variable {Tid α : Type}

def World.onChan (s : World Tid α) (c : ℕ) (f : Chan Tid α → Chan Tid α) : World Tid α :=
  { s with chans := fun k => if k = c then f (s.chans k) else s.chans k }

/-- `new_chan(1)`. -/
def World.newChan (s : World Tid α) (c : ℕ) : World Tid α := s.onChan c fun _ => ⟨true, [], none, none⟩

theorem world_ext {s s' : World Tid α} (ht : ∀ th, s.threads th = s'.threads th)
    (hc : ∀ c, s.chans c = s'.chans c) : s = s' := by
  cases s
  cases s'
  congr 1
  · exact funext ht
  · exact funext hc

@[simp] theorem onChan_threads (s : World Tid α) (c : ℕ) (f : Chan Tid α → Chan Tid α) :
    (s.onChan c f).threads = s.threads := rfl

@[simp] theorem onChan_self (s : World Tid α) (c : ℕ) (f : Chan Tid α → Chan Tid α) :
    (s.onChan c f).chans c = f (s.chans c) := if_pos rfl

theorem onChan_of_ne (s : World Tid α) {c k : ℕ} (f : Chan Tid α → Chan Tid α) (h : k ≠ c) :
    (s.onChan c f).chans k = s.chans k := if_neg h

variable [DecidableEq Tid]

def World.onThread (s : World Tid α) (th : Tid) (f : Thread → Thread) : World Tid α :=
  { s with threads := fun t => if t = th then f (s.threads t) else s.threads t }

def Thread.cleared (t : Thread) : Thread := { t with sig := .none, woken := false }

/-- `clear_sig` of the coroutine that is resumed. -/
def World.clearSig (s : World Tid α) (th : Tid) : World Tid α := s.onThread th Thread.cleared

/-- `yield_common`. -/
def World.yieldCommon (s : World Tid α) (th : Tid) (sig : Sig) : Except Failure (World Tid α) :=
  if (s.threads th).sig = .none ∧ (s.threads th).woken = false then
    .ok (s.onThread th fun t => { t with sig := sig })
  else .error .logical

/-- `wakeup_chan`, with `wakeup_common` of a coroutine that waits for a channel. -/
def wakeupChan (c : ℕ) (t : Thread) : Thread :=
  if t.waitSeq = some c ∧ t.sig = .chan then { t with woken := true } else t

def World.wakeup (s : World Tid α) (c : ℕ) : Option Tid → World Tid α
  | none => s
  | some th => s.onThread th (wakeupChan c)

/-- `chan_map[chan]` set or removed. -/
def Thread.mark (t : Thread) (c : ℕ) (b : Bool) : Thread :=
  { t with chanMap := Function.update t.chanMap c b }

def World.register (s : World Tid α) (th : Tid) (c : ℕ) : Except Failure (World Tid α) :=
  if (s.threads th).chanMap c then .error .registered
  else .ok (s.onThread th fun t => t.mark c true)

def World.unregister (s : World Tid α) (c : ℕ) : Option Tid → World Tid α
  | none => s
  | some th =>
    if (s.threads th).chanMap c then s.onThread th fun t => wakeupChan c (t.mark c false)
    else s

/-- `chan:read` by the coroutine `cur`, until it returns or yields. -/
def World.read (s : World Tid α) (cur : Tid) (c : ℕ) : Except Failure (Went α × World Tid α) :=
  if (s.chans c).active = false then .ok (.closed, s)
  else do
    let s ← if (s.chans c).r = none then (s.onChan c fun ch => { ch with r := some cur }).register cur c
      else pure s
    if (s.chans c).r ≠ some cur then throw .oneReader
    else
      let s := s.wakeup c (s.chans c).w
      match (s.chans c).list with
      | d :: rest => return (.back d, s.onChan c fun ch => { ch with list := rest })
      | [] =>
        if (s.threads cur).waitSeq ≠ none then throw .waiting
        else
          let s ← (s.onThread cur fun t => { t with waitSeq := some c }).yieldCommon cur .chan
          return (.yields, s)

/-- `chan:read` behind its yield. -/
def World.readOn (s : World Tid α) (cur : Tid) (c : ℕ) : Except Failure (Went α × World Tid α) :=
  if (s.threads cur).waitSeq ≠ some c then throw .resumed
  else
    let s := s.onThread cur fun t => { t with waitSeq := none }
    if (s.chans c).active = false then .ok (.closed, s)
    else
      match (s.chans c).list, (s.chans c).w with
      | d :: rest, some w =>
        return (.back d, (s.wakeup c (some w)).onChan c fun ch => { ch with list := rest })
      | _, _ => throw .notify

/-- `chan:write` by the coroutine `cur`, until it returns or yields. -/
def World.write (s : World Tid α) (cur : Tid) (c : ℕ) (d : α) : Except Failure (Went Unit × World Tid α) :=
  if (s.chans c).active = false then .ok (.closed, s)
  else do
    let s ← if (s.chans c).w = none then (s.onChan c fun ch => { ch with w := some cur }).register cur c
      else pure s
    if (s.chans c).w ≠ some cur then throw .oneWriter
    else
      let s := s.wakeup c (s.chans c).r
      if (s.chans c).list.length < 1 then
        return (.back (), s.onChan c fun ch => { ch with list := ch.list ++ [d] })
      else if (s.threads cur).waitSeq ≠ none then throw .waiting
      else
        let s ← (s.onThread cur fun t => { t with waitSeq := some c }).yieldCommon cur .chan
        return (.yields, s)

/-- `chan:write` behind its yield. -/
def World.writeOn (s : World Tid α) (cur : Tid) (c : ℕ) (d : α) :
    Except Failure (Went Unit × World Tid α) :=
  if (s.threads cur).waitSeq ≠ some c then throw .resumed
  else
    let s := s.onThread cur fun t => { t with waitSeq := none }
    if (s.chans c).active = false then .ok (.closed, s)
    else
      match (s.chans c).r with
      | none => throw .notify
      | some r =>
        return (.back (), (s.wakeup c (some r)).onChan c fun ch => { ch with list := ch.list ++ [d] })

/-- `chan:close`. -/
def World.close (s : World Tid α) (c : ℕ) : World Tid α :=
  if (s.chans c).active = false then s
  else
    let r := (s.chans c).r
    let w := (s.chans c).w
    let s := s.onChan c fun ch => { ch with active := false, list := [] }
    let s := (s.unregister c r).unregister c w
    s.onChan c fun ch => { ch with r := none, w := none }

/-! ## What the calls do -/

@[simp] theorem onThread_chans (s : World Tid α) (th : Tid) (f : Thread → Thread) :
    (s.onThread th f).chans = s.chans := rfl

@[simp] theorem onThread_self (s : World Tid α) (th : Tid) (f : Thread → Thread) :
    (s.onThread th f).threads th = f (s.threads th) := if_pos rfl

theorem onThread_of_ne (s : World Tid α) {th t : Tid} (f : Thread → Thread) (h : t ≠ th) :
    (s.onThread th f).threads t = s.threads t := if_neg h

@[simp] theorem wakeup_chans (s : World Tid α) (c : ℕ) (th : Option Tid) :
    (s.wakeup c th).chans = s.chans := by cases th <;> rfl

theorem mark_eq_self {t : Thread} {c : ℕ} {b : Bool} (h : t.chanMap c = b) : t.mark c b = t := by
  cases t
  unfold Thread.mark
  congr 1
  exact Function.update_eq_self_iff.2 h.symm

theorem wakeupChan_of_ne {t : Thread} {c : ℕ} (h : t.waitSeq ≠ some c) : wakeupChan c t = t :=
  if_neg fun hc => h hc.1

@[simp] theorem wakeupChan_chanMap (t : Thread) (c : ℕ) : (wakeupChan c t).chanMap = t.chanMap := by
  unfold wakeupChan
  split <;> rfl

/-- A coroutine is woken once. -/
theorem wakeupChan_mark (t : Thread) (c : ℕ) (b : Bool) :
    wakeupChan c ((wakeupChan c t).mark c b) = wakeupChan c (t.mark c b) := by
  by_cases h : t.waitSeq = some c ∧ t.sig = .chan
  · simp [wakeupChan, Thread.mark, h]
  · simp [wakeupChan, Thread.mark, h]

/-- A coroutine is not woken by another end than its own. -/
theorem wakeup_of_ne (s : World Tid α) (c : ℕ) {th : Option Tid} {t : Tid} (h : th ≠ some t) :
    (s.wakeup c th).threads t = s.threads t := by
  cases th with
  | none => rfl
  | some th => exact onThread_of_ne s _ fun heq => h (heq ▸ rfl)

theorem wakeup_self (s : World Tid α) (c : ℕ) (t : Tid) :
    (s.wakeup c (some t)).threads t = wakeupChan c (s.threads t) := onThread_self s t _

/-- The first write to a channel. -/
theorem write_first {s : World Tid α} {cur : Tid} {c : ℕ} (hactive : (s.chans c).active = true)
    (hw : (s.chans c).w = none) (hmap : (s.threads cur).chanMap c = false)
    (hlist : (s.chans c).list = []) (d : α) :
    s.write cur c d = .ok (.back (),
      (((s.onChan c fun ch => { ch with w := some cur }).onThread cur fun t => t.mark c true).wakeup c
        (s.chans c).r).onChan c fun ch => { ch with list := ch.list ++ [d] }) := by
  unfold World.write World.register
  simp only [hactive, hw, hmap, onChan_threads, Bool.true_eq_false, if_false, if_true, Bool.false_eq_true]
  change (if _ then _ else _) = _
  rw [if_neg (by simp), if_pos (by simp [hlist])]
  simp

/-- A write to a channel that is full. -/
theorem write_again {s : World Tid α} {cur : Tid} {c : ℕ} (hactive : (s.chans c).active = true)
    (hw : (s.chans c).w = some cur) (hr : (s.chans c).r ≠ some cur) (hlist : (s.chans c).list ≠ [])
    (hwait : (s.threads cur).waitSeq = none) (hsig : (s.threads cur).sig = .none)
    (hwoken : (s.threads cur).woken = false) (d : α) :
    s.write cur c d = .ok (.yields, ((s.wakeup c (s.chans c).r).onThread cur
      fun t => { t with waitSeq := some c }).onThread cur fun t => { t with sig := .chan }) := by
  have hlen : ¬ (s.chans c).list.length < 1 := by
    rw [Nat.lt_one_iff, List.length_eq_zero_iff]
    exact hlist
  have hcur : (s.wakeup c (s.chans c).r).threads cur = s.threads cur := wakeup_of_ne s c hr
  unfold World.write
  rw [if_neg (by simp [hactive]), if_neg (by simp [hw])]
  change (if _ then _ else _) = _
  rw [if_neg (by simp [hw])]
  simp only [wakeup_chans, if_neg hlen, hcur, hwait, ne_eq, not_true_eq_false, if_false]
  unfold World.yieldCommon
  rw [if_pos (by simp [hcur, hsig, hwoken])]
  rfl

/-- The first read finds the channel empty. -/
theorem read_empty {s : World Tid α} {cur : Tid} {c : ℕ} (hactive : (s.chans c).active = true)
    (hr : (s.chans c).r = none) (hmap : (s.threads cur).chanMap c = false) (hw : (s.chans c).w = none)
    (hlist : (s.chans c).list = []) (hwait : (s.threads cur).waitSeq = none)
    (hsig : (s.threads cur).sig = .none) (hwoken : (s.threads cur).woken = false) :
    s.read cur c = .ok (.yields, (((s.onChan c fun ch => { ch with r := some cur }).onThread cur
      fun t => t.mark c true).onThread cur
      fun t => { t with waitSeq := some c }).onThread cur fun t => { t with sig := .chan }) := by
  unfold World.read World.register
  simp only [hactive, hr, hmap, onChan_threads, Bool.true_eq_false, if_false, if_true, Bool.false_eq_true]
  change (if _ then _ else _) = _
  rw [if_neg (by simp)]
  simp only [onThread_chans, onChan_self, hw, hlist, World.wakeup]
  rw [if_neg (by simp [Thread.mark, hwait])]
  unfold World.yieldCommon
  rw [if_pos (by simp [Thread.mark, hsig, hwoken])]
  rfl

/-- The first read finds an item. -/
theorem read_item {s : World Tid α} {cur : Tid} {c : ℕ} {d : α} {rest : List α}
    (hactive : (s.chans c).active = true) (hr : (s.chans c).r = none)
    (hmap : (s.threads cur).chanMap c = false) (hlist : (s.chans c).list = d :: rest) :
    s.read cur c = .ok (.back d, (((s.onChan c fun ch => { ch with r := some cur }).onThread cur
      fun t => t.mark c true).wakeup c (s.chans c).w).onChan c fun ch => { ch with list := rest }) := by
  unfold World.read World.register
  simp only [hactive, hr, hmap, onChan_threads, Bool.true_eq_false, if_false, if_true, Bool.false_eq_true]
  change (if _ then _ else _) = _
  rw [if_neg (by simp)]
  simp [hlist]

/-- A reader that was woken finds an item. -/
theorem readOn_item {s : World Tid α} {cur w : Tid} {c : ℕ} {d : α} {rest : List α}
    (hwait : (s.threads cur).waitSeq = some c) (hactive : (s.chans c).active = true)
    (hw : (s.chans c).w = some w) (hlist : (s.chans c).list = d :: rest) :
    s.readOn cur c = .ok (.back d, ((s.onThread cur fun t => { t with waitSeq := none }).wakeup c
      (some w)).onChan c fun ch => { ch with list := rest }) := by
  unfold World.readOn
  rw [if_neg (by simp [hwait])]
  simp only [onThread_chans, hactive, hlist, hw, Bool.true_eq_false, if_false]
  rfl

/-- A writer that was woken finds the channel closed. -/
theorem writeOn_closed {s : World Tid α} {cur : Tid} {c : ℕ}
    (hwait : (s.threads cur).waitSeq = some c) (hactive : (s.chans c).active = false) (d : α) :
    s.writeOn cur c d = .ok (.closed, s.onThread cur fun t => { t with waitSeq := none }) := by
  unfold World.writeOn
  rw [if_neg (by simp [hwait])]
  simp only [onThread_chans, hactive, if_true]

end Ski
