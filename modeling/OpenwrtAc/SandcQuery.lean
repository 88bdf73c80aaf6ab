/-
# What a query of the proxy comes to

A query is described by its phase alone: what is in its channel, and whether its caller
waits.  From the phases, and from where the two writers wait, all of the coroutines and
channels can be told, as long as a channel is written to by one of the two only.
-/
import OpenwrtAc.SandcProxy

open Ski

namespace Sandcproxy

variable {D : Type}

/-- A query: not made yet, in `publish`, in `read`, or back.  Before it is back, something may have
    been written to its channel. -/
inductive Phase (D : Type) where
  | absent
  | publishing (slot : Option (Item D))
  | reading (slot : Option (Item D))
  | returned (d : Item D)

/-- Who writes an item. -/
def Item.writer : Item D → Tid
  | .reply _ => .callback
  | .timeout => .timeout

def Phase.slot : Phase D → Option (Item D)
  | .publishing slot | .reading slot => slot
  | _ => none

def Phase.done : Phase D → Bool
  | .returned _ => true
  | _ => false

/-- The query has its entry in `out_seq_map`. -/
def Phase.entered : Phase D → Bool
  | .publishing _ | .reading _ => true
  | _ => false

def Phase.place : Phase D → At
  | .absent => .elsewhere
  | .publishing _ => .publishing
  | .reading _ => .reading
  | .returned _ => .returned

/-- `th` is the writer of the channel. -/
def Phase.wroteBy (p : Phase D) (th : Tid) : Bool := p.slot.any fun d => d.writer = th

def Phase.chan (seq : ℕ) : Phase D → Chan Tid (Item D)
  | .publishing slot => ⟨true, slot.toList, none, slot.map Item.writer⟩
  | .reading slot => ⟨true, slot.toList, some (.caller seq), slot.map Item.writer⟩
  | _ => ⟨false, [], none, none⟩

def callerThread (seq : ℕ) : Phase D → Thread
  | .publishing _ => ⟨none, .self, false, fun _ => false⟩
  | .reading slot => ⟨some seq, .chan, slot.isSome, fun c => c = seq⟩
  | _ => ⟨none, .none, false, fun _ => false⟩

/-- A writer, which may wait for a channel. -/
def writerThread (phase : ℕ → Phase D) (th : Tid) (blocked : Option ℕ) : Thread where
  waitSeq := blocked
  sig := if blocked.isSome then .chan else .self
  woken := blocked.any fun n => (phase n).done
  chanMap := fun c => (phase c).wroteBy th

/-- A coroutine that does not run. -/
def parked (phase : ℕ → Phase D) (blocked : Tid → Option ℕ) : Tid → Thread
  | .caller seq => callerThread seq (phase seq)
  | th => writerThread phase th (blocked th)

/-- The coroutines and channels, of which `cur` runs. -/
def world (phase : ℕ → Phase D) (blocked : Tid → Option ℕ) (cur : Option Tid) : World Tid (Item D) where
  threads := fun th =>
    if cur = some th then (parked phase blocked th).cleared else parked phase blocked th
  chans := fun c => (phase c).chan c

/-! ## Coroutines -/

section

variable (phase : ℕ → Phase D) (blocked : Tid → Option ℕ)

/-- The thread that runs has its signal cleared. -/
theorem world_cur (th : Tid) :
    (world phase blocked (some th)).threads th = (parked phase blocked th).cleared := if_pos rfl

/-- Every other thread is parked. -/
theorem world_of_ne {cur : Option Tid} {th : Tid} (h : cur ≠ some th) :
    (world phase blocked cur).threads th = parked phase blocked th := if_neg h

/-- Between the events every thread is parked. -/
theorem world_none (th : Tid) :
    (world phase blocked none).threads th = parked phase blocked th := rfl

/-- The channel of a query is that of its phase. -/
theorem world_chans (cur : Option Tid) (c : ℕ) :
    (world phase blocked cur).chans c = (phase c).chan c := rfl

/-- How a writer is parked. -/
theorem parked_writer (d : Item D) :
    parked phase blocked d.writer = writerThread phase d.writer (blocked d.writer) := by
  cases d <;> rfl

/-- The scheduler clears the signal of the thread it picks. -/
theorem clearSig_world (th : Tid) :
    (world phase blocked none).clearSig th = world phase blocked (some th) := by
  refine world_ext (fun t => ?_) fun c => rfl
  by_cases h : t = th
  · subst h
    rw [World.clearSig, onThread_self, world_cur, world_none]
  · rw [World.clearSig, onThread_of_ne _ _ h, world_none, world_of_ne _ _ (by simp [Ne.symm h])]

end

/-- No caller writes. -/
theorem writer_ne_caller (d : Item D) (n : ℕ) : d.writer ≠ .caller n := by cases d <;> nofun

variable {phase : ℕ → Phase D} {blocked : Tid → Option ℕ} {n : ℕ}

/-- A coroutine that waits for itself again. -/
theorem yieldCommon_world {th : Tid} (hsig : (parked phase blocked th).sig = .self)
    (hwoken : (parked phase blocked th).woken = false) :
    (world phase blocked (some th)).yieldCommon th .self = .ok (world phase blocked none) := by
  unfold World.yieldCommon
  rw [world_cur, if_pos ⟨rfl, rfl⟩]
  congr 1
  refine world_ext (fun t => ?_) fun c => rfl
  by_cases h : t = th
  · subst h
    rw [onThread_self, world_cur, world_none, Thread.cleared, ← hsig, ← hwoken]
  · rw [onThread_of_ne _ _ h, world_of_ne _ _ (by simp [Ne.symm h]), world_none]

/-- A writer when a query changes that is not back, and does not come back. -/
theorem writerThread_update {p : Phase D} (hp : p.done = (phase n).done) (th : Tid) (b : Option ℕ) :
    writerThread (Function.update phase n p) th b = (writerThread phase th b).mark n (p.wroteBy th) := by
  unfold writerThread Thread.mark
  congr 1
  · cases b with
    | none => rfl
    | some k =>
      by_cases hk : k = n
      · subst hk
        simp [hp]
      · simp [hk]
  · funext c
    by_cases hc : c = n
    · subst hc
      simp
    · simp [hc]

/-- A writer when a query comes back. -/
theorem writerThread_done {p : Phase D} (hp : p.done = true) (th : Tid) (b : Option ℕ) :
    writerThread (Function.update phase n p) th b
      = wakeupChan n ((writerThread phase th b).mark n (p.wroteBy th)) := by
  have hmap : (fun c => (Function.update phase n p c).wroteBy th)
      = Function.update (fun c => (phase c).wroteBy th) n (p.wroteBy th) := by
    funext c
    by_cases hc : c = n
    · subst hc
      simp
    · simp [hc]
  unfold writerThread Thread.mark wakeupChan
  rw [hmap]
  cases b with
  | none => simp
  | some k =>
    by_cases hk : k = n
    · subst hk
      simp [hp]
    · simp [hk]

/-! ## Channels -/

/-- Something is written to the channel. -/
def Phase.fill (d : Item D) : Phase D → Phase D
  | .publishing _ => .publishing (some d)
  | .reading _ => .reading (some d)
  | p => p

/-- The channel of an entered query is open. -/
theorem chan_active {p : Phase D} (h : p.entered = true) (n : ℕ) : (p.chan n).active = true := by
  cases p <;> first | rfl | cases h

/-- The channel holds what its slot does. -/
theorem chan_list (p : Phase D) (n : ℕ) : (p.chan n).list = p.slot.toList := by cases p <;> rfl

/-- The writer of the channel is that of its item. -/
theorem chan_w (p : Phase D) (n : ℕ) : (p.chan n).w = p.slot.map Item.writer := by cases p <;> rfl

/-- No writer reads. -/
theorem chan_r_ne (p : Phase D) (n : ℕ) (d : Item D) : (p.chan n).r ≠ some d.writer := by
  cases p <;> simp [Phase.chan, (writer_ne_caller d n).symm]

/-- Filling a slot puts the item and its writer into the channel. -/
theorem fill_chan {p : Phase D} (h : p.entered = true) (d : Item D) (n : ℕ) :
    (p.fill d).chan n = { p.chan n with list := [d], w := some d.writer } := by
  cases p <;> first | rfl | cases h

/-- Filling a slot ends no query. -/
theorem fill_done (p : Phase D) (d : Item D) : (p.fill d).done = p.done := by cases p <;> rfl

/-- A filled slot was written by the item's writer. -/
theorem wroteBy_fill {p : Phase D} (h : p.entered = true) (d : Item D) (th : Tid) :
    (p.fill d).wroteBy th = decide (d.writer = th) := by
  cases p <;> first | rfl | cases h

/-- An empty slot was written by nobody. -/
theorem wroteBy_of_slot {p : Phase D} (h : p.slot = none) (th : Tid) : p.wroteBy th = false := by
  rw [Phase.wroteBy, h]
  rfl

/-- A query publishes and has no reader yet, or its caller reads. -/
theorem chan_r {p : Phase D} (h : p.entered = true) (n : ℕ) :
    (∃ slot, p = .publishing slot ∧ (p.chan n).r = none)
      ∨ ∃ slot, p = .reading slot ∧ (p.chan n).r = some (.caller n) := by
  cases p with
  | absent => cases h
  | returned _ => cases h
  | publishing slot => exact .inl ⟨slot, rfl, rfl⟩
  | reading slot => exact .inr ⟨slot, rfl, rfl⟩

/-- The caller of a query is woken when something is written. -/
theorem wakeup_caller {p : Phase D} (h : p.entered = true) (d : Item D) (n : ℕ)
    {s : World Tid (Item D)} (hs : s.threads (.caller n) = callerThread n p) :
    (s.wakeup n (p.chan n).r).threads (.caller n) = callerThread n (p.fill d) := by
  rcases chan_r h n with ⟨slot, rfl, hr⟩ | ⟨slot, rfl, hr⟩
  · rw [hr]
    exact hs
  · rw [hr, wakeup_self, hs]
    simp [Phase.fill, callerThread, wakeupChan]

/-- Only the caller of a query reads from its channel. -/
theorem chan_r_of_ne (p : Phase D) {n : ℕ} {th : Tid} (h : th ≠ .caller n) :
    (p.chan n).r ≠ some th := by
  cases p <;> simp [Phase.chan, h.symm]

/-- A change of a query that is nothing to a coroutine. -/
theorem parked_update {p : Phase D} {th : Tid} (hth : th ≠ .caller n)
    (hdone : p.done = (phase n).done)
    (hwrote : p.wroteBy th = (phase n).wroteBy th) :
    parked (Function.update phase n p) blocked th = parked phase blocked th := by
  have hwriter : writerThread (Function.update phase n p) th (blocked th)
      = writerThread phase th (blocked th) := by
    rw [writerThread_update hdone]
    exact mark_eq_self hwrote.symm
  rcases th with m | _ | _
  · have hm : m ≠ n := fun h => hth (h ▸ rfl)
    change callerThread m (Function.update phase n _ m) = callerThread m (phase m)
    rw [Function.update_of_ne hm]
  · exact hwriter
  · exact hwriter

/-- Of the coroutines that do not run, a write to a free channel of `n` touches but the caller. -/
theorem parked_fill {d : Item D} (hp : (phase n).entered = true) (hslot : (phase n).slot = none)
    {th : Tid} (hth : th ≠ .caller n) (hd : th ≠ d.writer) :
    parked (Function.update phase n ((phase n).fill d)) blocked th = parked phase blocked th := by
  refine parked_update hth (fill_done _ d) ?_
  rw [wroteBy_fill hp, wroteBy_of_slot hslot, decide_eq_false hd.symm]

/-- A write to a free channel. -/
theorem write_free {d : Item D} (hp : (phase n).entered = true) (hslot : (phase n).slot = none) :
    (world phase blocked (some d.writer)).write d.writer n d
      = .ok (.back (), world (Function.update phase n ((phase n).fill d)) blocked (some d.writer)) := by
  have hmap : ((world phase blocked (some d.writer)).threads d.writer).chanMap n = false := by
    rw [world_cur, parked_writer]
    exact wroteBy_of_slot hslot _
  rw [write_first (chan_active hp n) (by rw [world_chans, chan_w, hslot]; rfl) hmap
    (by rw [world_chans, chan_list, hslot]; rfl)]
  congr 2
  refine world_ext (fun t => ?_) fun c => ?_
  · rw [onChan_threads, world_chans]
    by_cases ht : t = d.writer
    · subst ht
      rw [wakeup_of_ne _ _ (chan_r_ne _ n d), onThread_self, onChan_threads, world_cur, world_cur,
        parked_writer, parked_writer, writerThread_update (fill_done _ d), wroteBy_fill hp,
        decide_eq_true rfl]
      rfl
    · have hcur : some d.writer ≠ some t := fun h => ht (Option.some.inj h).symm
      rw [world_of_ne _ _ hcur]
      by_cases htn : t = .caller n
      · subst htn
        rw [wakeup_caller hp d n]
        · change _ = callerThread n (Function.update phase n _ n)
          rw [Function.update_self]
        · rw [onThread_of_ne _ _ ht, onChan_threads, world_of_ne _ _ hcur]
          rfl
      · rw [wakeup_of_ne _ _ (chan_r_of_ne _ htn), onThread_of_ne _ _ ht, onChan_threads,
          world_of_ne _ _ hcur, parked_fill hp hslot htn ht]
  · by_cases hc : c = n
    · subst hc
      rw [onChan_self, wakeup_chans, onThread_chans, onChan_self, world_chans, world_chans,
        Function.update_self, fill_chan hp, chan_list, hslot]
      rfl
    · rw [onChan_of_ne _ _ hc, wakeup_chans, onThread_chans, onChan_of_ne _ _ hc, world_chans,
        world_chans, Function.update_of_ne hc]

/-- A slot that is taken is not filled again. -/
theorem fill_eq_self {p : Phase D} {e : Item D} (h : p.slot = some e) : p.fill e = p := by
  cases p <;> simp_all [Phase.slot, Phase.fill]

/-- Where one writer waits is nothing to the other coroutines. -/
theorem parked_update_blocked {d : Item D} {th : Tid} (h : th ≠ d.writer) (b : Option ℕ) :
    parked phase (Function.update blocked d.writer b) th = parked phase blocked th := by
  rcases th with m | _ | _
  · rfl
  · change writerThread phase _ (Function.update blocked d.writer b _) = _
    rw [Function.update_of_ne h]
    rfl
  · change writerThread phase _ (Function.update blocked d.writer b _) = _
    rw [Function.update_of_ne h]
    rfl

/-- A query that is entered is not done. -/
theorem done_of_entered {p : Phase D} (h : p.entered = true) : p.done = false := by
  cases p <;> first | rfl | cases h

/-- A write to a channel that is full. -/
theorem write_full {d e : Item D} (hp : (phase n).entered = true) (hslot : (phase n).slot = some e)
    (he : e.writer = d.writer) (hb : blocked d.writer = none) :
    (world phase blocked (some d.writer)).write d.writer n d
      = .ok (.yields, world phase (Function.update blocked d.writer (some n)) none) := by
  have hthread : (world phase blocked (some d.writer)).threads d.writer
      = (writerThread phase d.writer none).cleared := by
    rw [world_cur, parked_writer, hb]
  rw [write_again (chan_active hp n) (by rw [world_chans, chan_w, hslot, ← he]; rfl) (chan_r_ne _ n d)
    (by rw [world_chans, chan_list, hslot]; exact List.cons_ne_nil _ _) (by rw [hthread]; rfl)
    (by rw [hthread]; rfl) (by rw [hthread]; rfl)]
  congr 2
  refine world_ext (fun t => ?_) fun c => ?_
  · by_cases ht : t = d.writer
    · subst ht
      rw [onThread_self, onThread_self, world_chans, wakeup_of_ne _ _ (chan_r_ne _ n d), hthread,
        world_none, parked_writer, Function.update_self]
      simp [writerThread, Thread.cleared, done_of_entered hp]
    · have hcur : some d.writer ≠ some t := fun h => ht (Option.some.inj h).symm
      rw [onThread_of_ne _ _ ht, onThread_of_ne _ _ ht, world_none, parked_update_blocked ht,
        world_chans]
      by_cases htn : t = .caller n
      · subst htn
        have hcaller : (world phase blocked (some d.writer)).threads (.caller n)
            = callerThread n (phase n) := world_of_ne _ _ hcur
        rw [wakeup_caller hp e n hcaller, fill_eq_self hslot]
        rfl
      · rw [wakeup_of_ne _ _ (chan_r_of_ne _ htn), world_of_ne _ _ hcur]
  · rw [onThread_chans, onThread_chans, wakeup_chans]
    rfl

/-- A writer goes on behind the end of the query that it wrote to. -/
theorem writeOn_world {d : Item D} (hb : blocked d.writer = some n) (hn : (phase n).done = true) :
    (world phase blocked (some d.writer)).writeOn d.writer n d
      = .ok (.closed, world phase (Function.update blocked d.writer none) (some d.writer)) := by
  have hthread : (world phase blocked (some d.writer)).threads d.writer
      = (writerThread phase d.writer (some n)).cleared := by
    rw [world_cur, parked_writer, hb]
  have hactive : ((phase n).chan n).active = false := by
    cases h : phase n <;> first | rfl | (rw [h] at hn; cases hn)
  rw [writeOn_closed (by rw [hthread]; rfl) hactive]
  congr 2
  refine world_ext (fun t => ?_) fun c => rfl
  by_cases ht : t = d.writer
  · subst ht
    rw [onThread_self, hthread, world_cur, parked_writer, Function.update_self]
    rfl
  · have hcur : some d.writer ≠ some t := fun h => ht (Option.some.inj h).symm
    rw [onThread_of_ne _ _ ht, world_of_ne _ _ hcur, world_of_ne _ _ hcur, parked_update_blocked ht]

/-- The caller finds nothing and waits. -/
theorem read_none (hn : phase n = .publishing none) :
    (world phase blocked (some (.caller n))).read (.caller n) n
      = .ok (.yields, world (Function.update phase n (.reading none)) blocked none) := by
  have hthread : (world phase blocked (some (.caller n))).threads (.caller n)
      = ⟨none, .none, false, fun _ => false⟩ := by
    rw [world_cur]
    change (callerThread n (phase n)).cleared = _
    rw [hn]
    rfl
  have hchan : (world phase blocked (some (.caller n))).chans n = ⟨true, [], none, none⟩ := by
    rw [world_chans, hn]
    rfl
  rw [read_empty (by rw [hchan]) (by rw [hchan]) (by rw [hthread]) (by rw [hchan]) (by rw [hchan])
    (by rw [hthread]) (by rw [hthread]) (by rw [hthread])]
  congr 2
  refine world_ext (fun t => ?_) fun c => ?_
  · by_cases ht : t = .caller n
    · subst ht
      rw [onThread_self, onThread_self, onThread_self, onChan_threads, hthread, world_none]
      change _ = callerThread n (Function.update phase n _ n)
      rw [Function.update_self, Thread.mark, callerThread]
      congr 1
      funext c
      by_cases hc : c = n <;> simp [hc]
    · have hcur : some (Tid.caller n) ≠ some t := fun h => ht (Option.some.inj h).symm
      rw [onThread_of_ne _ _ ht, onThread_of_ne _ _ ht, onThread_of_ne _ _ ht, onChan_threads,
        world_of_ne _ _ hcur, world_none, parked_update ht (by rw [hn]; rfl) (by rw [hn]; rfl)]
  · rw [onThread_chans, onThread_chans, onThread_chans, world_chans]
    by_cases hc : c = n
    · subst hc
      rw [onChan_self, Function.update_self, hchan]
      rfl
    · rw [onChan_of_ne _ _ hc, Function.update_of_ne hc]
      rfl

/-- The end of a query is nothing to a coroutine that has not to do with its channel. -/
theorem parked_done {d : Item D} (hslot : (phase n).slot = some d) {th : Tid} (hth : th ≠ .caller n)
    (hd : th ≠ d.writer) (hb : blocked th ≠ some n) :
    parked (Function.update phase n (.returned d)) blocked th = parked phase blocked th := by
  have hwriter : writerThread (Function.update phase n (.returned d)) th (blocked th)
      = writerThread phase th (blocked th) := by
    have hwrote : (phase n).wroteBy th = false := by
      rw [Phase.wroteBy, hslot]
      exact decide_eq_false hd.symm
    rw [writerThread_done rfl, wakeupChan_of_ne hb]
    exact mark_eq_self hwrote
  rcases th with m | _ | _
  · have hm : m ≠ n := fun h => hth (h ▸ rfl)
    change callerThread m (Function.update phase n _ m) = callerThread m (phase m)
    rw [Function.update_of_ne hm]
  · exact hwriter
  · exact hwriter

/-- The caller has read its item and closes the channel. -/
theorem close_world {s : World Tid (Item D)} {d : Item D} (hslot : (phase n).slot = some d)
    (hchan : s.chans n = ⟨true, [], some (.caller n), some d.writer⟩)
    (hchans : ∀ c, c ≠ n → s.chans c = (phase c).chan c)
    (hcaller : s.threads (.caller n) = ⟨none, .none, false, fun c => c = n⟩)
    (hwriter : s.threads d.writer = wakeupChan n (writerThread phase d.writer (blocked d.writer)))
    (hthreads : ∀ th, th ≠ .caller n → th ≠ d.writer → s.threads th = parked phase blocked th)
    (hb : ∀ th, blocked th = some n → th = d.writer) :
    s.close n = world (Function.update phase n (.returned d)) blocked none := by
  have hwn := writer_ne_caller d n
  have hreader : (s.threads (.caller n)).chanMap n = true := by simp [hcaller]
  have hwrote : (s.threads d.writer).chanMap n = true := by
    rw [hwriter, wakeupChan_chanMap]
    simp [writerThread, Phase.wroteBy, hslot]
  unfold World.close
  rw [if_neg (by rw [hchan]; nofun)]
  simp only [hchan, World.unregister, onChan_threads, hreader, if_true, onThread_of_ne _ _ hwn, hwrote]
  refine world_ext (fun t => ?_) fun c => ?_
  · rw [onChan_threads, world_none]
    -- the caller gives up its entry, and the writer its own if it was the one that wrote
    by_cases ht : t = .caller n
    · subst ht
      rw [onThread_of_ne _ _ hwn.symm, onThread_self, onChan_threads, hcaller]
      change _ = callerThread n (Function.update phase n _ n)
      rw [Function.update_self, wakeupChan_of_ne (by simp [Thread.mark])]
      change Thread.mark _ n false = ⟨none, .none, false, fun _ => false⟩
      unfold Thread.mark
      congr 1
      funext c
      by_cases hc : c = n <;> simp [hc]
    · by_cases hd : t = d.writer
      · subst hd
        rw [onThread_self, onThread_of_ne _ _ ht, onChan_threads, hwriter, wakeupChan_mark,
          parked_writer, writerThread_done rfl]
        rfl
      · rw [onThread_of_ne _ _ hd, onThread_of_ne _ _ ht, onChan_threads, hthreads t ht hd]
        exact (parked_done hslot ht hd fun h => hd (hb t h)).symm
  · by_cases hc : c = n
    · subst hc
      rw [onChan_self, onThread_chans, onThread_chans, onChan_self, world_chans, Function.update_self]
      rfl
    · rw [onChan_of_ne _ _ hc, onThread_chans, onThread_chans, onChan_of_ne _ _ hc, hchans c hc,
        world_chans, Function.update_of_ne hc]

/-- The caller finds an item when it begins to read, and the query ends. -/
theorem read_some {d : Item D} (hn : phase n = .publishing (some d))
    (hb : ∀ th, blocked th = some n → th = d.writer) :
    ∃ s, (world phase blocked (some (.caller n))).read (.caller n) n = .ok (.back d, s)
      ∧ s.close n = world (Function.update phase n (.returned d)) blocked none := by
  have hwn := writer_ne_caller d n
  have hchan : (world phase blocked (some (.caller n))).chans n = ⟨true, [d], none, some d.writer⟩ := by
    rw [world_chans, hn]
    rfl
  have hthread : (world phase blocked (some (.caller n))).threads (.caller n)
      = ⟨none, .none, false, fun _ => false⟩ := by
    rw [world_cur]
    change (callerThread n (phase n)).cleared = _
    rw [hn]
    rfl
  refine ⟨_, read_item (by rw [hchan]) (by rw [hchan]) (by rw [hthread]) (by rw [hchan]), ?_⟩
  refine close_world (by rw [hn]; rfl) ?_ (fun c hc => ?_) ?_ ?_ (fun th hth hd => ?_) hb
  · rw [onChan_self, wakeup_chans, onThread_chans, onChan_self, hchan]
  · rw [onChan_of_ne _ _ hc, wakeup_chans, onThread_chans, onChan_of_ne _ _ hc]
    rfl
  · rw [onChan_threads, hchan, wakeup_of_ne _ _ (by simp [hwn]), onThread_self, onChan_threads, hthread]
    unfold Thread.mark
    congr 1
    funext c
    by_cases hc : c = n <;> simp [hc]
  · rw [onChan_threads, hchan, wakeup_self, onThread_of_ne _ _ hwn, onChan_threads,
      world_of_ne _ _ (by simp [hwn.symm]), parked_writer]
  · rw [onChan_threads, hchan, wakeup_of_ne _ _ (by simp [hd.symm]), onThread_of_ne _ _ hth,
      onChan_threads, world_of_ne _ _ (by simp [hth.symm])]

/-- The caller was woken, and the query ends. -/
theorem readOn_some {d : Item D} (hn : phase n = .reading (some d))
    (hb : ∀ th, blocked th = some n → th = d.writer) :
    ∃ s, (world phase blocked (some (.caller n))).readOn (.caller n) n = .ok (.back d, s)
      ∧ s.close n = world (Function.update phase n (.returned d)) blocked none := by
  have hwn := writer_ne_caller d n
  have hchan : (world phase blocked (some (.caller n))).chans n
      = ⟨true, [d], some (.caller n), some d.writer⟩ := by
    rw [world_chans, hn]
    rfl
  have hthread : (world phase blocked (some (.caller n))).threads (.caller n)
      = ⟨some n, .none, false, fun c => c = n⟩ := by
    rw [world_cur]
    change (callerThread n (phase n)).cleared = _
    rw [hn]
    rfl
  refine ⟨_, readOn_item (by rw [hthread]) (by rw [hchan]) (by rw [hchan]) (by rw [hchan]), ?_⟩
  refine close_world (by rw [hn]; rfl) ?_ (fun c hc => ?_) ?_ ?_ (fun th hth hd => ?_) hb
  · rw [onChan_self, wakeup_chans, onThread_chans, hchan]
  · rw [onChan_of_ne _ _ hc, wakeup_chans, onThread_chans]
    rfl
  · rw [onChan_threads, wakeup_of_ne _ _ (by simp [hwn]), onThread_self, hthread]
  · rw [onChan_threads, wakeup_self, onThread_of_ne _ _ hwn,
      world_of_ne _ _ (by simp [hwn.symm]), parked_writer]
  · rw [onChan_threads, wakeup_of_ne _ _ (by simp [hd.symm]), onThread_of_ne _ _ hth,
      world_of_ne _ _ (by simp [hth.symm])]

end Sandcproxy
