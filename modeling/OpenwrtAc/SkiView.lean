/-
# Worlds of the scheduler

What a coroutine is waiting for and whether it is in the running list say all about its
signal state.  Here each operation of the scheduler is computed on the worlds in which
they do.
-/
import OpenwrtAc.SkiSched

namespace SkiSched

variable {Tid α : Type}

/-- Neither not created nor dead. -/
def Doing.alive : Doing α → Bool
  | .absent | .dead => false
  | _ => true

/-- The `wait_seq`. -/
def Doing.waits : Doing α → ℕ
  | .reading c | .writing c _ => c
  | _ => 0

/-- The first field of `sig_type`. -/
def Doing.sig : Doing α → Sig
  | .self => .self
  | .reading _ | .writing _ _ => .chan
  | _ => .none

/-- The coroutine of which the scheduler knows `x`. -/
def Doing.thread (x : Doing α) (woken : Bool) (chanMap : Finset ℕ) : Thread :=
  ⟨x.alive, x.waits, x.sig, woken, chanMap, x.alive⟩

/-- Worlds with the same threads, channels, running list and counter are equal. -/
theorem world_ext {s s' : World Tid α} (ht : ∀ th, s.threads th = s'.threads th)
    (hc : s.chans = s'.chans) (hr : s.running = s'.running) (hs : s.seq = s'.seq) : s = s' := by
  cases s
  cases s'
  congr 1
  exact funext ht

@[simp] theorem onChan_threads (s : World Tid α) (c : ℕ) (f : Chan Tid α → Chan Tid α) :
    (s.onChan c f).threads = s.threads := rfl

@[simp] theorem onChan_running (s : World Tid α) (c : ℕ) (f : Chan Tid α → Chan Tid α) :
    (s.onChan c f).running = s.running := rfl

/-- A state in which the coroutines are as `doing` and `running` say, with `maps` for the
    `chan_map`s. -/
structure View (Tid α : Type) where
  doing : Tid → Doing α
  maps : Tid → Finset ℕ
  chans : ℕ → Chan Tid α
  running : List Tid
  seq : ℕ
  cur : Option Tid
  got : ℕ → List α
  put : ℕ → List α

variable [DecidableEq Tid]

def View.world (v : View Tid α) : World Tid α :=
  ⟨fun th => (v.doing th).thread (decide (th ∈ v.running)) (v.maps th), v.chans, v.running, v.seq⟩

def View.state (v : View Tid α) : State Tid α := ⟨v.world, v.doing, v.cur, v.got, v.put⟩

@[simp] theorem onThread_chans (s : World Tid α) (th : Tid) (f : Thread → Thread) :
    (s.onThread th f).chans = s.chans := rfl

@[simp] theorem onThread_running (s : World Tid α) (th : Tid) (f : Thread → Thread) :
    (s.onThread th f).running = s.running := rfl

@[simp] theorem onThread_seq (s : World Tid α) (th : Tid) (f : Thread → Thread) :
    (s.onThread th f).seq = s.seq := rfl

@[simp] theorem onThread_self (s : World Tid α) (th : Tid) (f : Thread → Thread) :
    (s.onThread th f).threads th = f (s.threads th) :=
  Function.update_self ..

/-- An update of one thread leaves the others alone. -/
theorem onThread_of_ne (s : World Tid α) {th t : Tid} (f : Thread → Thread) (h : t ≠ th) :
    (s.onThread th f).threads t = s.threads t :=
  Function.update_of_ne h ..

@[simp] theorem world_threads (v : View Tid α) (th : Tid) :
    v.world.threads th = (v.doing th).thread (decide (th ∈ v.running)) (v.maps th) := rfl

@[simp] theorem world_chans (v : View Tid α) : v.world.chans = v.chans := rfl

@[simp] theorem world_running (v : View Tid α) : v.world.running = v.running := rfl

@[simp] theorem world_seq (v : View Tid α) : v.world.seq = v.seq := rfl

/-! ## What changes a view -/

/-- `doing` of one coroutine. -/
def View.does (v : View Tid α) (th : Tid) (x : Doing α) : View Tid α :=
  { v with doing := Function.update v.doing th x }

/-- One channel. -/
def View.onChan (v : View Tid α) (c : ℕ) (f : Chan Tid α → Chan Tid α) : View Tid α :=
  { v with chans := Function.update v.chans c (f (v.chans c)) }

/-- One `chan_map`. -/
def View.onMap (v : View Tid α) (th : Tid) (f : Finset ℕ → Finset ℕ) : View Tid α :=
  { v with maps := Function.update v.maps th (f (v.maps th)) }

/-- It waits at the channel. -/
def Doing.At (x : Doing α) (c : ℕ) : Prop := x = .reading c ∨ ∃ d, x = .writing c d

/-- A thread stands at a channel where it waits for it under the channel signal. -/
theorem at_iff (x : Doing α) (c : ℕ) : x.At c ↔ x.waits = c ∧ x.sig = .chan := by
  cases x <;> simp [Doing.At, Doing.waits, Doing.sig]

instance (x : Doing α) (c : ℕ) : Decidable (x.At c) := decidable_of_iff _ (at_iff x c).symm

/-- The coroutine enters the running list, if it waits for what it is woken for and has not been
    woken before. -/
def View.woken (v : View Tid α) (th : Tid) (p : Prop) [Decidable p] : View Tid α :=
  if p ∧ th ∉ v.running then { v with running := v.running ++ [th] } else v

def View.wake (v : View Tid α) (c : ℕ) : Option Tid → View Tid α
  | none => v
  | some th => v.woken th ((v.doing th).At c)

/-- Who runs after a wakeup: who ran before, and the woken thread if it waited. -/
theorem mem_woken (v : View Tid α) (th t : Tid) (p : Prop) [Decidable p] :
    t ∈ (v.woken th p).running ↔ t ∈ v.running ∨ t = th ∧ p := by
  unfold View.woken
  split
  case isTrue h => simp [h.1]
  case isFalse h =>
    constructor
    · exact Or.inl
    · rintro (h | ⟨rfl, hp⟩)
      · exact h
      · by_contra hn
        exact h ⟨hp, hn⟩

/-- Who runs after one end of a channel is woken. -/
theorem mem_wake (v : View Tid α) (c : ℕ) (o : Option Tid) (t : Tid) :
    t ∈ (v.wake c o).running ↔ t ∈ v.running ∨ o = some t ∧ (v.doing t).At c := by
  cases o with
  | none => simp [View.wake]
  | some th =>
    rw [View.wake, mem_woken, Option.some_inj]
    constructor
    · rintro (h | ⟨rfl, h⟩)
      · exact .inl h
      · exact .inr ⟨rfl, h⟩
    · rintro (h | ⟨rfl, h⟩)
      · exact .inl h
      · exact .inr ⟨rfl, h⟩

/-- A wakeup changes the running list only. -/
theorem woken_eq (v : View Tid α) (th : Tid) (p : Prop) [Decidable p] :
    ∃ run, v.woken th p = { v with running := run } := by
  unfold View.woken
  split
  · exact ⟨_, rfl⟩
  · exact ⟨v.running, rfl⟩

/-- A wakeup appends a thread to the running list at most once. -/
theorem nodup_woken (v : View Tid α) (th : Tid) (p : Prop) [Decidable p] (h : v.running.Nodup) :
    (v.woken th p).running.Nodup := by
  unfold View.woken
  split
  case isTrue hp =>
    refine List.Nodup.append h (List.nodup_singleton th) ?_
    simpa using hp.2
  case isFalse => exact h

/-- Waking an end changes the running list only. -/
theorem wake_eq (v : View Tid α) (c : ℕ) (o : Option Tid) :
    ∃ run, v.wake c o = { v with running := run } := by
  cases o with
  | none => exact ⟨v.running, rfl⟩
  | some th => exact woken_eq ..

/-- Waking an end keeps the running list without repetition. -/
theorem nodup_wake (v : View Tid α) (c : ℕ) (o : Option Tid) (h : v.running.Nodup) :
    (v.wake c o).running.Nodup := by
  cases o with
  | none => exact h
  | some th => exact nodup_woken v th _ h

/-! ## The operations -/

/-- The wakeup of the source, read on the view. -/
theorem wakeupCommon_world (v : View Tid α) (th : Tid) (sig : Sig) (hs : sig ≠ .none) :
    v.world.wakeupCommon th sig = (v.woken th ((v.doing th).sig = sig)).world := by
  have hf : ((v.world.threads th).sig = sig ∧ (v.world.threads th).flag = false) ↔
      (v.doing th).sig = sig ∧ th ∉ v.running := by
    simp [Doing.thread]
  unfold World.wakeupCommon View.woken
  by_cases hn : (v.world.threads th).sig = .none
  · rw [if_pos hn, if_neg]
    rintro ⟨h, -⟩
    exact hs (h.symm.trans hn)
  rw [if_neg hn]
  by_cases h : (v.doing th).sig = sig ∧ th ∉ v.running
  · rw [if_pos (hf.mpr h), if_pos h]
    apply world_ext
    · intro t
      by_cases ht : t = th
      · subst ht
        simp [Doing.thread]
      · simp [onThread_of_ne, ht]
    · rfl
    · rfl
    · rfl
  · rw [if_neg (mt hf.mp h), if_neg h]

/-- The wakeup over a channel, read on the view. -/
theorem wakeupChan_world (v : View Tid α) (th : Tid) (c : ℕ) :
    v.world.wakeupChan th c = (v.woken th ((v.doing th).At c)).world := by
  unfold World.wakeupChan
  split
  case isTrue h =>
    rw [wakeupCommon_world v th .chan (by simp)]
    simp only [View.woken, at_iff, show (v.doing th).waits = c from h, true_and]
  case isFalse h =>
    rw [View.woken, if_neg]
    rintro ⟨ha, -⟩
    exact h ((at_iff _ c).mp ha).1

/-- The wakeup of one end, read on the view. -/
theorem wakeupEnd_world (v : View Tid α) (c : ℕ) (o : Option Tid) :
    v.world.wakeupEnd c o = (v.wake c o).world := by
  cases o with
  | none => rfl
  | some th => exact wakeupChan_world v th c

/-- A channel update, read on the view. -/
theorem onChan_world (v : View Tid α) (c : ℕ) (f : Chan Tid α → Chan Tid α) :
    v.world.onChan c f = (v.onChan c f).world := rfl

/-- A change of one coroutine that leaves it one the scheduler knows. -/
theorem onThread_world (v : View Tid α) (th : Tid)
    (f : Thread → Thread) (x : Doing α) (m : Finset ℕ)
    (h : f ((v.doing th).thread (decide (th ∈ v.running)) (v.maps th)) =
      x.thread (decide (th ∈ v.running)) m) :
    v.world.onThread th f = ((v.does th x).onMap th fun _ => m).world := by
  apply world_ext
  · intro t
    by_cases ht : t = th
    · subst ht
      simpa [View.does, View.onMap] using h
    · simp [View.does, View.onMap, onThread_of_ne, ht]
  · rfl
  · rfl
  · rfl

/-- Rewriting what a thread does by what it does changes its map alone. -/
theorem does_same (v : View Tid α) (th : Tid) (f : Finset ℕ → Finset ℕ) :
    (v.does th (v.doing th)).onMap th f = v.onMap th f := by
  rw [View.does, Function.update_eq_self]

/-- Rewriting a map by itself changes nothing. -/
theorem onMap_same (v : View Tid α) (th : Tid) : (v.onMap th fun _ => v.maps th) = v := by
  rw [View.onMap, Function.update_eq_self]

/-- Registering a channel with a thread, read on the view. -/
theorem register_world (v : View Tid α) (th : Tid) (c : ℕ) :
    v.world.register th c =
      if c ∈ v.maps th then .error .registered else .ok (v.onMap th fun m => insert c m).world := by
  unfold World.register
  by_cases h : c ∈ v.maps th
  · rw [if_pos (by simpa [Doing.thread] using h), if_pos h]
  · rw [if_neg (by simpa [Doing.thread] using h), if_neg h,
      onThread_world v th _ (v.doing th) (insert c (v.maps th)) rfl, does_same]
    rfl

/-- The coroutine of one end leaves the channel. -/
def View.leave (v : View Tid α) (c : ℕ) : Option Tid → View Tid α
  | none => v
  | some th =>
    if c ∈ v.maps th then (v.onMap th fun m => m.erase c).wake c (some th) else v

/-- Unregistering the thread at one end, read on the view. -/
theorem unregister_world (v : View Tid α) (c : ℕ) (o : Option Tid) :
    v.world.unregister c o = (v.leave c o).world := by
  cases o with
  | none => rfl
  | some th =>
    have hc : c ∈ (v.world.threads th).chanMap ↔ c ∈ v.maps th := by simp [Doing.thread]
    simp only [World.unregister, View.leave]
    by_cases h : c ∈ v.maps th
    · have hm := onThread_world v th (fun t => { t with chanMap := t.chanMap.erase c }) (v.doing th)
        ((v.maps th).erase c) rfl
      rw [does_same] at hm
      rw [if_pos (hc.mpr h), if_pos h, hm, wakeupChan_world]
      rfl
    · rw [if_neg (mt hc.mp h), if_neg h]

/-- The coroutine that runs waits. -/
theorem waitOn_world (v : View Tid α) (th : Tid) (c : ℕ) (x : Doing α) (hd : v.doing th = .runs)
    (hr : th ∉ v.running) (ha : x.alive = true) (hw : x.waits = c) (hs : x.sig = .chan) :
    v.world.waitOn th c = .ok (v.does th x).world := by
  have h1 : (v.world.onThread th fun t => { t with waitSeq := c }).yieldCommon th .chan =
      .ok ((v.world.onThread th fun t => { t with waitSeq := c }).onThread th fun t =>
        { t with sig := .chan }) := by
    unfold World.yieldCommon
    rw [if_pos]
    simp [hd, hr, Doing.thread, Doing.sig]
  have h2 : (v.world.onThread th fun t => { t with waitSeq := c }).onThread th (fun t =>
        { t with sig := .chan }) = v.world.onThread th fun t => { t with waitSeq := c, sig := .chan } := by
    simp [World.onThread]
  have h3 := onThread_world v th (fun t => { t with waitSeq := c, sig := .chan }) x (v.maps th)
    (by simp [Doing.thread, hd, ha, hw, hs, show (Doing.runs : Doing α).alive = true from rfl])
  unfold World.waitOn
  rw [if_neg (by simp [hd, Doing.thread, Doing.waits]), h1, h2, h3]
  rw [show (v.does th x).onMap th (fun _ => v.maps th) = v.does th x from onMap_same (v.does th x) th]

/-- A thread that yields puts itself behind the running list. -/
theorem yieldCommon_world (v : View Tid α) (th : Tid)
    (hd : v.doing th = .runs) (hr : th ∉ v.running) :
    v.world.yieldCommon th .self = .ok (v.does th .self).world := by
  unfold World.yieldCommon
  rw [if_pos (by simp [hd, hr, Doing.thread, Doing.sig]),
    onThread_world v th _ .self (v.maps th) (by simp [Doing.thread, hd, Doing.alive, Doing.waits, Doing.sig])]
  rw [show (v.does th .self).onMap th (fun _ => v.maps th) = v.does th .self from onMap_same (v.does th .self) th]

/-! ## The calls -/

/-- A first reader is entered. -/
def View.enterR (v : View Tid α) (th : Tid) (c : ℕ) : View Tid α :=
  (v.onChan c fun ch => { ch with r := some th }).onMap th fun m => insert c m

def View.enterW (v : View Tid α) (th : Tid) (c : ℕ) : View Tid α :=
  (v.onChan c fun ch => { ch with w := some th }).onMap th fun m => insert c m

/-- The first item is taken, and the writer is woken. -/
def View.pop (v : View Tid α) (c : ℕ) (rest : List α) : View Tid α :=
  (v.wake c (v.chans c).w).onChan c fun ch => { ch with list := rest }

/-- An item is added, and the reader is woken. -/
def View.push (v : View Tid α) (c : ℕ) (d : α) : View Tid α :=
  (v.wake c (v.chans c).r).onChan c fun ch => { ch with list := ch.list ++ [d] }

/-- A thread becomes the reader of a channel that has none. -/
theorem enterReader_world (v : View Tid α) (th : Tid) (c : ℕ) :
    v.world.enterReader th c =
      if (v.chans c).r = none then
        if c ∈ v.maps th then .error .registered else .ok (v.enterR th c).world
      else .ok v.world := by
  unfold World.enterReader
  by_cases h : (v.chans c).r = none
  · rw [if_pos (show (v.world.chans c).r = none from h), if_pos h, onChan_world, register_world]
    rfl
  · rw [if_neg (show ¬(v.world.chans c).r = none from h), if_neg h]

/-- A thread becomes the writer of a channel that has none. -/
theorem enterWriter_world (v : View Tid α) (th : Tid) (c : ℕ) :
    v.world.enterWriter th c =
      if (v.chans c).w = none then
        if c ∈ v.maps th then .error .registered else .ok (v.enterW th c).world
      else .ok v.world := by
  unfold World.enterWriter
  by_cases h : (v.chans c).w = none
  · rw [if_pos (show (v.world.chans c).w = none from h), if_pos h, onChan_world, register_world]
    rfl
  · rw [if_neg (show ¬(v.world.chans c).w = none from h), if_neg h]

@[simp] theorem wake_chans (v : View Tid α) (c : ℕ) (o : Option Tid) :
    (v.wake c o).chans = v.chans := by
  obtain ⟨run, h⟩ := wake_eq v c o
  rw [h]

@[simp] theorem wake_doing (v : View Tid α) (c : ℕ) (o : Option Tid) :
    (v.wake c o).doing = v.doing := by
  obtain ⟨run, h⟩ := wake_eq v c o
  rw [h]

/-- One that does not wait at the channel is not woken. -/
theorem not_mem_wake (v : View Tid α) (c : ℕ) (o : Option Tid) {th : Tid} (hd : v.doing th = .runs)
    (hr : th ∉ v.running) : th ∉ (v.wake c o).running := by
  rw [mem_wake]
  rintro (h | ⟨-, h⟩)
  · exact hr h
  · simp [hd, Doing.At] at h

/-- `read` of an active channel by its reader. -/
theorem read_entered (v : View Tid α) {cur : Tid} {c : ℕ} (hd : v.doing cur = .runs)
    (hn : cur ∉ v.running) (ha : (v.chans c).active = true) (hr : (v.chans c).r = some cur) :
    v.world.read cur c = match (v.chans c).list with
      | d :: rest => .ok (.back d, (v.pop c rest).world)
      | [] => .ok (.yields, ((v.wake c (v.chans c).w).does cur (.reading c)).world) := by
  have he : v.world.enterReader cur c = .ok v.world := by
    rw [enterReader_world, if_neg (by simp [hr])]
  unfold World.read
  rw [if_neg (by simp [ha]), he]
  change (if (v.chans c).r ≠ some cur then _ else _) = _
  rw [if_neg (by simp [hr])]
  simp only [world_chans, wakeupEnd_world, wake_chans]
  cases (v.chans c).list with
  | cons d rest => rfl
  | nil =>
    change ((v.wake c (v.chans c).w).world.waitOn cur c >>= _) = _
    rw [waitOn_world _ cur c (.reading c) (by simpa using hd) (not_mem_wake v c _ hd hn) rfl rfl rfl]
    rfl

/-- `write` to an active channel by its writer. -/
theorem write_entered (v : View Tid α) {cur : Tid} {c : ℕ} (d : α) (hd : v.doing cur = .runs)
    (hn : cur ∉ v.running) (ha : (v.chans c).active = true) (hw : (v.chans c).w = some cur) :
    v.world.write cur c d =
      if (v.chans c).list.length < (v.chans c).max then .ok (.back (), (v.push c d).world)
      else .ok (.yields, ((v.wake c (v.chans c).r).does cur (.writing c d)).world) := by
  have he : v.world.enterWriter cur c = .ok v.world := by
    rw [enterWriter_world, if_neg (by simp [hw])]
  unfold World.write
  rw [if_neg (by simp [ha]), he]
  change (if (v.chans c).w ≠ some cur then _ else _) = _
  rw [if_neg (by simp [hw])]
  simp only [world_chans, wakeupEnd_world, wake_chans]
  split
  · rfl
  · rw [waitOn_world _ cur c (.writing c d) (by simpa using hd) (not_mem_wake v c _ hd hn) rfl rfl rfl]
    rfl

/-- `read` of an active channel that has no reader. -/
theorem read_enters (v : View Tid α) {cur : Tid} {c : ℕ} (ha : (v.chans c).active = true)
    (hr : (v.chans c).r = none) (hm : c ∉ v.maps cur) :
    v.world.read cur c = (v.enterR cur c).world.read cur c := by
  have h1 : v.world.enterReader cur c = .ok (v.enterR cur c).world := by
    rw [enterReader_world, if_pos hr, if_neg hm]
  have h2 : (v.enterR cur c).world.enterReader cur c = .ok (v.enterR cur c).world := by
    rw [enterReader_world, if_neg (by simp [View.enterR, View.onChan, View.onMap])]
  unfold World.read
  rw [if_neg (by simp [ha]), if_neg (by simp [View.enterR, View.onChan, View.onMap, ha]), h1, h2]

/-- A write to a channel without a writer is a write by the writer it enters. -/
theorem write_enters (v : View Tid α) {cur : Tid} {c : ℕ} (d : α) (ha : (v.chans c).active = true)
    (hw : (v.chans c).w = none) (hm : c ∉ v.maps cur) :
    v.world.write cur c d = (v.enterW cur c).world.write cur c d := by
  have h1 : v.world.enterWriter cur c = .ok (v.enterW cur c).world := by
    rw [enterWriter_world, if_pos hw, if_neg hm]
  have h2 : (v.enterW cur c).world.enterWriter cur c = .ok (v.enterW cur c).world := by
    rw [enterWriter_world, if_neg (by simp [View.enterW, View.onChan, View.onMap])]
  unfold World.write
  rw [if_neg (by simp [ha]), if_neg (by simp [View.enterW, View.onChan, View.onMap, ha]), h1, h2]

/-- How `read` fails. -/
theorem read_error (v : View Tid α) {cur : Tid} {c : ℕ} {f : Failure} (hd : v.doing cur = .runs)
    (hn : cur ∉ v.running) (h : v.world.read cur c = .error f) :
    (v.chans c).active = true ∧
      ((v.chans c).r = none ∧ c ∈ v.maps cur ∨ ∃ th, (v.chans c).r = some th ∧ th ≠ cur) := by
  have ha : (v.chans c).active = true := by
    by_contra ha
    rw [World.read, if_pos (by simpa using ha)] at h
    cases h
  refine ⟨ha, ?_⟩
  cases hr : (v.chans c).r with
  | none =>
    refine .inl ⟨rfl, ?_⟩
    by_contra hm
    rw [read_enters v ha hr hm, read_entered (v.enterR cur c) hd hn (by simp [View.enterR, View.onChan, View.onMap, ha])
      (by simp [View.enterR, View.onChan, View.onMap])] at h
    split at h <;> cases h
  | some th =>
    refine .inr ⟨th, rfl, ?_⟩
    rintro rfl
    rw [read_entered v hd hn ha hr] at h
    split at h <;> cases h

/-- A write raises only where its thread is registered at the channel or another one writes. -/
theorem write_error (v : View Tid α) {cur : Tid} {c : ℕ} {d : α} {f : Failure}
    (hd : v.doing cur = .runs)
    (hn : cur ∉ v.running) (h : v.world.write cur c d = .error f) :
    (v.chans c).active = true ∧
      ((v.chans c).w = none ∧ c ∈ v.maps cur ∨ ∃ th, (v.chans c).w = some th ∧ th ≠ cur) := by
  have ha : (v.chans c).active = true := by
    by_contra ha
    rw [World.write, if_pos (by simpa using ha)] at h
    cases h
  refine ⟨ha, ?_⟩
  cases hw : (v.chans c).w with
  | none =>
    refine .inl ⟨rfl, ?_⟩
    by_contra hm
    rw [write_enters v d ha hw hm, write_entered (v.enterW cur c) d hd hn
      (by simp [View.enterW, View.onChan, View.onMap, ha]) (by simp [View.enterW, View.onChan, View.onMap])] at h
    split at h <;> cases h
  | some th =>
    refine .inr ⟨th, rfl, ?_⟩
    rintro rfl
    rw [write_entered v d hd hn ha hw] at h
    split at h <;> cases h

/-- Where `read` does fail. -/
theorem read_fails (v : View Tid α) {cur : Tid} {c : ℕ} (ha : (v.chans c).active = true)
    (hf : (v.chans c).r = none ∧ c ∈ v.maps cur ∨ ∃ th, (v.chans c).r = some th ∧ th ≠ cur) :
    ∃ f, v.world.read cur c = .error f := by
  unfold World.read
  rw [if_neg (by simp [ha]), enterReader_world]
  obtain ⟨hn, hm⟩ | ⟨th, hth, hne⟩ := hf
  · rw [if_pos hn, if_pos hm]
    exact ⟨.registered, rfl⟩
  · rw [if_neg (by simp [hth])]
    change ∃ f, (if (v.chans c).r ≠ some cur then _ else _) = _
    rw [if_pos (by simpa [hth] using hne)]
    exact ⟨.oneReader, rfl⟩

/-- In the two situations of `write_error` a write does raise. -/
theorem write_fails (v : View Tid α) {cur : Tid} {c : ℕ} (d : α) (ha : (v.chans c).active = true)
    (hf : (v.chans c).w = none ∧ c ∈ v.maps cur ∨ ∃ th, (v.chans c).w = some th ∧ th ≠ cur) :
    ∃ f, v.world.write cur c d = .error f := by
  unfold World.write
  rw [if_neg (by simp [ha]), enterWriter_world]
  obtain ⟨hn, hm⟩ | ⟨th, hth, hne⟩ := hf
  · rw [if_pos hn, if_pos hm]
    exact ⟨.registered, rfl⟩
  · rw [if_neg (by simp [hth])]
    change ∃ f, (if (v.chans c).w ≠ some cur then _ else _) = _
    rw [if_pos (by simpa [hth] using hne)]
    exact ⟨.oneWriter, rfl⟩

/-! ## Behind a yield -/

/-- The head of the running list goes on. -/
def View.resumed (v : View Tid α) (th : Tid) (rest : List Tid) : View Tid α :=
  { v.does th .runs with running := rest, cur := some th }

/-- Its world, until `wait_seq` is 0 again. -/
def View.cleared (v : View Tid α) (th : Tid) (rest : List Tid) : World Tid α :=
  { v.world with running := rest }.clearSig th

/-- The scheduler leaves a thread's wait counter as it was. -/
theorem cleared_waitSeq (v : View Tid α) (th : Tid) (rest : List Tid) :
    ((v.cleared th rest).threads th).waitSeq = (v.doing th).waits := by
  simp [View.cleared, World.clearSig, Doing.thread]

/-- A coroutine that was woken goes on. -/
theorem resumed_world (v : View Tid α) {th : Tid} {rest : List Tid} (hr : v.running = th :: rest)
    (hn : th ∉ rest) (ha : (v.doing th).alive = true) :
    ((v.cleared th rest).onThread th fun t => { t with waitSeq := 0 }) = (v.resumed th rest).world := by
  apply world_ext
  · intro t
    by_cases ht : t = th
    · subst ht
      simp [View.cleared, World.clearSig, View.resumed, View.does, Doing.thread, hn, ha,
        show (Doing.runs : Doing α).alive = true from rfl, show (Doing.runs : Doing α).waits = 0 from rfl,
        show (Doing.runs : Doing α).sig = .none from rfl]
    · simp [View.cleared, World.clearSig, View.resumed, View.does, onThread_of_ne, ht, hr]
  · rfl
  · rfl
  · rfl

/-- One that waits for itself has no `wait_seq`. -/
theorem cleared_self (v : View Tid α) {th : Tid} {rest : List Tid} (hr : v.running = th :: rest)
    (hn : th ∉ rest) (hd : v.doing th = .self) : v.cleared th rest = (v.resumed th rest).world := by
  rw [← resumed_world v hr hn (by rw [hd]; rfl)]
  apply world_ext
  · intro t
    by_cases ht : t = th
    · subst ht
      simp [View.cleared, World.clearSig, Doing.thread, hd, show (Doing.self : Doing α).waits = 0 from rfl]
    · rw [onThread_of_ne _ _ ht]
  · rfl
  · rfl
  · rfl

/-- A read that is resumed, read on the view. -/
theorem readOn_world (v : View Tid α) {th : Tid} {rest : List Tid} {c : ℕ}
    (hr : v.running = th :: rest)
    (hn : th ∉ rest) (hd : v.doing th = .reading c) :
    (v.cleared th rest).readOn th c =
      if (v.chans c).active = false then .ok (none, (v.resumed th rest).world)
      else match (v.chans c).list, (v.chans c).w with
        | d :: list, some _ => .ok (some d, ((v.resumed th rest).pop c list).world)
        | _, _ => .error .notify := by
  unfold World.readOn
  rw [if_neg (by rw [cleared_waitSeq, hd]; simp [Doing.waits]), resumed_world v hr hn (by rw [hd]; rfl)]
  simp only [world_chans]
  change (if (v.chans c).active = false then _ else _) = _
  split
  · rfl
  · rw [show (v.resumed th rest).chans = v.chans from rfl]
    cases hl : (v.chans c).list with
    | nil =>
      cases (v.chans c).w with
      | none => rfl
      | some w => rfl
    | cons d list =>
      cases hw : (v.chans c).w with
      | none => rfl
      | some w =>
        have hp : (v.resumed th rest).pop c list =
            ((v.resumed th rest).wake c (some w)).onChan c fun ch => { ch with list := list } := by
          rw [← hw]
          rfl
        change Except.ok (some d, ((v.resumed th rest).world.wakeupChan w c).onChan c _) =
          Except.ok (some d, ((v.resumed th rest).pop c list).world)
        rw [hp, wakeupChan_world]
        rfl

/-- A write that is resumed, read on the view. -/
theorem writeOn_world (v : View Tid α) {th : Tid} {rest : List Tid} {c : ℕ} {d : α}
    (hr : v.running = th :: rest) (hn : th ∉ rest) (hd : v.doing th = .writing c d) :
    (v.cleared th rest).writeOn th c d =
      if (v.chans c).active = false then .ok (none, (v.resumed th rest).world)
      else match (v.chans c).r with
        | none => .error .notify
        | some _ => .ok (some (), ((v.resumed th rest).push c d).world) := by
  unfold World.writeOn
  rw [if_neg (by rw [cleared_waitSeq, hd]; simp [Doing.waits]), resumed_world v hr hn (by rw [hd]; rfl)]
  simp only [world_chans]
  change (if (v.chans c).active = false then _ else _) = _
  split
  · rfl
  · change (match (v.chans c).r with | none => _ | some _ => _) = _
    cases hr' : (v.chans c).r with
    | none => rfl
    | some r =>
      have hp : (v.resumed th rest).push c d =
          ((v.resumed th rest).wake c (some r)).onChan c fun ch => { ch with list := ch.list ++ [d] } := by
        rw [← hr']
        rfl
      change Except.ok (some (), ((v.resumed th rest).world.wakeupChan r c).onChan c _) = _
      rw [hp, wakeupChan_world]
      rfl

/-! ## The end of a channel -/

@[simp] theorem leave_doing (v : View Tid α) (c : ℕ) (o : Option Tid) :
    (v.leave c o).doing = v.doing := by
  cases o with
  | none => rfl
  | some th =>
    simp only [View.leave]
    split
    · rw [wake_doing]
      rfl
    · rfl

@[simp] theorem leave_chans (v : View Tid α) (c : ℕ) (o : Option Tid) :
    (v.leave c o).chans = v.chans := by
  cases o with
  | none => rfl
  | some th =>
    simp only [View.leave]
    split
    · rw [wake_chans]
      rfl
    · rfl

/-- Apart from the running list and the `chan_map`s nothing changes. -/
theorem leave_eq (v : View Tid α) (c : ℕ) (o : Option Tid) :
    ∃ run maps, v.leave c o = { v with running := run, maps := maps } := by
  cases o with
  | none => exact ⟨v.running, v.maps, rfl⟩
  | some th =>
    simp only [View.leave]
    split
    · obtain ⟨run, h⟩ := wake_eq (v.onMap th fun m => m.erase c) c (some th)
      exact ⟨run, _, h⟩
    · exact ⟨v.running, v.maps, rfl⟩

/-- Who runs after one end has left the channel. -/
theorem mem_leave (v : View Tid α) (c : ℕ) (o : Option Tid) (t : Tid) :
    t ∈ (v.leave c o).running ↔ t ∈ v.running ∨ o = some t ∧ c ∈ v.maps t ∧ (v.doing t).At c := by
  cases o with
  | none => simp [View.leave]
  | some th =>
    simp only [View.leave]
    split
    case isTrue h =>
      rw [mem_wake]
      constructor
      · rintro (ht | ⟨ho, ht⟩)
        · exact .inl ht
        · exact .inr ⟨ho, Option.some_inj.mp ho ▸ h, ht⟩
      · rintro (ht | ⟨ho, -, ht⟩)
        · exact .inl ht
        · exact .inr ⟨ho, ht⟩
    case isFalse h =>
      constructor
      · exact Or.inl
      · rintro (ht | ⟨ho, hm, -⟩)
        · exact ht
        · exact (h (Option.some_inj.mp ho ▸ hm)).elim

/-- The end that leaves has the channel off its map. -/
theorem maps_leave (v : View Tid α) (c : ℕ) (o : Option Tid) (t : Tid) :
    (v.leave c o).maps t = if o = some t then (v.maps t).erase c else v.maps t := by
  cases o with
  | none => rfl
  | some th =>
    simp only [View.leave]
    split
    case isTrue h =>
      obtain ⟨run, hw⟩ := wake_eq (v.onMap th fun m => m.erase c) c (some th)
      rw [hw]
      by_cases ht : t = th
      · subst ht
        simp [View.onMap]
      · rw [if_neg (fun ho => ht (Option.some_inj.mp ho).symm)]
        exact Function.update_of_ne ht ..
    case isFalse h =>
      split
      case isTrue ho => rw [← Option.some_inj.mp ho, Finset.erase_eq_of_notMem h]
      case isFalse => rfl

/-- Leaving keeps the running list without repetition. -/
theorem nodup_leave (v : View Tid α) (c : ℕ) (o : Option Tid) (h : v.running.Nodup) :
    (v.leave c o).running.Nodup := by
  cases o with
  | none => exact h
  | some th =>
    simp only [View.leave]
    split
    · exact nodup_wake _ c _ h
    · exact h

/-- The channel is closed. -/
def View.shut (v : View Tid α) (c : ℕ) : View Tid α :=
  (((v.onChan c fun ch => { ch with active := false, list := [] }).leave c (v.chans c).r).leave c
    (v.chans c).w).onChan c fun ch => { ch with r := none, w := none, mapped := false }

/-- Closing a channel, read on the view. -/
theorem close_world (v : View Tid α) (c : ℕ) :
    v.world.close c = if (v.chans c).active = false then v.world else (v.shut c).world := by
  unfold World.close
  split
  case isTrue h => rw [if_pos (show (v.chans c).active = false from h)]
  case isFalse h =>
    rw [if_neg (show ¬(v.chans c).active = false from h)]
    simp only [onChan_world, unregister_world]
    rfl

end SkiSched
