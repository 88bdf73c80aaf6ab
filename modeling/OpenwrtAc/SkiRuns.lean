/-
# Runs of the scheduler

Every step of the scheduler keeps the invariant of the channels, and none of the
assertions fails at a channel that one coroutine reads and another one writes.
-/
import OpenwrtAc.SkiSafe

namespace SkiSched

variable {Tid α : Type} [DecidableEq Tid]

/-! ## The states of the calls -/

/-- Taking an element is recorded. -/
theorem pop_state (v : View Tid α) (c : ℕ) (d : α) (rest : List α) :
    State.gets { v.state with world := (v.pop c rest).world } c d = ((v.pop c rest).gets c d).state := by
  obtain ⟨run, hw⟩ := wake_eq v c (v.chans c).w
  rw [View.pop, hw]
  rfl

/-- Giving an element is recorded. -/
theorem push_state (v : View Tid α) (c : ℕ) (d : α) :
    State.puts { v.state with world := (v.push c d).world } c d = ((v.push c d).puts c d).state := by
  obtain ⟨run, hr⟩ := wake_eq v c (v.chans c).r
  rw [View.push, hr]
  rfl

/-- A coroutine that blocks. -/
theorem stops_state (v : View Tid α) (c : ℕ) (o : Option Tid) (cur : Tid) (x : Doing α) :
    v.state.stops cur x ((v.wake c o).does cur x).world = ((v.wake c o).blocks cur x).state := by
  obtain ⟨run, hw⟩ := wake_eq v c o
  rw [hw]
  rfl

/-! ## Calls -/

section

variable {p : Ends Tid} {v : View Tid α} {cur : Tid} {c : ℕ} {s' : State Tid α}

/-- `read` by the reader. -/
theorem Inv.read_entered (h : Inv p v) (hd : v.doing cur = .runs) (ha : (v.chans c).active = true)
    (hr : (v.chans c).r = some cur) (hs : v.state.act cur (.read c) = .ok s') :
    ∃ v', s' = v'.state ∧ Inv p v' := by
  have hread := SkiSched.read_entered v hd (h.threads.not_mem hd) ha hr
  simp only [State.act, View.state, hread] at hs
  cases hl : (v.chans c).list with
  | nil =>
    rw [hl] at hs
    cases hs
    exact ⟨_, stops_state v c _ cur _, h.blockR hd ha hr hl⟩
  | cons d rest =>
    rw [hl] at hs
    cases hs
    exact ⟨_, pop_state v c d rest, h.pop hd ha hr hl⟩

/-- `write` by the writer. -/
theorem Inv.write_entered (h : Inv p v) (d : α)
    (hd : v.doing cur = .runs) (ha : (v.chans c).active = true)
    (hw : (v.chans c).w = some cur) (hs : v.state.act cur (.write c d) = .ok s') :
    ∃ v', s' = v'.state ∧ Inv p v' := by
  have hwrite := SkiSched.write_entered v d hd (h.threads.not_mem hd) ha hw
  simp only [State.act, View.state, hwrite] at hs
  by_cases hl : (v.chans c).list.length < (v.chans c).max
  · rw [if_pos hl] at hs
    cases hs
    exact ⟨_, push_state v c d, h.push d hd ha hw fun _ => hl⟩
  · rw [if_neg hl] at hs
    cases hs
    exact ⟨_, stops_state v c _ cur _, h.blockW d hd ha hw hl⟩

/-- `read` of a channel that is closed. -/
theorem act_read_closed (ha : ¬(v.chans c).active = true) :
    v.state.act cur (.read c) = .ok v.state := by
  have hread : v.world.read cur c = .ok (.closed, v.world) := by
    rw [World.read, if_pos (by simpa using ha)]
  simp only [State.act, View.state, hread]
  rfl

/-- A write to a closed channel returns at once. -/
theorem act_write_closed (d : α) (ha : ¬(v.chans c).active = true) :
    v.state.act cur (.write c d) = .ok v.state := by
  have hwrite : v.world.write cur c d = .ok (.closed, v.world) := by
    rw [World.write, if_pos (by simpa using ha)]
  simp only [State.act, View.state, hwrite]
  rfl

/-- A read on a channel without a reader is one by the reader it enters. -/
theorem act_read_enters (ha : (v.chans c).active = true) (hr : (v.chans c).r = none) (hm : c ∉ v.maps cur) :
    v.state.act cur (.read c) = (v.enterR cur c).state.act cur (.read c) := by
  simp only [State.act, View.state, read_enters v ha hr hm]
  rfl

/-- A write to a channel without a writer is one by the writer it enters. -/
theorem act_write_enters (d : α) (ha : (v.chans c).active = true) (hw : (v.chans c).w = none)
    (hm : c ∉ v.maps cur) : v.state.act cur (.write c d) = (v.enterW cur c).state.act cur (.write c d) := by
  simp only [State.act, View.state, write_enters v d ha hw hm]
  rfl

/-- `read` by the coroutine that runs. -/
theorem Inv.read (h : Inv p v) (hd : v.doing cur = .runs) (hu : c = p.c → cur = p.reader)
    (hs : v.state.act cur (.read c) = .ok s') : ∃ v', s' = v'.state ∧ Inv p v' := by
  by_cases ha : (v.chans c).active = true
  · have hfail : ¬((v.chans c).r = none ∧ c ∈ v.maps cur ∨ ∃ th, (v.chans c).r = some th ∧ th ≠ cur) := by
      intro hf
      obtain ⟨f, hf⟩ := read_fails v ha hf
      simp only [State.act, View.state, hf] at hs
      cases hs
    cases hr : (v.chans c).r with
    | some th =>
      have hth : th = cur := by
        by_contra hne
        exact hfail (.inr ⟨th, hr, hne⟩)
      exact h.read_entered hd ha (hth ▸ hr) hs
    | none =>
      have hm : c ∉ v.maps cur := fun hm => hfail (.inl ⟨hr, hm⟩)
      rw [act_read_enters ha hr hm] at hs
      exact (h.enterR hd ha hr hm hu).read_entered hd (by simpa [View.enterR, View.onChan, View.onMap] using ha)
        (by simp [View.enterR, View.onChan, View.onMap]) hs
  · rw [act_read_closed ha] at hs
    cases hs
    exact ⟨v, rfl, h⟩

/-- `write` by the coroutine that runs. -/
theorem Inv.write (h : Inv p v) (d : α) (hd : v.doing cur = .runs) (hu : c = p.c → cur = p.writer)
    (hs : v.state.act cur (.write c d) = .ok s') : ∃ v', s' = v'.state ∧ Inv p v' := by
  by_cases ha : (v.chans c).active = true
  · have hfail : ¬((v.chans c).w = none ∧ c ∈ v.maps cur ∨ ∃ th, (v.chans c).w = some th ∧ th ≠ cur) := by
      intro hf
      obtain ⟨f, hf⟩ := write_fails v d ha hf
      simp only [State.act, View.state, hf] at hs
      cases hs
    cases hw : (v.chans c).w with
    | some th =>
      have hth : th = cur := by
        by_contra hne
        exact hfail (.inr ⟨th, hw, hne⟩)
      exact h.write_entered d hd ha (hth ▸ hw) hs
    | none =>
      have hm : c ∉ v.maps cur := fun hm => hfail (.inl ⟨hw, hm⟩)
      rw [act_write_enters d ha hw hm] at hs
      exact (h.enterW hd ha hw hm hu).write_entered d hd
        (by simpa [View.enterW, View.onChan, View.onMap] using ha) (by simp [View.enterW, View.onChan, View.onMap]) hs
  · rw [act_write_closed d ha] at hs
    cases hs
    exact ⟨v, rfl, h⟩

/-- A coroutine that was woken goes on. -/
theorem Inv.resume (h : Inv p v) {rest : List Tid}
    (hr : v.running = cur :: rest) (hc : v.cur = none)
    (hs : v.state.resume cur (v.cleared cur rest) = .ok s') : ∃ v', s' = v'.state ∧ Inv p v' := by
  have hn : cur ∉ rest := (List.nodup_cons.mp (hr ▸ h.threads.nodup)).1
  have hi := h.resumed hr hc
  have hdo : (v.resumed cur rest).doing cur = .runs := Function.update_self ..
  have hrun : cur ∈ v.running := by rw [hr]; exact List.mem_cons_self
  unfold State.resume at hs
  cases hd : v.doing cur with
  | self =>
    simp only [View.state, hd, cleared_self v hr hn hd] at hs
    cases hs
    exact ⟨v.resumed cur rest, rfl, hi⟩
  | reading c =>
    simp only [View.state, hd, readOn_world v hr hn hd] at hs
    by_cases ha : (v.chans c).active = false
    · rw [if_pos ha] at hs
      cases hs
      exact ⟨v.resumed cur rest, rfl, hi⟩
    · rw [if_neg ha] at hs
      cases hl : (v.chans c).list with
      -- the code takes the item that it was woken for without looking: an empty list is a failure
      | nil =>
        rw [hl] at hs
        cases hs
      | cons d list =>
        cases hw : (v.chans c).w with
        | none =>
          rw [hl, hw] at hs
          cases hs
        | some w =>
          rw [hl, hw] at hs
          cases hs
          have ha' : (v.chans c).active = true := by simpa using ha
          exact ⟨_, pop_state (v.resumed cur rest) c d list,
            hi.pop hdo ha' ((h.chan c).reader cur hd ha').1 hl⟩
  | writing c d =>
    simp only [View.state, hd, writeOn_world v hr hn hd] at hs
    by_cases ha : (v.chans c).active = false
    · rw [if_pos ha] at hs
      cases hs
      exact ⟨v.resumed cur rest, rfl, hi⟩
    · rw [if_neg ha] at hs
      cases hr' : (v.chans c).r with
      | none =>
        rw [hr'] at hs
        cases hs
      | some r =>
        rw [hr'] at hs
        cases hs
        have ha' : (v.chans c).active = true := by simpa using ha
        -- a writer is in the running list only while there is room
        obtain ⟨hw, hl⟩ := (h.chan c).writer cur d hd ha'
        exact ⟨_, push_state (v.resumed cur rest) c d, hi.push d hdo ha' hw fun h1 => (hl h1).1.mp hrun⟩
  | absent =>
    simp only [View.state, hd] at hs
    cases hs
  | dead =>
    simp only [View.state, hd] at hs
    cases hs
  | runs =>
    simp only [View.state, hd] at hs
    cases hs

/-- `close`. -/
theorem Inv.close (h : Inv p v) (c : ℕ) : ∃ v', v.world.close c = v'.world ∧ v'.doing = v.doing ∧
    v'.cur = v.cur ∧ v'.got = v.got ∧ v'.put = v.put ∧ Inv p v' := by
  rw [close_world]
  by_cases ha : (v.chans c).active = false
  · rw [if_pos ha]
    exact ⟨v, rfl, rfl, rfl, rfl, rfl, h⟩
  · rw [if_neg ha]
    have hi := h.shut (c := c) (by simpa using ha)
    obtain ⟨run, maps, hs⟩ := shut_eq v c
    rw [hs] at hi ⊢
    exact ⟨_, rfl, rfl, rfl, rfl, rfl, hi⟩

/-- The channels of a coroutine that ends. -/
theorem Inv.closes (order : List ℕ) :
    ∀ {v : View Tid α}, Inv p v → ∃ v', order.foldl World.close v.world = v'.world ∧
    v'.doing = v.doing ∧ v'.cur = v.cur ∧ v'.got = v.got ∧ v'.put = v.put ∧ Inv p v' := by
  induction order with
  | nil => exact fun h => ⟨_, rfl, rfl, rfl, rfl, rfl, h⟩
  | cons c order ih =>
    intro v h
    obtain ⟨u, hw, h1, h2, h3, h4, hi⟩ := h.close c
    obtain ⟨v', hw', h1', h2', h3', h4', hi'⟩ := ih hi
    refine ⟨v', ?_, h1'.trans h1, h2'.trans h2, h3'.trans h3, h4'.trans h4, hi'⟩
    rw [List.foldl_cons, hw, hw']

/-- A coroutine ends. -/
theorem threadClose_world (v : View Tid α) (order : List ℕ) (hd : v.doing cur = .runs) :
    v.world.threadClose cur order = .ok (order.foldl World.close (v.blocks cur .dead).world) := by
  have ha : (v.world.threads cur).timer = true ∧ (v.world.threads cur).mapped = true := by
    rw [world_threads, hd]
    exact ⟨rfl, rfl⟩
  unfold World.threadClose
  rw [if_neg (by rw [ha.1, ha.2]; simp), onThread_world v cur _ .dead (v.maps cur) (by rw [hd]; rfl)]
  rw [show (v.does cur .dead).onMap cur (fun _ => v.maps cur) = v.does cur .dead from
    onMap_same (v.does cur .dead) cur]
  rfl

/-- A coroutine that ends keeps the invariant. -/
theorem Inv.finish (h : Inv p v) (order : List ℕ) (hd : v.doing cur = .runs)
    (hs : v.state.act cur (.finish order) = .ok s') : ∃ v', s' = v'.state ∧ Inv p v' := by
  have hclose := threadClose_world v order hd
  simp only [State.act, View.state, hclose] at hs
  obtain ⟨v', hw, h1, h2, h3, h4, hi⟩ := (h.blocks hd (x := .dead) (by simp) (by simp)
    fun c => not_at (by simp [Doing.sig])).closes order
  refine ⟨v', ?_, hi⟩
  rw [hw] at hs
  cases hs
  rw [View.state, h1, h2, h3, h4]
  rfl

/-- A new coroutine keeps the invariant. -/
theorem Inv.go (h : Inv p v) {th : Tid} (hd : v.doing th = .absent) :
    ∃ v', { v.state with world := v.world.go th, doing := Function.update v.doing th .self } = v'.state ∧
      Inv p v' := by
  have hn : th ∉ v.running := fun hm => h.threads.waits th hm (by rw [hd]; rfl)
  have hb := (h.born hd).signal th
  have hgo : v.world.go th = ((v.does th .self).woken th (((v.does th .self).doing th).sig = .self)).world := by
    unfold World.go
    rw [onThread_world v th _ .self (v.maps th) (by rw [h.threads.absent th hd, decide_eq_false hn]; rfl),
      show (v.does th .self).onMap th (fun _ => v.maps th) = v.does th .self from onMap_same (v.does th .self) th,
      wakeupCommon_world _ th .self (by simp)]
  refine ⟨_, ?_, hb⟩
  rw [hgo]
  obtain ⟨run, hw⟩ := woken_eq (v.does th .self) th (((v.does th .self).doing th).sig = .self)
  rw [hw]
  rfl

/-- A wakeup keeps the invariant. -/
theorem Inv.wakeup (h : Inv p v) (th : Tid) :
    ∃ v', { v.state with world := v.world.wakeupCommon th .self } = v'.state ∧ Inv p v' := by
  have hi := h.signal th
  rw [wakeupCommon_world v th .self (by simp)]
  obtain ⟨run, hw⟩ := woken_eq v th ((v.doing th).sig = .self)
  rw [hw] at hi ⊢
  exact ⟨_, rfl, hi⟩

end

/-! ## Runs -/

/-- Every step keeps the invariant. -/
theorem Inv.step {p : Ends Tid} {v : View Tid α} {s' : State Tid α} {e : Event Tid α} (h : Inv p v)
    (hp : v.state.Possible e) (hu : p.Uses v.state e) (hs : v.state.step e = .ok s') :
    ∃ v', s' = v'.state ∧ Inv p v' := by
  cases e with
  | go th =>
    cases hs
    exact h.go hp
  | signal th =>
    cases hs
    exact h.wakeup th
  | newChan n =>
    cases hs
    exact ⟨v.newChan n, rfl, h.newChan hu⟩
  | close c =>
    cases hs
    obtain ⟨v', hw, h1, h2, h3, h4, hi⟩ := h.close c
    refine ⟨v', ?_, hi⟩
    rw [View.state, View.state, hw, h1, h2, h3, h4]
  | resume =>
    have hrun : v.state.world.running = v.running := rfl
    rw [State.step, hrun] at hs
    cases hr : v.running with
    | nil =>
      rw [hr] at hs
      cases hs
      exact ⟨v, rfl, h⟩
    | cons th rest =>
      rw [hr] at hs
      exact h.resume hr hp hs
  | read c =>
    obtain ⟨cur, hc⟩ := Option.ne_none_iff_exists'.mp hp
    -- the coroutine that runs is the end of the channel that it uses
    simp only [State.step, hc] at hs
    refine h.read ((h.threads.runs cur).mpr hc) (fun hk => ?_) hs
    exact Option.some_inj.mp (hc.symm.trans (hu hk))
  | write c d =>
    obtain ⟨cur, hc⟩ := Option.ne_none_iff_exists'.mp hp
    simp only [State.step, hc] at hs
    refine h.write d ((h.threads.runs cur).mpr hc) (fun hk => ?_) hs
    exact Option.some_inj.mp (hc.symm.trans (hu hk))
  | yield =>
    obtain ⟨cur, hc⟩ := Option.ne_none_iff_exists'.mp hp
    have hd := (h.threads.runs cur).mpr hc
    have hyield := yieldCommon_world v cur hd (h.threads.not_mem hd)
    simp only [State.step, hc] at hs
    simp only [State.act, View.state, hyield] at hs
    cases hs
    exact ⟨v.blocks cur .self, rfl, h.blocks hd (by simp) (by simp) fun c => not_at (by simp [Doing.sig])⟩
  | finish order =>
    obtain ⟨cur, hc, -⟩ := hp
    simp only [State.step, hc] at hs
    exact h.finish order ((h.threads.runs cur).mpr hc) hs

/-- In every run the coroutines are as the scheduler knows them. -/
theorem Ends.Reached.inv {p : Ends Tid} {s : State Tid α} (h : p.Reached s) :
    ∃ v, s = View.state v ∧ Inv p v := by
  induction h with
  | start =>
    refine ⟨⟨fun _ => .absent, fun _ => ∅, fun _ => ⟨false, 0, [], none, none, false⟩, [], 0, none,
      fun _ => [], fun _ => []⟩, rfl, ?_⟩
    refine ⟨fun c => ?_, ?_, ?_⟩
    · constructor <;> simp [Doing.At]
    · constructor <;> simp
    · constructor <;> simp [Doing.At]
  | step _ hp hu hs ih =>
    obtain ⟨v, rfl, hi⟩ := ih
    exact hi.step hp hu hs

/-! ## Nothing fails -/

/-- The two calls that may fail in a run fail at other channels. -/
theorem Inv.read_fails_elsewhere {p : Ends Tid} {v : View Tid α} (h : Inv p v) {cur : Tid} {c : ℕ}
    {f : Failure}
    (hd : v.doing cur = .runs) (hu : c = p.c → cur = p.reader) (hf : v.state.act cur (.read c) = .error f) :
    c ≠ p.c := by
  rintro rfl
  obtain rfl := hu rfl
  have hread : ∃ f, v.world.read p.reader p.c = .error f := by
    cases hr : v.world.read p.reader p.c with
    | error f => exact ⟨f, rfl⟩
    | ok r =>
      obtain ⟨went, w⟩ := r
      simp only [State.act, View.state, hr] at hf
      cases went <;> cases hf
  obtain ⟨f, hread⟩ := hread
  obtain ⟨ha, ⟨hn, hm⟩ | ⟨th, hth, hne⟩⟩ := read_error v hd (h.threads.not_mem hd) hread
  · obtain hr | hw := (h.ends.maps _ _).mp hm
    · rw [hn] at hr
      cases hr
    · exact p.apart (h.ends.writer _ hw)
  · exact hne (h.ends.reader th hth)

/-- A write to the channel looked at does not fail, as long as its writer writes. -/
theorem Inv.write_fails_elsewhere {p : Ends Tid} {v : View Tid α} (h : Inv p v) {cur : Tid} {c : ℕ}
    {d : α}
    {f : Failure} (hd : v.doing cur = .runs) (hu : c = p.c → cur = p.writer)
    (hf : v.state.act cur (.write c d) = .error f) : c ≠ p.c := by
  rintro rfl
  obtain rfl := hu rfl
  have hwrite : ∃ f, v.world.write p.writer p.c d = .error f := by
    cases hw : v.world.write p.writer p.c d with
    | error f => exact ⟨f, rfl⟩
    | ok r =>
      obtain ⟨went, w⟩ := r
      simp only [State.act, View.state, hw] at hf
      cases went <;> cases hf
  obtain ⟨f, hwrite⟩ := hwrite
  obtain ⟨ha, ⟨hn, hm⟩ | ⟨th, hth, hne⟩⟩ := write_error v hd (h.threads.not_mem hd) hwrite
  · obtain hr | hw := (h.ends.maps _ _).mp hm
    · exact p.apart (h.ends.reader _ hr).symm
    · rw [hn] at hw
      cases hw
  · exact hne (h.ends.writer th hth)

/-- A coroutine that was woken fails behind its yield at other channels only. -/
theorem Inv.resume_error {p : Ends Tid} {v : View Tid α} (h : Inv p v) {th : Tid} {rest : List Tid}
    {f : Failure}
    (hr : v.running = th :: rest) (hf : v.state.resume th (v.cleared th rest) = .error f) :
    ∃ k, v.state.at .resume = some k ∧ k ≠ p.c := by
  have hn : th ∉ rest := (List.nodup_cons.mp (hr ▸ h.threads.nodup)).1
  have hrun : th ∈ v.running := by rw [hr]; exact List.mem_cons_self
  have hat : ∀ c, (v.doing th).At c → v.state.at .resume = some c := by
    intro c hc
    have hr' : v.state.world.running = th :: rest := hr
    have hdo : v.state.doing th = v.doing th := rfl
    simp only [State.at, hr', hdo]
    obtain hc | ⟨d, hc⟩ := hc <;> rw [hc]
  unfold State.resume at hf
  cases hd : v.doing th with
  | self =>
    simp only [View.state, hd] at hf
    cases hf
  | reading c =>
    refine ⟨c, hat c (.inl hd), ?_⟩
    rintro rfl
    simp only [View.state, hd, readOn_world v hr hn hd] at hf
    by_cases ha : (v.chans p.c).active = false
    · rw [if_pos ha] at hf
      cases hf
    · rw [if_neg ha] at hf
      have ha' : (v.chans p.c).active = true := by simpa using ha
      have i := h.chan p.c
      -- at `p.c` a woken reader finds an item, and the writer that it came from
      have hl := ((i.reader th hd ha').2 (h.ends.room ha' ▸ p.room)).mp hrun
      obtain ⟨d, list, hl'⟩ := List.exists_cons_of_ne_nil hl
      obtain ⟨w, hw⟩ := Option.ne_none_iff_exists'.mp (i.source hl)
      rw [hl', hw] at hf
      cases hf
  | writing c d =>
    refine ⟨c, hat c (.inr ⟨d, hd⟩), ?_⟩
    rintro rfl
    simp only [View.state, hd, writeOn_world v hr hn hd] at hf
    by_cases ha : (v.chans p.c).active = false
    · rw [if_pos ha] at hf
      cases hf
    · rw [if_neg ha] at hf
      have ha' : (v.chans p.c).active = true := by simpa using ha
      -- and a woken writer finds a reader
      have hre := (((h.chan p.c).writer th d hd ha').2 (h.ends.room ha' ▸ p.room)).2 hrun
      obtain ⟨r, hr'⟩ := Option.ne_none_iff_exists'.mp hre
      rw [hr'] at hf
      cases hf
  | absent => exact absurd (by rw [hd]; rfl) (h.threads.waits th hrun)
  | dead => exact absurd (by rw [hd]; rfl) (h.threads.waits th hrun)
  | runs => exact absurd (by rw [hd]; rfl) (h.threads.waits th hrun)

/-- Where a step fails, it is at another channel. -/
theorem Inv.step_error {p : Ends Tid} {v : View Tid α} (h : Inv p v) {e : Event Tid α} {f : Failure}
    (hp : v.state.Possible e) (hu : p.Uses v.state e) (hf : v.state.step e = .error f) :
    ∃ k, v.state.at e = some k ∧ k ≠ p.c := by
  cases e with
  | go th => cases hf
  | signal th => cases hf
  | newChan n => cases hf
  | close c => cases hf
  | resume =>
    have hrun : v.state.world.running = v.running := rfl
    rw [State.step, hrun] at hf
    cases hr : v.running with
    | nil =>
      rw [hr] at hf
      cases hf
    | cons th rest =>
      rw [hr] at hf
      exact h.resume_error hr hf
  | read c =>
    obtain ⟨cur, hc⟩ := Option.ne_none_iff_exists'.mp hp
    simp only [State.step, hc] at hf
    refine ⟨c, rfl, h.read_fails_elsewhere ((h.threads.runs cur).mpr hc) (fun hk => ?_) hf⟩
    exact Option.some_inj.mp (hc.symm.trans (hu hk))
  | write c d =>
    obtain ⟨cur, hc⟩ := Option.ne_none_iff_exists'.mp hp
    simp only [State.step, hc] at hf
    refine ⟨c, rfl, h.write_fails_elsewhere ((h.threads.runs cur).mpr hc) (fun hk => ?_) hf⟩
    exact Option.some_inj.mp (hc.symm.trans (hu hk))
  | yield =>
    obtain ⟨cur, hc⟩ := Option.ne_none_iff_exists'.mp hp
    have hd := (h.threads.runs cur).mpr hc
    have hyield := yieldCommon_world v cur hd (h.threads.not_mem hd)
    simp only [State.step, hc] at hf
    simp only [State.act, View.state, hyield] at hf
    cases hf
  | finish order =>
    obtain ⟨cur, hc, -⟩ := hp
    have hclose := threadClose_world v order ((h.threads.runs cur).mpr hc)
    simp only [State.step, hc] at hf
    simp only [State.act, View.state, hclose] at hf
    cases hf

/-- The debug output does not fail. -/
theorem Inv.onDebug {p : Ends Tid} {v : View Tid α} (h : Inv p v) : v.world.OnDebug := by
  refine ⟨fun c hm => ⟨(h.chan c).mapped.symm.trans hm, fun r hr => ?_, fun w hw => ?_⟩, fun th hm => ⟨hm, fun c hc => ?_⟩⟩
  · exact (h.ends.maps r c).mpr (.inl hr)
  · exact (h.ends.maps w c).mpr (.inr hw)
  · exact (h.ends.maps th c).mp hc

/-- In every run the channel hands on what is written, in the order of the writes; it holds no
    more than `n` items, no assertion fails, a coroutine that waits at it and can proceed is in
    the running list, and no coroutine is there twice. -/
theorem channel_safe (p : Ends Tid) {s : State Tid α} (h : p.Reached s) :
    s.got p.c <+: s.put p.c ∧
      (s.world.chans p.c).list.length ≤ p.n ∧
      (∀ e f, s.Possible e → p.Uses s e → s.step e = .error f → ∃ k, s.at e = some k ∧ k ≠ p.c) ∧
      s.world.OnDebug ∧
      (∀ th, s.doing th = .reading p.c →
        (s.world.chans p.c).list ≠ [] ∨ (s.world.chans p.c).active = false → th ∈ s.world.running) ∧
      (∀ th d, s.doing th = .writing p.c d →
        (s.world.chans p.c).list.length < p.n ∨ (s.world.chans p.c).active = false → th ∈ s.world.running) ∧
      s.world.running.Nodup := by
  obtain ⟨v, rfl, hi⟩ := h.inv
  have i := hi.chan p.c
  refine ⟨i.got, ?_, fun e f hp hu hf => hi.step_error hp hu hf, hi.onDebug, ?_, ?_, hi.threads.nodup⟩
  · change (v.chans p.c).list.length ≤ p.n
    by_cases ha : (v.chans p.c).active = true
    · rw [← hi.ends.room ha]
      exact i.room (hi.ends.room ha ▸ p.room)
    · rw [(i.shut (by simpa using ha)).1]
      exact Nat.zero_le _
  · rintro th hth hcan
    by_cases ha : (v.chans p.c).active = true
    · exact ((i.reader th hth ha).2 (hi.ends.room ha ▸ p.room)).mpr (hcan.resolve_right (by simp [View.state, ha]))
    · exact i.woken th (.inl hth) (by simpa using ha)
  · rintro th d hth hcan
    by_cases ha : (v.chans p.c).active = true
    · have hlt := hcan.resolve_right (by simp [View.state, ha])
      rw [← hi.ends.room ha] at hlt
      exact ((i.writer th d hth ha).2 (hi.ends.room ha ▸ p.room)).1.mpr hlt
    · exact i.woken th (.inr ⟨d, hth⟩) (by simpa using ha)

/-- The reader waits, the writer writes an item, and the reader is in the running list. -/
theorem channel_safe_woken :
    ∃ s : State ℕ ℕ, s.doing 0 = .reading 1 ∧ (s.world.chans 1).list = [7] ∧ 0 ∈ s.world.running := by
  let p : Ends ℕ := ⟨1, 1, le_rfl, 0, 1, by decide⟩
  have h0 : p.Reached (State.start : State ℕ ℕ) := .start
  have h1 := h0.step (e := .go 0) rfl trivial rfl
  have h2 := h1.step (e := .go 1) rfl trivial rfl
  have h3 := h2.step (e := .newChan 1) trivial (fun _ => rfl) rfl
  have h4 := h3.step (e := .resume) rfl trivial rfl
  have h5 := h4.step (e := .read 1) (Option.some_ne_none 0) (fun _ => rfl) rfl
  have h6 := h5.step (e := .resume) rfl trivial rfl
  have h7 := h6.step (e := .write 1 7) (Option.some_ne_none 1) (fun _ => rfl) rfl
  obtain ⟨-, -, -, -, hw, -⟩ := channel_safe p h7
  exact ⟨_, rfl, rfl, hw 0 rfl (.inl (List.cons_ne_nil 7 []))⟩

end SkiSched
