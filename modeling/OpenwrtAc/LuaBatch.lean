/-
# The batches of `batch.lua`

Items emitted while the callback runs wait in the cache; the coroutine that runs the
callback goes on with them when it returns.  Between two points where a coroutine can
yield nothing else runs, so a coroutine at rest is either not yet started or inside the
callback.  The callback is not modelled: it may emit, and it may yield as often as it
likes, which other events in between stand for.
-/
import Mathlib.Data.List.Basic
import Mathlib.Logic.Function.Basic
import OpenwrtAc.LeadsTo

open LeadsTo

namespace LuaBatch

variable {α : Type}

/-- Where a coroutine that `emit` made is. -/
inductive Co (α : Type)
  | ready
  | calling (count : ℕ) (arr : List α)

/-- The object that `new` makes, the coroutines by the order they were made in, and what
was emitted and passed to the callback so far. -/
structure State (α : Type) where
  running : Bool
  cache : List α
  count : ℕ
  made : ℕ
  co : ℕ → Option (Co α)
  emitted : List α
  calls : List (ℕ × List α)

def new : State α :=
  ⟨false, [], 0, 0, fun _ => none, [], []⟩

/-- A `p` that is false or `nil` is counted only. -/
def State.emit (self : State α) (p : Option α) : State α :=
  let self := { self with
    count := self.count + 1
    cache := self.cache ++ p.toList
    emitted := self.emitted ++ p.toList }
  if self.running then
    self
  else
    { self with
      running := true
      made := self.made + 1
      co := Function.update self.co self.made (some .ready) }

/-- The coroutine from the test of a loop to its next call of the callback or to its end.
Where the inner loop ends nothing has happened when the outer one tests the same. -/
def State.turn (self : State α) (i : ℕ) : State α :=
  if 0 < self.count then
    { self with
      cache := []
      count := 0
      co := Function.update self.co i (some (.calling self.count self.cache))
      calls := self.calls ++ [(self.count, self.cache)] }
  else
    { self with running := false, co := Function.update self.co i none }

/-- `start` and `back` are the first resumption of a coroutine and the return of its
callback; `other` stands for everything that leaves the batch alone. -/
inductive Event (α : Type)
  | emit (p : Option α)
  | start (i : ℕ)
  | back (i : ℕ)
  | other

def State.step (s : State α) : Event α → Option (State α)
  | .emit p => some (s.emit p)
  | .start i =>
    match s.co i with
    | some .ready => some (s.turn i)
    | _ => none
  | .back i =>
    match s.co i with
    | some (.calling _ _) => some (s.turn i)
    | _ => none
  | .other => some s

/-- The items passed to the callback, in the order of the calls. -/
def State.delivered (s : State α) : List α :=
  s.calls.flatMap Prod.snd

def State.inCallback (s : State α) (i : ℕ) : Prop :=
  ∃ count arr, s.co i = some (.calling count arr)

/-! ## What a step can do -/

/-- A turn that calls the callback and one that ends the coroutine. -/
theorem turn_cases (s : State α) (i : ℕ) :
    (0 < s.count ∧ s.turn i =
      { s with
        cache := []
        count := 0
        co := Function.update s.co i (some (.calling s.count s.cache))
        calls := s.calls ++ [(s.count, s.cache)] }) ∨
    (s.count = 0 ∧ s.turn i = { s with running := false, co := Function.update s.co i none }) := by
  unfold State.turn
  split_ifs with h
  · exact .inl ⟨h, rfl⟩
  · exact .inr ⟨by omega, rfl⟩

/-- An emit that finds a coroutine running and one that starts one. -/
theorem emit_cases (s : State α) (p : Option α) :
    (s.running = true ∧ s.emit p =
      { s with
        count := s.count + 1
        cache := s.cache ++ p.toList
        emitted := s.emitted ++ p.toList }) ∨
    (¬ s.running = true ∧ s.emit p =
      { s with
        count := s.count + 1
        cache := s.cache ++ p.toList
        emitted := s.emitted ++ p.toList
        running := true
        made := s.made + 1
        co := Function.update s.co s.made (some .ready) }) := by
  by_cases h : s.running = true
  · exact .inl ⟨h, if_pos h⟩
  · exact .inr ⟨h, if_neg h⟩

/-- What each event does to the state. -/
theorem step_cases {s s' : State α} {e : Event α} (h : s.step e = some s') :
    (∃ p, e = .emit p ∧ s' = s.emit p) ∨
    (∃ i, e = .start i ∧ s.co i = some .ready ∧ s' = s.turn i) ∨
    (∃ i, e = .back i ∧ s.inCallback i ∧ s' = s.turn i) ∨
    (e = .other ∧ s' = s) := by
  cases e with
  | emit p => exact .inl ⟨p, rfl, (Option.some.inj h).symm⟩
  | start i =>
    simp only [State.step] at h
    split at h
    next hi => exact .inr (.inl ⟨i, rfl, hi, (Option.some.inj h).symm⟩)
    next => cases h
  | back i =>
    simp only [State.step] at h
    split at h
    next n arr hi => exact .inr (.inr (.inl ⟨i, rfl, ⟨n, arr, hi⟩, (Option.some.inj h).symm⟩))
    next => cases h
  | other => exact .inr (.inr (.inr ⟨rfl, (Option.some.inj h).symm⟩))

/-! ## The invariant -/

/-- A coroutine is there exactly while `running` is set, and then only one; what is not
delivered yet is in the cache and counted. -/
structure Inv (s : State α) : Prop where
  one : ∀ i j, s.co i ≠ none → s.co j ≠ none → i = j
  running : s.running = true ↔ ∃ i, s.co i ≠ none
  counted : s.cache.length ≤ s.count
  /-- An emit that finds no coroutine starts one. -/
  waits : 0 < s.count → s.running = true
  /-- A coroutine is started by an emit. -/
  begun : ∀ i, s.co i = some .ready → 0 < s.count
  delivered : s.delivered ++ s.cache = s.emitted

/-- The invariant of a new batch. -/
theorem inv_new : Inv (new : State α) where
  one := fun _ _ hi => absurd rfl hi
  running := ⟨nofun, fun ⟨_, hi⟩ => absurd rfl hi⟩
  counted := le_rfl
  waits := fun h => absurd h (lt_irrefl 0)
  begun := nofun
  delivered := rfl

/-- An emit keeps the invariant. -/
theorem Inv.emit {s : State α} (h : Inv s) (p : Option α) : Inv (s.emit p) := by
  have hcount : (s.cache ++ p.toList).length ≤ s.count + 1 := by
    have hp : p.toList.length ≤ 1 := by cases p <;> simp
    have := h.counted
    rw [List.length_append]
    omega
  have hdel : s.delivered ++ (s.cache ++ p.toList) = s.emitted ++ p.toList := by
    rw [← List.append_assoc, h.delivered]
  obtain ⟨hr, he⟩ | ⟨hr, he⟩ := emit_cases s p
  · rw [he]
    exact ⟨h.one, h.running, hcount, fun _ => hr, fun _ _ => Nat.succ_pos _, hdel⟩
  · have hnone : ∀ i, s.co i = none := fun i => by
      by_contra hi
      exact hr (h.running.mpr ⟨i, hi⟩)
    have honly : ∀ i, Function.update s.co s.made (some .ready) i ≠ none → i = s.made := by
      intro i hi
      by_contra hne
      exact hi (by rw [Function.update_of_ne hne]; exact hnone i)
    rw [he]
    refine ⟨fun i j hi hj => (honly i hi).trans (honly j hj).symm, ?_, hcount, fun _ => rfl,
      fun _ _ => Nat.succ_pos _, hdel⟩
    exact ⟨fun _ => ⟨s.made, by simp⟩, fun _ => rfl⟩

/-- A turn of a worker keeps the invariant. -/
theorem Inv.turn {s : State α} (h : Inv s) {i : ℕ} (hi : s.co i ≠ none) : Inv (s.turn i) := by
  have hr : s.running = true := h.running.mpr ⟨i, hi⟩
  have honly : ∀ (x : Option (Co α)) j, Function.update s.co i x j ≠ none → j = i := by
    intro x j hj
    by_contra hne
    rw [Function.update_of_ne hne] at hj
    exact hne (h.one j i hj hi)
  rcases turn_cases s i with ⟨hc, he⟩ | ⟨hc, he⟩
  · rw [he]
    refine ⟨fun a b ha hb => (honly _ a ha).trans (honly _ b hb).symm, ?_, le_rfl,
      fun h0 => absurd h0 (lt_irrefl 0), ?_, ?_⟩
    · exact ⟨fun _ => ⟨i, by simp⟩, fun _ => hr⟩
    · intro j hj
      change Function.update s.co i _ j = some .ready at hj
      obtain rfl : j = i := honly _ j (by rw [hj]; exact Option.some_ne_none _)
      rw [Function.update_self] at hj
      cases hj
    · show (s.calls ++ [(s.count, s.cache)]).flatMap Prod.snd ++ [] = s.emitted
      rw [List.append_nil, List.flatMap_append, List.flatMap_singleton]
      exact h.delivered
  · rw [he]
    have hnone : ∀ j, Function.update s.co i none j = none := by
      intro j
      by_contra hj
      obtain rfl := honly _ j hj
      exact hj (Function.update_self ..)
    refine ⟨fun a b ha => absurd (hnone a) ha, ⟨nofun, ?_⟩, h.counted, ?_, ?_, h.delivered⟩
    · rintro ⟨j, hj⟩
      exact absurd (hnone j) hj
    · intro h0
      exact absurd hc (Nat.pos_iff_ne_zero.mp h0)
    · intro j hj
      exact absurd ((hnone j).symm.trans hj) nofun

/-- Every event keeps the invariant. -/
theorem Inv.step {s s' : State α} (h : Inv s) {e : Event α} (hs : s.step e = some s') :
    Inv s' := by
  obtain ⟨p, -, rfl⟩ | ⟨i, -, hi, rfl⟩ | ⟨i, -, ⟨n, arr, hi⟩, rfl⟩ | ⟨-, rfl⟩ := step_cases hs
  · exact h.emit p
  · exact h.turn (by rw [hi]; exact Option.some_ne_none _)
  · exact h.turn (by rw [hi]; exact Option.some_ne_none _)
  · exact h

/-- A worker that starts or comes back takes its turn. -/
theorem step_turn {s s' : State α} {e : Event α} {i : ℕ} (hs : s.step e = some s')
    (he : e = .start i ∨ e = .back i) : s' = s.turn i := by
  obtain ⟨p, rfl, -⟩ | ⟨j, rfl, -, rfl⟩ | ⟨j, rfl, -, rfl⟩ | ⟨rfl, -⟩ := step_cases hs
  · rcases he with he | he <;> cases he
  · rcases he with he | he <;> cases he
    rfl
  · rcases he with he | he <;> cases he
    rfl
  · rcases he with he | he <;> cases he

/-- A turn emits nothing. -/
theorem turn_emitted (s : State α) (i : ℕ) : (s.turn i).emitted = s.emitted := by
  rcases turn_cases s i with ⟨-, he⟩ | ⟨-, he⟩ <;> rw [he]

/-- An emit adds its item, if it has one. -/
theorem emit_emitted (s : State α) (p : Option α) :
    (s.emit p).emitted = s.emitted ++ p.toList := by
  rcases emit_cases s p with ⟨-, he⟩ | ⟨-, he⟩ <;> rw [he]

/-- The item waits in the cache. -/
theorem emit_cache (s : State α) (p : Option α) :
    (s.emit p).cache = s.cache ++ p.toList := by
  rcases emit_cases s p with ⟨-, he⟩ | ⟨-, he⟩ <;> rw [he]

/-- Where a worker runs already, none is started. -/
theorem emit_co_of_running {s : State α} (hr : s.running = true) (p : Option α) :
    (s.emit p).co = s.co := by
  rcases emit_cases s p with ⟨-, he⟩ | ⟨hne, -⟩
  · rw [he]
  · exact absurd hr hne

/-- An emit begins and ends no call of the callback. -/
theorem Inv.emit_calling {s : State α} (h : Inv s) (p : Option α) {i n : ℕ} {arr : List α} :
    (s.emit p).co i = some (.calling n arr) ↔ s.co i = some (.calling n arr) := by
  rcases emit_cases s p with ⟨-, he⟩ | ⟨hr, he⟩
  · rw [he]
  · have hnone : s.co i = none := by
      by_contra hi
      exact hr (h.running.mpr ⟨i, hi⟩)
    rw [he, hnone]
    show Function.update s.co s.made (some .ready) i = _ ↔ _
    by_cases hi : i = s.made
    · rw [hi, Function.update_self]
      exact ⟨nofun, nofun⟩
    · rw [Function.update_of_ne hi, hnone]

/-- What was emitted before a step was emitted behind it too. -/
theorem emitted_prefix {s s' : State α} {e : Event α} (hs : s.step e = some s') :
    s.emitted <+: s'.emitted := by
  obtain ⟨p, -, rfl⟩ | ⟨i, -, -, rfl⟩ | ⟨i, -, -, rfl⟩ | ⟨-, rfl⟩ := step_cases hs
  · rw [emit_emitted]
    exact List.prefix_append _ _
  · exact (turn_emitted s i).symm ▸ List.prefix_rfl
  · exact (turn_emitted s i).symm ▸ List.prefix_rfl
  · exact List.prefix_rfl

/-! ## Runs -/

/-- An infinite run; one that stops goes on with `other`. -/
structure Run (σ : ℕ → State α) (ev : ℕ → Event α) : Prop where
  init : σ 0 = new
  step : ∀ n, (σ n).step (ev n) = some (σ (n + 1))

/-- The scheduler runs what is ready, and the callback returns in the end. -/
structure Fair (σ : ℕ → State α) (ev : ℕ → Event α) : Prop where
  started : ∀ n i, (σ n).co i = some .ready → ∃ k, n ≤ k ∧ ev k = .start i
  returns : ∀ n i, (σ n).inCallback i → ∃ k, n ≤ k ∧ ev k = .back i

variable {σ : ℕ → State α} {ev : ℕ → Event α}

/-- The invariant holds along a run. -/
theorem Run.inv (h : Run σ ev) (n : ℕ) : Inv (σ n) := by
  induction n with
  | zero =>
    rw [h.init]
    exact inv_new
  | succ n ih => exact ih.step (h.step n)

/-- Along a run the items emitted only grow. -/
theorem Run.emitted_prefix (h : Run σ ev) {n m : ℕ} (hnm : n ≤ m) :
    (σ n).emitted <+: (σ m).emitted := by
  induction m, hnm using Nat.le_induction with
  | base => exact List.prefix_rfl
  | succ m _ ih => exact ih.trans (LuaBatch.emitted_prefix (h.step m))

/-- The count is the number of the items that wait, and each call has got the number of its
items. -/
def Counted (s : State α) : Prop :=
  s.count = s.cache.length ∧ ∀ call ∈ s.calls, call.1 = call.2.length

/-- An emitted item is counted. -/
theorem Counted.emit {s : State α} (h : Counted s) (x : α) : Counted (s.emit (some x)) := by
  obtain ⟨hcount, hcalls⟩ := h
  have hlen : s.count + 1 = (s.cache ++ [x]).length := by
    rw [List.length_append, hcount, List.length_singleton]
  rcases emit_cases s (some x) with ⟨-, he⟩ | ⟨-, he⟩
  · rw [he]
    exact ⟨hlen, hcalls⟩
  · rw [he]
    exact ⟨hlen, hcalls⟩

/-- A turn keeps the count. -/
theorem Counted.turn {s : State α} (h : Counted s) (i : ℕ) : Counted (s.turn i) := by
  obtain ⟨hcount, hcalls⟩ := h
  rcases turn_cases s i with ⟨-, he⟩ | ⟨-, he⟩
  · rw [he]
    refine ⟨rfl, fun call hc => ?_⟩
    rcases List.mem_append.mp hc with hc | hc
    · exact hcalls call hc
    · rw [List.mem_singleton.mp hc]
      exact hcount
  · rw [he]
    exact ⟨hcount, hcalls⟩

/-- Every event keeps the count, as long as each emit has an item. -/
theorem Counted.step {s s' : State α} {e : Event α} (h : Counted s) (hp : e ≠ .emit none)
    (hs : s.step e = some s') : Counted s' := by
  obtain ⟨p, rfl, rfl⟩ | ⟨i, -, -, rfl⟩ | ⟨i, -, -, rfl⟩ | ⟨-, rfl⟩ := step_cases hs
  · obtain ⟨x, rfl⟩ := Option.ne_none_iff_exists'.mp fun hnone => hp (hnone ▸ rfl)
    exact h.emit x
  · exact h.turn i
  · exact h.turn i
  · exact h

/-- Where only items are emitted the callback gets their number. -/
theorem Run.count_eq (h : Run σ ev) (hp : ∀ n, ev n ≠ .emit none) (n : ℕ) :
    (σ n).count = (σ n).cache.length ∧ ∀ call ∈ (σ n).calls, call.1 = call.2.length := by
  induction n with
  | zero =>
    rw [h.init]
    exact ⟨rfl, nofun⟩
  | succ n ih => exact Counted.step ih (hp n) (h.step n)

/-- A turn that finds something counted passes all that waits to the callback. -/
theorem Inv.turn_delivers {s : State α} (h : Inv s) (hc : 0 < s.count) (i : ℕ) :
    (s.turn i).delivered = s.emitted := by
  rcases turn_cases s i with ⟨-, he⟩ | ⟨h0, -⟩
  · rw [he, ← h.delivered]
    show (s.calls ++ [(s.count, s.cache)]).flatMap Prod.snd = _
    rw [List.flatMap_append, List.flatMap_singleton]
    rfl
  · omega

/-- While something waits, the coroutine stays where it is until its turn comes. -/
theorem Inv.stays {s s' : State α} (h : Inv s) {e : Event α} (hs : s.step e = some s')
    {i k : ℕ} {c : Co α} (hi : s.co i = some c) (hk : k < s.emitted.length)
    (hc : 0 < s.count) :
    (s'.co i = some c ∧ k < s'.emitted.length ∧ 0 < s'.count) ∨ k < s'.delivered.length := by
  have hsome : s.co i ≠ none := by
    rw [hi]
    exact Option.some_ne_none _
  have hturn : ∀ j, k < (s.turn j).delivered.length := by
    intro j
    rwa [h.turn_delivers hc j]
  obtain ⟨p, -, rfl⟩ | ⟨j, -, -, rfl⟩ | ⟨j, -, -, rfl⟩ | ⟨-, rfl⟩ := step_cases hs
  · have hr : s.running = true := h.running.mpr ⟨i, hsome⟩
    have he := ((emit_cases s p).resolve_right fun hne => hne.1 hr).2
    rw [he]
    refine .inl ⟨hi, ?_, Nat.succ_pos _⟩
    rw [List.length_append]
    omega
  · exact .inr (hturn j)
  · exact .inr (hturn j)
  · exact .inl ⟨hi, hk, hc⟩

/-- What was emitted gets to the callback. -/
theorem Run.delivers (h : Run σ ev) (hf : Fair σ ev) (k : ℕ) :
    Leads σ (fun s => k < s.emitted.length) (fun s => k < s.delivered.length) := by
  intro n hn
  by_cases hd : k < (σ n).delivered.length
  · exact ⟨n, le_rfl, hd⟩
  have hinv := h.inv n
  -- the item is in the cache, so it is counted and a coroutine is there for it
  have hlen : (σ n).delivered.length + (σ n).cache.length = (σ n).emitted.length := by
    rw [← List.length_append, hinv.delivered]
  have hc : 0 < (σ n).count := by
    have := hinv.counted
    omega
  obtain ⟨i, hi⟩ := hinv.running.mp (hinv.waits hc)
  obtain ⟨c, hi⟩ := Option.ne_none_iff_exists'.mp hi
  have hleads : Leads σ (fun s => s.co i = some c ∧ k < s.emitted.length ∧ 0 < s.count)
      (fun s => k < s.delivered.length) := by
    apply leads_of_step
    · intro m hm
      exact (h.inv m).stays (h.step m) hm.1 hm.2.1 hm.2.2
    · intro m hm
      have hev : ∃ j, m ≤ j ∧ (ev j = .start i ∨ ev j = .back i) := by
        cases c with
        | ready =>
          obtain ⟨j, hj, hev⟩ := hf.started m i hm.1
          exact ⟨j, hj, .inl hev⟩
        | calling count arr =>
          obtain ⟨j, hj, hev⟩ := hf.returns m i ⟨count, arr, hm.1⟩
          exact ⟨j, hj, .inr hev⟩
      obtain ⟨j, hj, hev⟩ := hev
      refine ⟨j, hj, fun hP => ?_⟩
      have hturn := (h.inv j).turn_delivers hP.2.2 i
      rw [step_turn (h.step j) hev, hturn]
      exact hP.2.1
  exact hleads n ⟨hi, hn, hc⟩

/-- In every run no two calls of the callback overlap, and the items of the calls, in
order, and then those that wait are the items emitted.  Where the scheduler is fair and
the callback returns, the `k`-th item emitted becomes the `k`-th item passed. -/
theorem delivery (h : Run σ ev) :
    (∀ n i j, (σ n).inCallback i → (σ n).inCallback j → i = j) ∧
    (∀ n, (σ n).delivered ++ (σ n).cache = (σ n).emitted) ∧
    (Fair σ ev → ∀ (n k : ℕ) (x : α), (σ n).emitted[k]? = some x →
      ∃ m, n ≤ m ∧ (σ m).delivered[k]? = some x) := by
  refine ⟨?_, fun n => (h.inv n).delivered, ?_⟩
  · rintro n i j ⟨_, _, hi⟩ ⟨_, _, hj⟩
    exact (h.inv n).one i j (by rw [hi]; exact Option.some_ne_none _)
      (by rw [hj]; exact Option.some_ne_none _)
  · intro hf n k x hx
    obtain ⟨hk, -⟩ := List.getElem?_eq_some_iff.mp hx
    obtain ⟨m, hnm, hm⟩ := h.delivers hf k n hk
    refine ⟨m, hnm, ?_⟩
    have hall : (σ m).emitted[k]? = some x := by
      obtain ⟨t, ht⟩ := h.emitted_prefix hnm
      rw [← ht, List.getElem?_append_left hk, hx]
    rwa [← (h.inv m).delivered, List.getElem?_append_left hm] at hall

/-- While the callback has the first item two others are emitted, which it gets together when
it returns; the last item finds no coroutine running and starts another one. -/
def sampleEvents : ℕ → Event ℕ
  | 0 => .emit (some 7)
  | 1 => .start 0
  | 2 => .emit (some 8)
  | 3 => .emit (some 9)
  | 4 => .back 0
  | 5 => .back 0
  | 6 => .emit (some 10)
  | 7 => .start 1
  | 8 => .back 1
  | _ => .other

def sampleStates : ℕ → State ℕ
  | 0 => new
  | n + 1 => ((sampleStates n).step (sampleEvents n)).getD (sampleStates n)

/-- The sample is a run. -/
theorem sample_run : Run sampleStates sampleEvents where
  init := rfl
  step := fun
    | 0 => rfl
    | 1 => rfl
    | 2 => rfl
    | 3 => rfl
    | 4 => rfl
    | 5 => rfl
    | 6 => rfl
    | 7 => rfl
    | 8 => rfl
    | _ + 9 => rfl

/-- From the ninth event on nothing happens in it. -/
theorem sample_end (n : ℕ) : sampleStates (n + 9) = sampleStates 9 := by
  induction n with
  | zero => rfl
  | succ n ih => exact ih

/-- A coroutine that is there is the one that is known to be. -/
theorem sample_one {n i j : ℕ} {c c' : Co ℕ} (h : (sampleStates n).co i = some c)
    (hj : (sampleStates n).co j = some c') : i = j ∧ c = c' := by
  have hne {k : ℕ} {d : Co ℕ} (hk : (sampleStates n).co k = some d) :
      (sampleStates n).co k ≠ none := by
    rw [hk]
    exact Option.some_ne_none d
  obtain rfl := (sample_run.inv n).one i j (hne h) (hne hj)
  exact ⟨rfl, Option.some.inj (h.symm.trans hj)⟩

/-- Where `running` is not set there is none. -/
theorem sample_idle {n i : ℕ} {c : Co ℕ} (h : (sampleStates n).co i = some c)
    (hr : (sampleStates n).running = false) : False := by
  have hrun := (sample_run.inv n).running.mpr ⟨i, by rw [h]; exact Option.some_ne_none c⟩
  rw [hr] at hrun
  cases hrun

/-- Where a coroutine is, and until when. -/
theorem sample_co {n i : ℕ} {c : Co ℕ} (h : (sampleStates n).co i = some c) :
    ∃ m, n ≤ m ∧ ((c = .ready ∧ sampleEvents m = .start i) ∨ sampleEvents m = .back i ∧
      c ≠ .ready) := by
  match n with
  | 0 => cases h
  | 1 =>
    obtain ⟨rfl, rfl⟩ := sample_one h (j := 0) rfl
    exact ⟨1, by decide, .inl ⟨rfl, rfl⟩⟩
  | 2 | 3 | 4 =>
    obtain ⟨rfl, rfl⟩ := sample_one h (j := 0) rfl
    exact ⟨4, by decide, .inr ⟨rfl, by rintro ⟨⟩⟩⟩
  | 5 =>
    obtain ⟨rfl, rfl⟩ := sample_one h (j := 0) rfl
    exact ⟨5, by decide, .inr ⟨rfl, by rintro ⟨⟩⟩⟩
  | 6 => exact (sample_idle h rfl).elim
  | 7 =>
    obtain ⟨rfl, rfl⟩ := sample_one h (j := 1) rfl
    exact ⟨7, by decide, .inl ⟨rfl, rfl⟩⟩
  | 8 =>
    obtain ⟨rfl, rfl⟩ := sample_one h (j := 1) rfl
    exact ⟨8, by decide, .inr ⟨rfl, by rintro ⟨⟩⟩⟩
  | n + 9 =>
    rw [sample_end] at h
    exact (sample_idle h rfl).elim

/-- The sample is fair. -/
theorem sample_fair : Fair sampleStates sampleEvents where
  started := by
    intro n i hi
    obtain ⟨m, hm, ⟨-, hev⟩ | ⟨-, hne⟩⟩ := sample_co hi
    · exact ⟨m, hm, hev⟩
    · exact absurd rfl hne
  returns := by
    rintro n i ⟨count, arr, hi⟩
    obtain ⟨m, hm, ⟨hc, -⟩ | ⟨hev, -⟩⟩ := sample_co hi
    · cases hc
    · exact ⟨m, hm, hev⟩

theorem delivery_sample :
    (sampleStates 9).calls = [(1, [7]), (2, [8, 9]), (1, [10])] ∧
    (∀ n i j, (sampleStates n).inCallback i → (sampleStates n).inCallback j → i = j) ∧
    (∀ n, (sampleStates n).delivered ++ (sampleStates n).cache = (sampleStates n).emitted) ∧
    ∀ (n k : ℕ) (x : ℕ), (sampleStates n).emitted[k]? = some x →
      ∃ m, n ≤ m ∧ (sampleStates m).delivered[k]? = some x :=
  ⟨rfl, (delivery sample_run).1, (delivery sample_run).2.1,
    (delivery sample_run).2.2 sample_fair⟩

end LuaBatch
