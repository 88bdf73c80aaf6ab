/-
# Temporary bypass (`authd/cache.lua`)

A client that is let through for a while is marked by its mac, and an entry with its
deadline goes into a batch.  `on_bypass_timeout` goes through a batch in order and sleeps
until the deadline of the entry that it is at has passed; then the client is set offline
if its mac is marked.  A time is in milliseconds, a bypass lasts 20 seconds.
-/
import OpenwrtAc.LuaBatch

open LeadsTo

namespace AuthBypass

open LuaBatch (Co Inv Run Fair)

variable {Mac : Type} [DecidableEq Mac]

structure Entry (Mac : Type) where
  deadline : ℕ
  uid : ℕ
  magic : ℕ
  mac : Mac
  deriving DecidableEq

/-- What is done to clients. -/
inductive Act (Mac : Type)
  | bypassed (mac : Mac) (uid magic time : ℕ)
  | cancelled (mac : Mac)
  | offline (mac : Mac) (uid magic time : ℕ)
  deriving DecidableEq

def Act.mac : Act Mac → Mac
  | .bypassed mac _ _ _ => mac
  | .cancelled mac => mac
  | .offline mac _ _ _ => mac

/-- The time, `bypass_wait_map`, the batch with the index of each call of
`on_bypass_timeout`, how many entries the calls have gone past, and what was done. -/
structure State (Mac : Type) where
  now : ℕ
  wait : Mac → Bool
  batch : LuaBatch.State (Entry Mac)
  idx : ℕ → ℕ
  past : ℕ
  log : List (Act Mac)

def init : State Mac :=
  ⟨0, fun _ => false, LuaBatch.new, fun _ => 0, 0, []⟩

/-- `bypass`, where the kernel has taken `user_set_bypass`; else nothing is changed. -/
def State.bypass (s : State Mac) (mac : Mac) (uid magic : ℕ) : State Mac :=
  { s with
    wait := Function.update s.wait mac true
    batch := s.batch.emit (some ⟨s.now + 20000, uid, magic, mac⟩)
    log := s.log ++ [.bypassed mac uid magic s.now] }

/-- `bypass_cancel`. -/
def State.cancel (s : State Mac) (mac : Mac) : State Mac :=
  { s with wait := Function.update s.wait mac false, log := s.log ++ [.cancelled mac] }

/-- The coroutine `i` goes on in its batch, where a call begins with its first entry. -/
def State.turn (s : State Mac) (i : ℕ) : State Mac :=
  { s with batch := s.batch.turn i, idx := Function.update s.idx i 0 }

/-- What the loop of `on_bypass_timeout` does with an entry whose deadline has passed. -/
def State.pass (s : State Mac) (i : ℕ) (r : Entry Mac) : State Mac :=
  let s := { s with idx := Function.update s.idx i (s.idx i + 1), past := s.past + 1 }
  if s.wait r.mac then
    { s with
      wait := Function.update s.wait r.mac false
      log := s.log ++ [.offline r.mac r.uid r.magic s.now] }
  else
    s

/-- One round of the loop of `on_bypass_timeout`, or its return. -/
def State.work (s : State Mac) (i : ℕ) (arr : List (Entry Mac)) : State Mac :=
  match arr[s.idx i]? with
  | none => s.turn i
  | some r => if s.now ≤ r.deadline then s else s.pass i r

/-- `work` is a round of the loop in the coroutine `i`, also behind a sleep. -/
inductive Event (Mac : Type)
  | bypass (mac : Mac) (uid magic : ℕ)
  | cancel (mac : Mac)
  | tick (now : ℕ)
  | start (i : ℕ)
  | work (i : ℕ)

def State.step (s : State Mac) : Event Mac → Option (State Mac)
  | .bypass mac uid magic => some (s.bypass mac uid magic)
  | .cancel mac => some (s.cancel mac)
  | .tick now => if s.now ≤ now then some { s with now } else none
  | .start i =>
    match s.batch.co i with
    | some .ready => some (s.turn i)
    | _ => none
  | .work i =>
    match s.batch.co i with
    | some (.calling _ arr) => some (s.work i arr)
    | _ => none

/-- The entries emitted that no call has gone past. -/
def State.queue (s : State Mac) : List (Entry Mac) :=
  s.batch.emitted.drop s.past

/-- What was done to a client. -/
def State.acts (s : State Mac) (mac : Mac) : List (Act Mac) :=
  s.log.filter fun a => a.mac = mac

/-- The entries of a client that no call has gone past. -/
def State.pending (s : State Mac) (mac : Mac) : List (Entry Mac) :=
  s.queue.filter fun r => r.mac = mac

/-! ## What a step can do -/

/-- A call of the worker ends its batch, finds the entry still early, or handles an entry that is
due. -/
theorem work_cases (s : State Mac) (i : ℕ) (arr : List (Entry Mac)) :
    (arr[s.idx i]? = none ∧ s.work i arr = s.turn i) ∨
    (∃ r, arr[s.idx i]? = some r ∧ s.now ≤ r.deadline ∧ s.work i arr = s) ∨
    (∃ r, arr[s.idx i]? = some r ∧ r.deadline < s.now ∧ s.work i arr = s.pass i r) := by
  unfold State.work
  cases arr[s.idx i]? with
  | none => exact .inl ⟨rfl, rfl⟩
  | some r =>
    by_cases h : s.now ≤ r.deadline
    · exact .inr (.inl ⟨r, rfl, h, if_pos h⟩)
    · exact .inr (.inr ⟨r, rfl, not_le.mp h, if_neg h⟩)

/-- An entry that is due is skipped, or its mac waits and goes offline. -/
theorem pass_cases (s : State Mac) (i : ℕ) (r : Entry Mac) :
    (s.wait r.mac = true ∧ s.pass i r =
      { s with
        idx := Function.update s.idx i (s.idx i + 1)
        past := s.past + 1
        wait := Function.update s.wait r.mac false
        log := s.log ++ [.offline r.mac r.uid r.magic s.now] }) ∨
    (s.wait r.mac = false ∧ s.pass i r =
      { s with idx := Function.update s.idx i (s.idx i + 1), past := s.past + 1 }) := by
  unfold State.pass
  by_cases h : s.wait r.mac = true
  · exact .inl ⟨h, if_pos h⟩
  · exact .inr ⟨Bool.eq_false_iff.mpr h, if_neg h⟩

/-- What each event does to the state. -/
theorem step_cases {s s' : State Mac} {e : Event Mac} (h : s.step e = some s') :
    (∃ mac uid magic, e = .bypass mac uid magic ∧ s' = s.bypass mac uid magic) ∨
    (∃ mac, e = .cancel mac ∧ s' = s.cancel mac) ∨
    (∃ now, e = .tick now ∧ s.now ≤ now ∧ s' = { s with now }) ∨
    (∃ i, e = .start i ∧ s.batch.co i = some .ready ∧ s' = s.turn i) ∨
    (∃ i count arr, e = .work i ∧ s.batch.co i = some (.calling count arr) ∧
      s' = s.work i arr) := by
  cases e with
  | bypass mac uid magic => exact .inl ⟨mac, uid, magic, rfl, (Option.some.inj h).symm⟩
  | cancel mac => exact .inr (.inl ⟨mac, rfl, (Option.some.inj h).symm⟩)
  | tick now =>
    simp only [State.step] at h
    split_ifs at h with hle
    exact .inr (.inr (.inl ⟨now, rfl, hle, (Option.some.inj h).symm⟩))
  | start i =>
    simp only [State.step] at h
    split at h
    next hi => exact .inr (.inr (.inr (.inl ⟨i, rfl, hi, (Option.some.inj h).symm⟩)))
    next => cases h
  | work i =>
    simp only [State.step] at h
    split at h
    next n arr hi =>
      exact .inr (.inr (.inr (.inr ⟨i, n, arr, rfl, hi, (Option.some.inj h).symm⟩)))
    next => cases h

/-! ## What the batch has -/

/-- What the calls have not gone past is the rest of the batch that one is at and what
waits in the cache. -/
structure Queued (s : State Mac) : Prop where
  batch : Inv s.batch
  past_le : s.past ≤ s.batch.emitted.length
  calling : ∀ i count arr, s.batch.co i = some (.calling count arr) →
    s.idx i ≤ arr.length ∧ s.queue = arr.drop (s.idx i) ++ s.batch.cache
  idle : (∀ i, ¬ s.batch.inCallback i) → s.queue = s.batch.cache

omit [DecidableEq Mac] in
/-- The start, with nothing queued. -/
theorem queued_init : Queued (init : State Mac) where
  batch := LuaBatch.inv_new
  past_le := le_rfl
  calling := nofun
  idle := fun _ => rfl

omit [DecidableEq Mac] in
/-- The end of a batch takes nothing from the queue. -/
theorem queue_turn (s : State Mac) (i : ℕ) : (s.turn i).queue = s.queue :=
  congrArg (List.drop s.past) (LuaBatch.turn_emitted s.batch i)

/-- A bypass puts its entry behind the queue. -/
theorem Queued.queue_bypass {s : State Mac} (h : Queued s) (mac : Mac) (uid magic : ℕ) :
    (s.bypass mac uid magic).queue = s.queue ++ [⟨s.now + 20000, uid, magic, mac⟩] := by
  show (s.batch.emit _).emitted.drop s.past = _
  rw [LuaBatch.emit_emitted]
  exact List.drop_append_of_le_length h.past_le

/-- A bypass keeps the queue in the order of the deadlines. -/
theorem Queued.bypass {s : State Mac} (h : Queued s) (mac : Mac) (uid magic : ℕ) :
    Queued (s.bypass mac uid magic) where
  batch := h.batch.emit _
  past_le := by
    show s.past ≤ (s.batch.emit _).emitted.length
    rw [LuaBatch.emit_emitted, List.length_append]
    exact h.past_le.trans (Nat.le_add_right _ _)
  calling := by
    intro i count arr hi
    obtain ⟨hle, hq⟩ := h.calling i count arr ((h.batch.emit_calling _).mp hi)
    refine ⟨hle, ?_⟩
    show _ = arr.drop (s.idx i) ++ (s.batch.emit _).cache
    rw [h.queue_bypass, hq, LuaBatch.emit_cache, List.append_assoc]
    rfl
  idle := by
    intro hidle
    show _ = (s.batch.emit _).cache
    rw [h.queue_bypass, LuaBatch.emit_cache, h.idle]
    · rfl
    · rintro i ⟨count, arr, hi⟩
      exact hidle i ⟨count, arr, (h.batch.emit_calling _).mpr hi⟩

omit [DecidableEq Mac] in
/-- A coroutine goes on when nothing is left of what it was at. -/
theorem Queued.turn {s : State Mac} (h : Queued s) {i : ℕ} (hi : s.batch.co i ≠ none)
    (hq : s.queue = s.batch.cache) : Queued (s.turn i) := by
  have hinv := h.batch.turn hi
  refine ⟨hinv, ?_, ?_, ?_⟩
  · show s.past ≤ (s.batch.turn i).emitted.length
    rw [LuaBatch.turn_emitted]
    exact h.past_le
  · intro j count arr hj
    change (s.batch.turn i).co j = _ at hj
    rw [queue_turn, hq]
    show Function.update s.idx i 0 j ≤ _ ∧
      _ = arr.drop (Function.update s.idx i 0 j) ++ (s.batch.turn i).cache
    obtain ⟨-, he⟩ | ⟨-, he⟩ := LuaBatch.turn_cases s.batch i
    · rw [he] at hj ⊢
      change Function.update s.batch.co i _ j = _ at hj
      by_cases hji : j = i
      · subst hji
        rw [Function.update_self] at hj ⊢
        cases hj
        exact ⟨Nat.zero_le _, (List.append_nil _).symm⟩
      · rw [Function.update_of_ne hji] at hj
        exact absurd (h.batch.one j i (by rw [hj]; exact Option.some_ne_none _) hi) hji
    · rw [he] at hj
      change Function.update s.batch.co i _ j = _ at hj
      by_cases hji : j = i
      · rw [hji, Function.update_self] at hj
        cases hj
      · rw [Function.update_of_ne hji] at hj
        exact absurd (h.batch.one j i (by rw [hj]; exact Option.some_ne_none _) hi) hji
  · intro hidle
    rw [queue_turn, hq]
    show s.batch.cache = (s.batch.turn i).cache
    obtain ⟨-, he⟩ | ⟨-, he⟩ := LuaBatch.turn_cases s.batch i
    · refine absurd ⟨s.batch.count, s.batch.cache, ?_⟩ (hidle i)
      show (s.batch.turn i).co i = _
      rw [he]
      exact Function.update_self ..
    · rw [he]

omit [DecidableEq Mac] in
/-- The entry that a call is at is the first of those not gone past. -/
theorem Queued.queue_cons {s : State Mac} (h : Queued s) {i count : ℕ}
    {arr : List (Entry Mac)} (hi : s.batch.co i = some (.calling count arr)) {r : Entry Mac}
    (hr : arr[s.idx i]? = some r) :
    s.queue = r :: (arr.drop (s.idx i + 1) ++ s.batch.cache) := by
  obtain ⟨hlt, rfl⟩ := List.getElem?_eq_some_iff.mp hr
  rw [(h.calling i count arr hi).2, List.drop_eq_getElem_cons hlt]
  rfl

/-- A handled entry leaves the queue. -/
theorem queue_pass (s : State Mac) (i : ℕ) (r : Entry Mac) :
    (s.pass i r).queue = s.queue.tail := by
  have htail : s.batch.emitted.drop (s.past + 1) = s.queue.tail := by
    rw [State.queue, List.tail_drop]
  rcases pass_cases s i r with ⟨-, he⟩ | ⟨-, he⟩ <;> rw [he] <;> exact htail

/-- Handling the head of the queue keeps the order. -/
theorem Queued.pass {s : State Mac} (h : Queued s) {i count : ℕ}
    {arr : List (Entry Mac)} (hi : s.batch.co i = some (.calling count arr)) {r : Entry Mac}
    (hr : arr[s.idx i]? = some r) : Queued (s.pass i r) := by
  have hq := h.queue_cons hi hr
  have hlt : s.past < s.batch.emitted.length := by
    have hlen := congrArg List.length hq
    rw [State.queue, List.length_drop, List.length_cons] at hlen
    omega
  have hlen : s.idx i < arr.length := (List.getElem?_eq_some_iff.mp hr).1
  have hpass : (s.pass i r).batch = s.batch ∧ (s.pass i r).past = s.past + 1 ∧
      (s.pass i r).idx = Function.update s.idx i (s.idx i + 1) := by
    rcases pass_cases s i r with ⟨-, he⟩ | ⟨-, he⟩ <;> rw [he] <;> exact ⟨rfl, rfl, rfl⟩
  obtain ⟨hbatch, hpast, hidx⟩ := hpass
  refine ⟨by rw [hbatch]; exact h.batch, by rw [hbatch, hpast]; exact hlt, ?_, ?_⟩
  · intro j count' arr' hj
    rw [hbatch] at hj
    obtain rfl : j = i := h.batch.one j i (by rw [hj]; exact Option.some_ne_none _)
      (by rw [hi]; exact Option.some_ne_none _)
    rw [hi] at hj
    cases hj
    rw [queue_pass, hq, hidx, hbatch, Function.update_self]
    exact ⟨hlen, rfl⟩
  · intro hidle
    rw [hbatch] at hidle
    exact absurd ⟨count, arr, hi⟩ (hidle i)

/-- Every event keeps the queue. -/
theorem Queued.step {s s' : State Mac} (h : Queued s) {e : Event Mac}
    (hs : s.step e = some s') : Queued s' := by
  obtain ⟨mac, uid, magic, -, rfl⟩ | ⟨mac, -, rfl⟩ | ⟨now, -, -, rfl⟩ | ⟨i, -, hi, rfl⟩ |
    ⟨i, count, arr, -, hi, rfl⟩ := step_cases hs
  · exact h.bypass mac uid magic
  · exact ⟨h.batch, h.past_le, h.calling, h.idle⟩
  · exact ⟨h.batch, h.past_le, h.calling, h.idle⟩
  · have hne : s.batch.co i ≠ none := by
      rw [hi]
      exact Option.some_ne_none _
    refine h.turn hne (h.idle ?_)
    rintro j ⟨count, arr, hj⟩
    obtain rfl := h.batch.one j i (by rw [hj]; exact Option.some_ne_none _) hne
    rw [hi] at hj
    cases hj
  · obtain ⟨hnone, he⟩ | ⟨r, -, -, he⟩ | ⟨r, hr, -, he⟩ := work_cases s i arr
    · rw [he]
      refine h.turn (by rw [hi]; exact Option.some_ne_none _) ?_
      rw [(h.calling i count arr hi).2,
        List.drop_of_length_le (List.getElem?_eq_none_iff.mp hnone), List.nil_append]
    · rw [he]
      exact h
    · rw [he]
      exact h.pass hi hr

/-! ## What was done to a client -/

/-- Each time the client was set offline it was just behind a bypass, among the things done
to it, with the same numbers and at least 20 seconds later. -/
def Timely (mac : Mac) (acts : List (Act Mac)) : Prop :=
  ∀ pre uid magic t post, acts = pre ++ .offline mac uid magic t :: post →
    ∃ pre' t₀, pre = pre' ++ [.bypassed mac uid magic t₀] ∧ t₀ + 20000 ≤ t

/-- The last thing done to the client is a bypass. -/
def EndsBypassed (mac : Mac) (acts : List (Act Mac)) : Prop :=
  ∃ pre uid magic t, acts = pre ++ [.bypassed mac uid magic t]

omit [DecidableEq Mac] in
/-- An action that has its bypass twenty seconds before it extends a timely log. -/
theorem timely_append {mac : Mac} {acts : List (Act Mac)} (h : Timely mac acts) {a : Act Mac}
    (ha : ∀ uid magic t, a = .offline mac uid magic t →
      ∃ pre t₀, acts = pre ++ [.bypassed mac uid magic t₀] ∧ t₀ + 20000 ≤ t) :
    Timely mac (acts ++ [a]) := by
  intro pre uid magic t post heq
  rcases List.eq_nil_or_concat post with rfl | ⟨post, b, rfl⟩
  · obtain ⟨rfl, hlast⟩ := List.append_inj' heq rfl
    exact ha uid magic t (List.cons.inj hlast).1
  · have heq' : acts ++ [a] = (pre ++ .offline mac uid magic t :: post) ++ [b] := by
      rw [heq, List.concat_eq_append, List.append_assoc]
      rfl
    exact h pre uid magic t post (List.append_inj' heq' rfl).1

/-- What the mark of a client tells: with a mark, the last thing done to it is a bypass
whose entry is the only one that is not gone past; without, it is none. -/
structure Marked (s : State Mac) (mac : Mac) : Prop where
  timely : Timely mac (s.acts mac)
  waiting : s.wait mac = true → ∃ pre uid magic t,
    s.acts mac = pre ++ [.bypassed mac uid magic t] ∧
      s.pending mac = [⟨t + 20000, uid, magic, mac⟩]
  quiet : s.wait mac = false → ¬ EndsBypassed mac (s.acts mac)

/-- At the start no mac is marked. -/
theorem marked_init (mac : Mac) : Marked (init : State Mac) mac where
  timely := by
    intro pre uid magic t post h
    exact absurd h.symm (by simp [State.acts, init])
  waiting := nofun
  quiet := by
    rintro - ⟨pre, uid, magic, t, h⟩
    exact absurd h.symm (by simp [State.acts, init])

/-- What one more action adds to the log of a mac. -/
theorem acts_append (s : State Mac) (log : List (Act Mac)) (a : Act Mac) (mac : Mac)
    (h : log = s.log ++ [a]) :
    log.filter (fun a => a.mac = mac) = if a.mac = mac then s.acts mac ++ [a] else s.acts mac := by
  rw [h, List.filter_append, State.acts]
  split_ifs with ha
  · rw [List.filter_cons_of_pos (by simpa using ha), List.filter_nil]
  · rw [List.filter_cons_of_neg (by simpa using ha), List.filter_nil, List.append_nil]

/-- What is done to other clients changes nothing for a client. -/
theorem Marked.of_eq {s s' : State Mac} {mac : Mac} (h : Marked s mac)
    (hacts : s'.acts mac = s.acts mac) (hwait : s'.wait mac = s.wait mac)
    (hpending : s'.pending mac = s.pending mac) : Marked s' mac :=
  ⟨hacts ▸ h.timely, by rw [hacts, hwait, hpending]; exact h.waiting,
    by rw [hacts, hwait]; exact h.quiet⟩

/-- A bypass of a client for which no entry is left. -/
theorem Marked.bypass {s : State Mac} (hq : Queued s) {mac' : Mac} (h : Marked s mac')
    {mac : Mac} (hnone : s.pending mac = []) (uid magic : ℕ) :
    Marked (s.bypass mac uid magic) mac' := by
  have hacts : (s.bypass mac uid magic).acts mac' =
      if mac = mac' then s.acts mac' ++ [.bypassed mac uid magic s.now] else s.acts mac' :=
    acts_append s _ (.bypassed mac uid magic s.now) mac' rfl
  have hpending : (s.bypass mac uid magic).pending mac' =
      s.pending mac' ++ if mac = mac' then [⟨s.now + 20000, uid, magic, mac⟩] else [] := by
    rw [State.pending, hq.queue_bypass, List.filter_append, State.pending]
    congr 1
    by_cases hm : mac = mac'
    · rw [if_pos hm, List.filter_cons_of_pos (by simpa using hm), List.filter_nil]
    · rw [if_neg hm, List.filter_cons_of_neg (by simpa using hm), List.filter_nil]
  by_cases hm : mac = mac'
  · subst hm
    rw [if_pos rfl] at hpending
    rw [if_pos rfl] at hacts
    have hwait : (s.bypass mac uid magic).wait mac = true := Function.update_self ..
    refine ⟨?_, fun _ => ?_, fun hw => ?_⟩
    · rw [hacts]
      exact timely_append h.timely nofun
    · refine ⟨s.acts mac, uid, magic, s.now, hacts, ?_⟩
      rw [hpending, hnone]
      rfl
    · rw [hwait] at hw
      cases hw
  · rw [if_neg hm] at hacts
    rw [if_neg hm, List.append_nil] at hpending
    exact h.of_eq hacts (Function.update_of_ne (Ne.symm hm) ..) hpending

/-- Dropping a mark keeps the invariant of every mac. -/
theorem Marked.cancel {s : State Mac} {mac' : Mac} (h : Marked s mac') (mac : Mac) :
    Marked (s.cancel mac) mac' := by
  have hacts : (s.cancel mac).acts mac' =
      if mac = mac' then s.acts mac' ++ [.cancelled mac] else s.acts mac' :=
    acts_append s _ (.cancelled mac) mac' rfl
  by_cases hm : mac = mac'
  · subst hm
    rw [if_pos rfl] at hacts
    have hwait : (s.cancel mac).wait mac = false := Function.update_self ..
    refine ⟨?_, fun hw => ?_, fun _ => ?_⟩
    · rw [hacts]
      exact timely_append h.timely nofun
    · rw [hwait] at hw
      cases hw
    · rintro ⟨pre, uid, magic, t, hend⟩
      rw [hacts] at hend
      cases (List.append_inj' hend rfl).2
  · rw [if_neg hm] at hacts
    exact h.of_eq hacts (Function.update_of_ne (Ne.symm hm) ..) rfl

/-- Going past the first entry, whose deadline has passed. -/
theorem Marked.pass {s : State Mac} {mac' : Mac} (h : ∀ mac, Marked s mac) {i : ℕ}
    {r : Entry Mac} {rest : List (Entry Mac)} (hqueue : s.queue = r :: rest)
    (hlate : r.deadline < s.now) : Marked (s.pass i r) mac' := by
  have hpending : (s.pass i r).pending mac' = rest.filter fun r => r.mac = mac' := by
    rw [State.pending, queue_pass, hqueue]
    rfl
  have hold : s.pending mac' = if r.mac = mac' then r :: rest.filter fun r => r.mac = mac'
      else rest.filter fun r => r.mac = mac' := by
    rw [State.pending, hqueue, List.filter_cons]
    simp only [decide_eq_true_eq]
  obtain ⟨hw, he⟩ | ⟨hw, he⟩ := pass_cases s i r
  · have hacts : (s.pass i r).acts mac' = if r.mac = mac'
        then s.acts mac' ++ [.offline r.mac r.uid r.magic s.now] else s.acts mac' := by
      rw [he]
      exact acts_append s _ (.offline r.mac r.uid r.magic s.now) mac' rfl
    by_cases hm : r.mac = mac'
    · subst hm
      obtain ⟨pre, uid, magic, t, hends, hone⟩ := (h r.mac).waiting hw
      rw [hold, if_pos rfl] at hone
      obtain ⟨hr, -⟩ := List.cons.inj hone
      rw [if_pos rfl] at hacts
      have hwait : (s.pass i r).wait r.mac = false := by
        rw [he]
        exact Function.update_self ..
      refine ⟨?_, fun hw => ?_, fun _ => ?_⟩
      · rw [hacts]
        refine timely_append (h r.mac).timely fun uid' magic' t' ha => ?_
        cases ha
        refine ⟨pre, t, ?_, ?_⟩
        · rw [hends, hr]
        · rw [hr] at hlate
          exact hlate.le
      · rw [hwait] at hw
        cases hw
      · rintro ⟨pre', uid', magic', t', hend⟩
        rw [hacts] at hend
        cases (List.append_inj' hend rfl).2
    · rw [if_neg hm] at hacts hold
      refine (h mac').of_eq hacts ?_ (hpending.trans hold.symm)
      rw [he]
      exact Function.update_of_ne (Ne.symm hm) ..
  · have hacts : (s.pass i r).acts mac' = s.acts mac' := by
      rw [he]
      rfl
    have hwait : (s.pass i r).wait mac' = s.wait mac' := by rw [he]
    by_cases hm : r.mac = mac'
    · -- an entry of a client that was cancelled
      subst hm
      refine ⟨hacts ▸ (h r.mac).timely, fun hw' => ?_, fun _ => ?_⟩
      · rw [hwait, hw] at hw'
        cases hw'
      · rw [hacts]
        exact (h r.mac).quiet hw
    · rw [if_neg hm] at hold
      exact (h mac').of_eq hacts hwait (hpending.trans hold.symm)

/-- A client is bypassed when no entry of an earlier bypass of it is left. -/
def NoneLeft (s : State Mac) : Event Mac → Prop
  | .bypass mac _ _ => s.pending mac = []
  | _ => True

/-- Every event keeps the marks, where none is left behind. -/
theorem marked_step {s s' : State Mac} (hq : Queued s) (h : ∀ mac, Marked s mac)
    {e : Event Mac} (he : NoneLeft s e) (hs : s.step e = some s') (mac : Mac) :
    Marked s' mac := by
  obtain ⟨mac', uid, magic, rfl, rfl⟩ | ⟨mac', -, rfl⟩ | ⟨now, -, -, rfl⟩ | ⟨i, -, -, rfl⟩ |
    ⟨i, count, arr, -, hi, rfl⟩ := step_cases hs
  · exact (h mac).bypass hq he uid magic
  · exact (h mac).cancel mac'
  · exact (h mac).of_eq rfl rfl rfl
  · exact (h mac).of_eq rfl rfl (by rw [State.pending, queue_turn]; rfl)
  · obtain ⟨-, he⟩ | ⟨r, -, -, he⟩ | ⟨r, hr, hlate, he⟩ := work_cases s i arr
    · rw [he]
      exact (h mac).of_eq rfl rfl (by rw [State.pending, queue_turn]; rfl)
    · rw [he]
      exact h mac
    · rw [he]
      exact Marked.pass h (hq.queue_cons hi hr) hlate

/-- The states of the runs whose steps all meet `P`. -/
inductive Reached (P : State Mac → Event Mac → Prop) : State Mac → Prop
  | init : Reached P init
  | step {s s' : State Mac} {e : Event Mac} (h : Reached P s) (hP : P s e)
      (hs : s.step e = some s') : Reached P s'

/-- The queue of every reached state. -/
theorem Reached.queued {P : State Mac → Event Mac → Prop} {s : State Mac} (h : Reached P s) :
    Queued s := by
  induction h with
  | init => exact queued_init
  | step _ _ hs ih => exact ih.step hs

/-- The marks of every state reached under the condition. -/
theorem Reached.marked {s : State Mac} (h : Reached NoneLeft s) (mac : Mac) : Marked s mac := by
  induction h generalizing mac with
  | init => exact marked_init mac
  | step h hP hs ih => exact marked_step h.queued ih hP hs mac

/-! ## Entries and bypasses -/

/-- The entry of a bypass. -/
def Act.entry : Act Mac → Option (Entry Mac)
  | .bypassed mac uid magic t => some ⟨t + 20000, uid, magic, mac⟩
  | _ => none

/-- The log only grows. -/
theorem log_prefix {s s' : State Mac} {e : Event Mac} (hs : s.step e = some s') :
    s.log <+: s'.log := by
  obtain ⟨mac, uid, magic, -, rfl⟩ | ⟨mac, -, rfl⟩ | ⟨now, -, -, rfl⟩ | ⟨i, -, -, rfl⟩ |
    ⟨i, count, arr, -, hi, rfl⟩ := step_cases hs
  · exact List.prefix_append _ _
  · exact List.prefix_append _ _
  · exact List.prefix_rfl
  · exact List.prefix_rfl
  · obtain ⟨-, he⟩ | ⟨r, -, -, he⟩ | ⟨r, -, -, he⟩ := work_cases s i arr
    · exact ⟨[], (List.append_nil _).trans (congrArg State.log he).symm⟩
    · exact ⟨[], (List.append_nil _).trans (congrArg State.log he).symm⟩
    · obtain ⟨-, hpass⟩ | ⟨-, hpass⟩ := pass_cases s i r
      · rw [he, hpass]
        exact List.prefix_append _ _
      · exact ⟨[], (List.append_nil _).trans (congrArg State.log (he.trans hpass)).symm⟩

/-- The clock does not run back. -/
theorem now_mono {s s' : State Mac} {e : Event Mac} (hs : s.step e = some s') :
    s.now ≤ s'.now := by
  obtain ⟨mac, uid, magic, -, rfl⟩ | ⟨mac, -, rfl⟩ | ⟨now, -, hle, rfl⟩ | ⟨i, -, -, rfl⟩ |
    ⟨i, count, arr, -, hi, rfl⟩ := step_cases hs
  · exact le_rfl
  · exact le_rfl
  · exact hle
  · exact le_rfl
  · obtain ⟨-, he⟩ | ⟨r, -, -, he⟩ | ⟨r, -, -, he⟩ := work_cases s i arr
    · rw [he]
      exact le_rfl
    · rw [he]
    · rw [he]
      rcases pass_cases s i r with ⟨-, he⟩ | ⟨-, he⟩ <;> rw [he]

/-- What the batch was given is what the log records as bypassed. -/
theorem emitted_step {s s' : State Mac} {e : Event Mac} (hs : s.step e = some s')
    (h : s.batch.emitted = s.log.filterMap Act.entry) :
    s'.batch.emitted = s'.log.filterMap Act.entry := by
  have hturn : ∀ i, (s.turn i).batch.emitted = (s.turn i).log.filterMap Act.entry := by
    intro i
    show (s.batch.turn i).emitted = s.log.filterMap Act.entry
    rw [LuaBatch.turn_emitted, h]
  obtain ⟨mac, uid, magic, -, rfl⟩ | ⟨mac, -, rfl⟩ | ⟨now, -, -, rfl⟩ | ⟨i, -, -, rfl⟩ |
    ⟨i, count, arr, -, hi, rfl⟩ := step_cases hs
  · show (s.batch.emit _).emitted = (s.log ++ [_]).filterMap Act.entry
    rw [LuaBatch.emit_emitted, List.filterMap_append, h]
    rfl
  · show s.batch.emitted = (s.log ++ [_]).filterMap Act.entry
    rw [List.filterMap_append, h]
    exact (List.append_nil _).symm
  · exact h
  · exact hturn i
  · obtain ⟨-, he⟩ | ⟨r, -, -, he⟩ | ⟨r, -, -, he⟩ := work_cases s i arr
    · rw [he]
      exact hturn i
    · rw [he]
      exact h
    · rw [he]
      rcases pass_cases s i r with ⟨-, he⟩ | ⟨-, he⟩ <;> rw [he]
      · show s.batch.emitted = (s.log ++ [_]).filterMap Act.entry
        rw [List.filterMap_append, h]
        exact (List.append_nil _).symm
      · exact h

/-- The entries emitted for a client are those of its bypasses. -/
theorem emitted_filter {s : State Mac} (h : s.batch.emitted = s.log.filterMap Act.entry)
    (mac : Mac) :
    s.batch.emitted.filter (fun r => r.mac = mac) = (s.acts mac).filterMap Act.entry := by
  rw [h, List.filter_filterMap, State.acts, List.filterMap_filter]
  congr 1
  funext a
  cases a with
  | bypassed mac' uid magic t =>
    by_cases hm : mac' = mac
    · simp [Act.entry, Act.mac, hm]
    · simp [Act.entry, Act.mac, hm]
  | cancelled mac' => simp [Act.entry]
  | offline mac' uid magic t => simp [Act.entry]

/-- In every reached state the batch was given what the log records. -/
theorem Reached.emitted {P : State Mac → Event Mac → Prop} {s : State Mac} (h : Reached P s) :
    s.batch.emitted = s.log.filterMap Act.entry := by
  induction h with
  | init => rfl
  | step _ _ hs ih => exact emitted_step hs ih

/-! ## Infinite runs -/

/-- An infinite run; one that stops goes on with the time. -/
structure Run (P : State Mac → Event Mac → Prop) (σ : ℕ → State Mac) (ev : ℕ → Event Mac) :
    Prop where
  init : σ 0 = init
  allowed : ∀ n, P (σ n) (ev n)
  step : ∀ n, (σ n).step (ev n) = some (σ (n + 1))

/-- The scheduler runs what is ready and what has slept, and time goes on. -/
structure Fair (σ : ℕ → State Mac) (ev : ℕ → Event Mac) : Prop where
  started : ∀ n i, (σ n).batch.co i = some .ready → ∃ k, n ≤ k ∧ ev k = .start i
  works : ∀ n i, (σ n).batch.inCallback i → ∃ k, n ≤ k ∧ ev k = .work i
  time : ∀ n t, ∃ k, n ≤ k ∧ t ≤ (σ k).now

section Run

variable {P : State Mac → Event Mac → Prop} {σ : ℕ → State Mac} {ev : ℕ → Event Mac}

/-- Every state of a run is reached. -/
theorem Run.reached (h : Run P σ ev) (n : ℕ) : Reached P (σ n) := by
  induction n with
  | zero =>
    rw [h.init]
    exact .init
  | succ n ih => exact .step ih (h.allowed n) (h.step n)

/-- Along a run the log only grows. -/
theorem Run.log_prefix (h : Run P σ ev) {n m : ℕ} (hnm : n ≤ m) :
    (σ n).log <+: (σ m).log := by
  induction m, hnm using Nat.le_induction with
  | base => exact List.prefix_rfl
  | succ m _ ih => exact ih.trans (AuthBypass.log_prefix (h.step m))

/-- Along a run the batch is only given more. -/
theorem Run.emitted_prefix (h : Run P σ ev) {n m : ℕ} (hnm : n ≤ m) :
    (σ n).batch.emitted <+: (σ m).batch.emitted := by
  obtain ⟨t, ht⟩ := h.log_prefix hnm
  rw [(h.reached n).emitted, (h.reached m).emitted, ← ht, List.filterMap_append]
  exact List.prefix_append _ _

/-- Along a run the clock does not go back. -/
theorem Run.now_mono (h : Run P σ ev) {n m : ℕ} (hnm : n ≤ m) : (σ n).now ≤ (σ m).now := by
  induction m, hnm using Nat.le_induction with
  | base => exact le_rfl
  | succ m _ ih => exact ih.trans (AuthBypass.now_mono (h.step m))

/-! ### Going past an entry -/

/-- The next entry to go past is the `d`-th. -/
def Next (d : ℕ) (s : State Mac) : Prop :=
  s.past = d ∧ d < s.batch.emitted.length

/-- A call is at the `d`-th entry. -/
def AtEntry (d : ℕ) (s : State Mac) : Prop :=
  Next d s ∧ ∃ i count arr, s.batch.co i = some (.calling count arr) ∧ s.idx i < arr.length

omit [DecidableEq Mac] in
/-- An entry that is next stands in the queue. -/
theorem Next.queue_ne {d : ℕ} {s : State Mac} (h : Next d s) : s.queue ≠ [] := by
  intro hnil
  have hlen := congrArg List.length hnil
  rw [State.queue, List.length_drop, List.length_nil] at hlen
  obtain ⟨hpast, hlt⟩ := h
  omega

omit [DecidableEq Mac] in
/-- A coroutine that goes on finds the entries that wait. -/
theorem Next.turn {d : ℕ} {s : State Mac} (h : Next d s) (hq : Queued s) {i : ℕ}
    (hcache : s.queue = s.batch.cache) : AtEntry d (s.turn i) := by
  have hne : s.batch.cache ≠ [] := hcache ▸ h.queue_ne
  have hpos := List.length_pos_iff.mpr hne
  have hcount := hq.batch.counted
  refine ⟨⟨h.1, ?_⟩, i, s.batch.count, s.batch.cache, ?_, ?_⟩
  · show d < (s.batch.turn i).emitted.length
    rw [LuaBatch.turn_emitted]
    exact h.2
  · show (s.batch.turn i).co i = _
    obtain ⟨-, he⟩ | ⟨h0, -⟩ := LuaBatch.turn_cases s.batch i
    · rw [he]
      exact Function.update_self ..
    · omega
  · show Function.update s.idx i 0 i < _
    rw [Function.update_self]
    exact hpos

/-- A further bypass leaves the next entry next. -/
theorem Next.bypass {d : ℕ} {s : State Mac} (h : Next d s) (mac : Mac) (uid magic : ℕ) :
    Next d (s.bypass mac uid magic) := by
  refine ⟨h.1, ?_⟩
  show d < (s.batch.emit _).emitted.length
  rw [LuaBatch.emit_emitted, List.length_append]
  exact h.2.trans_le (Nat.le_add_right _ _)

/-- What a step leaves of a coroutine whose turn it is not. -/
theorem co_step {s s' : State Mac} (hq : Queued s) {e : Event Mac} (hs : s.step e = some s')
    {i : ℕ} {c : Co (Entry Mac)} (hi : s.batch.co i = some c) {d : ℕ} (h : Next d s) :
    (s'.batch.co i = some c ∧ s'.idx i = s.idx i ∧ Next d s') ∨
    (c = .ready ∧ s' = s.turn i) ∨
    ∃ count arr, c = .calling count arr ∧ s' = s.work i arr := by
  have hne : ∀ {j c'}, s.batch.co j = some c' → j = i := fun {j c'} hj =>
    hq.batch.one j i (by rw [hj]; exact Option.some_ne_none _)
      (by rw [hi]; exact Option.some_ne_none _)
  obtain ⟨mac, uid, magic, -, rfl⟩ | ⟨mac, -, rfl⟩ | ⟨now, -, -, rfl⟩ | ⟨j, -, hj, rfl⟩ |
    ⟨j, count, arr, -, hj, rfl⟩ := step_cases hs
  · refine .inl ⟨?_, rfl, h.bypass mac uid magic⟩
    have hr : s.batch.running = true :=
      hq.batch.running.mpr ⟨i, by rw [hi]; exact Option.some_ne_none _⟩
    show (s.batch.emit _).co i = some c
    rw [LuaBatch.emit_co_of_running hr]
    exact hi
  · exact .inl ⟨hi, rfl, h⟩
  · exact .inl ⟨hi, rfl, h⟩
  · obtain rfl := hne hj
    rw [hi] at hj
    exact .inr (.inl ⟨Option.some.inj hj, rfl⟩)
  · obtain rfl := hne hj
    rw [hi] at hj
    exact .inr (.inr ⟨count, arr, Option.some.inj hj, rfl⟩)

/-- A coroutine that is ready comes to be at the next entry. -/
theorem leads_of_ready (h : Run P σ ev) (hf : Fair σ ev) (d i : ℕ) :
    Leads σ (fun s => s.batch.co i = some .ready ∧ Next d s) (AtEntry d) := by
  have hturn : ∀ n, (σ n).batch.co i = some .ready → Next d (σ n) →
      AtEntry d ((σ n).turn i) := by
    intro n hi hnext
    have hq := (h.reached n).queued
    refine hnext.turn hq (hq.idle ?_)
    rintro j ⟨count, arr, hj⟩
    obtain rfl := hq.batch.one j i (by rw [hj]; exact Option.some_ne_none _)
      (by rw [hi]; exact Option.some_ne_none _)
    rw [hi] at hj
    cases hj
  apply leads_of_step
  · rintro n ⟨hi, hnext⟩
    obtain ⟨hi', -, hnext'⟩ | ⟨-, he⟩ | ⟨count, arr, hc, -⟩ :=
      co_step (h.reached n).queued (h.step n) hi hnext
    · exact .inl ⟨hi', hnext'⟩
    · rw [he]
      exact .inr (hturn n hi hnext)
    · cases hc
  · rintro n ⟨hi, -⟩
    obtain ⟨k, hk, hev⟩ := hf.started n i hi
    refine ⟨k, hk, fun hP => ?_⟩
    have hs := h.step k
    rw [hev, State.step, hP.1] at hs
    rw [← Option.some.inj hs]
    exact hturn k hP.1 hP.2

/-- A call that has gone past its whole batch returns, and the next one is at the entry. -/
theorem leads_of_ended (h : Run P σ ev) (hf : Fair σ ev) (d i count : ℕ)
    (arr : List (Entry Mac)) :
    Leads σ (fun s => s.batch.co i = some (.calling count arr) ∧ arr[s.idx i]? = none ∧ Next d s)
      (AtEntry d) := by
  have hwork : ∀ n, (σ n).batch.co i = some (.calling count arr) → arr[(σ n).idx i]? = none →
      Next d (σ n) → AtEntry d ((σ n).work i arr) := by
    intro n hi hnone hnext
    have hq := (h.reached n).queued
    have he : (σ n).work i arr = (σ n).turn i := by rw [State.work, hnone]
    rw [he]
    refine hnext.turn hq ?_
    rw [(hq.calling i count arr hi).2,
      List.drop_of_length_le (List.getElem?_eq_none_iff.mp hnone), List.nil_append]
  apply leads_of_step
  · rintro n ⟨hi, hnone, hnext⟩
    obtain ⟨hi', hidx, hnext'⟩ | ⟨hc, -⟩ | ⟨count', arr', hc, he⟩ :=
      co_step (h.reached n).queued (h.step n) hi hnext
    · exact .inl ⟨hi', by rw [hidx]; exact hnone, hnext'⟩
    · cases hc
    · cases hc
      rw [he]
      exact .inr (hwork n hi hnone hnext)
  · rintro n ⟨hi, -, -⟩
    obtain ⟨k, hk, hev⟩ := hf.works n i ⟨count, arr, hi⟩
    refine ⟨k, hk, fun hP => ?_⟩
    have hs := h.step k
    rw [hev, State.step, hP.1] at hs
    rw [← Option.some.inj hs]
    exact hwork k hP.1 hP.2.1 hP.2.2

/-- The deadline of the entry that a call is at passes, and the call goes past it. -/
theorem leads_of_atEntry (h : Run P σ ev) (hf : Fair σ ev) (d : ℕ) :
    Leads σ (AtEntry d) (fun s => d < s.past) := by
  rintro n ⟨hnext, i, count, arr, hi, hlt⟩
  -- the entry, which the call stays at
  obtain ⟨p, hp⟩ : ∃ p, (σ n).idx i = p := ⟨_, rfl⟩
  obtain ⟨r, hr⟩ : ∃ r, arr[p]? = some r := ⟨_, List.getElem?_eq_getElem (hp ▸ hlt)⟩
  have hpass : ∀ s : State Mac, Next d s → d < (s.pass i r).past := by
    intro s hs
    have hpast : (s.pass i r).past = s.past + 1 := by
      rcases pass_cases s i r with ⟨-, he⟩ | ⟨-, he⟩ <;> rw [he]
    rw [hpast, hs.1]
    exact Nat.lt_succ_self d
  have hstay : ∀ m, ((σ m).batch.co i = some (.calling count arr) ∧ (σ m).idx i = p ∧
      Next d (σ m)) → ((σ (m + 1)).batch.co i = some (.calling count arr) ∧
        (σ (m + 1)).idx i = p ∧ Next d (σ (m + 1))) ∨ d < (σ (m + 1)).past := by
    rintro m ⟨hi, hidx, hnext⟩
    obtain ⟨hi', hidx', hnext'⟩ | ⟨hc, -⟩ | ⟨count', arr', hc, he⟩ :=
      co_step (h.reached m).queued (h.step m) hi hnext
    · exact .inl ⟨hi', hidx'.trans hidx, hnext'⟩
    · cases hc
    · cases hc
      obtain ⟨hnone, -⟩ | ⟨-, -, -, hw⟩ | ⟨r', hr', -, hw⟩ := work_cases (σ m) i arr
      · rw [hidx, hr] at hnone
        cases hnone
      · rw [he, hw]
        exact .inl ⟨hi, hidx, hnext⟩
      · rw [hidx, hr] at hr'
        obtain rfl := Option.some.inj hr'
        rw [he, hw]
        exact .inr (hpass _ hnext)
  -- the deadline passes
  obtain ⟨k, hnk, hk⟩ := hf.time n (r.deadline + 1)
  obtain ⟨hi, hidx, hnext⟩ | hgone := until_reached
    (P := fun s => s.batch.co i = some (.calling count arr) ∧ s.idx i = p ∧ Next d s)
    (Q := fun s => d < s.past) hstay hnk ⟨hi, hp, hnext⟩
  · obtain ⟨j, hkj, hev⟩ := hf.works k i ⟨count, arr, hi⟩
    obtain ⟨hi, hidx, hnext⟩ | ⟨m, hkm, hm⟩ := until_reached
      (P := fun s => s.batch.co i = some (.calling count arr) ∧ s.idx i = p ∧ Next d s)
      (Q := fun s => d < s.past) hstay hkj ⟨hi, hidx, hnext⟩
    · refine ⟨j + 1, hnk.trans (hkj.trans (Nat.le_succ j)), ?_⟩
      have hlate : r.deadline + 1 ≤ (σ j).now := hk.trans (h.now_mono hkj)
      have hs := h.step j
      rw [hev, State.step, hi] at hs
      rw [← Option.some.inj hs]
      obtain ⟨hnone, -⟩ | ⟨r', hr', hle, -⟩ | ⟨r', hr', -, hw⟩ := work_cases (σ j) i arr
      · rw [hidx, hr] at hnone
        cases hnone
      · rw [hidx, hr] at hr'
        obtain rfl := Option.some.inj hr'
        omega
      · rw [hidx, hr] at hr'
        obtain rfl := Option.some.inj hr'
        show d < ((σ j).work i arr).past
        rw [hw]
        exact hpass _ hnext
    · exact ⟨m, hnk.trans hkm, hm⟩
  · exact hgone

/-- The next entry is gone past in the end. -/
theorem leads_of_next (h : Run P σ ev) (hf : Fair σ ev) (d : ℕ) :
    Leads σ (Next d) (fun s => d < s.past) := by
  intro n hnext
  have hq := (h.reached n).queued
  suffices hat : ∃ k, n ≤ k ∧ AtEntry d (σ k) by
    obtain ⟨k, hnk, hk⟩ := hat
    obtain ⟨m, hkm, hm⟩ := leads_of_atEntry h hf d k hk
    exact ⟨m, hnk.trans hkm, hm⟩
  by_cases hcall : ∃ i, (σ n).batch.inCallback i
  · obtain ⟨i, count, arr, hi⟩ := hcall
    cases hr : arr[(σ n).idx i]? with
    | none => exact leads_of_ended h hf d i count arr n ⟨hi, hr, hnext⟩
    | some r =>
      exact ⟨n, le_rfl, hnext, i, count, arr, hi, (List.getElem?_eq_some_iff.mp hr).1⟩
  · -- nothing runs yet, but something waits
    have hcache := hq.idle fun i hi => hcall ⟨i, hi⟩
    have hpos := List.length_pos_iff.mpr (hcache ▸ hnext.queue_ne)
    have hcount := hq.batch.counted
    obtain ⟨i, hi⟩ := hq.batch.running.mp (hq.batch.waits (by omega))
    obtain ⟨c, hi⟩ := Option.ne_none_iff_exists'.mp hi
    cases c with
    | ready => exact leads_of_ready h hf d i n ⟨hi, hnext⟩
    | calling count arr => exact absurd ⟨i, count, arr, hi⟩ hcall

/-- Every entry is gone past in the end. -/
theorem leads_past (h : Run P σ ev) (hf : Fair σ ev) (k : ℕ) :
    Leads σ (fun s => k < s.batch.emitted.length) (fun s => k < s.past) := by
  have hmore : ∀ m n, k < (σ n).batch.emitted.length → k < (σ n).past + m →
      ∃ j, n ≤ j ∧ k < (σ j).past := by
    intro m
    induction m with
    | zero => exact fun n _ hlt => ⟨n, le_rfl, hlt⟩
    | succ m ih =>
      intro n hk hlt
      by_cases hpast : k < (σ n).past
      · exact ⟨n, le_rfl, hpast⟩
      · obtain ⟨j, hnj, hj⟩ := leads_of_next h hf (σ n).past n ⟨rfl, by omega⟩
        have hlen := (h.emitted_prefix hnj).length_le
        obtain ⟨j', hjj', hj'⟩ := ih j (by omega) (by omega)
        exact ⟨j', hnj.trans hjj', hj'⟩
  intro n hk
  exact hmore (k + 1) n hk (by omega)

/-- Along a run the log of a mac only grows. -/
theorem Run.acts_prefix (h : Run P σ ev) {n m : ℕ} (hnm : n ≤ m) (mac : Mac) :
    (σ n).acts mac <+: (σ m).acts mac := by
  obtain ⟨t, ht⟩ := h.log_prefix hnm
  rw [State.acts, State.acts, ← ht, List.filter_append]
  exact List.prefix_append _ _

end Run

/-! ## The clients -/

/-- What follows a bypass while the client is neither bypassed again nor cancelled: nothing
yet, and its entry is still to be gone past; or that it was set offline, once. -/
theorem Marked.followed {s : State Mac} {mac : Mac} (h : Marked s mac)
    {pre post : List (Act Mac)} {uid magic t₀ : ℕ}
    (hacts : s.acts mac = pre ++ .bypassed mac uid magic t₀ :: post)
    (hpost : ∀ a ∈ post, ∃ uid' magic' t, a = .offline mac uid' magic' t) :
    (post = [] ∧ ⟨t₀ + 20000, uid, magic, mac⟩ ∈ s.queue) ∨
      ∃ t, post = [.offline mac uid magic t] ∧ t₀ + 20000 ≤ t := by
  match post, hpost with
  | [], _ =>
    have hw : s.wait mac = true := by
      by_contra hw
      exact h.quiet (Bool.eq_false_iff.mpr hw) ⟨pre, uid, magic, t₀, hacts⟩
    obtain ⟨pre', uid', magic', t', hacts', hpending⟩ := h.waiting hw
    rw [hacts] at hacts'
    obtain ⟨-, hlast⟩ := List.append_inj' hacts' rfl
    cases hlast
    refine .inl ⟨rfl, ?_⟩
    have hmem : (⟨t₀ + 20000, uid, magic, mac⟩ : Entry Mac) ∈ s.pending mac := by
      rw [hpending]
      exact List.mem_singleton_self _
    exact (List.mem_filter.mp hmem).1
  | a :: post, hpost =>
    obtain ⟨uid₁, magic₁, t₁, rfl⟩ := hpost a List.mem_cons_self
    obtain ⟨pre₁, t₂, hpre, hle⟩ := h.timely (pre ++ [.bypassed mac uid magic t₀]) uid₁ magic₁ t₁
      post (by rw [hacts, List.append_assoc]; rfl)
    obtain ⟨-, hlast⟩ := List.append_inj' hpre rfl
    cases hlast
    refine .inr ⟨t₁, ?_, hle⟩
    match post, hpost with
    | [], _ => rfl
    | b :: post, hpost =>
      -- another one would be behind a bypass too
      obtain ⟨uid₂, magic₂, t₂, rfl⟩ := hpost b (List.mem_cons_of_mem _ List.mem_cons_self)
      obtain ⟨pre₂, t₃, hpre₂, -⟩ := h.timely
        (pre ++ [.bypassed mac uid magic t₀, .offline mac uid magic t₁]) uid₂ magic₂ t₂ post
        (by rw [hacts, List.append_assoc]; rfl)
      have hsplit : pre ++ [.bypassed mac uid magic t₀, .offline mac uid magic t₁] =
          (pre ++ [.bypassed mac uid magic t₀]) ++ [.offline mac uid magic t₁] := by
        rw [List.append_assoc]
        rfl
      rw [hsplit] at hpre₂
      cases (List.append_inj' hpre₂ rfl).2

/-- In every run that bypasses a client only when no entry of an earlier bypass of it is
left: the client is set offline only just behind a bypass and 20 seconds later, and a bypass
that is neither renewed nor cancelled is followed by one such act and no other once its
entry is gone past.  Where the scheduler is fair and time goes on, something follows every
bypass. -/
theorem bypass_timed {σ : ℕ → State Mac} {ev : ℕ → Event Mac} (h : Run NoneLeft σ ev) :
    (∀ n mac, Timely mac ((σ n).acts mac)) ∧
    (∀ n mac pre uid magic t₀ post,
      (σ n).acts mac = pre ++ .bypassed mac uid magic t₀ :: post →
      (∀ a ∈ post, ∃ uid' magic' t, a = .offline mac uid' magic' t) →
      (post = [] ∧ ⟨t₀ + 20000, uid, magic, mac⟩ ∈ (σ n).queue) ∨
        ∃ t, post = [.offline mac uid magic t] ∧ t₀ + 20000 ≤ t) ∧
    (Fair σ ev → ∀ n mac pre uid magic t₀,
      (σ n).acts mac = pre ++ [.bypassed mac uid magic t₀] →
      ∃ m, n ≤ m ∧ ∃ a post, (σ m).acts mac = pre ++ .bypassed mac uid magic t₀ :: a :: post) := by
  refine ⟨fun n mac => ((h.reached n).marked mac).timely,
    fun n mac pre uid magic t₀ post hacts hpost => ((h.reached n).marked mac).followed hacts hpost,
    ?_⟩
  intro hf n mac pre uid magic t₀ hacts
  have hquiet : ∀ m, (σ m).acts mac = pre ++ [.bypassed mac uid magic t₀] →
      ⟨t₀ + 20000, uid, magic, mac⟩ ∈ (σ m).queue := by
    intro m hm
    obtain ⟨-, hmem⟩ | ⟨t, hnil, -⟩ := ((h.reached m).marked mac).followed hm nofun
    · exact hmem
    · cases hnil
  have hlen : 0 < (σ n).batch.emitted.length :=
    List.length_pos_of_mem (List.drop_subset _ _ (hquiet n hacts))
  obtain ⟨m, hnm, hm⟩ := leads_past h hf ((σ n).batch.emitted.length - 1) n (by omega)
  refine ⟨m, hnm, ?_⟩
  obtain ⟨rest, hrest⟩ := h.acts_prefix hnm mac
  match rest, hrest with
  | a :: post, hrest => exact ⟨a, post, by rw [← hrest, hacts, List.append_assoc]; rfl⟩
  | [], hrest =>
    -- no entry has been emitted for the client since, so none of its is left
    rw [List.append_nil] at hrest
    obtain ⟨ext, hext⟩ := h.emitted_prefix hnm
    have hnone : ext.filter (fun r => r.mac = mac) = [] := by
      have hm := emitted_filter (h.reached m).emitted mac
      rw [← hrest, ← emitted_filter (h.reached n).emitted mac, ← hext,
        List.filter_append] at hm
      exact List.append_right_eq_self.mp hm
    have hleft := hquiet m (hrest.symm.trans hacts)
    rw [State.queue, ← hext, List.drop_append, List.drop_of_length_le (by omega),
      List.nil_append] at hleft
    have hin : ⟨t₀ + 20000, uid, magic, mac⟩ ∈ ext.filter fun r => r.mac = mac :=
      List.mem_filter.mpr ⟨List.drop_subset _ _ hleft, decide_eq_true rfl⟩
    rw [hnone] at hin
    cases hin

/-- One client is bypassed and set offline. -/
def sampleEvents : ℕ → Event ℕ
  | 0 => .bypass 0 1 2
  | 1 => .start 0
  | 2 => .tick 20001
  | 3 => .work 0
  | 4 => .work 0
  | n + 5 => .tick (20001 + (n + 1))

def sampleBatch : List (Entry ℕ) := [⟨20000, 1, 2, 0⟩]

def sampleStates : ℕ → State ℕ
  | 0 => init
  | 1 => init.bypass 0 1 2
  | 2 => (init.bypass 0 1 2).turn 0
  | 3 => { (init.bypass 0 1 2).turn 0 with now := 20001 }
  | 4 => State.work { (init.bypass 0 1 2).turn 0 with now := 20001 } 0 sampleBatch
  | n + 5 =>
    { (State.work { (init.bypass 0 1 2).turn 0 with now := 20001 } 0 sampleBatch).turn 0 with
      now := 20001 + n }

/-- The sample's events do what its states say. -/
theorem sample_step : ∀ n, (sampleStates n).step (sampleEvents n) = some (sampleStates (n + 1))
  | 0 => rfl
  | 1 => rfl
  | 2 => rfl
  | 3 => rfl
  | 4 => rfl
  | n + 5 => if_pos (show 20001 + n ≤ 20001 + (n + 1) by omega)

/-- The sample is a run that meets the condition. -/
theorem sample_run : Run NoneLeft sampleStates sampleEvents where
  init := rfl
  allowed := fun
    | 0 => rfl
    | 1 => trivial
    | 2 => trivial
    | 3 => trivial
    | 4 => trivial
    | _ + 5 => trivial
  step := sample_step

/-- The only coroutine there ever is. -/
def sampleCo : ℕ → Option (Co (Entry ℕ))
  | 0 => none
  | 1 => some .ready
  | 2 | 3 | 4 => some (.calling 1 sampleBatch)
  | _ + 5 => none

/-- The one thread of the sample is worker 0. -/
theorem sample_co :
    ∀ n, (sampleStates n).batch.co = Function.update (fun _ => none) 0 (sampleCo n)
  | 0 => (Function.update_eq_self ..).symm
  | 1 => rfl
  | 2 => Function.update_idem ..
  | 3 => Function.update_idem ..
  | 4 => Function.update_idem ..
  | _ + 5 => (Function.update_idem ..).trans (Function.update_idem ..)

/-- Any thread of the sample is worker 0. -/
theorem sampleCo_of_co {n i : ℕ} {c : Co (Entry ℕ)} (h : (sampleStates n).batch.co i = some c) :
    i = 0 ∧ sampleCo n = some c := by
  rw [sample_co, Function.update_apply] at h
  split_ifs at h with hi
  exact ⟨hi, h⟩

/-- The sample is fair: the clock passes every time and the worker is always called again. -/
theorem sample_fair : Fair sampleStates sampleEvents where
  started := by
    intro n i hi
    obtain ⟨rfl, hn⟩ := sampleCo_of_co hi
    match n, hn with
    | 0, hn => cases hn
    | 1, _ => exact ⟨1, le_rfl, rfl⟩
    | 2, hn | 3, hn | 4, hn | n + 5, hn => cases hn
  works := by
    rintro n i ⟨count, arr, hi⟩
    obtain ⟨rfl, hn⟩ := sampleCo_of_co hi
    match n, hn with
    | 0, hn | 1, hn | n + 5, hn => cases hn
    | 2, _ => exact ⟨4, by omega, rfl⟩
    | 3, _ => exact ⟨4, by omega, rfl⟩
    | 4, _ => exact ⟨4, le_rfl, rfl⟩
  time := fun n t => ⟨n + t + 5, by omega, by show t ≤ 20001 + (n + t); omega⟩

theorem bypass_timed_sample :
    (∀ n mac, Timely mac ((sampleStates n).acts mac)) ∧
    (∀ n mac pre uid magic t₀ post,
      (sampleStates n).acts mac = pre ++ .bypassed mac uid magic t₀ :: post →
      (∀ a ∈ post, ∃ uid' magic' t, a = .offline mac uid' magic' t) →
      (post = [] ∧ ⟨t₀ + 20000, uid, magic, mac⟩ ∈ (sampleStates n).queue) ∨
        ∃ t, post = [.offline mac uid magic t] ∧ t₀ + 20000 ≤ t) ∧
    ∃ m a post, (sampleStates m).acts 0 = .bypassed 0 1 2 0 :: a :: post := by
  obtain ⟨htimely, honce, hfair⟩ := bypass_timed sample_run
  refine ⟨htimely, honce, ?_⟩
  obtain ⟨m, -, a, post, hacts⟩ := hfair sample_fair 1 0 [] 1 2 0 rfl
  exact ⟨m, a, post, hacts⟩

/-- An entry of the first bypass finds the mark of the second one. -/
theorem renewed_too_early : ∃ s : State ℕ, Reached (fun _ _ => True) s ∧
    s.acts 0 = [.bypassed 0 1 2 0, .bypassed 0 1 2 10000, .offline 0 1 2 20001] ∧
    ¬ Timely 0 (s.acts 0) := by
  have h₀ : Reached (fun _ _ => True) (init : State ℕ) := .init
  have h₁ := h₀.step (e := .bypass 0 1 2) trivial rfl
  have h₂ := h₁.step (e := .tick 10000) trivial rfl
  have h₃ := h₂.step (e := .bypass 0 1 2) trivial rfl
  have h₄ := h₃.step (e := .start 0) trivial rfl
  have h₅ := h₄.step (e := .tick 20001) trivial rfl
  have h₆ := h₅.step (e := .work 0) trivial rfl
  refine ⟨_, h₆, rfl, fun h => ?_⟩
  obtain ⟨pre, t₀, hpre, hle⟩ := h [.bypassed 0 1 2 0, .bypassed 0 1 2 10000] 1 2 20001 [] rfl
  have hlast : [Act.bypassed 0 1 2 0] ++ [.bypassed 0 1 2 10000] =
      pre ++ [.bypassed 0 1 2 t₀] := hpre
  cases (List.append_inj' hlast rfl).2
  omega

end AuthBypass
