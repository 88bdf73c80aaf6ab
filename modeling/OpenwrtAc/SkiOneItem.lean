/-
# Channels for one item

`SkiChan` has the channels of `ski/core.lua` with room for one item and without the running
list.  Its worlds are what is seen of the worlds of the scheduler, and each call on a channel
for one item does to what is seen what it does to the whole.
-/
import OpenwrtAc.SkiChan
import OpenwrtAc.SkiSched

namespace SkiSched

variable {Tid α β γ : Type}

/-! ## What is seen -/

/-- What a coroutine waits for. -/
def Sig.seen : Sig → Ski.Sig
  | .none => .none
  | .self => .self
  | .chan => .chan

/-- The `wait_seq` 0 is none. -/
def Thread.seen (t : Thread) : Ski.Thread where
  waitSeq := if t.waitSeq = 0 then none else some t.waitSeq
  sig := t.sig.seen
  woken := t.flag
  chanMap c := decide (c ∈ t.chanMap)

/-- The capacity of a channel is not seen, nor whether `ski_chan_map` has it. -/
def Chan.seen (ch : Chan Tid α) : Ski.Chan Tid α := ⟨ch.active, ch.list, ch.r, ch.w⟩

/-- The running list and the last `seq` are not seen. -/
def World.seen (s : World Tid α) : Ski.World Tid α :=
  ⟨fun th => (s.threads th).seen, fun c => (s.chans c).seen⟩

/-- How a call ends. -/
def Went.seen : Went β → Ski.Went β
  | .closed => .closed
  | .back b => .back b
  | .yields => .yields

/-- Behind a yield a call returns nothing when the channel is closed. -/
def returned : Option β → Ski.Went β
  | none => .closed
  | some b => .back b

/-- The assertions of a channel among all. -/
def Failure.ofChan : Ski.Failure → Failure
  | .registered => .registered
  | .logical => .logical
  | .oneReader => .oneReader
  | .oneWriter => .oneWriter
  | .waiting => .waiting
  | .resumed => .resumed
  | .notify => .notify

/-- The call on what is seen fails as the other, or ends with what is seen of its result. -/
def Seen (f : γ → β) (x : Except Ski.Failure β) (y : Except Failure γ) : Prop :=
  x.mapError Failure.ofChan = y.map f

theorem seen_ok {f : γ → β} {a : γ} : Seen f (.ok (f a)) (.ok a) := rfl

theorem seen_error {f : γ → β} {e : Ski.Failure} : Seen f (.error e) (.error (.ofChan e)) := rfl

/-- One call after another: what follows is asked for each result of the first. -/
theorem Seen.bind {δ ε : Type} {f : γ → β} {g : ε → δ} {x : Except Ski.Failure β}
    {y : Except Failure γ} {k : β → Except Ski.Failure δ} {l : γ → Except Failure ε}
    (h : Seen f x y) (hk : ∀ a, y = .ok a → Seen g (k (f a)) (l a)) :
    Seen g (x >>= k) (y >>= l) := by
  cases y with
  | ok a =>
    cases x with
    | ok b =>
      obtain rfl : b = f a := Except.ok.inj h
      exact hk a rfl
    | error e => cases h
  | error e =>
    cases x with
    | ok b => cases h
    | error e' =>
      obtain rfl : Failure.ofChan e' = e := Except.error.inj h
      rfl

/-- The same where the first call is one of two. -/
theorem Seen.bindIte {δ ε : Type} {c : Prop} [Decidable c] {f : γ → β} {g : ε → δ}
    {x x' : Except Ski.Failure β} {y : Except Failure γ} {k : β → Except Ski.Failure δ}
    {l : γ → Except Failure ε} (h : Seen f (if c then x else x') y)
    (hk : ∀ a, y = .ok a → Seen g (k (f a)) (l a)) :
    Seen g (if c then x >>= k else x' >>= k) (y >>= l) := by
  have hbind := h.bind hk
  split
  next hc => rwa [if_pos hc] at hbind
  next hc => rwa [if_neg hc] at hbind

/-- A test that is the same on what is seen. -/
theorem Seen.ite {c c' : Prop} [Decidable c] [Decidable c'] {f : γ → β}
    {x x' : Except Ski.Failure β} {y y' : Except Failure γ} (hc : c ↔ c')
    (h : c' → Seen f x y) (h' : ¬ c' → Seen f x' y') :
    Seen f (if c then x else x') (if c' then y else y') := by
  by_cases hc' : c'
  · rw [if_pos (hc.2 hc'), if_pos hc']
    exact h hc'
  · rw [if_neg (mt hc.1 hc'), if_neg hc']
    exact h' hc'

/-! ## Coroutines -/

/-- A change of a channel is seen at the channel. -/
theorem seen_onChan (s : World Tid α) (c : ℕ) {f : Chan Tid α → Chan Tid α}
    {g : Ski.Chan Tid α → Ski.Chan Tid α} (h : ∀ ch, (f ch).seen = g ch.seen) :
    (s.onChan c f).seen = s.seen.onChan c g := by
  apply Ski.world_ext
  · intro th
    rfl
  · intro k
    by_cases hk : k = c
    · subst hk
      rw [Ski.onChan_self]
      simpa [World.onChan, World.seen] using h (s.chans k)
    · rw [Ski.onChan_of_ne _ _ hk]
      simp [World.onChan, World.seen, hk]

section

variable [DecidableEq Tid]

/-- A change of a coroutine is seen at the coroutine. -/
theorem seen_onThread (s : World Tid α) (th : Tid) {f : Thread → Thread}
    {g : Ski.Thread → Ski.Thread} (h : (f (s.threads th)).seen = g (s.threads th).seen) :
    (s.onThread th f).seen = s.seen.onThread th g := by
  apply Ski.world_ext
  · intro t
    by_cases ht : t = th
    · subst ht
      rw [Ski.onThread_self]
      simpa [World.onThread, World.seen] using h
    · rw [Ski.onThread_of_ne _ _ ht]
      simp [World.onThread, World.seen, ht]
  · intro c
    rfl

theorem seen_sig_none {t : Thread} : t.seen.sig = .none ↔ t.sig = .none := by
  unfold Thread.seen
  cases t.sig <;> simp [Sig.seen]

theorem seen_sig_chan {t : Thread} : t.seen.sig = .chan ↔ t.sig = .chan := by
  unfold Thread.seen
  cases t.sig <;> simp [Sig.seen]

theorem seen_waitSeq_none {t : Thread} : t.seen.waitSeq = none ↔ t.waitSeq = 0 := by
  simp [Thread.seen]

theorem seen_waitSeq {t : Thread} {c : ℕ} (hc : c ≠ 0) :
    t.seen.waitSeq = some c ↔ t.waitSeq = c := by
  unfold Thread.seen
  by_cases h : t.waitSeq = 0
  · simp [h, hc.symm]
  · simp [h]

/-- The coroutine is put on the running list, which is not seen. -/
theorem seen_wakeupChan (s : World Tid α) (th : Tid) {c : ℕ} (hc : c ≠ 0) :
    (s.wakeupChan th c).seen = s.seen.onThread th (Ski.wakeupChan c) := by
  have hkeep : ∀ t : Thread, ¬ (t.waitSeq = c ∧ t.sig = .chan ∧ t.flag = false) →
      t.seen = Ski.wakeupChan c t.seen := by
    intro t ht
    unfold Ski.wakeupChan
    split
    next h =>
      rw [seen_waitSeq hc, seen_sig_chan] at h
      have hflag : t.flag = true := by
        by_contra hf
        exact ht ⟨h.1, h.2, by simpa using hf⟩
      simp [Thread.seen, hflag]
    next => rfl
  have hsame : ¬ ((s.threads th).waitSeq = c ∧ (s.threads th).sig = .chan
      ∧ (s.threads th).flag = false) → s.seen = s.seen.onThread th (Ski.wakeupChan c) := by
    intro h
    rw [← seen_onThread s th (f := id) (hkeep _ h)]
    simp [World.onThread]
  unfold World.wakeupChan World.wakeupCommon
  split
  next hw =>
    split
    next hs => exact hsame fun h => by simp [hs] at h
    next =>
      split
      next hs =>
        have hwake : (s.threads th).seen.waitSeq = some c ∧ (s.threads th).seen.sig = .chan :=
          ⟨(seen_waitSeq hc).2 hw, seen_sig_chan.2 hs.1⟩
        rw [← seen_onThread s th (f := fun t => { t with flag := true })
          (by rw [Ski.wakeupChan, if_pos hwake]; rfl)]
        rfl
      next hs => exact hsame fun h => hs h.2
  next hw => exact hsame fun h => hw h.1

/-- The other end of a channel is woken, if there is one. -/
theorem seen_wakeupEnd (s : World Tid α) {c : ℕ} (hc : c ≠ 0) (o : Option Tid) :
    (s.wakeupEnd c o).seen = s.seen.wakeup c o := by
  cases o with
  | none => rfl
  | some th => exact seen_wakeupChan s th hc

theorem seen_clearSig (s : World Tid α) (th : Tid) : (s.clearSig th).seen = s.seen.clearSig th :=
  seen_onThread s th rfl

/-- A channel that is put into `chan_map`. -/
theorem seen_mark (t : Thread) (c : ℕ) : ({ t with chanMap := insert c t.chanMap } : Thread).seen
    = t.seen.mark c true := by
  unfold Thread.seen Ski.Thread.mark
  congr 1
  funext k
  by_cases hk : k = c
  · simp [hk]
  · simp [hk]

/-- A channel that is taken out of `chan_map`. -/
theorem seen_unmark (t : Thread) (c : ℕ) : ({ t with chanMap := t.chanMap.erase c } : Thread).seen
    = t.seen.mark c false := by
  unfold Thread.seen Ski.Thread.mark
  congr 1
  funext k
  by_cases hk : k = c
  · simp [hk]
  · simp [hk]

/-- `register` fails alike, or puts the channel into `chan_map`. -/
theorem register_seen (s : World Tid α) (th : Tid) (c : ℕ) :
    Seen World.seen (s.seen.register th c) (s.register th c) := by
  unfold Ski.World.register World.register
  refine Seen.ite (decide_eq_true_iff) (fun _ => seen_error) fun _ => ?_
  rw [← seen_onThread s th (f := fun t => { t with chanMap := insert c t.chanMap }) (seen_mark _ c)]
  exact seen_ok

/-- `unregister` of an end that may not be there. -/
theorem seen_unregister (s : World Tid α) {c : ℕ} (hc : c ≠ 0) (o : Option Tid) :
    (s.unregister c o).seen = s.seen.unregister c o := by
  cases o with
  | none => rfl
  | some th =>
    show (if c ∈ (s.threads th).chanMap then _ else s).seen
      = if (s.threads th).seen.chanMap c = true then _ else s.seen
    by_cases h : c ∈ (s.threads th).chanMap
    · have hseen : (s.threads th).seen.chanMap c = true := decide_eq_true h
      rw [if_pos h, if_pos hseen, seen_wakeupChan _ _ hc,
        seen_onThread s th (f := fun t => { t with chanMap := t.chanMap.erase c })
          (g := fun t => t.mark c false) (seen_unmark _ c)]
      apply Ski.world_ext
      · intro t
        by_cases ht : t = th
        · subst ht
          simp
        · simp [Ski.onThread_of_ne _ _ ht]
      · intro k
        rfl
    · rw [if_neg h, if_neg (by simpa [World.seen, Thread.seen] using h)]

/-- `yield_common` fails alike, or leaves what is waited for. -/
theorem yieldCommon_seen (s : World Tid α) (th : Tid) (sig : Sig) :
    Seen World.seen (s.seen.yieldCommon th sig.seen) (s.yieldCommon th sig) := by
  unfold Ski.World.yieldCommon World.yieldCommon
  refine Seen.ite (and_congr_left' seen_sig_none) (fun _ => ?_) fun _ => seen_error
  rw [← seen_onThread s th (f := fun t => { t with sig := sig }) rfl]
  exact seen_ok

/-! ## The calls on a channel for one item -/

/-- What a call has seen of its result. -/
def seenCall (x : Went β × World Tid α) : Ski.Went β × Ski.World Tid α := (x.1.seen, x.2.seen)

/-- The same behind a yield, where nothing is returned when the channel is closed. -/
def seenBack (x : Option β × World Tid α) : Ski.Went β × Ski.World Tid α :=
  (returned x.1, x.2.seen)

/-- Both calls wait alike for the other end. -/
theorem wait_seen (s : World Tid α) (cur : Tid) {c : ℕ} (hc : c ≠ 0) :
    Seen (seenCall (β := β))
      (if (s.seen.threads cur).waitSeq ≠ none then throw .waiting
        else (s.seen.onThread cur fun t => { t with waitSeq := some c }).yieldCommon cur .chan >>=
          fun s => pure (.yields, s))
      (s.waitOn cur c >>= fun s => pure (.yields, s)) := by
  unfold World.waitOn
  by_cases hwait : (s.threads cur).waitSeq = 0
  · have hnone : (s.seen.threads cur).waitSeq = none := seen_waitSeq_none.2 hwait
    rw [if_neg (not_not.2 hwait), if_neg (not_not.2 hnone),
      ← seen_onThread s cur (f := fun t => { t with waitSeq := c }) (by simp [Thread.seen, hc])]
    exact (yieldCommon_seen _ cur .chan).bind fun _ _ => seen_ok
  · have hsome : (s.seen.threads cur).waitSeq ≠ none := mt seen_waitSeq_none.1 hwait
    rw [if_pos hwait, if_pos hsome]
    exact seen_error

/-- `chan:read` does the same to what is seen. -/
theorem read_seen (s : World Tid α) (cur : Tid) {c : ℕ} (hc : c ≠ 0) :
    Seen seenCall (s.seen.read cur c) (s.read cur c) := by
  unfold Ski.World.read World.read
  refine Seen.ite Iff.rfl (fun _ => seen_ok) fun _ => ?_
  dsimp only
  have henter : Seen World.seen
      (if (s.seen.chans c).r = none then
        (s.seen.onChan c fun ch => { ch with r := some cur }).register cur c
      else pure s.seen) (s.enterReader cur c) := by
    refine Seen.ite Iff.rfl (fun _ => ?_) fun _ => seen_ok
    rw [← seen_onChan s c (f := fun ch => { ch with r := some cur }) fun _ => rfl]
    exact register_seen _ cur c
  refine henter.bindIte fun s _ => ?_
  refine Seen.ite Iff.rfl (fun _ => seen_error) fun _ => ?_
  have hwake : (s.wakeupEnd c (s.chans c).w).seen = s.seen.wakeup c (s.seen.chans c).w :=
    seen_wakeupEnd s hc (s.chans c).w
  rw [← hwake]
  generalize s.wakeupEnd c (s.chans c).w = s₁
  have hlist : (s₁.seen.chans c).list = (s₁.chans c).list := rfl
  rw [hlist]
  cases (s₁.chans c).list with
  | nil => exact wait_seen s₁ cur hc
  | cons d rest =>
    dsimp only
    rw [← seen_onChan s₁ c (f := fun ch => { ch with list := rest }) fun _ => rfl]
    exact seen_ok

/-- The `wait_seq` is cleared behind a yield. -/
theorem seen_resumed (s : World Tid α) (cur : Tid) :
    (s.onThread cur fun t => { t with waitSeq := 0 }).seen
      = s.seen.onThread cur fun t => { t with waitSeq := none } :=
  seen_onThread s cur rfl

/-- So does what `chan:read` does behind its yield, -/
theorem readOn_seen (s : World Tid α) (cur : Tid) {c : ℕ} (hc : c ≠ 0) :
    Seen seenBack (s.seen.readOn cur c) (s.readOn cur c) := by
  unfold Ski.World.readOn World.readOn
  refine Seen.ite (not_congr (seen_waitSeq hc)) (fun _ => seen_error) fun _ => ?_
  rw [← seen_resumed]
  generalize (s.onThread cur fun t => { t with waitSeq := 0 }) = s
  refine Seen.ite Iff.rfl (fun _ => seen_ok) fun _ => ?_
  have hlist : (s.seen.chans c).list = (s.chans c).list := rfl
  have hw : (s.seen.chans c).w = (s.chans c).w := rfl
  rw [hlist, hw]
  cases (s.chans c).list with
  | nil => exact seen_error
  | cons d rest =>
    cases (s.chans c).w with
    | none => exact seen_error
    | some w =>
      have hwake := seen_wakeupChan s w hc
      dsimp only
      change Seen seenBack (.ok (.back d, (s.seen.onThread w (Ski.wakeupChan c)).onChan c _)) _
      rw [← hwake, ← seen_onChan _ c (f := fun ch => { ch with list := rest }) fun _ => rfl]
      exact seen_ok

/-- To wake an end leaves the channels as they are. -/
theorem wakeupEnd_chans (s : World Tid α) (c : ℕ) (o : Option Tid) :
    (s.wakeupEnd c o).chans = s.chans := by
  cases o with
  | none => rfl
  | some th =>
    show (s.wakeupChan th c).chans = s.chans
    unfold World.wakeupChan World.wakeupCommon
    repeat' split
    all_goals rfl

/-- The room of a channel does not change when the writer enters. -/
theorem enterWriter_max {s s' : World Tid α} {cur : Tid} {c : ℕ}
    (h : s.enterWriter cur c = .ok s') : (s'.chans c).max = (s.chans c).max := by
  unfold World.enterWriter World.register at h
  split at h
  · split at h
    · cases h
    · cases h
      simp [World.onThread, World.onChan]
  · cases h
    rfl

/-- and `chan:write` on a channel for one item, -/
theorem write_seen (s : World Tid α) (cur : Tid) {c : ℕ} (hc : c ≠ 0) (hmax : (s.chans c).max = 1)
    (d : α) : Seen seenCall (s.seen.write cur c d) (s.write cur c d) := by
  unfold Ski.World.write World.write
  refine Seen.ite Iff.rfl (fun _ => seen_ok) fun _ => ?_
  dsimp only
  have henter : Seen World.seen
      (if (s.seen.chans c).w = none then
        (s.seen.onChan c fun ch => { ch with w := some cur }).register cur c
      else pure s.seen) (s.enterWriter cur c) := by
    refine Seen.ite Iff.rfl (fun _ => ?_) fun _ => seen_ok
    rw [← seen_onChan s c (f := fun ch => { ch with w := some cur }) fun _ => rfl]
    exact register_seen _ cur c
  refine henter.bindIte fun s₀ hs₀ => ?_
  rw [← enterWriter_max hs₀] at hmax
  refine Seen.ite Iff.rfl (fun _ => seen_error) fun _ => ?_
  have hwake : (s₀.wakeupEnd c (s₀.chans c).r).seen = s₀.seen.wakeup c (s₀.seen.chans c).r :=
    seen_wakeupEnd s₀ hc (s₀.chans c).r
  rw [← wakeupEnd_chans s₀ c (s₀.chans c).r] at hmax
  rw [← hwake]
  generalize s₀.wakeupEnd c (s₀.chans c).r = s₁ at hmax
  rw [hmax]
  refine Seen.ite Iff.rfl (fun _ => ?_) fun _ => wait_seen s₁ cur hc
  rw [← seen_onChan s₁ c (f := fun ch => { ch with list := ch.list ++ [d] }) fun _ => rfl]
  exact seen_ok

/-- and what it does behind its yield. -/
theorem writeOn_seen (s : World Tid α) (cur : Tid) {c : ℕ} (hc : c ≠ 0) (d : α) :
    Seen seenBack (s.seen.writeOn cur c d) (s.writeOn cur c d) := by
  unfold Ski.World.writeOn World.writeOn
  refine Seen.ite (not_congr (seen_waitSeq hc)) (fun _ => seen_error) fun _ => ?_
  rw [← seen_resumed]
  generalize (s.onThread cur fun t => { t with waitSeq := 0 }) = s
  refine Seen.ite Iff.rfl (fun _ => seen_ok) fun _ => ?_
  have hr : (s.seen.chans c).r = (s.chans c).r := rfl
  rw [hr]
  cases (s.chans c).r with
  | none => exact seen_error
  | some r =>
    have hwake := seen_wakeupChan s r hc
    dsimp only
    change Seen seenBack (.ok (.back (), (s.seen.onThread r (Ski.wakeupChan c)).onChan c _)) _
    rw [← hwake, ← seen_onChan _ c (f := fun ch => { ch with list := ch.list ++ [d] }) fun _ => rfl]
    exact seen_ok

/-- `chan:close` does the same to what is seen. -/
theorem seen_close (s : World Tid α) {c : ℕ} (hc : c ≠ 0) : (s.close c).seen = s.seen.close c := by
  unfold Ski.World.close World.close
  by_cases hactive : (s.chans c).active = false
  · have hseen : (s.seen.chans c).active = false := hactive
    rw [if_pos hactive, if_pos hseen]
  · have hseen : ¬ (s.seen.chans c).active = false := hactive
    rw [if_neg hactive, if_neg hseen]
    rw [seen_onChan _ c (g := fun ch => { ch with r := none, w := none }) fun _ => rfl,
      seen_unregister _ hc, seen_unregister _ hc,
      seen_onChan s c (g := fun ch => { ch with active := false, list := [] }) fun _ => rfl]
    rfl

end

/-- A new channel for one item. -/
theorem seen_newChan (s : World Tid α) : (s.newChan 1).seen = s.seen.newChan (s.seq + 1) :=
  seen_onChan { s with seq := s.seq + 1 } (s.seq + 1) fun _ => rfl

end SkiSched
