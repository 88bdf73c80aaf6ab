/-
# Safety of the channels

The invariant of the scheduler: a coroutine that waits at a channel is in the running list
exactly when it can proceed, so that a wake-up is neither lost nor there twice.
-/
import OpenwrtAc.SkiView

namespace SkiSched

variable {Tid α : Type}

/-- What holds of one channel; `reader` and `writer` say when a coroutine that waits has been woken,
    if the channel has room for an item at all. -/
structure ChanInv (v : View Tid α) (c : ℕ) : Prop where
  mapped : (v.chans c).mapped = (v.chans c).active
  shut : (v.chans c).active = false → (v.chans c).list = [] ∧ (v.chans c).r = none ∧ (v.chans c).w = none
  apart : ∀ th, (v.chans c).r = some th → (v.chans c).w ≠ some th
  reader : ∀ th, v.doing th = .reading c → (v.chans c).active = true →
    (v.chans c).r = some th ∧ (1 ≤ (v.chans c).max → (th ∈ v.running ↔ (v.chans c).list ≠ []))
  writer : ∀ th d, v.doing th = .writing c d → (v.chans c).active = true →
    (v.chans c).w = some th ∧ (1 ≤ (v.chans c).max →
      (th ∈ v.running ↔ (v.chans c).list.length < (v.chans c).max) ∧
        (th ∈ v.running → (v.chans c).r ≠ none))
  woken : ∀ th, (v.doing th).At c → (v.chans c).active = false → th ∈ v.running
  items : (v.chans c).active = true → v.got c ++ (v.chans c).list = v.put c
  got : v.got c <+: v.put c
  room : 1 ≤ (v.chans c).max → (v.chans c).list.length ≤ (v.chans c).max
  source : (v.chans c).list ≠ [] → (v.chans c).w ≠ none
  fresh : v.seq < c → (v.chans c).active = false ∧ v.got c = [] ∧ v.put c = []

/-- A channel at which nothing happens. -/
theorem ChanInv.frame {v v' : View Tid α} {c : ℕ} (h : ChanInv v c) (hc : v'.chans c = v.chans c)
    (hg : v'.got c = v.got c) (hp : v'.put c = v.put c) (hs : v.seq ≤ v'.seq)
    (hd : ∀ th, (v'.doing th).At c → v'.doing th = v.doing th)
    (hr : ∀ th, (v'.doing th).At c → (th ∈ v'.running ↔ th ∈ v.running)) : ChanInv v' c where
  mapped := by rw [hc]; exact h.mapped
  shut := by rw [hc]; exact h.shut
  apart := by rw [hc]; exact h.apart
  reader th ht ha := by
    have hat : (v'.doing th).At c := .inl ht
    rw [hr th hat]
    rw [hc] at ha ⊢
    exact h.reader th ((hd th hat).symm.trans ht) ha
  writer th d ht ha := by
    have hat : (v'.doing th).At c := .inr ⟨d, ht⟩
    rw [hr th hat]
    rw [hc] at ha ⊢
    exact h.writer th d ((hd th hat).symm.trans ht) ha
  woken th hat ha := by
    rw [hr th hat]
    rw [hc] at ha
    exact h.woken th (hd th hat ▸ hat) ha
  items := by rw [hc, hg, hp]; exact h.items
  got := by rw [hg, hp]; exact h.got
  room := by rw [hc]; exact h.room
  source := by rw [hc]; exact h.source
  fresh := by rw [hc, hg, hp]; exact fun hlt => h.fresh (hs.trans_lt hlt)

/-- The counter is not behind any open channel. -/
theorem ChanInv.le_seq {v : View Tid α} {c : ℕ} (h : ChanInv v c) (ha : (v.chans c).active = true) :
    c ≤ v.seq := by
  by_contra hlt
  have hf := (h.fresh (by omega)).1
  simp [ha] at hf

/-- What happens at one channel. -/
theorem chans_step {v v' : View Tid α} {c : ℕ} (h : ∀ k, ChanInv v k)
    (hch : ∀ k, k ≠ c → v'.chans k = v.chans k ∧ v'.got k = v.got k ∧ v'.put k = v.put k)
    (hs : v.seq ≤ v'.seq)
    (hd : ∀ k, k ≠ c → ∀ th, (v'.doing th).At k → v'.doing th = v.doing th)
    (hr : ∀ k, k ≠ c → ∀ th, (v'.doing th).At k → (th ∈ v'.running ↔ th ∈ v.running))
    (hc : ChanInv v' c) : ∀ k, ChanInv v' k := by
  intro k
  by_cases hk : k = c
  · exact hk ▸ hc
  · obtain ⟨h1, h2, h3⟩ := hch k hk
    exact (h k).frame h1 h2 h3 hs (hd k hk) (hr k hk)

/-- The `chan_map`s and the ends of the channels, of which one is used as `Ends` has it. -/
structure EndsInv (p : Ends Tid) (v : View Tid α) : Prop where
  maps : ∀ th c, c ∈ v.maps th ↔ (v.chans c).r = some th ∨ (v.chans c).w = some th
  reader : ∀ th, (v.chans p.c).r = some th → th = p.reader
  writer : ∀ th, (v.chans p.c).w = some th → th = p.writer
  room : (v.chans p.c).active = true → (v.chans p.c).max = p.n

/-- The ends depend on the maps and the channels only. -/
theorem EndsInv.frame {p : Ends Tid} {v v' : View Tid α} (h : EndsInv p v) (hm : v'.maps = v.maps)
    (hc : ∀ c, (v'.chans c).r = (v.chans c).r ∧ (v'.chans c).w = (v.chans c).w ∧
      (v'.chans c).active = (v.chans c).active ∧ (v'.chans c).max = (v.chans c).max) : EndsInv p v' where
  maps th c := by
    rw [hm, (hc c).1, (hc c).2.1]
    exact h.maps th c
  reader th := by
    rw [(hc p.c).1]
    exact h.reader th
  writer th := by
    rw [(hc p.c).2.1]
    exact h.writer th
  room := by
    rw [(hc p.c).2.2.1, (hc p.c).2.2.2]
    exact h.room

/-- What happens at the ends of one channel: the other channels keep theirs, so that only what
    the invariant says of this one has to be shown. -/
theorem EndsInv.step {p : Ends Tid} {v v' : View Tid α} (h : EndsInv p v) {c : ℕ}
    (hch : ∀ k, k ≠ c → v'.chans k = v.chans k)
    (hm : ∀ th k, k ≠ c → (k ∈ v'.maps th ↔ k ∈ v.maps th))
    (hc : ∀ th, c ∈ v'.maps th ↔ (v'.chans c).r = some th ∨ (v'.chans c).w = some th)
    (hr : p.c = c → ∀ th, (v'.chans c).r = some th → th = p.reader)
    (hw : p.c = c → ∀ th, (v'.chans c).w = some th → th = p.writer)
    (hn : p.c = c → (v'.chans c).active = true → (v'.chans c).max = p.n) : EndsInv p v' := by
  constructor
  case maps =>
    intro th k
    by_cases hk : k = c
    · exact hk ▸ hc th
    · rw [hm th k hk, hch k hk]
      exact h.maps th k
  all_goals by_cases hk : p.c = c
  · exact hk ▸ hr hk
  · exact hch _ hk ▸ h.reader
  · exact hk ▸ hw hk
  · exact hch _ hk ▸ h.writer
  · exact hk ▸ hn hk
  · exact hch _ hk ▸ h.room

/-- The coroutines. -/
structure ThreadInv (v : View Tid α) : Prop where
  absent : ∀ th, v.doing th = .absent → v.maps th = ∅
  nodup : v.running.Nodup
  waits : ∀ th ∈ v.running, (v.doing th).sig ≠ .none
  runs : ∀ th, v.doing th = .runs ↔ v.cur = some th
  atOld : ∀ th c, (v.doing th).At c → c ≤ v.seq

structure Inv (p : Ends Tid) (v : View Tid α) : Prop where
  chan : ∀ c, ChanInv v c
  ends : EndsInv p v
  threads : ThreadInv v

/-- The thread that runs is not in the running list. -/
theorem ThreadInv.not_mem {v : View Tid α} (h : ThreadInv v) {th : Tid} (hd : v.doing th = .runs) :
    th ∉ v.running := by
  intro hm
  exact h.waits th hm (by rw [hd]; rfl)

/-- A thread at a channel waits under a signal. -/
theorem at_signal {x : Doing α} {c : ℕ} (h : x.At c) : x.sig ≠ .none := by
  rw [((at_iff x c).mp h).2]
  simp

/-- A thread stands at one channel at most. -/
theorem at_unique {x : Doing α} {c k : ℕ} (h : x.At c) (hk : x.At k) : c = k :=
  ((at_iff x c).mp h).1.symm.trans ((at_iff x k).mp hk).1

/-- A thread under another signal stands at no channel. -/
theorem not_at {x : Doing α} {c : ℕ} (h : x.sig ≠ .chan) : ¬x.At c :=
  fun hx => h ((at_iff x c).mp hx).2

/-- The threads depend on what they do, the lists and the counter only. -/
theorem ThreadInv.frame {v v' : View Tid α} (h : ThreadInv v)
    (hv : v'.doing = v.doing ∧ v'.running = v.running ∧ v'.cur = v.cur ∧ v'.seq = v.seq ∧
      v'.maps = v.maps) : ThreadInv v' := by
  obtain ⟨h1, h2, h3, h4, h5⟩ := hv
  constructor
  case absent => rw [h1, h5]; exact h.absent
  case nodup => rw [h2]; exact h.nodup
  case waits => rw [h1, h2]; exact h.waits
  case runs => rw [h1, h3]; exact h.runs
  case atOld => rw [h1, h4]; exact h.atOld

/-- The list of one channel changes. -/
theorem EndsInv.onList {p : Ends Tid} {v v' : View Tid α} (h : EndsInv p v) {c : ℕ} {list : List α}
    (hm : v'.maps = v.maps) (hc : v'.chans = Function.update v.chans c { v.chans c with list := list }) :
    EndsInv p v' := by
  refine h.frame hm fun k => ?_
  rw [hc]
  by_cases hk : k = c
  · subst hk
    simp
  · simp [hk]

/-! ## A new channel -/

/-- `new_chan`. -/
def View.newChan (v : View Tid α) (n : ℕ) : View Tid α :=
  { v.onChan (v.seq + 1) fun _ => ⟨true, n, [], none, none, true⟩ with seq := v.seq + 1 }

/-- A new channel keeps the invariant. -/
theorem Inv.newChan {p : Ends Tid} {v : View Tid α} (h : Inv p v) {n : ℕ}
    (hn : v.seq + 1 = p.c → n = p.n) :
    Inv p (v.newChan n) := by
  have hcc : (v.newChan n).chans (v.seq + 1) = ⟨true, n, [], none, none, true⟩ := Function.update_self ..
  have hck : ∀ k, k ≠ v.seq + 1 → (v.newChan n).chans k = v.chans k := fun k hk => Function.update_of_ne hk ..
  have i := h.chan (v.seq + 1)
  obtain ⟨hi, hg, hp⟩ := i.fresh (Nat.lt_succ_self _)
  obtain ⟨-, hr, hw⟩ := i.shut hi
  have hnone : ∀ th, ¬(v.doing th).At (v.seq + 1) := fun th hat => by
    have := h.threads.atOld th _ hat
    omega
  refine ⟨chans_step h.chan (c := v.seq + 1) (fun k hk => ⟨hck k hk, rfl, rfl⟩) (Nat.le_succ _)
    (fun _ _ _ _ => rfl) (fun _ _ _ _ => Iff.rfl) ?_, ?_, ?_⟩
  · constructor <;> try rw [hcc]
    case shut => simp
    case apart => simp
    case reader => exact fun th hth => (hnone th (.inl hth)).elim
    case writer => exact fun th d hth => (hnone th (.inr ⟨d, hth⟩)).elim
    case woken => exact fun th hat => (hnone th hat).elim
    case items => exact fun _ => (List.append_nil _).trans (hg.trans hp.symm)
    case got => exact i.got
    case room => simp
    case source => simp
    case fresh => exact fun hlt => absurd hlt (by simp [View.newChan])
  · refine h.ends.step hck (fun _ _ _ => Iff.rfl) (fun th => ?_) ?_ ?_ fun hk _ => ?_
    · rw [hcc]
      exact (h.ends.maps th _).trans (by rw [hr, hw])
    · simp [hcc]
    · simp [hcc]
    · rw [hcc]
      exact hn hk.symm
  · constructor
    case absent => exact h.threads.absent
    case nodup => exact h.threads.nodup
    case waits => exact h.threads.waits
    case runs => exact h.threads.runs
    case atOld => exact fun th c hat => (h.threads.atOld th c hat).trans (Nat.le_succ _)

variable [DecidableEq Tid]

/-! ## The ends of a channel -/

/-- A wakeup keeps the invariant of the threads. -/
theorem ThreadInv.wake {v : View Tid α} (h : ThreadInv v) (c : ℕ) (o : Option Tid) :
    ThreadInv (v.wake c o) where
  absent := by
    obtain ⟨run, hw⟩ := wake_eq v c o
    rw [hw]
    exact h.absent
  nodup := nodup_wake v c o h.nodup
  waits th hm := by
    rw [wake_doing]
    obtain hm | ⟨-, hm⟩ := (mem_wake v c o th).mp hm
    · exact h.waits th hm
    · exact at_signal hm
  runs := by
    obtain ⟨run, hw⟩ := wake_eq v c o
    rw [hw]
    exact h.runs
  atOld := by
    obtain ⟨run, hw⟩ := wake_eq v c o
    rw [hw]
    exact h.atOld

/-- Another channel does not see a wake-up. -/
theorem mem_wake_of_ne (v : View Tid α) {c k : ℕ} (o : Option Tid) (hk : k ≠ c) {th : Tid}
    (h : (v.doing th).At k) : th ∈ (v.wake c o).running ↔ th ∈ v.running := by
  rw [mem_wake]
  constructor
  · rintro (hm | ⟨-, hc⟩)
    · exact hm
    · exact absurd (at_unique h hc) hk
  · exact Or.inl

/-- What a map holds after a channel is entered in it. -/
theorem update_maps {maps : Tid → Finset ℕ} {th t : Tid} {c k : ℕ} :
    k ∈ Function.update maps th (insert c (maps th)) t ↔ k ∈ maps t ∨ t = th ∧ k = c := by
  by_cases ht : t = th
  · subst ht
    simp [or_comm]
  · simp [ht]

/-- A coroutine that runs is entered at a channel. -/
theorem ThreadInv.enter {v v' : View Tid α} (h : ThreadInv v) {cur : Tid}
    (hd : v.doing cur = .runs) (c : ℕ)
    (hv : v'.doing = v.doing ∧ v'.running = v.running ∧ v'.cur = v.cur ∧ v'.seq = v.seq ∧
      v'.maps = Function.update v.maps cur (insert c (v.maps cur))) : ThreadInv v' := by
  obtain ⟨h1, h2, h3, h4, h5⟩ := hv
  constructor
  case absent =>
    intro th ht
    have hne : th ≠ cur := by
      rintro rfl
      rw [h1, hd] at ht
      cases ht
    rw [h5, Function.update_of_ne hne]
    exact h.absent th (h1 ▸ ht)
  case nodup => exact h2 ▸ h.nodup
  case waits => rw [h1, h2]; exact h.waits
  case runs => rw [h1, h3]; exact h.runs
  case atOld => rw [h1, h4]; exact h.atOld

/-- A first reader. -/
theorem Inv.enterR {p : Ends Tid} {v : View Tid α} (h : Inv p v) {cur : Tid} {c : ℕ}
    (hd : v.doing cur = .runs) (ha : (v.chans c).active = true) (hn : (v.chans c).r = none)
    (hm : c ∉ v.maps cur) (hu : c = p.c → cur = p.reader) : Inv p (v.enterR cur c) := by
  have hcc : (v.enterR cur c).chans c = { v.chans c with r := some cur } := Function.update_self ..
  have hck : ∀ k, k ≠ c → (v.enterR cur c).chans k = v.chans k := fun k hk => Function.update_of_ne hk ..
  have ho : (v.chans c).w ≠ some cur := fun ho => hm ((h.ends.maps cur c).mpr (.inr ho))
  have hmaps : ∀ th k, k ∈ (v.enterR cur c).maps th ↔ k ∈ v.maps th ∨ th = cur ∧ k = c :=
    fun _ _ => update_maps
  have i := h.chan c
  refine ⟨chans_step h.chan (c := c) (fun k hk => ⟨hck k hk, rfl, rfl⟩) le_rfl (fun _ _ _ _ => rfl)
    (fun _ _ _ _ => Iff.rfl) ?_, ?_, ?_⟩
  · constructor
    case mapped => rw [hcc]; exact i.mapped
    case shut => rw [hcc]; simp [ha]
    case apart =>
      rw [hcc]
      rintro th ⟨⟩
      exact ho
    case reader =>
      intro th ht _
      -- one that waits has been entered
      exact absurd (i.reader th ht ha).1 (by simp [hn])
    case writer =>
      intro th d ht _
      rw [hcc]
      obtain ⟨hw, hi⟩ := i.writer th d ht ha
      exact ⟨hw, fun h1 => ⟨(hi h1).1, by simp⟩⟩
    case woken => rw [hcc]; simp [ha]
    case items => rw [hcc]; exact i.items
    case got => exact i.got
    case room => rw [hcc]; exact i.room
    case source => rw [hcc]; exact i.source
    case fresh => rw [hcc]; exact i.fresh
  · refine h.ends.step hck (fun th k hk => ?_) (fun th => ?_) ?_ ?_ ?_
    · exact (hmaps th k).trans (or_iff_left fun hc => hk hc.2)
    · rw [hmaps, h.ends.maps, hcc, hn]
      simp [eq_comm, or_comm]
    · rw [hcc]
      rintro hk th ⟨⟩
      exact hu hk.symm
    · rw [hcc]
      exact fun hk => hk ▸ h.ends.writer
    · rw [hcc]
      exact fun hk => hk ▸ h.ends.room
  · exact h.threads.enter hd c ⟨rfl, rfl, rfl, rfl, rfl⟩

/-- A thread that becomes the writer of an open channel keeps the invariant. -/
theorem Inv.enterW {p : Ends Tid} {v : View Tid α} (h : Inv p v) {cur : Tid} {c : ℕ}
    (hd : v.doing cur = .runs) (ha : (v.chans c).active = true) (hn : (v.chans c).w = none)
    (hm : c ∉ v.maps cur) (hu : c = p.c → cur = p.writer) : Inv p (v.enterW cur c) := by
  have hcc : (v.enterW cur c).chans c = { v.chans c with w := some cur } := Function.update_self ..
  have hck : ∀ k, k ≠ c → (v.enterW cur c).chans k = v.chans k := fun k hk => Function.update_of_ne hk ..
  have ho : (v.chans c).r ≠ some cur := fun ho => hm ((h.ends.maps cur c).mpr (.inl ho))
  have hmaps : ∀ th k, k ∈ (v.enterW cur c).maps th ↔ k ∈ v.maps th ∨ th = cur ∧ k = c :=
    fun _ _ => update_maps
  have i := h.chan c
  refine ⟨chans_step h.chan (c := c) (fun k hk => ⟨hck k hk, rfl, rfl⟩) le_rfl (fun _ _ _ _ => rfl)
    (fun _ _ _ _ => Iff.rfl) ?_, ?_, ?_⟩
  · constructor
    case mapped => rw [hcc]; exact i.mapped
    case shut => rw [hcc]; simp [ha]
    case apart =>
      rw [hcc]
      rintro th hr ⟨⟩
      exact ho hr
    case reader =>
      intro th ht _
      rw [hcc]
      exact i.reader th ht ha
    case writer =>
      intro th d ht _
      -- one that waits has been entered
      exact absurd (i.writer th d ht ha).1 (by simp [hn])
    case woken => rw [hcc]; simp [ha]
    case items => rw [hcc]; exact i.items
    case got => exact i.got
    case room => rw [hcc]; exact i.room
    case source => rw [hcc]; simp
    case fresh => rw [hcc]; exact i.fresh
  · refine h.ends.step hck (fun th k hk => ?_) (fun th => ?_) ?_ ?_ ?_
    · exact (hmaps th k).trans (or_iff_left fun hc => hk hc.2)
    · rw [hmaps, h.ends.maps, hcc, hn]
      simp [eq_comm]
    · rw [hcc]
      exact fun hk => hk ▸ h.ends.reader
    · rw [hcc]
      rintro hk th ⟨⟩
      exact hu hk.symm
    · rw [hcc]
      exact fun hk => hk ▸ h.ends.room
  · exact h.threads.enter hd c ⟨rfl, rfl, rfl, rfl, rfl⟩

/-! ## What is read and written -/

/-- `read` has returned an item. -/
def View.gets (v : View Tid α) (c : ℕ) (d : α) : View Tid α :=
  { v with got := Function.update v.got c (v.got c ++ [d]) }

/-- `write` has accepted an item. -/
def View.puts (v : View Tid α) (c : ℕ) (d : α) : View Tid α :=
  { v with put := Function.update v.put c (v.put c ++ [d]) }

/-- Taking an element off the channel keeps the invariant. -/
theorem Inv.pop {p : Ends Tid} {v : View Tid α} (h : Inv p v) {cur : Tid} {c : ℕ} {d : α}
    {rest : List α}
    (hd : v.doing cur = .runs) (ha : (v.chans c).active = true) (hr : (v.chans c).r = some cur)
    (hl : (v.chans c).list = d :: rest) : Inv p ((v.pop c rest).gets c d) := by
  obtain ⟨run, hw⟩ := wake_eq v c (v.chans c).w
  have hmem := mem_wake v c (v.chans c).w
  have hother : ∀ k, k ≠ c → ∀ th, (v.doing th).At k →
      (th ∈ (v.wake c (v.chans c).w).running ↔ th ∈ v.running) :=
    fun k hk th ht => mem_wake_of_ne v (v.chans c).w hk ht
  have ht := h.threads.wake c (v.chans c).w
  rw [View.pop]
  rw [hw] at hmem hother ht ⊢
  have i := h.chan c
  have hput : v.got c ++ [d] ++ rest = v.put c := by
    rw [← i.items ha, hl, List.append_assoc]
    rfl
  have hroom : 1 ≤ (v.chans c).max → rest.length < (v.chans c).max := by
    intro h1
    have := i.room h1
    rw [hl, List.length_cons] at this
    omega
  refine ⟨chans_step h.chan (c := c) (fun k hk => ⟨?_, ?_, rfl⟩) le_rfl (fun _ _ _ _ => rfl) hother ?_, ?_, ?_⟩
  · exact Function.update_of_ne hk ..
  · exact Function.update_of_ne hk ..
  · constructor <;> simp only [View.gets, View.onChan, Function.update_self]
    case mapped => exact i.mapped
    case shut => simp [ha]
    case apart => exact i.apart
    case reader =>
      intro th hth _
      -- the reader runs
      have hth' := Option.some_inj.mp (hr.symm.trans (i.reader th hth ha).1)
      rw [← hth', hd] at hth
      cases hth
    case writer =>
      intro th d' hth _
      obtain ⟨hwr, hi⟩ := i.writer th d' hth ha
      refine ⟨hwr, fun h1 => ⟨iff_of_true ?_ (hroom h1), fun _ => by simp [hr]⟩⟩
      exact (hmem th).mpr (.inr ⟨hwr, .inr ⟨d', hth⟩⟩)
    case woken => simp [ha]
    case items => exact fun _ => hput
    case got => exact ⟨rest, hput⟩
    case room => exact fun h1 => (hroom h1).le
    case source => exact fun _ => i.source (by simp [hl])
    case fresh => exact fun hlt => absurd (i.fresh hlt).1 (by simp [ha])
  · exact h.ends.onList rfl rfl
  · exact ht.frame ⟨rfl, rfl, rfl, rfl, rfl⟩

/-- Putting an element into the channel keeps the invariant. -/
theorem Inv.push {p : Ends Tid} {v : View Tid α} (h : Inv p v) {cur : Tid} {c : ℕ} (d : α)
    (hd : v.doing cur = .runs) (ha : (v.chans c).active = true) (hw : (v.chans c).w = some cur)
    (hl : 1 ≤ (v.chans c).max → (v.chans c).list.length < (v.chans c).max) :
    Inv p ((v.push c d).puts c d) := by
  obtain ⟨run, hr⟩ := wake_eq v c (v.chans c).r
  have hmem := mem_wake v c (v.chans c).r
  have hother : ∀ k, k ≠ c → ∀ th, (v.doing th).At k →
      (th ∈ (v.wake c (v.chans c).r).running ↔ th ∈ v.running) :=
    fun k hk th ht => mem_wake_of_ne v (v.chans c).r hk ht
  have ht := h.threads.wake c (v.chans c).r
  rw [View.push]
  rw [hr] at hmem hother ht ⊢
  have i := h.chan c
  have hput : v.got c ++ ((v.chans c).list ++ [d]) = v.put c ++ [d] := by
    rw [← i.items ha, List.append_assoc]
  refine ⟨chans_step h.chan (c := c) (fun k hk => ⟨?_, rfl, ?_⟩) le_rfl (fun _ _ _ _ => rfl) hother ?_, ?_, ?_⟩
  · exact Function.update_of_ne hk ..
  · exact Function.update_of_ne hk ..
  · constructor <;> simp only [View.puts, View.onChan, Function.update_self]
    case mapped => exact i.mapped
    case shut => simp [ha]
    case apart => exact i.apart
    case reader =>
      intro th hth _
      obtain ⟨hre, hi⟩ := i.reader th hth ha
      refine ⟨hre, fun h1 => iff_of_true ?_ (by simp)⟩
      exact (hmem th).mpr (.inr ⟨hre, .inl hth⟩)
    case writer =>
      intro th d' hth _
      -- the writer runs
      have hth' := Option.some_inj.mp (hw.symm.trans (i.writer th d' hth ha).1)
      rw [← hth', hd] at hth
      cases hth
    case woken => simp [ha]
    case items => exact fun _ => hput
    case got => exact i.got.trans (List.prefix_append _ _)
    case room =>
      intro h1
      rw [List.length_append, List.length_singleton]
      exact hl h1
    case source => simp [hw]
    case fresh => exact fun hlt => absurd (i.fresh hlt).1 (by simp [ha])
  · exact h.ends.onList rfl rfl
  · exact ht.frame ⟨rfl, rfl, rfl, rfl, rfl⟩

/-! ## Yields and wake-ups -/

/-- The coroutine that runs yields. -/
def View.blocks (v : View Tid α) (cur : Tid) (x : Doing α) : View Tid α := { v.does cur x with cur := none }

/-- The other threads do what they did. -/
theorem does_of_ne (v : View Tid α) {cur th : Tid} (x : Doing α) (h : th ≠ cur) :
    (v.does cur x).doing th = v.doing th :=
  Function.update_of_ne h ..

@[simp] theorem does_self (v : View Tid α) (cur : Tid) (x : Doing α) :
    (v.does cur x).doing cur = x :=
  Function.update_self ..

/-- A thread that blocks keeps the invariant of the threads. -/
theorem ThreadInv.blocks {v : View Tid α} (h : ThreadInv v) {cur : Tid} {x : Doing α}
    (hd : v.doing cur = .runs) (ha : x ≠ .absent) (hr : x ≠ .runs) (hx : ∀ c, x.At c → c ≤ v.seq) :
    ThreadInv (v.blocks cur x) := by
  have hn := h.not_mem hd
  have hdo : (v.blocks cur x).doing = (v.does cur x).doing := rfl
  constructor
  case absent =>
    intro th
    by_cases ht : th = cur
    · subst ht
      rw [hdo, does_self]
      exact fun hx' => (ha hx').elim
    · rw [hdo, does_of_ne v x ht]
      exact h.absent th
  case nodup => exact h.nodup
  case waits =>
    intro th hm
    have ht : th ≠ cur := fun ht => hn (ht ▸ hm)
    rw [hdo, does_of_ne v x ht]
    exact h.waits th hm
  case runs =>
    intro th
    refine iff_of_false ?_ (by simp [View.blocks])
    by_cases ht : th = cur
    · subst ht
      rw [hdo, does_self]
      exact hr
    · rw [hdo, does_of_ne v x ht, h.runs, (h.runs cur).mp hd]
      exact fun he => ht (Option.some_inj.mp he).symm
  case atOld =>
    intro th c
    by_cases ht : th = cur
    · subst ht
      rw [hdo, does_self]
      exact hx c
    · rw [hdo, does_of_ne v x ht]
      exact h.atOld th c

/-- It yields, but not at a channel. -/
theorem Inv.blocks {p : Ends Tid} {v : View Tid α} (h : Inv p v) {cur : Tid} {x : Doing α}
    (hd : v.doing cur = .runs) (ha : x ≠ .absent) (hr : x ≠ .runs) (hx : ∀ c, ¬x.At c) :
    Inv p (v.blocks cur x) := by
  refine ⟨fun k => (h.chan k).frame rfl rfl rfl le_rfl ?_ fun _ _ => Iff.rfl, h.ends.frame rfl ?_,
    h.threads.blocks hd ha hr fun c hc => (hx c hc).elim⟩
  · intro th hat
    refine does_of_ne v x ?_
    rintro rfl
    rw [show (v.blocks th x).doing th = x from does_self v th x] at hat
    exact hx k hat
  · exact fun _ => ⟨rfl, rfl, rfl, rfl⟩

/-- It yields at a channel, and has woken the other end before. -/
theorem Inv.waitAt {p : Ends Tid} {v : View Tid α} (h : Inv p v) {cur : Tid} {c : ℕ} {x : Doing α}
    (o : Option Tid) (hd : v.doing cur = .runs) (ha : (v.chans c).active = true) (hx : x.At c)
    (hr : ∀ th, ((v.wake c o).blocks cur x).doing th = .reading c → (v.chans c).r = some th ∧
      (1 ≤ (v.chans c).max → (th ∈ (v.wake c o).running ↔ (v.chans c).list ≠ [])))
    (hw : ∀ th d, ((v.wake c o).blocks cur x).doing th = .writing c d → (v.chans c).w = some th ∧
      (1 ≤ (v.chans c).max → (th ∈ (v.wake c o).running ↔ (v.chans c).list.length < (v.chans c).max) ∧
        (th ∈ (v.wake c o).running → (v.chans c).r ≠ none))) :
    Inv p ((v.wake c o).blocks cur x) := by
  have i := h.chan c
  have hne : x ≠ .absent ∧ x ≠ .runs := by
    constructor
    · rintro rfl
      exact not_at (by simp [Doing.sig]) hx
    · rintro rfl
      exact not_at (by simp [Doing.sig]) hx
  have ht := (h.threads.wake c o).blocks (show (v.wake c o).doing cur = .runs by simpa using hd) hne.1 hne.2 (fun k hk => by
    obtain ⟨run, hw⟩ := wake_eq v c o
    rw [hw, at_unique hk hx]
    exact i.le_seq ha)
  -- a wake-up at `c` is seen by nobody that waits at another channel
  have hother : ∀ k, k ≠ c → ∀ th, (v.doing th).At k → (th ∈ (v.wake c o).running ↔ th ∈ v.running) :=
    fun k hk th ht => mem_wake_of_ne v o hk ht
  obtain ⟨run, hrun⟩ := wake_eq v c o
  rw [hrun] at ht hother hr hw ⊢
  have hdo : ∀ th, th ≠ cur → (View.blocks { v with running := run } cur x).doing th = v.doing th :=
    fun th hth => Function.update_of_ne hth ..
  -- `cur` waits at `c`, so what waits at another channel is not `cur`
  have hat : ∀ k, k ≠ c → ∀ th, ((View.blocks { v with running := run } cur x).doing th).At k → th ≠ cur := by
    rintro k hk th hat rfl
    rw [show (View.blocks { v with running := run } th x).doing th = x from Function.update_self ..] at hat
    exact hk (at_unique hat hx)
  refine ⟨chans_step h.chan (c := c) (fun k hk => ⟨rfl, rfl, rfl⟩) le_rfl
    (fun k hk th hth => hdo th (hat k hk th hth))
    (fun k hk th hth => hother k hk th (hdo th (hat k hk th hth) ▸ hth)) ?_,
    h.ends.frame rfl fun _ => ⟨rfl, rfl, rfl, rfl⟩, ht⟩
  constructor
  case mapped => exact i.mapped
  case shut => exact i.shut
  case apart => exact i.apart
  case reader => exact fun th hth _ => hr th hth
  case writer => exact fun th d hth _ => hw th d hth
  case woken => exact fun _ _ hf => absurd hf (by change (v.chans c).active ≠ false; simp [ha])
  case items => exact i.items
  case got => exact i.got
  case room => exact i.room
  case source => exact i.source
  case fresh => exact i.fresh

/-- The other threads do what they did. -/
theorem blocks_of_ne (v : View Tid α) {cur th : Tid} (c : ℕ) (o : Option Tid) (x : Doing α)
    (h : th ≠ cur) :
    ((v.wake c o).blocks cur x).doing th = v.doing th := by
  rw [View.blocks]
  exact (does_of_ne _ x h).trans (by rw [wake_doing])

/-- The reader yields. -/
theorem Inv.blockR {p : Ends Tid} {v : View Tid α} (h : Inv p v) {cur : Tid} {c : ℕ}
    (hd : v.doing cur = .runs) (ha : (v.chans c).active = true) (hr : (v.chans c).r = some cur)
    (hl : (v.chans c).list = []) : Inv p ((v.wake c (v.chans c).w).blocks cur (.reading c)) := by
  have i := h.chan c
  have hn : cur ∉ (v.wake c (v.chans c).w).running := not_mem_wake v c _ hd (h.threads.not_mem hd)
  refine h.waitAt _ hd ha (.inl rfl) (fun th hth => ?_) fun th d hth => ?_
  · by_cases hc : th = cur
    · subst hc
      exact ⟨hr, fun _ => iff_of_false hn fun hne => hne hl⟩
    · rw [blocks_of_ne v c _ _ hc] at hth
      exact absurd (Option.some_inj.mp (hr.symm.trans (i.reader th hth ha).1)).symm hc
  · have hc : th ≠ cur := by
      rintro rfl
      rw [View.blocks, does_self] at hth
      cases hth
    rw [blocks_of_ne v c _ _ hc] at hth
    have hwr := (i.writer th d hth ha).1
    refine ⟨hwr, fun h1 => ⟨iff_of_true ?_ ?_, fun _ => by simp [hr]⟩⟩
    · exact (mem_wake v c _ th).mpr (.inr ⟨hwr, .inr ⟨d, hth⟩⟩)
    · rw [hl]
      exact h1

/-- The writer yields. -/
theorem Inv.blockW {p : Ends Tid} {v : View Tid α} (h : Inv p v) {cur : Tid} {c : ℕ} (d : α)
    (hd : v.doing cur = .runs) (ha : (v.chans c).active = true) (hw : (v.chans c).w = some cur)
    (hl : ¬(v.chans c).list.length < (v.chans c).max) :
    Inv p ((v.wake c (v.chans c).r).blocks cur (.writing c d)) := by
  have i := h.chan c
  have hn : cur ∉ (v.wake c (v.chans c).r).running := not_mem_wake v c _ hd (h.threads.not_mem hd)
  refine h.waitAt _ hd ha (.inr ⟨d, rfl⟩) (fun th hth => ?_) fun th d' hth => ?_
  · have hc : th ≠ cur := by
      rintro rfl
      rw [View.blocks, does_self] at hth
      cases hth
    rw [blocks_of_ne v c _ _ hc] at hth
    have hre := (i.reader th hth ha).1
    refine ⟨hre, fun h1 => iff_of_true ?_ ?_⟩
    · exact (mem_wake v c _ th).mpr (.inr ⟨hre, .inl hth⟩)
    · intro hnil
      apply hl
      rw [hnil]
      exact h1
  · by_cases hc : th = cur
    · subst hc
      exact ⟨hw, fun _ => ⟨iff_of_false hn hl, fun hm => (hn hm).elim⟩⟩
    · rw [blocks_of_ne v c _ _ hc] at hth
      exact absurd (Option.some_inj.mp (hw.symm.trans (i.writer th d' hth ha).1)).symm hc

/-- The head of the running list goes on. -/
theorem Inv.resumed {p : Ends Tid} {v : View Tid α} (h : Inv p v) {th : Tid} {rest : List Tid}
    (hr : v.running = th :: rest) (hc : v.cur = none) : Inv p (v.resumed th rest) := by
  have hnd : th ∉ rest ∧ rest.Nodup := List.nodup_cons.mp (hr ▸ h.threads.nodup)
  have hdo : ∀ t, t ≠ th → (v.resumed th rest).doing t = v.doing t := fun t ht => Function.update_of_ne ht ..
  have hdt : (v.resumed th rest).doing th = .runs := Function.update_self ..
  have hne : ∀ c t, ((v.resumed th rest).doing t).At c → t ≠ th := by
    rintro c t hat rfl
    rw [hdt] at hat
    exact not_at (by simp [Doing.sig]) hat
  refine ⟨fun k => (h.chan k).frame rfl rfl rfl le_rfl (fun t hat => hdo t (hne k t hat)) fun t hat => ?_,
    h.ends.frame rfl fun _ => ⟨rfl, rfl, rfl, rfl⟩, ?_⟩
  · rw [hr, List.mem_cons, or_iff_right (hne k t hat)]
    rfl
  · constructor
    case absent =>
      intro t ht
      refine h.threads.absent t ?_
      rwa [hdo t] at ht
      rintro rfl
      rw [hdt] at ht
      cases ht
    case nodup => exact hnd.2
    case waits =>
      intro t hm
      rw [hdo t fun ht => hnd.1 (ht ▸ hm)]
      exact h.threads.waits t (hr ▸ List.mem_cons_of_mem th hm)
    case runs =>
      intro t
      by_cases ht : t = th
      · subst ht
        exact iff_of_true hdt rfl
      · rw [hdo t ht, h.threads.runs, hc]
        simpa [View.resumed] using Ne.symm ht
    case atOld =>
      intro t c hat
      have ht := hne c t hat
      rw [hdo t ht] at hat
      exact h.threads.atOld t c hat

/-- A coroutine that waits for itself is woken. -/
theorem Inv.signal {p : Ends Tid} {v : View Tid α} (h : Inv p v) (th : Tid) :
    Inv p (v.woken th ((v.doing th).sig = .self)) := by
  have hmem := mem_woken v th
  have hnd := nodup_woken v th ((v.doing th).sig = .self) h.threads.nodup
  obtain ⟨run, hw⟩ := woken_eq v th ((v.doing th).sig = .self)
  have hm := fun t => hmem t ((v.doing th).sig = .self)
  rw [hw] at hnd hm ⊢
  refine ⟨fun k => (h.chan k).frame rfl rfl rfl le_rfl (fun _ _ => rfl) fun t hat => ?_,
    h.ends.frame rfl fun _ => ⟨rfl, rfl, rfl, rfl⟩, ?_⟩
  · rw [hm]
    refine or_iff_left ?_
    rintro ⟨rfl, hs⟩
    exact not_at (by simp [hs]) hat
  · constructor
    case absent => exact h.threads.absent
    case nodup => exact hnd
    case waits =>
      intro t ht
      obtain ht | ⟨rfl, hs⟩ := (hm t).mp ht
      · exact h.threads.waits t ht
      · rw [hs]
        simp
    case runs => exact h.threads.runs
    case atOld => exact h.threads.atOld

/-- A new coroutine. -/
theorem Inv.born {p : Ends Tid} {v : View Tid α} (h : Inv p v) {th : Tid}
    (hd : v.doing th = .absent) :
    Inv p (v.does th .self) := by
  have hn : th ∉ v.running := fun hm => h.threads.waits th hm (by rw [hd]; rfl)
  have hne : ∀ c t, ((v.does th .self).doing t).At c → t ≠ th := by
    rintro c t hat rfl
    rw [does_self] at hat
    exact not_at (by simp [Doing.sig]) hat
  refine ⟨fun k => (h.chan k).frame rfl rfl rfl le_rfl (fun t hat => does_of_ne v _ (hne k t hat))
    fun _ _ => Iff.rfl, h.ends.frame rfl fun _ => ⟨rfl, rfl, rfl, rfl⟩, ?_⟩
  constructor
  case absent =>
    intro t ht
    refine h.threads.absent t ?_
    by_cases hc : t = th
    · exact hc ▸ hd
    · exact (does_of_ne v _ hc).symm.trans ht
  case nodup => exact h.threads.nodup
  case waits =>
    intro t hm
    have ht : t ≠ th := by
      rintro rfl
      exact hn hm
    rw [does_of_ne v _ ht]
    exact h.threads.waits t hm
  case runs =>
    intro t
    by_cases ht : t = th
    · subst ht
      rw [does_self]
      refine iff_of_false (by simp) fun hc => ?_
      rw [(h.threads.runs t).mpr hc] at hd
      cases hd
    · rw [does_of_ne v _ ht]
      exact h.threads.runs t
  case atOld =>
    intro t c hat
    have ht := hne c t hat
    rw [does_of_ne v _ ht] at hat
    exact h.threads.atOld t c hat

/-! ## The end of a channel -/

/-- The channel after its end. -/
def Chan.shut (ch : Chan Tid α) : Chan Tid α :=
  { ch with active := false, list := [], r := none, w := none, mapped := false }

/-- What `close` does to the whole. -/
theorem shut_eq (v : View Tid α) (c : ℕ) : ∃ run maps,
    v.shut c = { v with running := run, maps := maps, chans := Function.update v.chans c (v.chans c).shut } := by
  obtain ⟨run, maps, h1⟩ := leave_eq (v.onChan c fun ch => { ch with active := false, list := [] }) c (v.chans c).r
  obtain ⟨run', maps', h2⟩ := leave_eq ((v.onChan c fun ch => { ch with active := false, list := [] }).leave c
    (v.chans c).r) c (v.chans c).w
  refine ⟨run', maps', ?_⟩
  rw [View.shut, h2, h1]
  simp [View.onChan, Chan.shut]

/-- Who runs after a close: who ran before, and who stood at the channel. -/
theorem mem_shut (v : View Tid α) (c : ℕ) (t : Tid)
    (ht : c ∈ v.maps t ↔ (v.chans c).r = some t ∨ (v.chans c).w = some t)
    (ha : (v.chans c).r = some t → (v.chans c).w ≠ some t) :
    t ∈ (v.shut c).running ↔ t ∈ v.running ∨ c ∈ v.maps t ∧ (v.doing t).At c := by
  change t ∈ ((((v.onChan c fun ch => { ch with active := false, list := [] }).leave c (v.chans c).r).leave c
    (v.chans c).w)).running ↔ _
  rw [mem_leave, mem_leave, maps_leave, leave_doing]
  change ((t ∈ v.running ∨ (v.chans c).r = some t ∧ c ∈ v.maps t ∧ (v.doing t).At c) ∨ (v.chans c).w = some t ∧
    c ∈ (if (v.chans c).r = some t then (v.maps t).erase c else v.maps t) ∧ (v.doing t).At c) ↔ _
  by_cases hr : (v.chans c).r = some t
  · simp [hr, ha hr]
  · simp only [hr, false_and, or_false, if_false, false_or] at ht ⊢
    rw [ht]
    simp

/-- A close takes the channel off both maps. -/
theorem maps_shut (v : View Tid α) (c : ℕ) (t : Tid) (k : ℕ)
    (ht : c ∈ v.maps t ↔ (v.chans c).r = some t ∨ (v.chans c).w = some t) :
    k ∈ (v.shut c).maps t ↔ k ∈ v.maps t ∧ k ≠ c := by
  change k ∈ ((((v.onChan c fun ch => { ch with active := false, list := [] }).leave c (v.chans c).r).leave c
    (v.chans c).w)).maps t ↔ _
  rw [maps_leave, maps_leave]
  change k ∈ (if (v.chans c).w = some t then
    (if (v.chans c).r = some t then (v.maps t).erase c else v.maps t).erase c else
    if (v.chans c).r = some t then (v.maps t).erase c else v.maps t) ↔ _
  by_cases hr : (v.chans c).r = some t
  · by_cases hw : (v.chans c).w = some t <;> simp [hr, hw, and_comm]
  · by_cases hw : (v.chans c).w = some t
    · simp [hr, hw, and_comm]
    · simp only [hr, hw, if_false]
      refine (and_iff_left_of_imp ?_).symm
      rintro hk rfl
      exact (ht.mp hk).elim hr hw

/-- A close keeps the running list without repetition. -/
theorem nodup_shut (v : View Tid α) (c : ℕ) (h : v.running.Nodup) : (v.shut c).running.Nodup :=
  nodup_leave _ c _ (nodup_leave _ c _ h)

/-- A close keeps the invariant. -/
theorem Inv.shut {p : Ends Tid} {v : View Tid α} (h : Inv p v) {c : ℕ}
    (ha : (v.chans c).active = true) :
    Inv p (v.shut c) := by
  have i := h.chan c
  have hmem := fun t => mem_shut v c t (h.ends.maps t c) (i.apart t)
  have hmaps := fun t k => maps_shut v c t k (h.ends.maps t c)
  have hnd := nodup_shut v c h.threads.nodup
  obtain ⟨run, maps, hs⟩ := shut_eq v c
  rw [hs] at hmem hmaps hnd ⊢
  have hcc : (Function.update v.chans c (v.chans c).shut) c = (v.chans c).shut := Function.update_self ..
  have hck : ∀ k, k ≠ c → (Function.update v.chans c (v.chans c).shut) k = v.chans k :=
    fun k hk => Function.update_of_ne hk ..
  refine ⟨chans_step h.chan (c := c) (fun k hk => ⟨hck k hk, rfl, rfl⟩) le_rfl (fun _ _ _ _ => rfl)
    (fun k hk t hat => ?_) ?_, ?_, ?_⟩
  · rw [hmem]
    exact or_iff_left fun hc => hk (at_unique hat hc.2)
  · constructor <;> simp only [Function.update_self, Chan.shut]
    case shut => simp
    case apart => simp
    case reader => simp
    case writer => simp
    case woken =>
      intro th hat _
      rw [hmem]
      -- whoever waits has been entered
      refine .inr ⟨(h.ends.maps th c).mpr ?_, hat⟩
      obtain hr | ⟨d, hw⟩ := hat
      · exact .inl (i.reader th hr ha).1
      · exact .inr (i.writer th d hw ha).1
    case items => simp
    case got => exact i.got
    case room => simp
    case source => simp
    case fresh => exact fun hlt => absurd (i.fresh hlt).1 (by simp [ha])
  · refine h.ends.step hck (fun th k hk => ?_) (fun th => ?_) ?_ ?_ ?_
    · rw [hmaps]
      exact and_iff_left hk
    · simp [hmaps, Chan.shut, h.ends.maps]
    · simp [Chan.shut]
    · simp [Chan.shut]
    · simp [Chan.shut]
  · constructor
    case absent =>
      intro th ht
      refine Finset.eq_empty_of_forall_notMem fun k hk => ?_
      have := ((hmaps th k).mp hk).1
      rw [h.threads.absent th ht] at this
      simp at this
    case nodup => exact hnd
    case waits =>
      intro th hm
      obtain hm | ⟨-, hat⟩ := (hmem th).mp hm
      · exact h.threads.waits th hm
      · exact at_signal hat
    case runs => exact h.threads.runs
    case atOld => exact h.threads.atOld

end SkiSched
