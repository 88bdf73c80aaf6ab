/-
# Realtime rates

`statistic.c` keeps a node for each flow and each user that sends packets: `stat_realtime`
compares the counters with those it has stored at the sample before, and a timer makes room
for the next sample or removes the node.  A flow or a user and its node are followed through
packets and timeouts; the counters live on when a node goes.

`jiffies` is an `unsigned long` of 32 bits.
-/
import OpenwrtAc.NprotoStat

open MachineInt

namespace Nproto

/-! ## The node of a flow or a user -/

/-- `stat_data_t`: the counters at the last sample, and the rates. -/
structure StatData where
  id : ℕ
  magic : ℕ
  type : ℕ
  activeStamp : ℕ
  hist : StatHdr
  rt : StatHdr
deriving DecidableEq, Repr

/-- The same of each counter of two headers. -/
def StatHdr.map₂ (f : ℕ → ℕ → ℕ) (a b : StatHdr) : StatHdr :=
  ⟨⟨f a.recv.pkts b.recv.pkts, f a.recv.bytes b.recv.bytes⟩, ⟨f a.xmit.pkts b.xmit.pkts, f a.xmit.bytes b.xmit.bytes⟩⟩

/-- A relation between each two counters. -/
def StatHdr.All₂ (p : ℕ → ℕ → Prop) (a b : StatHdr) : Prop :=
  p a.recv.pkts b.recv.pkts ∧ p a.recv.bytes b.recv.bytes ∧ p a.xmit.pkts b.xmit.pkts ∧ p a.xmit.bytes b.xmit.bytes

def StatHdr.zero : StatHdr := ⟨⟨0, 0⟩, ⟨0, 0⟩⟩

/-- The counters as they are loaded, of 64 bits. -/
def StatHdr.load (h : StatHdr) : StatHdr :=
  ⟨⟨h.recv.pkts % 2 ^ 64, h.recv.bytes % 2 ^ 64⟩, ⟨h.xmit.pkts % 2 ^ 64, h.xmit.bytes % 2 ^ 64⟩⟩

/-- `grand_realtime`, whose result is a `uint32_t`. -/
def grandRealtime (elapse now prev : ℕ) : ℕ :=
  let grand := if now < prev then 2 ^ 64 - 1 - prev + now else now - prev
  (if grand / elapse ≠ 0 then grand / elapse else if grand % elapse ≠ 0 then 1 else 0) % 2 ^ 32

/-- A flow or a user: the jiffies since the machine was started, its counters, its flag
    (`nt_flow_stat`, `nt_user_stat`), its node and when the timer of the node expires. -/
structure Tracked where
  now : ℕ
  hdr : StatHdr
  stat : Bool
  node : Option StatData
  expires : ℕ

/-- `jiffies`. -/
def Tracked.jiffies (t : Tracked) : ℕ := t.now % 2 ^ 32

/-- `stat_node_find`, with the memory that the allocator has for a node, if any. -/
def Tracked.statNodeFind (t : Tracked) (mem : Option StatData) : Option StatData :=
  match t.node with
  | some data => some data
  | none => mem.map fun data => { data with activeStamp := 0 }

/-- `stat_realtime` for a node: what is stored in it, and the rates if it calculates them. -/
def Tracked.sample (HZ : ℕ) (t : Tracked) (data : StatData) : StatData × Option StatHdr :=
  if data.activeStamp ≠ 0 then
    let elapse := u32 ((t.jiffies : ℤ) - data.activeStamp) / HZ
    let elapse := if elapse = 0 then 1 else elapse
    let rt := StatHdr.map₂ (grandRealtime elapse) t.hdr.load data.hist
    ({ data with
        rt := rt
        activeStamp := if rt ≠ .zero then t.jiffies else data.activeStamp
        hist := t.hdr.load }, some rt)
  else
    -- the counters are not loaded on this branch
    ({ data with activeStamp := t.jiffies, hist := .zero }, none)

/-- `stat_realtime`: without memory there is no node, and nothing more. -/
def Tracked.statRealtime (HZ : ℕ) (t : Tracked) (mem : Option StatData) : Tracked × Option StatHdr :=
  let t := { t with stat := true }
  match t.statNodeFind mem with
  | none => (t, none)
  | some data =>
    let r := t.sample HZ data
    ({ t with node := some r.1, expires := t.now + 3 * HZ }, r.2)

/-- `stat_touch_fn`, of a flow or user that is still the same. -/
def Tracked.statTouchFn (HZ : ℕ) (t : Tracked) (data : StatData) : Tracked :=
  if 0 ≤ i32 ((t.jiffies : ℤ) - (data.activeStamp + 60 * HZ)) then { t with node := none }
  else { t with expires := t.now + 60 * HZ, stat := false }

/-- The counters with a packet in one direction. -/
def StatHdr.bump (h : StatHdr) (recv : Bool) (nbytes : ℤ) : StatHdr :=
  if recv then { h with recv := h.recv.add nbytes } else { h with xmit := h.xmit.add nbytes }

/-! ## Runs -/

/-- What was there at the sample before: the counters, the time, and the rates it has published. -/
structure Sampled where
  hdr : StatHdr
  time : ℕ
  rates : Option StatHdr
deriving DecidableEq, Repr

/-- A flow or a user with its last sample. -/
structure Run extends Tracked where
  last : Option Sampled

/-- Time passes; a packet is counted, once or, from a user to itself, twice, and sampled where the
    flag is clear; the timer expires. -/
inductive Event where
  | tick (n : ℕ)
  | packet (bumps : List (Bool × ℤ)) (mem : Option StatData)
  | touch

/-- The counters behind a packet. -/
def Run.counted (s : Run) (bumps : List (Bool × ℤ)) : Tracked :=
  { s.toTracked with hdr := bumps.foldl (fun h b => h.bump b.1 b.2) s.hdr }

/-- `stat_flow`, and `stat_user` for one of its users. -/
def Run.packet (HZ : ℕ) (s : Run) (bumps : List (Bool × ℤ)) (mem : Option StatData) : Run :=
  let t := s.counted bumps
  if t.stat then ⟨t, s.last⟩
  else
    let r := t.statRealtime HZ mem
    ⟨r.1, if r.1.node.isSome then some ⟨t.hdr.load, t.now, r.2⟩ else s.last⟩

/-- A step; a timer does not expire early. -/
def Run.step (HZ : ℕ) (s : Run) : Event → Run
  | .tick n => { s with now := s.now + n }
  | .packet bumps mem => s.packet HZ bumps mem
  | .touch =>
    match s.node with
    | some data => if s.expires ≤ s.now then ⟨s.statTouchFn HZ data, s.last⟩ else s
    | none => s

/-- A flow or a user without packets. -/
def Run.start (now : ℕ) : Run := ⟨⟨now, .zero, false, none, 0⟩, none⟩

/-- A run. -/
def Run.after (HZ now : ℕ) (events : List Event) : Run := events.foldl (Run.step HZ) (.start now)

/-- The rates that the sample of a packet publishes. -/
def Run.published (HZ : ℕ) (s : Run) (bumps : List (Bool × ℤ)) (mem : Option StatData) : Option StatHdr :=
  if s.stat then none else ((s.counted bumps).statRealtime HZ mem).2

/-! ## What a rate should be -/

/-- The increase of a counter for each of the whole seconds, but for at least one; an increase is
    never reported as none. -/
def rateOf (secs now prev : ℕ) : ℕ :=
  let d := u64 ((now : ℤ) - prev)
  if d / max 1 secs = 0 ∧ d ≠ 0 then 1 else d / max 1 secs

/-- The sample before has stored its counters (or there were none) and the time; no counter has
    wrapped since, less than `2 ^ 32` jiffies have passed, and the rates fit into 32 bits. -/
structure Comparable (HZ : ℕ) (t : Tracked) (last : Sampled) : Prop where
  stored : last.rates = none → last.hdr = .zero
  stamped : last.rates ≠ some .zero
  mono : StatHdr.All₂ (fun now prev => prev ≤ now) t.hdr.load last.hdr
  recent : t.now - last.time < 2 ^ 32
  fits : StatHdr.All₂ (fun now prev => (now - prev) / max 1 ((t.now - last.time) / HZ) < 2 ^ 32)
    t.hdr.load last.hdr

/-! ## The invariant -/

/-- What a node says of the sample before. -/
structure Run.Good (s : Run) : Prop where
  last : ∀ data, s.node = some data → ∃ last, s.last = some last ∧
    data.hist = (if last.rates.isSome then last.hdr else .zero) ∧
    (last.rates ≠ some .zero → data.activeStamp = last.time % 2 ^ 32)
  time : ∀ last, s.last = some last → last.time ≤ s.now
  range : ∀ last, s.last = some last → last.hdr.load = last.hdr

theorem load_load (h : StatHdr) : h.load.load = h.load := by simp [StatHdr.load]

/-- A sample stores the time unless it publishes that there was nothing. -/
theorem sample_spec (HZ : ℕ) (t : Tracked) (data : StatData) :
    (t.sample HZ data).1.hist = (if (t.sample HZ data).2.isSome then t.hdr.load else .zero) ∧
      ((t.sample HZ data).2 ≠ some .zero → (t.sample HZ data).1.activeStamp = t.jiffies) := by
  unfold Tracked.sample
  split
  · refine ⟨rfl, fun hne => ?_⟩
    simp only [ne_eq, Option.some.injEq] at hne
    exact if_pos hne
  · exact ⟨rfl, fun _ => rfl⟩

theorem statRealtime_none {t : Tracked} {mem : Option StatData}
    (h : t.statNodeFind mem = none) (HZ : ℕ) :
    t.statRealtime HZ mem = ({ t with stat := true }, none) := by
  have h' : Tracked.statNodeFind { t with stat := true } mem = none := h
  simp only [Tracked.statRealtime, h']

theorem statRealtime_some {t : Tracked} {mem : Option StatData} {data : StatData}
    (h : t.statNodeFind mem = some data) (HZ : ℕ) :
    t.statRealtime HZ mem =
      ({ t with stat := true, node := some (t.sample HZ data).1, expires := t.now + 3 * HZ },
        (t.sample HZ data).2) := by
  have h' : Tracked.statNodeFind { t with stat := true } mem = some data := h
  simp only [Tracked.statRealtime, h']
  rfl

theorem statNodeFind_eq_none {t : Tracked} {mem : Option StatData} (h : t.statNodeFind mem = none) :
    t.node = none := by
  unfold Tracked.statNodeFind at h
  split at h
  · cases h
  next hnode => exact hnode

/-- What the step of a packet does: nothing but count, also where there is no memory, or a sample.
    -/
theorem packet_cases (HZ : ℕ) (s : Run) (bumps : List (Bool × ℤ)) (mem : Option StatData) :
    (∃ stat, s.packet HZ bumps mem = ⟨{ s.counted bumps with stat := stat }, s.last⟩ ∧
      s.published HZ bumps mem = none) ∨
    ∃ data, s.stat = false ∧ (s.counted bumps).statNodeFind mem = some data ∧
      s.packet HZ bumps mem =
        ⟨{ s.counted bumps with
            stat := true, node := some ((s.counted bumps).sample HZ data).1, expires := s.now + 3 * HZ },
          some ⟨(s.counted bumps).hdr.load, s.now, ((s.counted bumps).sample HZ data).2⟩⟩ ∧
      s.published HZ bumps mem = ((s.counted bumps).sample HZ data).2 := by
  by_cases hstat : s.stat = true
  · have hsame : (s.counted bumps).stat = true := hstat
    refine .inl ⟨true, ?_, if_pos hstat⟩
    simp only [Run.packet, if_pos hsame]
    rw [← hsame]
  have hsame : ¬ (s.counted bumps).stat = true := hstat
  unfold Run.packet Run.published
  simp only [if_neg hsame, if_neg hstat]
  cases hfind : (s.counted bumps).statNodeFind mem with
  | none =>
    rw [statRealtime_none hfind]
    have hnode := statNodeFind_eq_none hfind
    exact .inl ⟨true, by simp [hnode], rfl⟩
  | some data =>
    rw [statRealtime_some hfind]
    exact .inr ⟨data, by simpa using hstat, rfl, rfl, rfl⟩

theorem packet_good {s : Run} (h : s.Good) (HZ : ℕ) (bumps : List (Bool × ℤ))
    (mem : Option StatData) :
    (s.packet HZ bumps mem).Good := by
  obtain ⟨stat, heq, -⟩ | ⟨data, -, -, heq, -⟩ := packet_cases HZ s bumps mem
  · rw [heq]
    exact ⟨h.last, h.time, h.range⟩
  · rw [heq]
    obtain ⟨hhist, hstamp⟩ := sample_spec HZ (s.counted bumps) data
    refine ⟨?_, ?_, ?_⟩
    · rintro data' hdata
      cases hdata
      exact ⟨_, rfl, hhist, hstamp⟩
    · rintro last hlast
      cases hlast
      exact le_refl _
    · rintro last hlast
      cases hlast
      exact load_load _

theorem step_good {s : Run} (h : s.Good) (HZ : ℕ) (e : Event) : (s.step HZ e).Good := by
  cases e with
  | tick n => exact ⟨h.last, fun last hl => (h.time last hl).trans (Nat.le_add_right _ _), h.range⟩
  | packet bumps mem => exact packet_good h HZ bumps mem
  | touch =>
    simp only [Run.step]
    split
    next data hnode =>
      split
      · unfold Tracked.statTouchFn
        split
        · exact ⟨fun _ hdata => (by cases hdata), h.time, h.range⟩
        · exact ⟨h.last, h.time, h.range⟩
      · exact h
    · exact h

theorem after_good (HZ now : ℕ) (events : List Event) : (Run.after HZ now events).Good := by
  have hrun : ∀ s : Run, s.Good → (events.foldl (Run.step HZ) s).Good := by
    induction events with
    | nil => exact fun s h => h
    | cons e events ih => exact fun s h => ih _ (step_good h HZ e)
  refine hrun _ ⟨fun _ h => ?_, fun _ h => ?_, fun _ h => ?_⟩ <;> cases h

/-! ## The rates -/

/-- Without wrapping the two formulas agree. -/
theorem grandRealtime_eq {secs now prev : ℕ} (hle : prev ≤ now) (hlt : now < 2 ^ 64)
    (hfits : (now - prev) / max 1 secs < 2 ^ 32) :
    grandRealtime (if secs = 0 then 1 else secs) now prev = rateOf secs now prev := by
  have hsecs : (if secs = 0 then 1 else secs) = max 1 secs := by
    split <;> omega
  have hd : u64 ((now : ℤ) - prev) = now - prev := by
    unfold u64
    omega
  have hpos : 0 < max 1 secs := by omega
  rw [hsecs]
  unfold grandRealtime rateOf
  simp only [hd, if_neg (not_lt.mpr hle)]
  generalize hq : (now - prev) / max 1 secs = q at hfits
  by_cases h0 : q = 0
  · subst h0
    have hsmall : now - prev < max 1 secs := (Nat.div_eq_zero_iff_lt hpos).mp hq
    rw [Nat.mod_eq_of_lt hsmall]
    by_cases hz : now - prev = 0 <;> simp [hz]
  · rw [if_pos h0, Nat.mod_eq_of_lt hfits, if_neg (fun h => h0 h.1)]

theorem map₂_congr {f g : ℕ → ℕ → ℕ} {a b : StatHdr} (h : StatHdr.All₂ (fun x y => f x y = g x y) a b) :
    StatHdr.map₂ f a b = StatHdr.map₂ g a b := by
  unfold StatHdr.map₂
  rw [h.1, h.2.1, h.2.2.1, h.2.2.2]

theorem StatHdr.All₂.mp₂ {p q r : ℕ → ℕ → Prop} {a b : StatHdr} (hp : StatHdr.All₂ p a b) (hq : StatHdr.All₂ q a b)
    (h : ∀ x y, p x y → q x y → r x y) : StatHdr.All₂ r a b :=
  ⟨h _ _ hp.1 hq.1, h _ _ hp.2.1 hq.2.1, h _ _ hp.2.2.1 hq.2.2.1, h _ _ hp.2.2.2 hq.2.2.2⟩

theorem StatHdr.All₂.of_load (a : StatHdr) (b : StatHdr) :
    StatHdr.All₂ (fun now _ => now < 2 ^ 64) a.load b := by
  simp only [StatHdr.All₂, StatHdr.load]
  omega

/-- In every run of packets and timeouts, a sample that publishes rates publishes the increase of
    each counter since the sample before by the seconds in between, where the two can be compared.
    -/
theorem realtime_rates (HZ now : ℕ) (events : List Event) (bumps : List (Bool × ℤ))
    (mem : Option StatData)
    {r : StatHdr} (hr : (Run.after HZ now events).published HZ bumps mem = some r) :
    ∃ last, (Run.after HZ now events).last = some last ∧
      (Comparable HZ ((Run.after HZ now events).counted bumps) last →
        r = StatHdr.map₂ (rateOf (((Run.after HZ now events).now - last.time) / HZ))
          ((Run.after HZ now events).counted bumps).hdr.load last.hdr) := by
  have hgood := after_good HZ now events
  generalize Run.after HZ now events = s at hr hgood
  obtain ⟨-, -, hnone⟩ | ⟨data, -, hfind, -, hpub⟩ := packet_cases HZ s bumps mem
  · rw [hnone] at hr
    cases hr
  rw [hpub] at hr
  -- rates are calculated for a node that was there
  have hnode : s.node = some data := by
    cases hs : s.node with
    | some data' =>
      have : Tracked.statNodeFind (s.counted bumps) mem = some data' := by
        simp only [Tracked.statNodeFind, Run.counted, hs]
      rw [← this, hfind]
    | none =>
      exfalso
      have : Tracked.statNodeFind (s.counted bumps) mem = mem.map fun data => { data with activeStamp := 0 } := by
        simp only [Tracked.statNodeFind, Run.counted, hs]
      rw [this] at hfind
      obtain ⟨data', -, rfl⟩ := Option.map_eq_some_iff.mp hfind
      simp [Tracked.sample] at hr
  obtain ⟨last, hlast, hhist, hstamp⟩ := hgood.last data hnode
  refine ⟨last, hlast, fun hc => ?_⟩
  have hbase : data.hist = last.hdr := by
    rw [hhist]
    cases hrates : last.rates with
    | none => exact (hc.stored hrates).symm
    | some r => rfl
  have hstamp := hstamp hc.stamped
  have htime := hgood.time last hlast
  have hrecent := hc.recent
  have hnow : (s.counted bumps).now = s.now := rfl
  have helapse : u32 (((s.counted bumps).jiffies : ℤ) - data.activeStamp) = s.now - last.time := by
    rw [hstamp, Tracked.jiffies, hnow]
    rw [hnow] at hrecent
    unfold u32
    omega
  unfold Tracked.sample at hr
  split at hr
  · cases hr
    rw [helapse, hbase]
    have hmono := hc.mono.mp₂ (r := fun now prev => prev ≤ now ∧ now < 2 ^ 64) (StatHdr.All₂.of_load _ _)
      fun _ _ h1 h2 => ⟨h1, h2⟩
    exact map₂_congr (hmono.mp₂ hc.fits fun x y h1 h2 => grandRealtime_eq h1.1 h1.2 h2)
  · cases hr

/-- Memory for a node. -/
def sampleMem : Option StatData := some ⟨7, 1, 0, 9, .zero, .zero⟩

/-- A packet of 1500 bytes, and the timeout three seconds later. -/
def packetTimeout : List Event := [.packet [(true, 1500)] sampleMem, .tick 300, .touch]

/-- The second sample of a node reports what was counted before the first one again. -/
theorem second_sample : ∃ r last, (Run.after 100 100 packetTimeout).published 100 [(true, 1500)] sampleMem = some r ∧
    (Run.after 100 100 packetTimeout).last = some last ∧
    last.hdr.recv.bytes = 1500 ∧ (Run.after 100 100 packetTimeout).now - last.time = 300 ∧
    r.recv.bytes = 1000 ∧ rateOf 3 3000 1500 = 500 :=
  ⟨⟨⟨1, 1000⟩, ⟨0, 0⟩⟩, ⟨⟨⟨1, 1500⟩, ⟨0, 0⟩⟩, 100, none⟩, by decide, by decide, rfl, rfl, rfl, by decide⟩

/-- The third sample of a node is right. -/
theorem realtime_rates_third :
    ∃ r, (Run.after 100 100 (packetTimeout ++ packetTimeout)).published 100 [(true, 1500)] sampleMem = some r ∧
      r = StatHdr.map₂ (rateOf 3) ⟨⟨3, 4500⟩, ⟨0, 0⟩⟩ ⟨⟨2, 3000⟩, ⟨0, 0⟩⟩ := by
  have hpub : (Run.after 100 100 (packetTimeout ++ packetTimeout)).published 100 [(true, 1500)] sampleMem =
      some ⟨⟨1, 500⟩, ⟨0, 0⟩⟩ := by decide
  obtain ⟨last, hlast, hr⟩ := realtime_rates 100 100 (packetTimeout ++ packetTimeout) [(true, 1500)] sampleMem hpub
  have heq : last = ⟨⟨⟨2, 3000⟩, ⟨0, 0⟩⟩, 400, some ⟨⟨1, 1000⟩, ⟨0, 0⟩⟩⟩ := Option.some.inj hlast.symm
  subst heq
  exact ⟨_, hpub, hr ⟨by decide, by decide, ⟨by decide, by decide, by decide, by decide⟩, by decide,
    ⟨by decide, by decide, by decide, by decide⟩⟩⟩

end Nproto
