/-
# The shared message ring

`ntrack_rbf.h`: the kernel fills nodes of a ring in shared memory and a user
program reads them.  Each side keeps an index of its own in the header, and full
and empty are told apart by these two alone.  The model interleaves the two
sides at every access to the other side's index and at every byte written to or
read from a node.
-/
import OpenwrtAc.RingQueue

namespace Ntrack

/-- `RBF_NODE_SIZE`. -/
def rbfNodeSize : ℕ := 1024 * 2

/-- `rbf_t`: the header and the flat buffer of `count` nodes behind it. -/
structure Rbf where
  r : UInt16
  w : UInt16
  count : UInt16
  buffer : ℕ → UInt8

/-- `(idx + 1) % count`, stored in a `uint16_t`. -/
def nextIdx (idx count : UInt16) : UInt16 := UInt16.ofNat ((idx.toNat + 1) % count.toNat)

/-- `rbf_get_buff`: the address of the node to fill, `none` for `NULL`. -/
def rbfGetBuff (rbp : Rbf) : Option ℕ :=
  if nextIdx rbp.w rbp.count ≠ rbp.r then some (rbfNodeSize * rbp.w.toNat) else none

/-- `rbf_release_buff`. -/
def rbfReleaseBuff (rbp : Rbf) : Rbf := { rbp with w := nextIdx rbp.w rbp.count }

/-- `rbf_get_data`: the address of the node to read, `none` for `NULL`. -/
def rbfGetData (rbp : Rbf) : Option ℕ :=
  if rbp.r ≠ rbp.w then some (rbfNodeSize * rbp.r.toNat) else none

/-- `rbf_release_data`. -/
def rbfReleaseData (rbp : Rbf) : Rbf := { rbp with r := nextIdx rbp.r rbp.count }

/-- One byte stored through a node's address. -/
def Rbf.poke (rbp : Rbf) (p : ℕ) (k : Fin rbfNodeSize) (b : UInt8) : Rbf :=
  { rbp with buffer := Function.update rbp.buffer (p + k) b }

/-- What a node holds. -/
abbrev Node := Fin rbfNodeSize → UInt8

/-- The node at an address. -/
def Rbf.node (rbp : Rbf) (p : ℕ) : Node := fun k => rbp.buffer (p + k)

/-! ## The two sides -/

/-- Where the producer stands. -/
inductive Producer where
  | idle
  | filling (p : ℕ)

/-- Where the consumer stands; while it reads, the bytes it has seen so far. -/
inductive Consumer where
  | idle
  | reading (p : ℕ) (seen : List (Fin rbfNodeSize × UInt8))

/-- The ring, the two sides, and what happened: the nodes that were filled, each with its
    address and its contents, and the nodes that were released, each with its address and
    what was read from it. -/
structure World where
  ring : Rbf
  producer : Producer
  consumer : Consumer
  filled : List (ℕ × Node)
  received : List (ℕ × List (Fin rbfNodeSize × UInt8))

/-- A ring at any position, with nothing in it. -/
def World.init (ring : Rbf) : World := ⟨ring, .idle, .idle, [], []⟩

/-- One access of one side.  An index is written by its own side only, so each call of the
    header's functions has a single access that the other side can interfere with. -/
inductive Step : World → World → Prop where
  | getBuff {s p} : s.producer = .idle → rbfGetBuff s.ring = some p →
      Step s { s with producer := .filling p }
  | getBuffFull {s} : s.producer = .idle → rbfGetBuff s.ring = none → Step s s
  | fill {s p} (k : Fin rbfNodeSize) (b : UInt8) : s.producer = .filling p →
      Step s { s with ring := s.ring.poke p k b }
  | releaseBuff {s p} : s.producer = .filling p →
      Step s { s with
        ring := rbfReleaseBuff s.ring
        producer := .idle
        filled := s.filled ++ [(p, s.ring.node p)] }
  | getData {s p} : s.consumer = .idle → rbfGetData s.ring = some p →
      Step s { s with consumer := .reading p [] }
  | getDataEmpty {s} : s.consumer = .idle → rbfGetData s.ring = none → Step s s
  | read {s p seen} (k : Fin rbfNodeSize) : s.consumer = .reading p seen →
      Step s { s with consumer := .reading p (seen ++ [(k, s.ring.node p k)]) }
  | releaseData {s p seen} : s.consumer = .reading p seen →
      Step s { s with
        ring := rbfReleaseData s.ring
        consumer := .idle
        received := s.received ++ [(p, seen)] }

/-- Any interleaving of the two sides. -/
inductive Reach (ring : Rbf) : World → Prop where
  | init : Reach ring (World.init ring)
  | step {s s'} : Reach ring s → Step s s' → Reach ring s'

/-! ## What the ring is for -/

/-- What was read from a node agrees with how it was filled. -/
def Faithful (m : ℕ × Node) (p : ℕ) (seen : List (Fin rbfNodeSize × UInt8)) : Prop :=
  p = m.1 ∧ ∀ x ∈ seen, x.2 = m.2 x.1

/-- A first-in first-out channel: the consumer's `j`-th node is the producer's `j`-th, with
    the contents it was filled with; what is not released yet is still in the ring, the
    next of it is what the consumer is handed, a node is refused only while all but one are
    taken by it; and the producer's node is none of these. -/
structure Delivers (s : World) : Prop where
  length_le : s.received.length ≤ s.filled.length
  received : ∀ j (hj : j < s.received.length) (hj' : j < s.filled.length),
    Faithful s.filled[j] s.received[j].1 s.received[j].2
  reading : ∀ p seen, s.consumer = .reading p seen →
    ∃ h : s.received.length < s.filled.length, Faithful s.filled[s.received.length] p seen
  pending : ∀ j (hj : j < s.filled.length), s.received.length ≤ j →
    s.ring.node s.filled[j].1 = s.filled[j].2
  next : ∀ h : s.received.length < s.filled.length,
    rbfGetData s.ring = some (s.filled[s.received.length].1)
  none : s.received.length = s.filled.length → rbfGetData s.ring = Option.none
  full : rbfGetBuff s.ring = Option.none ↔
    s.filled.length - s.received.length + 1 = s.ring.count.toNat
  writes : ∀ p, s.producer = .filling p →
    ∀ j (hj : j < s.filled.length), s.received.length ≤ j → s.filled[j].1 ≠ p

/-! ## The invariant -/

/-- The `i`-th slot of the ring: the node's address and what stands there. -/
def Rbf.slot (rbp : Rbf) (i : ℕ) : ℕ × Node := (rbfNodeSize * i, rbp.node (rbfNodeSize * i))

/-- The messages that are filled and not released stand in the ring as a queue; the
    producer writes behind it, the consumer reads its front. -/
structure Inv (s : World) : Prop where
  length_le : s.received.length ≤ s.filled.length
  queue : RingQueue s.ring.count.toNat s.ring.slot s.ring.r.toNat s.ring.w.toNat
    (s.filled.drop s.received.length)
  received : ∀ j (hj : j < s.received.length) (hj' : j < s.filled.length),
    Faithful s.filled[j] s.received[j].1 s.received[j].2
  reading : ∀ p seen, s.consumer = .reading p seen →
    s.received.length < s.filled.length ∧ p = rbfNodeSize * s.ring.r.toNat
      ∧ ∀ x ∈ seen, x.2 = s.ring.node p x.1
  filling : ∀ p, s.producer = .filling p → p = rbfNodeSize * s.ring.w.toNat
    ∧ s.filled.length - s.received.length + 1 < s.ring.count.toNat

theorem nextIdx_toNat (idx : UInt16) {count : UInt16} (h : 0 < count.toNat) :
    (nextIdx idx count).toNat = (idx.toNat + 1) % count.toNat := by
  have hlt : (idx.toNat + 1) % count.toNat < 2 ^ 16 :=
    lt_trans (Nat.mod_lt _ h) count.toNat_lt
  unfold nextIdx
  rw [UInt16.toNat_ofNat']
  exact Nat.mod_eq_of_lt hlt

/-- A byte written into one node leaves every other node as it was. -/
theorem slot_poke_ne (rbp : Rbf) {i j : ℕ} (k : Fin rbfNodeSize) (b : UInt8) (h : i ≠ j) :
    (rbp.poke (rbfNodeSize * j) k b).slot i = rbp.slot i := by
  unfold Rbf.slot
  refine Prod.ext rfl (funext fun l => ?_)
  refine Function.update_of_ne ?_ _ _
  have hk := k.isLt
  have hl := l.isLt
  unfold rbfNodeSize at *
  omega

theorem rbfGetBuff_eq_some {rbp : Rbf} {p : ℕ} (h : rbfGetBuff rbp = some p) :
    p = rbfNodeSize * rbp.w.toNat ∧ nextIdx rbp.w rbp.count ≠ rbp.r := by
  unfold rbfGetBuff at h
  split at h
  next hne => exact ⟨(Option.some.inj h).symm, hne⟩
  next => exact absurd h (by simp)

theorem rbfGetData_eq_some {rbp : Rbf} {p : ℕ} (h : rbfGetData rbp = some p) :
    p = rbfNodeSize * rbp.r.toNat ∧ rbp.r ≠ rbp.w := by
  unfold rbfGetData at h
  split at h
  next hne => exact ⟨(Option.some.inj h).symm, hne⟩
  next => exact absurd h (by simp)

namespace Inv

variable {s : World}

theorem count_pos (h : Inv s) : 0 < s.ring.count.toNat :=
  lt_of_le_of_lt (Nat.zero_le _) h.queue.r_lt

/-- The consumer's index meets the producer's exactly when all that was filled is released. -/
theorem r_eq_w_iff (h : Inv s) : s.ring.r = s.ring.w ↔ s.received.length = s.filled.length := by
  rw [← UInt16.toNat_inj, h.queue.eq_iff_empty, List.drop_eq_nil_iff]
  have := h.length_le
  omega

/-- A message that is not released stands in the ring with its address. -/
theorem filled_eq_slot (h : Inv s) {j : ℕ}
    (hj : j < s.filled.length) (hle : s.received.length ≤ j) :
    s.filled[j] =
      s.ring.slot ((s.ring.r.toNat + (j - s.received.length)) % s.ring.count.toNat) := by
  have hi : j - s.received.length < (s.filled.drop s.received.length).length := by
    rw [List.length_drop]
    omega
  have hslot := h.queue.holds _ hi
  rw [List.getElem_drop] at hslot
  rw [hslot]
  congr 1
  omega

theorem filled_eq_front (h : Inv s) (hlt : s.received.length < s.filled.length) :
    s.filled[s.received.length] = s.ring.slot s.ring.r.toNat := by
  have := h.filled_eq_slot hlt (le_refl _)
  rwa [Nat.sub_self, add_zero, Nat.mod_eq_of_lt h.queue.r_lt] at this

/-- The invariant gives the channel. -/
theorem delivers (h : Inv s) : Delivers s where
  length_le := h.length_le
  received := h.received
  reading p seen hc := by
    obtain ⟨hlt, hp, hseen⟩ := h.reading p seen hc
    refine ⟨hlt, ?_⟩
    rw [h.filled_eq_front hlt]
    subst hp
    exact ⟨rfl, hseen⟩
  pending j hj hle := by
    rw [h.filled_eq_slot hj hle]
    rfl
  next hlt := by
    have hne : s.ring.r ≠ s.ring.w := fun he => by
      have := h.r_eq_w_iff.1 he
      omega
    rw [rbfGetData, if_pos hne, h.filled_eq_front hlt]
    rfl
  none he := by
    rw [rbfGetData, if_neg (not_not.2 (h.r_eq_w_iff.2 he))]
  full := by
    rw [← List.length_drop, ← h.queue.succ_eq_iff_full, ← nextIdx_toNat _ h.count_pos,
      UInt16.toNat_inj]
    simp [rbfGetBuff]
  writes p hp j hj hle := by
    have hi : j - s.received.length < (s.filled.drop s.received.length).length := by
      rw [List.length_drop]
      omega
    have hne := h.queue.ne_w hi
    rw [h.filled_eq_slot hj hle, (h.filling p hp).1]
    exact fun he => hne (Nat.eq_of_mul_eq_mul_left (by decide) he)

/-- What the ring and the two lists have to satisfy again after an access that moves
    neither index, touches no queued node and ends no message. -/
theorem frame (h : Inv s) {s' : World} (hf : s'.filled = s.filled) (hr : s'.received = s.received)
    (hri : s'.ring.r = s.ring.r) (hwi : s'.ring.w = s.ring.w) (hc : s'.ring.count = s.ring.count)
    (hslot : ∀ i, i ≠ s.ring.w.toNat → s'.ring.slot i = s.ring.slot i)
    (hreading : ∀ p seen, s'.consumer = .reading p seen →
      s.received.length < s.filled.length ∧ p = rbfNodeSize * s.ring.r.toNat
        ∧ ∀ x ∈ seen, x.2 = s.ring.node p x.1)
    (hfilling : ∀ p, s'.producer = .filling p → p = rbfNodeSize * s.ring.w.toNat
      ∧ s.filled.length - s.received.length + 1 < s.ring.count.toNat) : Inv s' where
  length_le := by rw [hf, hr]; exact h.length_le
  queue := by rw [hf, hr, hri, hwi, hc]; exact h.queue.congr hslot
  received := by simpa only [hf, hr] using h.received
  reading p seen hp := by
    obtain ⟨hlt, rfl, hseen⟩ := hreading p seen hp
    rw [hf, hr, hri]
    refine ⟨hlt, rfl, fun x hx => ?_⟩
    -- the front is queued, so the access did not touch it
    have hne : s.ring.r.toNat ≠ s.ring.w.toNat := fun he => by
      have := h.r_eq_w_iff.1 (UInt16.toNat_inj.1 he)
      omega
    have hnode : s'.ring.node (rbfNodeSize * s.ring.r.toNat)
        = s.ring.node (rbfNodeSize * s.ring.r.toNat) := congrArg Prod.snd (hslot _ hne)
    rw [hnode]
    exact hseen x hx
  filling p hp := by
    rw [hf, hr, hwi, hc]
    exact hfilling p hp

/-- Publishing a node. -/
theorem releaseBuff (h : Inv s) {p : ℕ} (hp : s.producer = .filling p) :
    Inv { s with
      ring := rbfReleaseBuff s.ring
      producer := .idle
      filled := s.filled ++ [(p, s.ring.node p)] } := by
  obtain ⟨rfl, hfit⟩ := h.filling p hp
  have hle := h.length_le
  refine ⟨?_, ?_, ?_, ?_, ?_⟩
  · simp only [List.length_append, List.length_singleton]
    omega
  · have hpush := h.queue.push (by rw [List.length_drop]; exact hfit)
    simp only [rbfReleaseBuff, nextIdx_toNat _ h.count_pos]
    rw [List.drop_append_of_le_length hle]
    exact hpush
  · intro j hj hj'
    have hlt : j < s.filled.length := by
      have hj0 : j < s.received.length := hj
      omega
    simp only [List.getElem_append_left hlt]
    exact h.received j hj hlt
  · intro p' seen hc
    obtain ⟨hlt, hp', hseen⟩ := h.reading p' seen hc
    refine ⟨?_, hp', hseen⟩
    simp only [List.length_append, List.length_singleton]
    omega
  · intro p' hp'
    exact absurd hp' (by simp)

/-- Releasing the front. -/
theorem releaseData (h : Inv s) {p : ℕ} {seen : List (Fin rbfNodeSize × UInt8)}
    (hc : s.consumer = .reading p seen) :
    Inv { s with
      ring := rbfReleaseData s.ring
      consumer := .idle
      received := s.received ++ [(p, seen)] } := by
  obtain ⟨hlt, rfl, hseen⟩ := h.reading p seen hc
  have hdrop : s.filled.drop s.received.length
      = s.filled[s.received.length] :: s.filled.drop (s.received.length + 1) :=
    List.drop_eq_getElem_cons hlt
  refine ⟨?_, ?_, ?_, ?_, ?_⟩
  · simp only [List.length_append, List.length_singleton]
    omega
  · have hqueue := h.queue
    rw [hdrop] at hqueue
    simp only [rbfReleaseData, nextIdx_toNat _ h.count_pos, List.length_append,
      List.length_singleton]
    exact hqueue.pop
  · intro j hj hj'
    -- what was received before is as it was, and the new entry is the front of the ring
    by_cases hj0 : j < s.received.length
    · simp only [List.getElem_append_left hj0]
      exact h.received j hj0 hj'
    · have he : j = s.received.length := by
        simp only [List.length_append, List.length_singleton] at hj
        omega
      subst he
      simp only [List.getElem_append_right (le_refl _), Nat.sub_self, List.getElem_singleton]
      have hfront := h.filled_eq_front hlt
      refine ⟨?_, ?_⟩
      · rw [show s.filled[s.received.length] = _ from hfront]
        rfl
      · rw [show s.filled[s.received.length] = _ from hfront]
        exact hseen
  · intro p' seen' hc'
    exact absurd hc' (by simp)
  · intro p' hp'
    obtain ⟨hp0, hfit⟩ := h.filling p' hp'
    refine ⟨hp0, ?_⟩
    simp only [rbfReleaseData, List.length_append, List.length_singleton]
    omega

/-- Every access of either side keeps the invariant. -/
theorem step {s' : World} (h : Inv s) (hstep : Step s s') : Inv s' := by
  cases hstep with
  | getBuff hidle hget =>
    obtain ⟨rfl, hne⟩ := rbfGetBuff_eq_some hget
    refine h.frame rfl rfl rfl rfl rfl (fun _ _ => rfl) h.reading ?_
    intro p hp
    cases hp
    refine ⟨rfl, ?_⟩
    -- the slot after `w` is not the front, so one more message fits
    have hfull := mt h.delivers.full.2 (by rw [hget]; simp)
    have hfits := h.queue.fits
    rw [List.length_drop] at hfits
    omega
  | getBuffFull => exact h
  | fill k b hp =>
    obtain ⟨rfl, hfit⟩ := h.filling _ hp
    exact h.frame rfl rfl rfl rfl rfl (fun i hi => slot_poke_ne _ k b hi) h.reading h.filling
  | releaseBuff hp => exact h.releaseBuff hp
  | getData hidle hget =>
    obtain ⟨rfl, hne⟩ := rbfGetData_eq_some hget
    refine h.frame rfl rfl rfl rfl rfl (fun _ _ => rfl) ?_ h.filling
    intro p seen hp
    cases hp
    refine ⟨?_, rfl, by simp⟩
    have := mt h.r_eq_w_iff.2 hne
    have := h.length_le
    omega
  | getDataEmpty => exact h
  | read k hc =>
    refine h.frame rfl rfl rfl rfl rfl (fun _ _ => rfl) ?_ h.filling
    intro p seen hp
    cases hp
    obtain ⟨hlt, hp, hseen⟩ := h.reading _ _ hc
    refine ⟨hlt, hp, fun x hx => ?_⟩
    rcases List.mem_append.1 hx with hx | hx
    · exact hseen x hx
    · rw [List.mem_singleton.1 hx]
  | releaseData hc => exact h.releaseData hc

end Inv

theorem Inv.init {ring : Rbf} (heq : ring.r = ring.w) (hr : ring.r < ring.count) :
    Inv (World.init ring) where
  length_le := le_refl _
  queue := by
    change RingQueue ring.count.toNat ring.slot ring.r.toNat ring.w.toNat []
    rw [← heq]
    exact RingQueue.empty (UInt16.lt_iff_toNat_lt.1 hr)
  received j hj := absurd hj (by simp [World.init])
  reading p seen hc := absurd hc (by simp [World.init])
  filling p hp := absurd hp (by simp [World.init])

theorem Reach.inv {ring : Rbf} (heq : ring.r = ring.w) (hr : ring.r < ring.count) {s : World}
    (h : Reach ring s) : Inv s := by
  induction h with
  | init => exact Inv.init heq hr
  | step _ hstep ih => exact ih.step hstep

/-- A ring of any number of nodes, empty at any position, is a first-in first-out channel
    under every interleaving of its two sides. -/
theorem ring_delivers {ring : Rbf} (heq : ring.r = ring.w) (hr : ring.r < ring.count) {s : World}
    (h : Reach ring s) : Delivers s :=
  (h.inv heq hr).delivers

/-- Two nodes, with both indices at the last one. -/
def twoNodes : Rbf := ⟨1, 1, 2, fun _ => 0⟩

/-- One message through the last node of a ring of two. -/
theorem ring_delivers_twoNodes :
    ∃ s, Reach twoNodes s ∧ s.received = [(rbfNodeSize, [(⟨3, by decide⟩, 7)])] ∧ Delivers s := by
  have h : Reach twoNodes _ :=
    ((((((Reach.init.step (.getBuff rfl rfl)).step (.fill ⟨3, by decide⟩ 7 rfl)).step
      (.releaseBuff rfl)).step (.getData rfl rfl)).step (.read ⟨3, by decide⟩ rfl)).step
      (.releaseData rfl))
  exact ⟨_, h, rfl, ring_delivers rfl (by decide) h⟩

end Ntrack
