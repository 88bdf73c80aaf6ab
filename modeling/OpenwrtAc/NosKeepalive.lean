/-
# Messages about users that are logged in

When a packet of a user that is logged in comes and the last message about the user is more than
thirty seconds old, the hook sends a message to user space.  The clock of the kernel wraps around,
and what it says of the age of a message is right up to half of its range.
-/
import OpenwrtAc.NosGateRuns
import Mathlib.Tactic.Linarith

namespace Nos

variable {w : ℕ} {hz : ℕ} {s : Kernel w}

/-! ## The clock -/

/-- The comparison is right as long as the clock is not half its range past the time that it is
    compared with. -/
theorem timeAfter_iff {now t gap : ℕ} (hgap : 2 * gap < 2 ^ w) (ht : t ≤ now)
    (hnow : 2 * now ≤ 2 * (t + gap) + 2 ^ w) :
    timeAfter (BitVec.ofNat w now) (BitVec.ofNat w t + BitVec.ofNat w gap) = true ↔
      t + gap < now := by
  have hmod : (BitVec.ofNat w t + BitVec.ofNat w gap - BitVec.ofNat w now).toInt
      = ((t : ℤ) + gap - now).bmod (2 ^ w) := by
    rw [BitVec.toInt_sub, BitVec.toInt_add]
    simp only [BitVec.toInt_ofNat', Int.add_bmod_bmod, Int.bmod_add_bmod, Int.sub_bmod_bmod,
      Int.bmod_sub_bmod]
  have hpow : ((2 ^ w : ℕ) : ℤ) = 2 ^ w := by push_cast; rfl
  have hint : ((t : ℤ) + gap - now).bmod (2 ^ w) = t + gap - now := by
    apply Int.bmod_eq_of_le_mul_two
    · omega
    · omega
  rw [timeAfter, BitVec.msb_eq_toInt, hmod, hint, decide_eq_true_eq]
  omega

/-- It never says too early that a time has passed. -/
theorem lt_of_timeAfter {now t gap : ℕ} (hgap : 2 * gap < 2 ^ w) (ht : t ≤ now)
    (h : timeAfter (BitVec.ofNat w now) (BitVec.ofNat w t + BitVec.ofNat w gap) = true) :
    t + gap < now := by
  by_contra hle
  exact hle ((timeAfter_iff hgap ht (by omega)).1 h)

/-! ## One packet -/

/-- A message about the user is due. -/
def User.Due (hz : ℕ) (jiffies : BitVec w) (ui : User w) : Prop :=
  ui.hdr.status = .ok ∧ timeAfter jiffies (ui.timeStamp + BitVec.ofNat w (30 * hz)) = true

theorem nosAuthGate_message {bypassDst : Option ℕ} {jiffies : BitVec w} {p : Packet}
    {ui ui' : User w} {ct ct' : Conn} {v : Verdict} {msg : Bool}
    (h : nosAuthGate bypassDst hz jiffies p ui ct = (v, ui', ct', msg)) :
    (msg = true ↔ ui.Due hz jiffies) ∧ ui'.timeStamp = if msg then jiffies else ui.timeStamp := by
  -- where the user is not logged in
  have hno : ∀ {st : AuthStatus}, ui.hdr.status = st → st ≠ .ok →
      (false = true ↔ ui.Due hz jiffies) := by
    intro st hst hne
    constructor
    · intro hf
      exact absurd hf Bool.false_ne_true
    · intro hd
      exact absurd (hst.symm.trans hd.1) hne
  unfold nosAuthGate at h
  split at h
  · rename_i hreq
    have hfalse := hno hreq (by decide)
    split at h
    · split at h
      · cases h
        exact ⟨hfalse, rfl⟩
      · cases h
        exact ⟨hfalse, rfl⟩
    · cases h
      exact ⟨hfalse, rfl⟩
    · cases h
      exact ⟨hfalse, rfl⟩
  · rename_i hok
    split at h
    · rename_i hafter
      cases h
      exact ⟨⟨fun _ => ⟨hok, hafter⟩, fun _ => rfl⟩, rfl⟩
    · rename_i hafter
      cases h
      exact ⟨⟨fun hf => absurd hf Bool.false_ne_true, fun hd => absurd hd.2 hafter⟩, rfl⟩
  · rename_i _ hok
    cases h
    exact ⟨hno rfl hok, rfl⟩

theorem lookup_timeStamp (cfg : Config) (dev : ℕ) (bits : BitVec 64) (ui : User w) :
    (ui.lookup cfg dev bits).timeStamp = ui.timeStamp := by
  unfold User.lookup
  dsimp only
  split
  · split <;> rfl
  · split <;> rfl

/-- The lookups leave the times of the messages. -/
theorem lookups_timeStamp (p : Packet) (u : ℕ) :
    (s.lookups p u).timeStamp = (s.users u).timeStamp := by
  have hset : ∀ (f : ℕ → User w) (i : ℕ) (ui : User w), ui.timeStamp = (f i).timeStamp →
      (Function.update f i ui u).timeStamp = (f u).timeStamp := by
    intro f i ui h
    by_cases hu : u = i
    · subst hu
      rw [Function.update_self, h]
    · rw [Function.update_of_ne hu]
  unfold Kernel.lookups
  dsimp only
  rw [hset, hset, hset]
  · exact lookup_timeStamp _ _ _ _
  · exact lookup_timeStamp _ _ _ _
  · rfl

/-- When the messages about a user were sent. -/
def Kernel.times (s : Kernel w) (u : ℕ) : List ℕ := (s.sent.filter fun m => m.1 = u).map (·.2)

theorem times_fwHook {p : Packet} {entered : Bool} (u : ℕ) (hl : s.looks p = true) :
    ((s.lookups p p.user).Due hz s.jiffies ∧ p.user = u ∧
        (s.fwHook hz p entered).times u = s.times u ++ [s.now] ∧
        ((s.fwHook hz p entered).users u).timeStamp = s.jiffies) ∨
      (¬ ((s.lookups p p.user).Due hz s.jiffies ∧ p.user = u) ∧
        (s.fwHook hz p entered).times u = s.times u ∧
        ((s.fwHook hz p entered).users u).timeStamp = (s.users u).timeStamp) := by
  rcases hgate : nosAuthGate s.config.bypassDst hz s.jiffies p (s.lookups p p.user) (s.conns p.conn)
    with ⟨v, ui, ct, msg⟩
  obtain ⟨hmsg, hstamp⟩ := nosAuthGate_message hgate
  rw [fwHook_looks hl hgate]
  cases msg with
  | true =>
    by_cases hu : p.user = u
    · subst hu
      refine Or.inl ⟨hmsg.1 rfl, rfl, ?_, ?_⟩
      · simp [Kernel.times]
      · simpa using hstamp
    · refine Or.inr ⟨fun hd => hu hd.2, ?_, ?_⟩
      · simp [Kernel.times, hu]
      · dsimp only
        rw [Function.update_of_ne (Ne.symm hu), lookups_timeStamp]
  | false =>
    refine Or.inr ⟨fun hd => absurd (hmsg.2 hd.1) Bool.false_ne_true, rfl, ?_⟩
    dsimp only
    by_cases hu : u = p.user
    · subst hu
      rw [Function.update_self, hstamp]
      exact lookups_timeStamp p p.user
    · rw [Function.update_of_ne hu, lookups_timeStamp]

/-! ## Runs -/

/-- The messages about a user are more than thirty seconds apart, and the user holds the time of the
    last. -/
structure Kernel.Timed (hz : ℕ) (s : Kernel w) : Prop where
  spaced : ∀ u, (s.times u).Pairwise fun t t' => t + 30 * hz < t'
  last : ∀ u l t, s.times u = l ++ [t] → t ≤ s.now ∧ (s.users u).timeStamp = BitVec.ofNat w t

theorem timed_init (now : ℕ) (cfg : Config) (users : ℕ → User w) :
    (Kernel.init now cfg users).Timed hz where
  spaced := fun _ => List.Pairwise.nil
  last := fun _ l t ht =>
    absurd ht (List.append_ne_nil_of_right_ne_nil l (List.cons_ne_nil t [])).symm

/-- A packet that the hook looks at and that finds the user logged in sends a message if and only if
    the last one is more than thirty seconds old. -/
def Kernel.Prompt (hz : ℕ) (s : Kernel w) (u : ℕ) : Prop :=
  ∀ p entered, p.user = u → s.looks p = true → (s.lookups p u).hdr.status = .ok →
    ∀ l t, s.times u = l ++ [t] → 2 * s.now ≤ 2 * (t + 30 * hz) + 2 ^ w →
      (s.fwHook hz p entered).times u
        = if t + 30 * hz < s.now then s.times u ++ [s.now] else s.times u

section Runs

variable (hhz : 2 * (30 * hz) < 2 ^ w)

include hhz

/-- All the messages about a user for whom one is due are more than thirty seconds old. -/
theorem Kernel.Timed.old (h : s.Timed hz) {u : ℕ}
    (hdue : timeAfter s.jiffies ((s.users u).timeStamp + BitVec.ofNat w (30 * hz)) = true) :
    ∀ t ∈ s.times u, t + 30 * hz < s.now := by
  rcases List.eq_nil_or_concat' (s.times u) with hnil | ⟨l, t, hl⟩
  · intro t ht
    rw [hnil] at ht
    cases ht
  · obtain ⟨hnow, hstamp⟩ := h.last u l t hl
    rw [hstamp] at hdue
    have hlt := lt_of_timeAfter hhz hnow hdue
    have hspaced := h.spaced u
    rw [hl, List.pairwise_append] at hspaced
    intro x hx
    rw [hl] at hx
    rcases List.mem_append.1 hx with hx | hx
    · have hxt := hspaced.2.2 x hx t List.mem_cons_self
      omega
    · rw [List.mem_singleton.1 hx]
      exact hlt

theorem Kernel.Timed.fwHook (h : s.Timed hz) (p : Packet) (entered : Bool) :
    (s.fwHook hz p entered).Timed hz := by
  by_cases hl : s.looks p = true
  · have hnow : (s.fwHook hz p entered).now = s.now := by
      rw [Kernel.fwHook, if_pos hl]
    constructor
    · intro u
      rcases times_fwHook u hl with ⟨hdue, rfl, htimes, -⟩ | ⟨-, htimes, -⟩
      · rw [htimes, List.pairwise_append]
        refine ⟨h.spaced _, List.pairwise_singleton _ _, ?_⟩
        intro t ht x hx
        rw [List.mem_singleton.1 hx]
        have hd := hdue.2
        rw [lookups_timeStamp] at hd
        exact h.old hhz hd t ht
      · rw [htimes]
        exact h.spaced u
    · intro u l t ht
      rw [hnow]
      rcases times_fwHook u hl with ⟨-, rfl, htimes, hstamp⟩ | ⟨-, htimes, hstamp⟩
      · rw [htimes] at ht
        obtain ⟨-, hlast⟩ := List.append_inj' ht rfl
        cases hlast
        exact ⟨Nat.le_refl _, hstamp⟩
      · rw [htimes] at ht
        rw [hstamp]
        exact h.last u l t ht
  · rw [fwHook_skips hl]
    exact { h with }

theorem Kernel.Timed.step (h : s.Timed hz) (ev : Event) : (s.step hz ev).Timed hz := by
  cases ev with
  | arrive p =>
    simp only [Kernel.step]
    split
    · exact { h with }
    · exact h
  | forward n =>
    simp only [Kernel.step]
    split
    · have h' : Kernel.Timed hz { s with inside := s.inside.eraseIdx n } := { h with }
      exact h'.fwHook hhz _ _
    · exact h
  | setStatus u st =>
    refine ⟨h.spaced, ?_⟩
    intro v l t ht
    obtain ⟨hnow, hstamp⟩ := h.last v l t ht
    refine ⟨hnow, ?_⟩
    rw [← hstamp]
    change (Function.update s.users u _ v).timeStamp = (s.users v).timeStamp
    by_cases hv : v = u
    · subst hv
      rw [Function.update_self]
    · rw [Function.update_of_ne hv]
  | disable b => exact { h with }
  | configure cfg => exact { h with }
  | tick d =>
    refine ⟨h.spaced, ?_⟩
    intro u l t ht
    obtain ⟨hnow, hstamp⟩ := h.last u l t ht
    exact ⟨Nat.le_trans hnow (Nat.le_add_right _ _), hstamp⟩

theorem Kernel.Timed.run (h : s.Timed hz) (evs : List Event) : (s.run hz evs).Timed hz := by
  induction evs generalizing s with
  | nil => exact h
  | cons ev evs ih => exact ih (h.step hhz ev)

/-- At any point of a run the messages about a user are more than thirty seconds apart, and no
    packet misses one that is due, as long as half the range of the clock has not gone by since. -/
theorem run_keepalive (now : ℕ) (cfg : Config) (users : ℕ → User w) (evs : List Event) (u : ℕ) :
    (((Kernel.init now cfg users).run hz evs).times u).Pairwise (fun t t' => t + 30 * hz < t') ∧
      ((Kernel.init now cfg users).run hz evs).Prompt hz u := by
  have h := (timed_init now cfg users).run hhz evs
  refine ⟨h.spaced u, ?_⟩
  intro p entered hp hl hok l t ht hnow
  obtain ⟨hle, hstamp⟩ := h.last u l t ht
  have hiff := timeAfter_iff hhz hle hnow
  subst hp
  have hdue : User.Due hz ((Kernel.init now cfg users).run hz evs).jiffies
      (((Kernel.init now cfg users).run hz evs).lookups p p.user) ↔
      t + 30 * hz < ((Kernel.init now cfg users).run hz evs).now := by
    rw [User.Due, lookups_timeStamp, hstamp]
    exact ⟨fun hd => hiff.1 hd.2, fun hlt => ⟨hok, hiff.2 hlt⟩⟩
  rcases times_fwHook p.user hl with ⟨hd, -, htimes, -⟩ | ⟨hd, htimes, -⟩
  · rw [htimes, if_pos (hdue.1 hd)]
  · rw [htimes, if_neg fun hlt => hd ⟨hdue.2 hlt, rfl⟩]

end Runs

/-- A user that is logged in. -/
def loggedIn : User 32 := ⟨⟨0, 0#64, 1, .web, .ok, 0⟩, 1, 1, 0#32⟩

/-- A packet that asks for a name. -/
def nameQuery : Packet := ⟨true, 0, true, 0, 1, 0, 0, ⟨fun _ => 0, fun _ => 0, fun _ => 0⟩, .udp 53⟩

def emptyConfig : Config := ⟨nosAuthCleanup, none, nosIpgrpCleanup, fun _ => 0, 1, 1, 1⟩

/-- Packets came at 5000, which sent a message, and at 8000, which did not; one at 8001 does again.
    -/
def twoPackets : Kernel 32 :=
  Kernel.run 100 (Kernel.init 5000 emptyConfig fun _ => loggedIn)
    [.arrive nameQuery, .forward 0, .tick 3000, .arrive nameQuery, .forward 0, .tick 1]

theorem run_keepalive_twoPackets :
    (twoPackets.times 0).Pairwise (fun t t' => t + 30 * 100 < t') ∧
      (twoPackets.fwHook 100 nameQuery true).times 0 = [5000] ++ [8001] := by
  have h := run_keepalive (by decide : 2 * (30 * 100) < 2 ^ 32) 5000 emptyConfig (fun _ => loggedIn)
    [.arrive nameQuery, .forward 0, .tick 3000, .arrive nameQuery, .forward 0, .tick 1] 0
  exact ⟨h.1, h.2 nameQuery true rfl (by decide) (by decide) [] 5000 (by decide) (by decide)⟩

end Nos
