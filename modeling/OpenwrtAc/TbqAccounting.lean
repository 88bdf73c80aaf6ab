/-
# Accounting

Five sums are kept as counters: the octets of a flow, the octets of the flows that
wait for a user, the octets and the weights of a user's token control, and those of
a bucket's.  `Acct` says that every counter is the sum it stands for, modulo `2 ^ 32`
where the counter is a `uint32_t`, together with the structure that the sums need.
It holds without any bound on the packets: a run in which a counter wraps either
goes on tracking the sum or fails an assertion.
-/
import OpenwrtAc.TbqShed
import OpenwrtAc.ListSum

open Outcome MachineInt ListSum

namespace Tbq

/-- The octets of a list of packets. -/
def bytes (l : List Packet) : ℕ := total l Packet.pktLen

/-- The octets of the packets of a list that have rule `i` in their mask. -/
def ruleBytes (l : List Packet) (i : RuleIdx) : ℕ :=
  total l fun p => if p.ruleMask.has i then p.pktLen else 0

/-- The octets queued in the flows that wait for the user entry `r`. -/
def waitingBytes (q : QueueState) (r : UserRef) : ℕ :=
  total q.flows fun f =>
    if (q.unit (.flow f r.d)).tc = some (.user r) then bytes (q.packets f r.d) else 0

/-- The octets queued for the user entry `r`, whatever they wait for. -/
def userBytes (q : QueueState) (r : UserRef) : ℕ :=
  total q.flows fun f => if f.user = r.u then ruleBytes (q.packets f r.d) r.i else 0

/-- The octets queued for rule `i` in direction `d`. -/
def bucketBytes (q : QueueState) (d : Dir) (i : RuleIdx) : ℕ :=
  total q.flows fun f => ruleBytes (q.packets f d) i

/-- The weight of the attached flows of the user entry `r`. -/
def userWeight (q : QueueState) (r : UserRef) : ℕ :=
  total q.flows fun f =>
    if f.user = r.u ∧ (q.unit (.flow f r.d)).tc ≠ none ∧ (q.flow f).ruleMask.has r.i = true
    then (q.flow f).weight r.i else 0

/-- The weight of the users that have octets queued for rule `i`. -/
def bucketWeight (q : QueueState) (d : Dir) (i : RuleIdx) : ℕ :=
  total q.users fun u =>
    if (q.bl (.user ⟨u, d, i⟩)).octets ≠ 0 then (q.unit (.user ⟨u, d, i⟩)).weight else 0

/-- The number of packets queued. -/
def queued (q : QueueState) : ℕ :=
  total q.flows fun f => (q.packets f 0).length + (q.packets f 1).length

/-- The structure behind the sums: the lists `tbq.flows` and `tbq.users` have no
repetitions and hold whatever has packets or links, a packet belongs to the flow it
is queued in and carries its rules, and a unit that is attached has something to
wait with. -/
structure Shape (q : QueueState) : Prop where
  links : Links q
  flowsNodup : q.flows.Nodup
  usersNodup : q.users.Nodup
  packetOk : ∀ f d, ∀ p ∈ q.packets f d,
    p.flow = f ∧ p.dir = d ∧ p.ruleMask = (q.flow f).ruleMask
  tracked : ∀ f d, (q.unit (.flow f d)).tc ≠ none ∨ q.packets f d ≠ [] → f ∈ q.flows
  userTracked : ∀ f d, (q.unit (.flow f d)).tc ≠ none ∨ q.packets f d ≠ [] → f.user ∈ q.users
  held : ∀ f d, (q.unit (.flow f d)).octets ≠ 0 → (q.unit (.flow f d)).tc ≠ none
  busy : ∀ f d, (q.unit (.flow f d)).tc ≠ none → q.packets f d ≠ []
  userBusy : ∀ r, (q.unit (.user r)).tc ≠ none →
    ∃ f, (q.unit (.flow f r.d)).tc = some (.user r)
  rule : ∀ f d r, (q.unit (.flow f d)).tc = some (.user r) → (q.flow f).ruleMask.has r.i = true

/-- The totals at the token controls. -/
structure TcTotals (q : QueueState) : Prop where
  tcOctets : ∀ r, (q.bl (.user r)).octets = userBytes q r % 2 ^ 32
  bucketOctets : ∀ d i, (q.bl (.bucket d i)).octets = bucketBytes q d i % 2 ^ 32
  tcWeight : ∀ r, (q.bl (.user r)).weight = userWeight q r
  bucketWeights : ∀ d i, (q.bl (.bucket d i)).weight = bucketWeight q d i

/-- Every counter is the sum it stands for. -/
structure Acct (q : QueueState) : Prop extends Shape q, TcTotals q where
  flowOctets : ∀ f d, (q.unit (.flow f d)).octets = bytes (q.packets f d) % 2 ^ 32
  userOctets : ∀ r, (q.unit (.user r)).octets = waitingBytes q r % 2 ^ 32

/-! ## Sums over packets -/

/-- The octets of a queue do not depend on its order. -/
theorem bytes_perm {l l' : List Packet} (h : l.Perm l') : bytes l = bytes l' :=
  (h.map _).sum_eq

/-- Nor do those under one rule. -/
theorem ruleBytes_perm {l l' : List Packet} (h : l.Perm l') (i : RuleIdx) :
    ruleBytes l i = ruleBytes l' i := (h.map _).sum_eq

@[simp] theorem bytes_nil : bytes [] = 0 := rfl

@[simp] theorem ruleBytes_nil (i : RuleIdx) : ruleBytes [] i = 0 := rfl

@[simp] theorem bytes_cons (p : Packet) (l : List Packet) : bytes (p :: l) = p.pktLen + bytes l :=
  total_cons p l _

@[simp] theorem ruleBytes_cons (p : Packet) (l : List Packet) (i : RuleIdx) :
    ruleBytes (p :: l) i = (if p.ruleMask.has i then p.pktLen else 0) + ruleBytes l i :=
  total_cons p l _

/-- A packet behind the queue adds its length. -/
theorem bytes_concat (l : List Packet) (p : Packet) : bytes (l ++ [p]) = bytes l + p.pktLen := by
  simp [bytes]

/-- A queue with octets has packets. -/
theorem ne_nil_of_bytes {l : List Packet} (h : bytes l ≠ 0) : l ≠ [] := by
  rintro rfl
  exact h rfl

/-- A queue with packets has octets. -/
theorem bytes_pos {l : List Packet} (h : l ≠ []) : 0 < bytes l := by
  cases l with
  | nil => exact absurd rfl h
  | cons p l =>
      have := p.len_pos
      rw [bytes_cons]
      omega

/-! ## One flow changes -/

/-- What the flow `f` adds to `waitingBytes`. -/
def waitAt (q : QueueState) (r : UserRef) (f : FlowId) : ℕ :=
  if (q.unit (.flow f r.d)).tc = some (.user r) then bytes (q.packets f r.d) else 0

/-- What the flow `f` adds to `userWeight`. -/
def weightAt (q : QueueState) (r : UserRef) (f : FlowId) : ℕ :=
  if f.user = r.u ∧ (q.unit (.flow f r.d)).tc ≠ none ∧ (q.flow f).ruleMask.has r.i = true
  then (q.flow f).weight r.i else 0

/-- Between the two states only the flow `f` in direction `d` changed its packets or
its links; the classes of the flows and the weights of the users did not change. -/
structure FlowChange (f : FlowId) (d : Dir) (q q' : QueueState) : Prop where
  flow : q'.flow = q.flow
  flows : q'.flows = q.flows
  users : q'.users = q.users
  userMask : q'.userMask = q.userMask
  packets : ∀ g e, ¬ (g = f ∧ e = d) → q'.packets g e = q.packets g e
  tc : ∀ g e, ¬ (g = f ∧ e = d) → (q'.unit (.flow g e)).tc = (q.unit (.flow g e)).tc
  octets : ∀ g e, ¬ (g = f ∧ e = d) → (q'.unit (.flow g e)).octets = (q.unit (.flow g e)).octets
  unitWeight : ∀ r, (q'.unit (.user r)).weight = (q.unit (.user r)).weight

namespace FlowChange

variable {f : FlowId} {d : Dir} {q q' : QueueState}

/-- Other users and directions wait with what they waited with. -/
theorem waitAt_of_ne (h : FlowChange f d q q') {r : UserRef} {g : FlowId}
    (hne : ¬ (g = f ∧ r.d = d)) : waitAt q' r g = waitAt q r g := by
  unfold waitAt
  rw [h.tc g r.d hne, h.packets g r.d hne]

/-- Other users and directions weigh what they weighed. -/
theorem weightAt_of_ne (h : FlowChange f d q q') {r : UserRef} {g : FlowId}
    (hne : ¬ (g = f ∧ r.d = d)) : weightAt q' r g = weightAt q r g := by
  unfold weightAt
  rw [h.tc g r.d hne, h.flow]

/-- The waiting octets of a user change by those of the one flow. -/
theorem waitingBytes (h : FlowChange f d q q') (hn : q.flows.Nodup) (hf : f ∈ q.flows)
    (r : UserRef) :
    Tbq.waitingBytes q' r + waitAt q r f = Tbq.waitingBytes q r + waitAt q' r f := by
  unfold Tbq.waitingBytes
  rw [h.flows]
  exact total_update hn hf (waitAt q r) (waitAt q' r) fun g _ hg => h.waitAt_of_ne fun e => hg e.1

/-- The weight of a user changes by that of the one flow. -/
theorem userWeight (h : FlowChange f d q q') (hn : q.flows.Nodup) (hf : f ∈ q.flows)
    (r : UserRef) :
    Tbq.userWeight q' r + weightAt q r f = Tbq.userWeight q r + weightAt q' r f := by
  unfold Tbq.userWeight
  rw [h.flows]
  exact total_update hn hf (weightAt q r) (weightAt q' r) fun g _ hg =>
    h.weightAt_of_ne fun e => hg e.1

/-- The octets of a user under a rule change by those of the one flow. -/
theorem userBytes (h : FlowChange f d q q') (hn : q.flows.Nodup) (hf : f ∈ q.flows) (i : RuleIdx) :
    Tbq.userBytes q' ⟨f.user, d, i⟩ + ruleBytes (q.packets f d) i
      = Tbq.userBytes q ⟨f.user, d, i⟩ + ruleBytes (q'.packets f d) i := by
  unfold Tbq.userBytes
  rw [h.flows]
  have := total_update hn hf
    (fun g => if g.user = f.user then ruleBytes (q.packets g d) i else 0)
    (fun g => if g.user = f.user then ruleBytes (q'.packets g d) i else 0)
    (fun g _ hg => by rw [h.packets g d fun e => hg e.1])
  simpa using this

/-- Other users keep their octets. -/
theorem userBytes_of_ne (h : FlowChange f d q q') {r : UserRef} (hr : ¬ (r.u = f.user ∧ r.d = d)) :
    Tbq.userBytes q' r = Tbq.userBytes q r := by
  unfold Tbq.userBytes
  rw [h.flows]
  apply total_congr
  intro g _
  by_cases hg : g = f ∧ r.d = d
  · rw [if_neg, if_neg]
    · rw [hg.1]
      exact fun e => hr ⟨e.symm, hg.2⟩
    · rw [hg.1]
      exact fun e => hr ⟨e.symm, hg.2⟩
  · rw [h.packets g r.d hg]

/-- The octets of a bucket change by those of the one flow. -/
theorem bucketBytes (h : FlowChange f d q q') (hn : q.flows.Nodup) (hf : f ∈ q.flows)
    (i : RuleIdx) :
    Tbq.bucketBytes q' d i + ruleBytes (q.packets f d) i
      = Tbq.bucketBytes q d i + ruleBytes (q'.packets f d) i := by
  unfold Tbq.bucketBytes
  rw [h.flows]
  exact total_update hn hf (fun g => ruleBytes (q.packets g d) i)
    (fun g => ruleBytes (q'.packets g d) i) fun g _ hg => by rw [h.packets g d fun e => hg e.1]

/-- The buckets of the other direction keep their octets. -/
theorem bucketBytes_of_ne (h : FlowChange f d q q') {e : Dir} (he : e ≠ d) (i : RuleIdx) :
    Tbq.bucketBytes q' e i = Tbq.bucketBytes q e i := by
  unfold Tbq.bucketBytes
  rw [h.flows]
  exact total_congr fun g _ => by rw [h.packets g e fun hg => he hg.2]

end FlowChange

/-! ## A packet enters or leaves its flow -/

/-- The packet `p` enters its flow (`len` is its length) or leaves it (`len` is its
negated length); the flow then holds `l`, and `w` are the weights passed on to the
totals of the rules. -/
structure Moved (p : Packet) (len : ℤ) (w : RuleIdx → ℤ) (l : List Packet) (q q' : QueueState) :
    Prop where
  change : FlowChange p.flow p.dir q q'
  packets : q'.packets p.flow p.dir = l
  user : ∀ i, p.ruleMask.has i = true →
    (q'.bl (.user (p.userRef i))).octets = u32 ((q.bl (.user (p.userRef i))).octets + len)
    ∧ (q'.bl (.user (p.userRef i))).weight = ((q.bl (.user (p.userRef i))).weight + w i).toNat
  bucket : ∀ i, p.ruleMask.has i = true →
    (q'.bl (p.userRef i).bucket).octets = u32 ((q.bl (p.userRef i).bucket).octets + len)
    ∧ (q'.bl (p.userRef i).bucket).weight = (q.bl (p.userRef i).bucket).weight
        + (if (q.bl (.user (p.userRef i))).octets = 0
           then (q.unit (.user (p.userRef i))).weight else 0)
        - (if (q'.bl (.user (p.userRef i))).octets = 0
           then (q.unit (.user (p.userRef i))).weight else 0)
  otherBl : ∀ X, (∀ i, p.ruleMask.has i = true → X ≠ .user (p.userRef i) ∧ X ≠ (p.userRef i).bucket) →
    (q'.bl X).octets = (q.bl X).octets ∧ (q'.bl X).weight = (q.bl X).weight
  backlogPackets : q'.backlogPackets = q.backlogPackets
  dq : q'.dq = q.dq

/-- A packet that leaves its flow leaves the others where they are. -/
theorem Moved.packets_subset {p : Packet} {len : ℤ} {w : RuleIdx → ℤ} {rest : List Packet}
    {q q' : QueueState} (h : Moved p len w rest q q')
    (hp : (q.packets p.flow p.dir).Perm (p :: rest)) {g : FlowId} {e : Dir} {p' : Packet}
    (hp' : p' ∈ q'.packets g e) : p' ∈ q.packets g e := by
  by_cases hge : g = p.flow ∧ e = p.dir
  · obtain ⟨rfl, rfl⟩ := hge
    rw [h.packets] at hp'
    exact hp.mem_iff.mpr (List.mem_cons_of_mem p hp')
  · rwa [h.change.packets g e hge] at hp'

/-- The walk over the rules of `p`, from a state that differs from `q` in the flow and
its user only. -/
theorem moved_of_updated {p : Packet} {len : ℤ} {w : RuleIdx → ℤ} {l : List Packet}
    {q q₁ q' : QueueState} (hrest : SameRest q q₁)
    (hunit : ∀ g e, ¬ (g = p.flow ∧ e = p.dir) → q₁.unit (.flow g e) = q.unit (.flow g e))
    (hup : Updated p len w p.ruleMask.bits (q₁.setPackets p.flow p.dir l) q') :
    Moved p len w l q q' := by
  have hu : q'.unit = q₁.unit := by rw [hup.frame]; rfl
  have hp : q'.packets = (q₁.setPackets p.flow p.dir l).packets := by rw [hup.frame]
  have hbl : ∀ X, ((q₁.setPackets p.flow p.dir l).bl X) = q₁.bl X := fun _ => rfl
  have huw : ∀ r, ((q₁.setPackets p.flow p.dir l).unit (.user r)).weight
      = (q.unit (.user r)).weight := hrest.unitWeight
  refine ⟨⟨?_, ?_, ?_, ?_, fun g e hge => ?_, fun g e hge => ?_, fun g e hge => ?_, fun r => ?_⟩,
    ?_, fun i hi => ?_, fun i hi => ?_, fun X hX => ?_, ?_, ?_⟩
  · rw [hup.frame]; exact hrest.flow
  · rw [hup.frame]; exact hrest.flows
  · rw [hup.frame]; exact hrest.users
  · rw [hup.frame]; exact hrest.userMask
  · rw [hp, setPackets_of_ne _ _ hge, hrest.packets]
  · rw [hu, hunit g e hge]
  · rw [hu, hunit g e hge]
  · rw [hu, hrest.unitWeight]
  · rw [hp, setPackets_self]
  · rw [hup.user i (RuleMask.mem_bits.mpr hi), hbl]
    unfold updatedUser
    rw [hrest.octets, hrest.weight]
    exact ⟨rfl, rfl⟩
  · rw [hup.bucket i (RuleMask.mem_bits.mpr hi), hup.user i (RuleMask.mem_bits.mpr hi), hbl, hbl]
    unfold updatedBucket
    rw [hrest.octets, hrest.octets, hrest.weight, huw]
    exact ⟨rfl, rfl⟩
  · rw [hup.others X fun i hi => hX i (RuleMask.mem_bits.mp hi), hbl]
    exact ⟨hrest.octets X, hrest.weight X⟩
  · rw [hup.frame]; exact hrest.backlogPackets
  · rw [hup.frame]; exact hrest.dq

/-- The user entry of a packet under its own rule. -/
theorem userRef_eta {p : Packet} {r : UserRef} (hu : r.u = p.flow.user) (hd : r.d = p.dir) :
    p.userRef r.i = r := by
  obtain ⟨u, d, i⟩ := r
  obtain rfl : u = p.flow.user := hu
  obtain rfl : d = p.dir := hd
  rfl

section Totals

variable {p : Packet} {len : ℤ} {w : RuleIdx → ℤ} {l : List Packet} {q q' : QueueState}

/-- A user entry that the packet is not charged to keeps its totals. -/
theorem Moved.otherUser (h : Moved p len w l q q') {r : UserRef}
    (hr : ¬ (r.u = p.flow.user ∧ r.d = p.dir ∧ p.ruleMask.has r.i = true)) :
    (q'.bl (.user r)).octets = (q.bl (.user r)).octets
      ∧ (q'.bl (.user r)).weight = (q.bl (.user r)).weight := by
  apply h.otherBl
  intro i hi
  refine ⟨fun e => hr ?_, (bucket_ne_user _ _).symm⟩
  obtain rfl := TcId.user.inj e
  exact ⟨rfl, rfl, hi⟩

/-- So does a bucket. -/
theorem Moved.otherBucket (h : Moved p len w l q q') {d : Dir} {i : RuleIdx}
    (hr : ¬ (d = p.dir ∧ p.ruleMask.has i = true)) :
    (q'.bl (.bucket d i)).octets = (q.bl (.bucket d i)).octets
      ∧ (q'.bl (.bucket d i)).weight = (q.bl (.bucket d i)).weight := by
  apply h.otherBl
  intro j hj
  refine ⟨(by intro e; cases e), fun e => hr ?_⟩
  cases e
  exact ⟨rfl, hj⟩

/-- The octets counted at a user stay what its flows hold. -/
theorem Moved.tcOctets (h : Moved p len w l q q') (ht : TcTotals q) (hn : q.flows.Nodup)
    (hf : p.flow ∈ q.flows)
    (hlen : ∀ i, (ruleBytes l i : ℤ) = ruleBytes (q.packets p.flow p.dir) i
      + if p.ruleMask.has i then len else 0) (r : UserRef) :
    (q'.bl (.user r)).octets = userBytes q' r % 2 ^ 32 := by
  have hc := h.change
  by_cases hr : r.u = p.flow.user ∧ r.d = p.dir ∧ p.ruleMask.has r.i = true
  · obtain ⟨hru, hrd, hri⟩ := hr
    obtain ⟨i, rfl⟩ : ∃ i, r = p.userRef i := ⟨r.i, (userRef_eta hru hrd).symm⟩
    have hri : p.ruleMask.has i = true := hri
    have hsum := hc.userBytes hn hf i
    have hl := hlen i
    rw [h.packets] at hsum
    rw [if_pos hri] at hl
    rw [(h.user i hri).1, ht.tcOctets]
    apply u32_track
    unfold Packet.userRef
    omega
  · rw [(h.otherUser hr).1, ht.tcOctets]
    by_cases hud : r.u = p.flow.user ∧ r.d = p.dir
    · obtain ⟨i, rfl⟩ : ∃ i, r = p.userRef i := ⟨r.i, (userRef_eta hud.1 hud.2).symm⟩
      have hsum := hc.userBytes hn hf i
      have hl := hlen i
      have hi : ¬ p.ruleMask.has i = true := fun hi => hr ⟨rfl, rfl, hi⟩
      rw [h.packets] at hsum
      rw [if_neg hi] at hl
      unfold Packet.userRef
      congr 1
      omega
    · rw [hc.userBytes_of_ne hud]

/-- The octets counted at a bucket stay what its flows hold. -/
theorem Moved.bucketOctets (h : Moved p len w l q q') (ht : TcTotals q) (hn : q.flows.Nodup)
    (hf : p.flow ∈ q.flows)
    (hlen : ∀ i, (ruleBytes l i : ℤ) = ruleBytes (q.packets p.flow p.dir) i
      + if p.ruleMask.has i then len else 0) (d : Dir) (i : RuleIdx) :
    (q'.bl (.bucket d i)).octets = bucketBytes q' d i % 2 ^ 32 := by
  have hc := h.change
  by_cases hd : d = p.dir
  · subst hd
    have hsum := hc.bucketBytes hn hf i
    have hl := hlen i
    rw [h.packets] at hsum
    by_cases hi : p.ruleMask.has i = true
    · rw [if_pos hi] at hl
      have hb : (q'.bl (.bucket p.dir i)).octets = u32 ((q.bl (.bucket p.dir i)).octets + len) :=
        (h.bucket i hi).1
      rw [hb, ht.bucketOctets]
      apply u32_track
      omega
    · rw [if_neg hi] at hl
      rw [(h.otherBucket fun e => hi e.2).1, ht.bucketOctets]
      congr 1
      omega
  · rw [(h.otherBucket fun e => hd e.1).1, ht.bucketOctets, hc.bucketBytes_of_ne hd]

/-- The weight counted at a user stays what its flows weigh. -/
theorem Moved.tcWeight (h : Moved p len w l q q') (ht : TcTotals q) (hn : q.flows.Nodup)
    (hf : p.flow ∈ q.flows) (hmask : p.ruleMask = (q.flow p.flow).ruleMask)
    (hw : ∀ i, p.ruleMask.has i = true →
      (weightAt q' (p.userRef i) p.flow : ℤ) = weightAt q (p.userRef i) p.flow + w i)
    (r : UserRef) : (q'.bl (.user r)).weight = userWeight q' r := by
  have hc := h.change
  have hsum := hc.userWeight hn hf r
  by_cases hr : r.u = p.flow.user ∧ r.d = p.dir ∧ p.ruleMask.has r.i = true
  · obtain ⟨hru, hrd, hri⟩ := hr
    obtain ⟨i, rfl⟩ : ∃ i, r = p.userRef i := ⟨r.i, (userRef_eta hru hrd).symm⟩
    have hwi := hw i hri
    rw [(h.user i hri).2, ht.tcWeight]
    omega
  · rw [(h.otherUser hr).2, ht.tcWeight]
    have hsame : weightAt q' r p.flow = weightAt q r p.flow := by
      by_cases hd : r.d = p.dir
      · unfold weightAt
        have hnot : ∀ b : Prop, ¬ (p.flow.user = r.u ∧ b ∧ (q.flow p.flow).ruleMask.has r.i = true) := by
          rintro b ⟨h₁, -, h₃⟩
          exact hr ⟨h₁.symm, hd, hmask ▸ h₃⟩
        rw [hc.flow, if_neg (hnot _), if_neg (hnot _)]
      · exact hc.weightAt_of_ne fun e => hd e.2
    omega

/-- The weight counted at a bucket stays what its users weigh. -/
theorem Moved.bucketWeights (h : Moved p len w l q q') (ht : TcTotals q) (hun : q.users.Nodup)
    (hu : p.flow.user ∈ q.users) (d : Dir) (i : RuleIdx) :
    (q'.bl (.bucket d i)).weight = bucketWeight q' d i := by
  have hc := h.change
  -- only the user of the packet's flow can gain or lose its place in the sum
  have hsame : ∀ u, u ≠ p.flow.user →
      (q'.bl (.user ⟨u, d, i⟩)).octets = (q.bl (.user ⟨u, d, i⟩)).octets := by
    intro u hne
    have hnot : ¬ ((⟨u, d, i⟩ : UserRef).u = p.flow.user ∧ d = p.dir ∧ p.ruleMask.has i = true) :=
      fun e => hne e.1
    exact (h.otherUser hnot).1
  have hsum := total_update hun hu
    (fun u => if (q.bl (.user ⟨u, d, i⟩)).octets ≠ 0 then (q.unit (.user ⟨u, d, i⟩)).weight else 0)
    (fun u => if (q'.bl (.user ⟨u, d, i⟩)).octets ≠ 0 then (q'.unit (.user ⟨u, d, i⟩)).weight else 0)
    (fun u _ hne => by rw [hsame u hne, hc.unitWeight])
  have hle := le_total hu
    (fun u => if (q.bl (.user ⟨u, d, i⟩)).octets ≠ 0 then (q.unit (.user ⟨u, d, i⟩)).weight else 0)
  have hold := ht.bucketWeights d i
  unfold bucketWeight at hold ⊢
  rw [hc.users]
  simp only [hc.unitWeight] at hsum hle ⊢
  by_cases hr : d = p.dir ∧ p.ruleMask.has i = true
  · obtain ⟨rfl, hi⟩ := hr
    have hb := (h.bucket i hi).2
    unfold Packet.userRef UserRef.bucket at hb
    simp only at hb
    rw [hb, hold]
    by_cases h0 : (q.bl (.user ⟨p.flow.user, p.dir, i⟩)).octets = 0
    · by_cases h1 : (q'.bl (.user ⟨p.flow.user, p.dir, i⟩)).octets = 0
      · simp only [h0, h1, ne_eq, not_true_eq_false, if_false, if_true] at hsum ⊢
        omega
      · simp only [h0, h1, ne_eq, not_true_eq_false, not_false_eq_true, if_false, if_true] at hsum ⊢
        omega
    · by_cases h1 : (q'.bl (.user ⟨p.flow.user, p.dir, i⟩)).octets = 0
      · simp only [h0, h1, ne_eq, not_true_eq_false, not_false_eq_true, if_false, if_true] at hsum hle ⊢
        omega
      · simp only [h0, h1, ne_eq, not_false_eq_true, if_false, if_true] at hsum ⊢
        omega
  · rw [(h.otherBucket hr).2, hold]
    have hnot : ¬ ((⟨p.flow.user, d, i⟩ : UserRef).u = p.flow.user ∧ d = p.dir
        ∧ p.ruleMask.has i = true) := fun e => hr e.2
    rw [(h.otherUser hnot).1] at hsum
    omega

/-- When the octets and the weight of the flow change by what is passed on, the totals
at the token controls go on being the sums. -/
theorem Moved.tcTotals (h : Moved p len w l q q') (ht : TcTotals q) (hn : q.flows.Nodup)
    (hun : q.users.Nodup) (hf : p.flow ∈ q.flows) (hu : p.flow.user ∈ q.users)
    (hmask : p.ruleMask = (q.flow p.flow).ruleMask)
    (hlen : ∀ i, (ruleBytes l i : ℤ) = ruleBytes (q.packets p.flow p.dir) i
      + if p.ruleMask.has i then len else 0)
    (hw : ∀ i, p.ruleMask.has i = true →
      (weightAt q' (p.userRef i) p.flow : ℤ) = weightAt q (p.userRef i) p.flow + w i) :
    TcTotals q' where
  tcOctets := h.tcOctets ht hn hf hlen
  bucketOctets := h.bucketOctets ht hn hf hlen
  tcWeight := h.tcWeight ht hn hf hmask hw
  bucketWeights := h.bucketWeights ht hun hu

end Totals

/-! ## Taking a packet -/

/-- The weight that leaves the totals with a packet: that of the flow when its counter
comes to zero. -/
def leavingWeight (q : QueueState) (p : Packet) (i : RuleIdx) : ℕ :=
  if (q.unit (.flow p.flow p.dir)).octets - p.pktLen = 0 then (q.flow p.flow).weight i else 0

/-- The effect of `takePacket` on a flow that waits for the user entry `r`. -/
structure Take (p : Packet) (rest : List Packet) (r : UserRef) (q q' : QueueState) : Prop where
  moved : Moved p (-p.pktLen) (fun i => -(leavingWeight q p i : ℤ)) rest q q'
  waits : (q.unit (.flow p.flow p.dir)).tc = some (.user r)
  le_user : p.pktLen ≤ (q.unit (.user r)).octets
  le_flow : p.pktLen ≤ (q.unit (.flow p.flow p.dir)).octets
  flowUnit : q'.unit (.flow p.flow p.dir) =
    (drain q (.flow p.flow p.dir) p.pktLen).unit (.flow p.flow p.dir)
  userUnit : q'.unit (.user r) = (drain q (.user r) p.pktLen).unit (.user r)
  others : ∀ x, x ≠ .flow p.flow p.dir → x ≠ .user r → q'.unit x = q.unit x

/-- Taking a packet off its flow is the move that `Take` says. -/
theorem Links.take {q q' : QueueState} (h : Links q) {p : Packet} {rest : List Packet}
    (hq : takePacket q p.flow p.dir p rest = .ok q') : ∃ r, Take p rest r q q' := by
  obtain ⟨r, htc, hu, hf, hup⟩ := h.takePacket_iff.mp hq
  obtain ⟨hup, -⟩ := packetCtrlBacklogUpdate_ok hup
  have hne : UnitId.flow p.flow p.dir ≠ .user r := fun e => by cases e
  have hpos := p.len_pos
  have hunit : q'.unit = (removed q r p.flow p.dir p.pktLen rest).unit := by rw [hup.frame]
  have hrest : SameRest q (drain (drain q (.user r) p.pktLen) (.flow p.flow p.dir) p.pktLen) :=
    (sameRest_drain q _ _).trans (sameRest_drain _ _ _)
  have hweight : updateWeight (removed q r p.flow p.dir p.pktLen rest) (-p.pktLen)
      (if (q.unit (.flow p.flow p.dir)).octets - p.pktLen = 0 then some p.flow else none)
        = fun i => -(leavingWeight q p i : ℤ) := by
    funext i
    have hfl : (removed q r p.flow p.dir p.pktLen rest).flow = q.flow := hrest.flow
    unfold updateWeight leavingWeight
    by_cases h0 : (q.unit (.flow p.flow p.dir)).octets - p.pktLen = 0
    · rw [if_pos h0, if_pos h0]
      simp only [hfl]
      rw [if_pos (by omega)]
    · rw [if_neg h0, if_neg h0]
      rfl
  rw [hweight] at hup
  refine ⟨r, moved_of_updated hrest (fun g e hge => ?_) hup, htc, hu, hf, ?_, ?_, fun x h₁ h₂ => ?_⟩
  · rw [drain_unit_of_ne, drain_unit_of_ne]
    · intro e; cases e
    · intro e; cases e; exact hge ⟨rfl, rfl⟩
  · rw [hunit, removed, setPackets_unit, drain_unit_self, drain_unit_self, drain_unit_of_ne _ _ hne]
  · rw [hunit, removed, setPackets_unit, drain_unit_of_ne _ _ hne.symm]
  · rw [hunit, removed, setPackets_unit, drain_unit_of_ne _ _ h₁, drain_unit_of_ne _ _ h₂]

/-- A flow adds nothing for a user entry that it does not wait for. -/
theorem waitAt_eq_zero {q : QueueState} {r : UserRef} {f : FlowId}
    (h : (q.unit (.flow f r.d)).tc ≠ some (.user r)) : waitAt q r f = 0 := if_neg h

/-- A flow that waits for the user waits with all its octets. -/
theorem waitAt_waits {q : QueueState} {r : UserRef} {f : FlowId}
    (h : (q.unit (.flow f r.d)).tc = some (.user r)) : waitAt q r f = bytes (q.packets f r.d) :=
  if_pos h

/-- The octets that wait for a user come from some flow. -/
theorem exists_waiting {q : QueueState} {r : UserRef} (h : waitingBytes q r ≠ 0) :
    ∃ f, (q.unit (.flow f r.d)).tc = some (.user r) := by
  by_contra hnone
  push Not at hnone
  exact h (total_eq_zero.mpr fun f _ => if_neg (hnone f))

/-- The invariant after a change of one flow: the flow itself is in order, the totals at
the token controls are, and the octets of the users have moved with the flow. -/
theorem Acct.of_change {q q' : QueueState} (h : Acct q) {f : FlowId} {d : Dir}
    (hc : FlowChange f d q q') (hlinks : Links q') (htotals : TcTotals q')
    (hf : f ∈ q.flows) (hu : f.user ∈ q.users)
    (hpk : ∀ p ∈ q'.packets f d, p.flow = f ∧ p.dir = d ∧ p.ruleMask = (q.flow f).ruleMask)
    (hoct : (q'.unit (.flow f d)).octets = bytes (q'.packets f d) % 2 ^ 32)
    (hheld : (q'.unit (.flow f d)).octets ≠ 0 → (q'.unit (.flow f d)).tc ≠ none)
    (hbusy : (q'.unit (.flow f d)).tc ≠ none → q'.packets f d ≠ [])
    (hrule : ∀ r, (q'.unit (.flow f d)).tc = some (.user r) → (q.flow f).ruleMask.has r.i = true)
    (huser : ∀ r, (q'.unit (.user r)).octets < 2 ^ 32 ∧
      ((q'.unit (.user r)).octets + waitAt q r f) % 2 ^ 32
        = ((q.unit (.user r)).octets + waitAt q' r f) % 2 ^ 32)
    (huserTc : ∀ r, (q'.unit (.user r)).tc ≠ none → (q'.unit (.user r)).octets ≠ 0
      ∨ ((q.unit (.user r)).tc ≠ none ∧ (q.unit (.flow f d)).tc ≠ some (.user r))
      ∨ ((q'.unit (.flow f d)).tc = some (.user r))) : Acct q' := by
  have huserOct : ∀ r, (q'.unit (.user r)).octets = waitingBytes q' r % 2 ^ 32 := by
    intro r
    have hsum := hc.waitingBytes h.flowsNodup hf r
    have hold := h.userOctets r
    obtain ⟨hlt, hmod⟩ := huser r
    omega
  refine ⟨⟨hlinks, ?_, ?_, fun g e => ?_, fun g e hge => ?_, fun g e hge => ?_, fun g e hge => ?_,
    fun g e hge => ?_, fun r hr => ?_, fun g e r hr => ?_⟩, htotals, fun g e => ?_, huserOct⟩
  · rw [hc.flows]; exact h.flowsNodup
  · rw [hc.users]; exact h.usersNodup
  · rw [hc.flow]
    by_cases hg : g = f ∧ e = d
    · obtain ⟨rfl, rfl⟩ := hg
      exact hpk
    · rw [hc.packets g e hg]
      exact h.packetOk g e
  · rw [hc.flows]
    by_cases hg : g = f ∧ e = d
    · rw [hg.1]; exact hf
    · rw [hc.tc g e hg, hc.packets g e hg] at hge
      exact h.tracked g e hge
  · rw [hc.users]
    by_cases hg : g = f ∧ e = d
    · rw [hg.1]; exact hu
    · rw [hc.tc g e hg, hc.packets g e hg] at hge
      exact h.userTracked g e hge
  · by_cases hg : g = f ∧ e = d
    · obtain ⟨rfl, rfl⟩ := hg
      exact hheld hge
    · rw [hc.octets g e hg] at hge
      rw [hc.tc g e hg]
      exact h.held g e hge
  · by_cases hg : g = f ∧ e = d
    · obtain ⟨rfl, rfl⟩ := hg
      exact hbusy hge
    · rw [hc.tc g e hg] at hge
      rw [hc.packets g e hg]
      exact h.busy g e hge
  · -- a user that is attached holds octets, or a flow that waited for it before or does now
    rcases huserTc r hr with h0 | ⟨hold, hne⟩ | hnew
    · rw [huserOct r] at h0
      exact exists_waiting fun h0' => h0 (by rw [h0', Nat.zero_mod])
    · obtain ⟨g, hg⟩ := h.userBusy r hold
      refine ⟨g, ?_⟩
      rw [hc.tc g r.d fun e => hne ?_]
      · exact hg
      · rw [← e.1, ← e.2]
        exact hg
    · refine ⟨f, ?_⟩
      obtain ⟨-, hd⟩ : r.u = f.user ∧ r.d = d := hlinks.compat _ _ hnew
      rw [hd]
      exact hnew
  · rw [hc.flow]
    by_cases hg : g = f ∧ e = d
    · obtain ⟨rfl, rfl⟩ := hg
      exact hrule r hr
    · rw [hc.tc g e hg] at hr
      exact h.rule g e r hr
  · by_cases hg : g = f ∧ e = d
    · obtain ⟨rfl, rfl⟩ := hg
      exact hoct
    · rw [hc.octets g e hg, hc.packets g e hg]
      exact h.flowOctets g e

/-- A flow that waits for `r` or for nobody adds only to `r`. -/
theorem waitAt_other {q : QueueState} {f : FlowId} {d : Dir} {r r' : UserRef}
    (hr : (q.unit (.flow f d)).tc = none ∨ (q.unit (.flow f d)).tc = some (.user r))
    (hne : r' ≠ r) (hd : r'.d = d) : waitAt q r' f = 0 := by
  apply waitAt_eq_zero
  rw [hd]
  rcases hr with hr | hr
  · rw [hr]; simp
  · rw [hr]
    exact fun e => hne (TcId.user.inj (Option.some.inj e)).symm

section Take

variable {q q' : QueueState} {p : Packet} {rest : List Packet} {r : UserRef}

/-- What is left of the octets of the flow. -/
theorem Acct.take_left (h : Acct q) (hp : (q.packets p.flow p.dir).Perm (p :: rest))
    (ht : Take p rest r q q') :
    (q.unit (.flow p.flow p.dir)).octets - p.pktLen = bytes rest % 2 ^ 32 := by
  have hbytes : bytes (q.packets p.flow p.dir) = p.pktLen + bytes rest := by
    rw [bytes_perm hp, bytes_cons]
  have := h.flowOctets p.flow p.dir
  have hle := ht.le_flow
  omega

/-- The flow goes on waiting as long as its counter is not at 0. -/
theorem Acct.take_flow (h : Acct q) (hp : (q.packets p.flow p.dir).Perm (p :: rest))
    (ht : Take p rest r q q') :
    (q'.unit (.flow p.flow p.dir)).octets = bytes rest % 2 ^ 32
      ∧ (q'.unit (.flow p.flow p.dir)).tc
        = if bytes rest % 2 ^ 32 = 0 then none else some (.user r) := by
  have hsub := h.take_left hp ht
  rw [ht.flowUnit, drain_unit_self]
  exact ⟨hsub, by simp only [hsub, ht.waits]⟩

/-- The class totals lose the packet, and the weight of a flow that waits no longer. -/
theorem Acct.take_tcTotals (h : Acct q) (hp : (q.packets p.flow p.dir).Perm (p :: rest))
    (ht : Take p rest r q q') : TcTotals q' := by
  have hf : p.flow ∈ q.flows := h.tracked p.flow p.dir (.inl (by rw [ht.waits]; simp))
  have hu : p.flow.user ∈ q.users := h.userTracked p.flow p.dir (.inl (by rw [ht.waits]; simp))
  obtain ⟨-, -, hmask⟩ := h.packetOk p.flow p.dir p (hp.mem_iff.mpr List.mem_cons_self)
  obtain ⟨-, hflowTc⟩ := h.take_flow hp ht
  refine ht.moved.tcTotals h.toTcTotals h.flowsNodup h.usersNodup hf hu hmask (fun i => ?_)
    (fun i hi => ?_)
  · have := ruleBytes_perm hp i
    rw [ruleBytes_cons] at this
    by_cases hi : p.ruleMask.has i = true
    · rw [if_pos hi] at this ⊢
      omega
    · rw [if_neg hi] at this ⊢
      omega
  · have hi' : (q.flow p.flow).ruleMask.has i = true := hmask ▸ hi
    have hwt : weightAt q (p.userRef i) p.flow = (q.flow p.flow).weight i :=
      if_pos ⟨rfl, by rw [Packet.userRef, ht.waits]; simp, hi'⟩
    rw [hwt]
    unfold leavingWeight
    rw [h.take_left hp ht]
    by_cases h0 : bytes rest % 2 ^ 32 = 0
    · rw [if_pos h0] at hflowTc ⊢
      have : weightAt q' (p.userRef i) p.flow = 0 := if_neg fun e => e.2.1 hflowTc
      omega
    · rw [if_neg h0] at hflowTc ⊢
      have : weightAt q' (p.userRef i) p.flow = (q.flow p.flow).weight i := by
        unfold weightAt
        rw [ht.moved.change.flow]
        exact if_pos ⟨rfl, by rw [Packet.userRef, hflowTc]; simp, hi'⟩
      omega

/-- Every counter goes on being the sum it stands for when a packet is taken. -/
theorem Acct.take (h : Acct q) (hp : (q.packets p.flow p.dir).Perm (p :: rest))
    (hq : takePacket q p.flow p.dir p rest = .ok q') : Acct q' := by
  obtain ⟨r, ht⟩ := h.links.take hq
  have hc := ht.moved.change
  have hlinks := h.links.takePacket_links hq
  obtain ⟨hru, hrd⟩ : r.u = p.flow.user ∧ r.d = p.dir := h.links.compat _ _ ht.waits
  have hwaits : (q.unit (.flow p.flow r.d)).tc = some (.user r) := hrd ▸ ht.waits
  have hf : p.flow ∈ q.flows := h.tracked p.flow p.dir (.inl (by rw [ht.waits]; simp))
  have hu : p.flow.user ∈ q.users := h.userTracked p.flow p.dir (.inl (by rw [ht.waits]; simp))
  have hbytes : bytes (q.packets p.flow p.dir) = p.pktLen + bytes rest := by
    rw [bytes_perm hp, bytes_cons]
  have hmem : ∀ p' ∈ rest, p' ∈ q.packets p.flow p.dir := fun p' hp' =>
    hp.mem_iff.mpr (List.mem_cons_of_mem p hp')
  obtain ⟨hflowOct, hflowTc⟩ := h.take_flow hp ht
  have hflowTc' : (q'.unit (.flow p.flow p.dir)).tc = none
      ∨ (q'.unit (.flow p.flow p.dir)).tc = some (.user r) := by
    rw [hflowTc]
    split
    · exact .inl rfl
    · exact .inr rfl
  refine h.of_change hc hlinks (h.take_tcTotals hp ht) hf hu ?_ ?_ ?_ ?_ ?_ (fun r' => ?_)
    (fun r' hr' => ?_)
  · rw [ht.moved.packets]
    exact fun p' hp' => h.packetOk _ _ p' (hmem p' hp')
  · rw [hflowOct, ht.moved.packets]
  · intro h0
    rw [hflowOct] at h0
    rw [hflowTc, if_neg h0]
    simp
  · intro htc hnil
    rw [ht.moved.packets] at hnil
    rw [hflowTc, hnil] at htc
    exact htc rfl
  · intro r' hr'
    rcases hflowTc' with e | e
    · rw [e] at hr'; cases hr'
    · rw [e] at hr'
      obtain rfl := TcId.user.inj (Option.some.inj hr')
      exact h.rule _ _ _ ht.waits
  -- the octets of the user entries
  · by_cases hrr : r' = r
    · subst hrr
      have hold := h.userOctets r'
      have hle := ht.le_user
      have hat : waitAt q' r' p.flow % 2 ^ 32 = bytes rest % 2 ^ 32 := by
        unfold waitAt
        rw [hrd, hflowTc, ht.moved.packets]
        by_cases h0 : bytes rest % 2 ^ 32 = 0
        · rw [if_pos h0, if_neg (by simp), h0, Nat.zero_mod]
        · rw [if_neg h0, if_pos rfl]
      rw [waitAt_waits hwaits, hrd, hbytes, ht.userUnit, drain_unit_self]
      simp only
      omega
    · rw [ht.others _ (by intro e; cases e) (fun e => hrr (UnitId.user.inj e))]
      have hold := h.userOctets r'
      by_cases hd : r'.d = p.dir
      · rw [waitAt_other (.inr ht.waits) hrr hd, waitAt_other hflowTc' hrr hd]
        omega
      · rw [hc.waitAt_of_ne fun e => hd e.2]
        omega
  -- an entry that is linked has octets left, or was linked before for another flow
  · by_cases hrr : r' = r
    · subst hrr
      left
      intro h0
      rw [ht.userUnit, drain_unit_self] at h0 hr'
      exact hr' (if_pos h0)
    · right; left
      rw [ht.others _ (by intro e; cases e) (fun e => hrr (UnitId.user.inj e))] at hr'
      refine ⟨hr', ?_⟩
      rw [ht.waits]
      exact fun e => hrr (TcId.user.inj (Option.some.inj e)).symm

end Take

end Tbq
