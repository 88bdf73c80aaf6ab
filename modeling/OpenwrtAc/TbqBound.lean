/-
# Below the bound

As long as fewer than `2 ^ 32` octets are queued no counter has wrapped: each one is
exactly the sum it stands for, and every assertion of the queue operations holds.
-/
import OpenwrtAc.TbqTransfer

open Outcome MachineInt ListSum

namespace Tbq

/-- The octets of all queued packets. -/
def totalBytes (q : QueueState) : ℕ :=
  total q.flows fun f => bytes (q.packets f 0) + bytes (q.packets f 1)

/-- No counter can have wrapped. -/
def Small (q : QueueState) : Prop := totalBytes q < 2 ^ 32

/-- What classification guarantees: a tracked user has the rules that match its address
and a weight for each of them, and a flow has only rules of its user, with weights. -/
structure Classes (cfg : Config) (q : QueueState) : Prop where
  userMask : ∀ u ∈ q.users, q.userMask u = userMatch cfg u
  userWeight : ∀ r : UserRef, r.u ∈ q.users → (userMatch cfg r.u).has r.i = true →
    0 < (q.unit (.user r)).weight
  flowRule : ∀ f i, (q.flow f).ruleMask.has i = true →
    (userMatch cfg f.user).has i = true ∧ 0 < (q.flow f).weight i

/-! ## The sums against the total -/

/-- The octets under a rule are among all. -/
theorem ruleBytes_le (l : List Packet) (i : RuleIdx) : ruleBytes l i ≤ bytes l := by
  apply total_le_total
  intro p _
  split <;> omega

/-- All packets of a list carry rule `i`. -/
theorem ruleBytes_eq_bytes {l : List Packet} {i : RuleIdx}
    (h : ∀ p ∈ l, p.ruleMask.has i = true) : ruleBytes l i = bytes l :=
  total_congr fun p hp => if_pos (h p hp)

/-- The octets of one direction are among both. -/
theorem bytes_dir_le (q : QueueState) (f : FlowId) (d : Dir) :
    bytes (q.packets f d) ≤ bytes (q.packets f 0) + bytes (q.packets f 1) := by
  rcases dir_cases d with rfl | rfl
  · exact Nat.le_add_right _ _
  · exact Nat.le_add_left _ _

/-- The octets of a flow are among all. -/
theorem bytes_le_totalBytes {q : QueueState} {f : FlowId} (hf : f ∈ q.flows) (d : Dir) :
    bytes (q.packets f d) ≤ totalBytes q :=
  (bytes_dir_le q f d).trans
    (le_total hf fun f => bytes (q.packets f 0) + bytes (q.packets f 1))

/-- Those that wait for a user are among all. -/
theorem waitingBytes_le (q : QueueState) (r : UserRef) : waitingBytes q r ≤ totalBytes q := by
  apply total_le_total
  intro f _
  have := bytes_dir_le q f r.d
  split <;> omega

/-- Those of a user are among all. -/
theorem userBytes_le (q : QueueState) (r : UserRef) : userBytes q r ≤ totalBytes q := by
  apply total_le_total
  intro f _
  have := bytes_dir_le q f r.d
  have := ruleBytes_le (q.packets f r.d) r.i
  split <;> omega

/-- Those of a bucket are among all. -/
theorem bucketBytes_le (q : QueueState) (d : Dir) (i : RuleIdx) :
    bucketBytes q d i ≤ totalBytes q := by
  apply total_le_total
  intro f _
  have := bytes_dir_le q f d
  have := ruleBytes_le (q.packets f d) i
  omega

/-- Every packet has an octet at least. -/
theorem length_le_bytes (l : List Packet) : l.length ≤ bytes l := by
  induction l with
  | nil => exact le_refl 0
  | cons p l ih =>
      have := p.len_pos
      rw [List.length_cons, bytes_cons]
      omega

/-- There are no more packets than octets. -/
theorem queued_le (q : QueueState) : queued q ≤ totalBytes q := by
  apply total_le_total
  intro f _
  have := length_le_bytes (q.packets f 0)
  have := length_le_bytes (q.packets f 1)
  omega

/-! ## What is attached and what waits -/

namespace Acct

variable {q : QueueState}

/-- All packets of a flow carry the rules of the flow. -/
theorem ruleBytes_flow (h : Acct q) {f : FlowId} {d : Dir} {i : RuleIdx}
    (hi : (q.flow f).ruleMask.has i = true) :
    ruleBytes (q.packets f d) i = bytes (q.packets f d) := by
  apply ruleBytes_eq_bytes
  intro p hp
  rw [(h.packetOk f d p hp).2.2]
  exact hi

/-- A user entry without octets has no attached flow of its rule. -/
theorem userWeight_eq_zero (h : Acct q) {r : UserRef} (h0 : userBytes q r = 0) :
    userWeight q r = 0 := by
  apply total_eq_zero.mpr
  intro f hf
  apply if_neg
  rintro ⟨hu, htc, hi⟩
  have hz := total_eq_zero.mp h0 f hf
  rw [if_pos hu, h.ruleBytes_flow hi] at hz
  have := bytes_pos (h.busy f r.d htc)
  omega

/-- The octets of a flow are among its user's. -/
theorem le_userBytes {f : FlowId} (hf : f ∈ q.flows) (d : Dir) (i : RuleIdx) :
    ruleBytes (q.packets f d) i ≤ userBytes q ⟨f.user, d, i⟩ := by
  have := le_total hf fun g => if g.user = f.user then ruleBytes (q.packets g d) i else 0
  simpa [userBytes] using this

/-- Those of a flow that waits are among those that wait. -/
theorem le_waitingBytes {f : FlowId} (hf : f ∈ q.flows) {r : UserRef}
    (htc : (q.unit (.flow f r.d)).tc = some (.user r)) :
    bytes (q.packets f r.d) ≤ waitingBytes q r := by
  have := le_total hf (waitAt q r)
  rw [waitAt_waits htc] at this
  exact this

/-- An attached flow is tracked, and so is its user. -/
theorem attached_tracked (h : Acct q) {f : FlowId} {d : Dir} {r : UserRef}
    (htc : (q.unit (.flow f d)).tc = some (.user r)) :
    f ∈ q.flows ∧ f.user ∈ q.users ∧ r.u = f.user ∧ r.d = d := by
  have hne : (q.unit (.flow f d)).tc ≠ none := by rw [htc]; simp
  exact ⟨h.tracked f d (.inl hne), h.userTracked f d (.inl hne), h.links.compat _ _ htc⟩

/-- Below the bound a flow with packets is attached. -/
theorem attached_of_packets (h : Acct q) (hs : Small q) {f : FlowId} {d : Dir}
    (hp : q.packets f d ≠ []) : (q.unit (.flow f d)).tc ≠ none := by
  apply h.held
  have hf := h.tracked f d (.inr hp)
  have hle := bytes_le_totalBytes hf d
  have hpos := bytes_pos hp
  rw [h.flowOctets]
  unfold Small at hs
  omega

end Acct

/-! ## Taking a packet -/

/-- A sum over the flows of a user entry that only the flow `f` contributes to. -/
theorem userWeight_only {q : QueueState} (h : Acct q) {f : FlowId} {d : Dir} {i : RuleIdx}
    (hf : f ∈ q.flows)
    (hone : userBytes q ⟨f.user, d, i⟩ = ruleBytes (q.packets f d) i) :
    userWeight q ⟨f.user, d, i⟩ = weightAt q ⟨f.user, d, i⟩ f := by
  have hsum := total_update h.flowsNodup hf (weightAt q ⟨f.user, d, i⟩)
    (fun g => if g = f then 0 else weightAt q ⟨f.user, d, i⟩ g) (fun g _ hg => if_neg hg)
  have hsumB := total_update h.flowsNodup hf
    (fun g => if g.user = f.user then ruleBytes (q.packets g d) i else 0)
    (fun g => if g = f then 0 else if g.user = f.user then ruleBytes (q.packets g d) i else 0)
    (fun g _ hg => if_neg hg)
  have hB : userBytes q ⟨f.user, d, i⟩
      = total q.flows fun g => if g.user = f.user then ruleBytes (q.packets g d) i else 0 := rfl
  rw [← hB, hone] at hsumB
  simp only [if_true] at hsumB
  -- the other flows of the user hold nothing for this rule, so they are not attached
  have hzero : (total q.flows fun g => if g = f then 0 else weightAt q ⟨f.user, d, i⟩ g) = 0 := by
    apply total_eq_zero.mpr
    intro g hg
    by_cases hgf : g = f
    · exact if_pos hgf
    · rw [if_neg hgf]
      apply if_neg
      rintro ⟨hu, htc, hi⟩
      have hz := total_eq_zero.mp (by omega : (total q.flows fun g => if g = f then 0 else
        if g.user = f.user then ruleBytes (q.packets g d) i else 0) = 0) g hg
      have hu' : g.user = f.user := hu
      rw [if_neg hgf, if_pos hu', h.ruleBytes_flow hi] at hz
      have := bytes_pos (h.busy g d htc)
      omega
  have hW : userWeight q ⟨f.user, d, i⟩ = total q.flows (weightAt q ⟨f.user, d, i⟩) := rfl
  simp only [if_true] at hsum
  omega

/-- Below the bound a packet of an attached flow can be taken. -/
theorem Acct.takePacket_ok {cfg : Config} {q : QueueState} (h : Acct q) (hcl : Classes cfg q)
    (hs : Small q) {p : Packet} {rest : List Packet}
    (hp : (q.packets p.flow p.dir).Perm (p :: rest))
    (htc : (q.unit (.flow p.flow p.dir)).tc ≠ none) :
    ∃ q', takePacket q p.flow p.dir p rest = .ok q' := by
  obtain ⟨X, hX⟩ := Option.ne_none_iff_exists'.mp htc
  obtain ⟨r, rfl⟩ : ∃ r, X = .user r := by
    have := h.links.compat _ _ hX
    cases X with
    | bucket d i => exact this.elim
    | user r => exact ⟨r, rfl⟩
  obtain ⟨hf, hu, hru, hrd⟩ := h.attached_tracked hX
  have hpos := p.len_pos
  have hbytes : bytes (q.packets p.flow p.dir) = p.pktLen + bytes rest := by
    rw [bytes_perm hp, bytes_cons]
  have hle := bytes_le_totalBytes hf p.dir
  have hfo := h.flowOctets p.flow p.dir
  unfold Small at hs
  have hle_flow : p.pktLen ≤ (q.unit (.flow p.flow p.dir)).octets := by omega
  have hle_user : p.pktLen ≤ (q.unit (.user r)).octets := by
    have := h.userOctets r
    have := waitingBytes_le q r
    have := Acct.le_waitingBytes hf (hrd ▸ hX)
    rw [hrd] at this
    omega
  obtain ⟨-, -, hmask⟩ := h.packetOk p.flow p.dir p (hp.mem_iff.mpr List.mem_cons_self)
  have hrestMask : ∀ i, p.ruleMask.has i = true → ruleBytes rest i = bytes rest := by
    intro i hi
    apply ruleBytes_eq_bytes
    intro p' hp'
    rw [(h.packetOk p.flow p.dir p' (hp.mem_iff.mpr (List.mem_cons_of_mem p hp'))).2.2, ← hmask]
    exact hi
  -- the assertions of the totals
  have hrest : SameRest q (drain (drain q (.user r) p.pktLen) (.flow p.flow p.dir) p.pktLen) :=
    (sameRest_drain q _ _).trans (sameRest_drain _ _ _)
  have hok : UpdateOk p (-p.pktLen) (updateWeight (removed q r p.flow p.dir p.pktLen rest) (-p.pktLen)
      (if (q.unit (.flow p.flow p.dir)).octets - p.pktLen = 0 then some p.flow else none))
      p.ruleMask.bits (removed q r p.flow p.dir p.pktLen rest) := by
    intro i hi
    have hi := RuleMask.mem_bits.mp hi
    have hoct : ((removed q r p.flow p.dir p.pktLen rest).bl (.user (p.userRef i))).octets
        = userBytes q (p.userRef i) % 2 ^ 32 := (hrest.octets _).trans (h.tcOctets _)
    have hwt : ((removed q r p.flow p.dir p.pktLen rest).bl (.user (p.userRef i))).weight
        = userWeight q (p.userRef i) := (hrest.weight _).trans (h.tcWeight _)
    have hub := userBytes_le q (p.userRef i)
    have hge : ruleBytes (q.packets p.flow p.dir) i ≤ userBytes q (p.userRef i) :=
      Acct.le_userBytes hf p.dir i
    have hrb : ruleBytes (q.packets p.flow p.dir) i = p.pktLen + bytes rest := by
      rw [h.ruleBytes_flow (hmask ▸ hi), hbytes]
    constructor
    · intro h0
      rw [hoct] at h0
      omega
    · intro h0
      have h0' : u32 ((userBytes q (p.userRef i) % 2 ^ 32 : ℕ) + -(p.pktLen : ℤ)) = 0 := by
        have : u32 (((removed q r p.flow p.dir p.pktLen rest).bl (.user (p.userRef i))).octets
          + -(p.pktLen : ℤ)) = 0 := h0
        rwa [hoct] at this
      have hone : userBytes q (p.userRef i) = p.pktLen := by
        unfold u32 at h0'
        omega
      have hrest0 : bytes rest = 0 := by omega
      have hlast : (q.unit (.flow p.flow p.dir)).octets - p.pktLen = 0 := by omega
      have honly := userWeight_only h hf (d := p.dir) (i := i) (by
        show userBytes q (p.userRef i) = _
        omega)
      have hat : weightAt q (p.userRef i) p.flow = (q.flow p.flow).weight i :=
        if_pos ⟨rfl, by rw [Packet.userRef, hX]; simp, hmask ▸ hi⟩
      have hwpos := (hcl.flowRule p.flow i (hmask ▸ hi)).2
      have hfl : (removed q r p.flow p.dir p.pktLen rest).flow = q.flow := hrest.flow
      have hw : updateWeight (removed q r p.flow p.dir p.pktLen rest) (-p.pktLen)
          (if (q.unit (.flow p.flow p.dir)).octets - p.pktLen = 0 then some p.flow else none) i
            = -((q.flow p.flow).weight i : ℤ) := by
        unfold updateWeight
        rw [if_pos hlast]
        simp only [hfl]
        rw [if_pos (by omega)]
      rw [hw]
      refine ⟨?_, by omega, by omega⟩
      show (((removed q r p.flow p.dir p.pktLen rest).bl (.user (p.userRef i))).weight
        + -((q.flow p.flow).weight i : ℤ)).toNat = 0
      have honly' : userWeight q (p.userRef i) = (q.flow p.flow).weight i := honly.trans hat
      rw [hwt, honly']
      omega
  obtain ⟨q', hq'⟩ := (foldlM_userBacklogUpdate p.ruleMask.bits p.ruleMask.nodup_bits
    (removed q r p.flow p.dir p.pktLen rest)).2 hok
  exact ⟨q', h.links.takePacket_iff.mpr ⟨r, hX, hle_user, hle_flow, hq'⟩⟩

/-! ## Adding a packet -/

/-- A packet that stays below the bound can join its flow. -/
theorem Acct.put_ok {cfg : Config} {q q₁ : QueueState} (h : Acct q) (hcl : Classes cfg q)
    {p : Packet} {r : UserRef} {attach : Bool} (hr : Ready p r attach q q₁)
    (hs : totalBytes q + p.pktLen < 2 ^ 32) (hf : p.flow ∈ q.flows)
    (hmask : p.ruleMask = (q.flow p.flow).ruleMask) :
    ∃ q', packetCtrlBacklogUpdate (added q₁ r p.flow p.dir p) p p.pktLen
      (if attach then some p.flow else none) = .ok q' := by
  have hpos := p.len_pos
  have hrest : SameRest q (backlogEnqueue (backlogEnqueue q₁ (.user r) p.pktLen)
      (.flow p.flow p.dir) p.pktLen) :=
    (hr.rest.trans (sameRest_backlogEnqueue _ _ _)).trans (sameRest_backlogEnqueue _ _ _)
  refine (foldlM_userBacklogUpdate p.ruleMask.bits p.ruleMask.nodup_bits _).2 fun i hi => ?_
  have hi := RuleMask.mem_bits.mp hi
  have hoct : ((added q₁ r p.flow p.dir p).bl (.user (p.userRef i))).octets
      = userBytes q (p.userRef i) % 2 ^ 32 := (hrest.octets _).trans (h.tcOctets _)
  have hwt : ((added q₁ r p.flow p.dir p).bl (.user (p.userRef i))).weight
      = userWeight q (p.userRef i) := (hrest.weight _).trans (h.tcWeight _)
  have hub := userBytes_le q (p.userRef i)
  constructor
  · -- the first packet of the user entry is the first packet of the flow
    intro h0
    rw [hoct] at h0
    have h0' : userBytes q (p.userRef i) = 0 := by omega
    have hge : ruleBytes (q.packets p.flow p.dir) i ≤ userBytes q (p.userRef i) :=
      Acct.le_userBytes hf p.dir i
    rw [h.ruleBytes_flow (hmask ▸ hi)] at hge
    have hnone : q.packets p.flow p.dir = [] := by
      by_contra hne
      have := bytes_pos hne
      omega
    have hatt : attach = true := by
      have hwas := hr.was
      cases attach with
      | true => rfl
      | false => exact absurd hnone (h.busy _ _ (by rw [hwas]; simp))
    subst hatt
    have hfl : (added q₁ r p.flow p.dir p).flow = q.flow := hrest.flow
    have hwpos := (hcl.flowRule p.flow i (hmask ▸ hi)).2
    rw [hwt, h.userWeight_eq_zero h0']
    refine ⟨rfl, ?_, by omega⟩
    unfold updateWeight
    simp only [if_true, hfl]
    rw [if_neg (by omega)]
    omega
  · intro h0
    have h0' : u32 (((added q₁ r p.flow p.dir p).bl (.user (p.userRef i))).octets
      + (p.pktLen : ℤ)) = 0 := h0
    rw [hoct] at h0'
    unfold u32 at h0'
    omega

/-! ## The other operations -/

section Operations

variable {cfg : Config} {q : QueueState} {f : FlowId} {d : Dir}

/-- The test for emptiness is right as long as the counter does not wrap. -/
theorem Acct.flowEmpty_eq (h : Acct q) (hs : Small q) (f : FlowId) (d : Dir) :
    flowBacklogEmpty q f d = .ok (decide (q.packets f d = [])) := by
  apply h.links.flowEmpty_iff.mpr
  by_cases hp : q.packets f d = []
  · left
    refine ⟨by simp [hp], ?_, ?_, hp⟩
    · by_contra htc
      exact h.busy f d htc hp
    · rw [h.flowOctets, hp, bytes_nil, Nat.zero_mod]
  · right
    refine ⟨by simp [hp], h.attached_of_packets hs hp, ?_, hp⟩
    have := bytes_le_totalBytes (h.tracked f d (.inr hp)) d
    have := bytes_pos hp
    unfold Small at hs
    rw [h.flowOctets]
    omega

/-- A flow has no more octets than the user it waits for. -/
theorem Acct.flow_le_user (h : Acct q) (hs : Small q) {r : UserRef}
    (htc : (q.unit (.flow f d)).tc = some (.user r)) :
    (q.unit (.flow f d)).octets ≤ (q.unit (.user r)).octets := by
  obtain ⟨hf, -, -, rfl⟩ := h.attached_tracked htc
  have hle := Acct.le_waitingBytes hf htc
  have := waitingBytes_le q r
  unfold Small at hs
  rw [h.flowOctets, h.userOctets]
  omega

/-- An attached flow keeps the totals of its user entry above zero. -/
theorem Acct.user_pos (h : Acct q) (hcl : Classes cfg q) (hs : Small q) {r : UserRef}
    (htc : (q.unit (.flow f d)).tc = some (.user r)) :
    0 < (q.bl (.user r)).weight ∧ (q.bl (.user r)).octets ≠ 0
      ∧ 0 < (q.unit (.user r)).octets ∧ 0 < (q.unit (.user r)).weight := by
  obtain ⟨hf, hu, hru, rfl⟩ := h.attached_tracked htc
  have hi := h.rule f r.d r htc
  obtain ⟨hm, hw⟩ := hcl.flowRule f r.i hi
  have hpos := bytes_pos (h.busy f r.d (by rw [htc]; simp))
  have hr : (⟨f.user, r.d, r.i⟩ : UserRef) = r := by rw [← hru]
  have hge := Acct.le_userBytes hf r.d r.i (q := q)
  rw [h.ruleBytes_flow hi, hr] at hge
  have hwait := Acct.le_waitingBytes hf htc
  have := userBytes_le q r
  have := waitingBytes_le q r
  unfold Small at hs
  refine ⟨?_, ?_, ?_, ?_⟩
  · have hat : weightAt q r f = (q.flow f).weight r.i := by
      refine if_pos ⟨hru.symm, ?_, hi⟩
      rw [htc]
      simp
    have hle : weightAt q r f ≤ userWeight q r := le_total hf (weightAt q r)
    rw [h.tcWeight]
    omega
  · rw [h.tcOctets]
    omega
  · rw [h.userOctets]
    omega
  · exact hcl.userWeight r (hru ▸ hu) (hru ▸ hm)

/-- The user of an attached flow has its weight in the total of its bucket. -/
theorem Acct.bucket_pos (h : Acct q) (hcl : Classes cfg q) (hs : Small q) {r : UserRef}
    (htc : (q.unit (.flow f d)).tc = some (.user r)) : 0 < (q.bl r.bucket).weight := by
  obtain ⟨-, hoct, -, hw⟩ := h.user_pos hcl hs htc
  obtain ⟨-, hu, hru, -⟩ := h.attached_tracked htc
  have hle := le_total (hru ▸ hu : r.u ∈ q.users)
    (fun u => if (q.bl (.user ⟨u, r.d, r.i⟩)).octets ≠ 0
      then (q.unit (.user ⟨u, r.d, r.i⟩)).weight else 0)
  simp only [if_pos hoct] at hle
  have hw' : 0 < (q.unit (.user ⟨r.u, r.d, r.i⟩)).weight := hw
  have hbw := h.bucketWeights r.d r.i
  have : bucketWeight q r.d r.i = total q.users (fun u =>
    if (q.bl (.user ⟨u, r.d, r.i⟩)).octets ≠ 0 then (q.unit (.user ⟨u, r.d, r.i⟩)).weight else 0) := rfl
  rw [UserRef.bucket]
  omega

/-- The division of `tbq_backlog_max_octets` is by the weight of the token control. -/
theorem Links.backlogMaxOctets_ok {k : Ceiling} (h : Links q) {x : UnitId} {X : TcId} (n : ℕ)
    (htc : (q.unit x).tc = some X) (hw : 0 < (q.bl X).weight) :
    ∃ m, backlogMaxOctets k q x n = .ok m := by
  unfold backlogMaxOctets
  rw [h.attached_eq]
  simp only [htc]
  have hne : ¬ (q.bl X).weight = 0 := by omega
  exact ⟨_, by rw [bind_eq_ok]; exact ⟨true, rfl, by simp [stopIf, hne]; rfl⟩⟩

/-- The ceiling of a flow can be read. -/
theorem Acct.flowBacklogMaxOctets_ok (h : Acct q) (hcl : Classes cfg q) (hs : Small q)
    (k : Ceiling) {r : UserRef} (htc : (q.unit (.flow f d)).tc = some (.user r)) :
    ∃ n, flowBacklogMaxOctets k q f d = .ok n := by
  obtain ⟨hw, -⟩ := h.user_pos hcl hs htc
  have hb := h.bucket_pos hcl hs htc
  -- the ceiling of the user, when the user itself is attached
  have huser : ∃ m, (do
      if ← backlogAttached q (.user r) then
        backlogMaxOctets k q (.user r) (2 ^ 32 - 1)
      else
        return 2 ^ 32 - 1 : Except Stop ℕ) = .ok m := by
    rw [h.links.attached_eq]
    cases hu : (q.unit (.user r)).tc with
    | none => exact ⟨_, rfl⟩
    | some X =>
        obtain rfl : X = r.bucket := h.links.compat _ _ hu
        exact h.links.backlogMaxOctets_ok _ hu hb
  obtain ⟨m, hm⟩ := huser
  obtain ⟨n, hn⟩ := h.links.backlogMaxOctets_ok (k := k) m htc hw
  refine ⟨n, ?_⟩
  unfold flowBacklogMaxOctets
  rw [htc]
  dsimp only
  rw [hm]
  exact hn

/-- A user that is attached to its bucket is not empty. -/
theorem Acct.userEmpty_eq (h : Acct q) (hcl : Classes cfg q) (hs : Small q) {r : UserRef}
    (htc : (q.unit (.user r)).tc ≠ none) : backlogEmpty q (.user r) = .ok false := by
  obtain ⟨g, hg⟩ := h.userBusy r htc
  obtain ⟨-, -, hpos, -⟩ := h.user_pos hcl hs hg
  have hl := h.links.linked (.user r)
  have hsome : (q.unit (.user r)).tc.isSome = true := Option.isSome_iff_ne_none.mpr htc
  unfold backlogEmpty
  dsimp only
  rw [hl, hsome, if_neg (by simp), stopIf_of_not htc, stopIf_of_not (by omega)]
  rfl

end Operations

end Tbq
