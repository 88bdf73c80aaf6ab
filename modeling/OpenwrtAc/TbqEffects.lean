/-
# The effects of the queue operations

One lemma for each operation of the queue that returns: what it did to the units,
to the packet lists and to the totals, and the conditions under which its
assertions hold.  The invariants are proved from these, not from the code.
-/
import OpenwrtAc.TbqLinks

open Outcome MachineInt

namespace Tbq

/-! ## The walk over the rules of a packet -/

/-- The totals after `tbq_packet_ctrl_backlog_update` visited the rules in `l`, with the
weight `w i` passed on for rule `i`. -/
structure Updated (p : Packet) (len : ℤ) (w : RuleIdx → ℤ) (l : List RuleIdx)
    (q q' : QueueState) : Prop where
  frame : q' = { q with bl := q'.bl }
  units : ∀ X, (q'.bl X).units = (q.bl X).units
  user : ∀ i ∈ l, q'.bl (.user (p.userRef i)) = updatedUser (q.bl (.user (p.userRef i))) len (w i)
  bucket : ∀ i ∈ l, q'.bl (p.userRef i).bucket = updatedBucket (q.bl (p.userRef i).bucket)
    (q.bl (.user (p.userRef i))) (q.unit (.user (p.userRef i))).weight len (w i)
  others : ∀ X, (∀ i ∈ l, X ≠ .user (p.userRef i) ∧ X ≠ (p.userRef i).bucket) → q'.bl X = q.bl X

/-- The assertions that the walk over the rules in `l` runs into. -/
def UpdateOk (p : Packet) (len : ℤ) (w : RuleIdx → ℤ) (l : List RuleIdx) (q : QueueState) : Prop :=
  ∀ i ∈ l, FirstOk (q.bl (.user (p.userRef i))) len (w i)
    ∧ LastOk (q.bl (.user (p.userRef i))) len (w i)

/-- The controls of two rules differ. -/
theorem userRef_ne {p : Packet} {i j : RuleIdx} (h : i ≠ j) :
    TcId.user (p.userRef i) ≠ .user (p.userRef j) ∧ (p.userRef i).bucket ≠ (p.userRef j).bucket := by
  constructor
  · intro e
    have := congrArg TcId.rule e
    exact h this
  · intro e
    have := congrArg TcId.rule e
    exact h this

/-- A bucket is no user entry. -/
theorem bucket_ne_user (r r' : UserRef) : r.bucket ≠ .user r' := by
  intro e
  cases e

/-- The state after one rule. -/
theorem updated_one (p : Packet) (len : ℤ) (w : RuleIdx → ℤ) (i : RuleIdx) (q : QueueState) :
    Updated p len w [i] q ((q.setBl (p.userRef i).bucket
      (updatedBucket (q.bl (p.userRef i).bucket) (q.bl (.user (p.userRef i)))
        (q.unit (.user (p.userRef i))).weight len (w i))).setBl
      (.user (p.userRef i)) (updatedUser (q.bl (.user (p.userRef i))) len (w i))) := by
  have hne := bucket_ne_user (p.userRef i) (p.userRef i)
  refine ⟨rfl, fun X => ?_, fun j hj => ?_, fun j hj => ?_, fun X hX => ?_⟩
  · by_cases hu : X = .user (p.userRef i)
    · subst hu
      simp [updatedUser]
    · rw [setBl_of_ne _ _ hu]
      by_cases hb : X = (p.userRef i).bucket
      · subst hb
        simp [updatedBucket]
      · rw [setBl_of_ne _ _ hb]
  · rw [List.mem_singleton.mp hj, setBl_self]
  · rw [List.mem_singleton.mp hj, setBl_of_ne _ _ hne, setBl_self]
  · obtain ⟨hu, hb⟩ := hX i (List.mem_singleton_self i)
    rw [setBl_of_ne _ _ hu, setBl_of_ne _ _ hb]

/-- Two walks over different rules compose. -/
theorem Updated.cons {p : Packet} {len : ℤ} {w : RuleIdx → ℤ} {i : RuleIdx} {l : List RuleIdx}
    {q q₁ q' : QueueState} (hi : i ∉ l) (h₁ : Updated p len w [i] q q₁)
    (h₂ : Updated p len w l q₁ q') : Updated p len w (i :: l) q q' := by
  have hunit : q₁.unit = q.unit := by rw [h₁.frame]
  -- the first rule touches the user and the bucket of its own index only
  have hsame : ∀ j ∈ l, q₁.bl (.user (p.userRef j)) = q.bl (.user (p.userRef j))
      ∧ q₁.bl (p.userRef j).bucket = q.bl (p.userRef j).bucket := by
    intro j hj
    have hne : j ≠ i := fun e => hi (e ▸ hj)
    obtain ⟨hu, hb⟩ := userRef_ne (p := p) hne
    constructor
    · apply h₁.others
      intro k hk
      rw [List.mem_singleton.mp hk]
      exact ⟨hu, (bucket_ne_user _ _).symm⟩
    · apply h₁.others
      intro k hk
      rw [List.mem_singleton.mp hk]
      exact ⟨bucket_ne_user _ _, hb⟩
  -- and the rules behind it leave these two alone
  have hkeep : q'.bl (.user (p.userRef i)) = q₁.bl (.user (p.userRef i))
      ∧ q'.bl (p.userRef i).bucket = q₁.bl (p.userRef i).bucket := by
    constructor
    · apply h₂.others
      intro k hk
      have hne : i ≠ k := fun e => hi (e ▸ hk)
      exact ⟨(userRef_ne hne).1, (bucket_ne_user _ _).symm⟩
    · apply h₂.others
      intro k hk
      have hne : i ≠ k := fun e => hi (e ▸ hk)
      exact ⟨bucket_ne_user _ _, (userRef_ne hne).2⟩
  refine ⟨?_, fun X => ?_, fun j hj => ?_, fun j hj => ?_, fun X hX => ?_⟩
  · rw [h₂.frame, h₁.frame]
  · rw [h₂.units, h₁.units]
  · rcases List.mem_cons.mp hj with rfl | hj
    · rw [hkeep.1, h₁.user j (List.mem_singleton_self j)]
    · rw [h₂.user j hj, (hsame j hj).1]
  · rcases List.mem_cons.mp hj with rfl | hj
    · rw [hkeep.2, h₁.bucket j (List.mem_singleton_self j)]
    · rw [h₂.bucket j hj, (hsame j hj).1, (hsame j hj).2, hunit]
  · rw [h₂.others X fun j hj => hX j (List.mem_cons_of_mem i hj)]
    apply h₁.others
    intro k hk
    rw [List.mem_singleton.mp hk]
    exact hX i List.mem_cons_self

/-- The walk returns exactly when every assertion on its way holds in the state it
starts from, since no rule is visited twice. -/
theorem foldlM_userBacklogUpdate {p : Packet} {len : ℤ} {fb : Option FlowId} (l : List RuleIdx)
    (hl : l.Nodup) (q : QueueState) :
    (∀ q', l.foldlM (fun q i => userBacklogUpdate q (p.userRef i) len (updateWeight q len fb i)) q
        = .ok q' → Updated p len (updateWeight q len fb) l q q'
          ∧ UpdateOk p len (updateWeight q len fb) l q) ∧
      (UpdateOk p len (updateWeight q len fb) l q → ∃ q',
        l.foldlM (fun q i => userBacklogUpdate q (p.userRef i) len (updateWeight q len fb i)) q
          = .ok q') := by
  induction l generalizing q with
  | nil =>
      refine ⟨fun q' h => ?_, fun _ => ⟨q, rfl⟩⟩
      obtain rfl := pure_eq_ok.mp h
      refine ⟨⟨rfl, fun _ => rfl, ?_, ?_, fun _ _ => rfl⟩, ?_⟩ <;> intro i hi <;> cases hi
  | cons i l ih =>
      obtain ⟨hi, hl⟩ := List.nodup_cons.mp hl
      -- the state after rule `i`, and that it changes neither the weights nor the other rules
      have hw : ∀ q₁ : QueueState, q₁.flow = q.flow →
          updateWeight q₁ len fb = updateWeight q len fb := by
        intro q₁ hf
        funext j
        unfold updateWeight
        rw [hf]
      have hother : ∀ q₁, Updated p len (updateWeight q len fb) [i] q q₁ →
          (UpdateOk p len (updateWeight q len fb) l q₁ ↔ UpdateOk p len (updateWeight q len fb) l q) := by
        intro q₁ h₁
        unfold UpdateOk
        apply forall₂_congr
        intro j hj
        have hne : j ≠ i := fun e => hi (e ▸ hj)
        rw [h₁.others (.user (p.userRef j)) fun k hk => by
          rw [List.mem_singleton.mp hk]
          exact ⟨(userRef_ne hne).1, (bucket_ne_user _ _).symm⟩]
      constructor
      · intro q' h
        rw [List.foldlM_cons, bind_eq_ok] at h
        obtain ⟨q₁, h₁, h₂⟩ := h
        obtain ⟨hfirst, hlast⟩ := userBacklogUpdate_ok h₁
        rw [userBacklogUpdate_eq hfirst hlast] at h₁
        obtain rfl := Except.ok.inj h₁
        obtain ⟨hup, hok⟩ := (ih hl _).1 q' h₂
        have hone := updated_one p len (updateWeight q len fb) i q
        rw [hw _ rfl] at hup hok
        refine ⟨hone.cons hi hup, fun j hj => ?_⟩
        rcases List.mem_cons.mp hj with rfl | hj
        · exact ⟨hfirst, hlast⟩
        · exact (hother _ hone).mp hok j hj
      · intro hok
        obtain ⟨hfirst, hlast⟩ := hok i List.mem_cons_self
        have hone := updated_one p len (updateWeight q len fb) i q
        have hrest : UpdateOk p len (updateWeight q len fb) l q :=
          fun j hj => hok j (List.mem_cons_of_mem i hj)
        rw [List.foldlM_cons, userBacklogUpdate_eq hfirst hlast]
        refine (ih hl _).2 ?_
        rw [hw _ rfl]
        exact (hother _ hone).mpr hrest

/-! ## Emptiness -/

/-- `tbq_flow_backlog_empty` answers whether the flow is attached, provided the packet
list and the octets agree with that. -/
theorem Links.flowEmpty_iff {q : QueueState} (h : Links q) {f : FlowId} {d : Dir} {b : Bool} :
    flowBacklogEmpty q f d = .ok b ↔
      (b = true ∧ (q.unit (.flow f d)).tc = none ∧ (q.unit (.flow f d)).octets = 0
        ∧ q.packets f d = []) ∨
      (b = false ∧ (q.unit (.flow f d)).tc ≠ none ∧ (q.unit (.flow f d)).octets ≠ 0
        ∧ q.packets f d ≠ []) := by
  have hl := h.linked (.flow f d)
  unfold flowBacklogEmpty backlogEmpty
  cases htc : (q.unit (.flow f d)).tc with
  | none =>
      rw [htc] at hl
      simp only [hl, htc, Option.isSome_none, ne_eq, not_true_eq_false, if_true, bind_eq_ok,
        stopIf_eq_ok, pure_eq_ok]
      constructor
      · rintro ⟨e, ⟨-, -, -, ho, rfl⟩, h₂⟩
        simp only [if_true, bind_eq_ok, stopIf_eq_ok, pure_eq_ok] at h₂
        obtain ⟨-, hp, rfl⟩ := h₂
        refine .inl ⟨rfl, trivial, by simpa using ho, ?_⟩
        simpa using hp
      · rintro (⟨rfl, -, ho, hp⟩ | ⟨-, hc, -⟩)
        · refine ⟨true, ⟨(), not_false, (), by simpa using ho, rfl⟩, ?_⟩
          simp [hp, stopIf]
        · exact hc.elim
  | some X =>
      rw [htc] at hl
      simp only [hl, htc, Option.isSome_some, Bool.true_eq_false, if_false, bind_eq_ok,
        stopIf_eq_ok, pure_eq_ok, reduceCtorEq, ne_eq, not_false_eq_true, true_and]
      constructor
      · rintro ⟨e, ⟨-, -, ho, rfl⟩, h₂⟩
        simp only [Bool.false_eq_true, if_false, bind_eq_ok, stopIf_eq_ok, pure_eq_ok] at h₂
        obtain ⟨-, hp, rfl⟩ := h₂
        exact .inr ⟨rfl, ho, by simpa using hp⟩
      · rintro (⟨-, hc, -⟩ | ⟨rfl, ho, hp⟩)
        · exact hc.elim
        · refine ⟨false, ⟨(), (), ho, rfl⟩, ?_⟩
          simp [hp, stopIf]

/-! ## Taking a packet -/

/-- The flow and its user after `tbq_flow_backlog_dequeue`. -/
def removed (q : QueueState) (r : UserRef) (f : FlowId) (d : Dir) (n : ℕ) (rest : List Packet) :
    QueueState :=
  (drain (drain q (.user r) n) (.flow f d) n).setPackets f d rest

/-- The length of a packet is not cut by an `int`. -/
theorem Packet.i32_len (p : Packet) : i32 p.pktLen = p.pktLen := by
  have := p.len_lt
  exact i32_of_range (by omega) (by omega)

/-- A flow waits for nothing or for an entry of its user. -/
theorem Links.flow_cases {q : QueueState} (h : Links q) (f : FlowId) (d : Dir) :
    (q.unit (.flow f d)).tc = none ∨ ∃ r, (q.unit (.flow f d)).tc = some (.user r) := by
  cases htc : (q.unit (.flow f d)).tc with
  | none => exact .inl rfl
  | some X =>
      have hX := h.compat _ _ htc
      cases X with
      | bucket d' i => exact hX.elim
      | user r => exact .inr ⟨r, rfl⟩

/-- Taking a packet: both units lose its length, and so do the totals, which lose the
weight of the flow as well when its counter comes to zero. -/
theorem Links.takePacket_iff {q q' : QueueState} (h : Links q) {f : FlowId} {d : Dir} {p : Packet}
    {rest : List Packet} :
    takePacket q f d p rest = .ok q' ↔
      ∃ r, (q.unit (.flow f d)).tc = some (.user r) ∧ p.pktLen ≤ (q.unit (.user r)).octets
        ∧ p.pktLen ≤ (q.unit (.flow f d)).octets
        ∧ packetCtrlBacklogUpdate (removed q r f d p.pktLen rest) p (-p.pktLen)
            (if (q.unit (.flow f d)).octets - p.pktLen = 0 then some f else none) = .ok q' := by
  have hne : ∀ r, UnitId.flow f d ≠ .user r := fun r e => by cases e
  have hoct : ∀ r, ((removed q r f d p.pktLen rest).unit (.flow f d)).octets
      = (q.unit (.flow f d)).octets - p.pktLen := by
    intro r
    rw [removed, setPackets_unit, drain_unit_self, drain_unit_of_ne _ _ (hne r)]
  unfold takePacket flowBacklogDequeue
  rw [h.attached_eq, p.i32_len]
  obtain htc | ⟨r, htc⟩ := h.flow_cases f d
  · rw [htc]
    constructor
    · intro hq
      cases hq
    · rintro ⟨r, hr, -⟩
      cases hr
  · rw [htc]
    simp only [Option.isSome_some, bind_eq_ok, Except.ok.injEq, exists_eq_left',
      stopIf_eq_ok, Bool.true_eq_false, not_false_eq_true, exists_const, pure_eq_ok]
    constructor
    · rintro ⟨q₁, ⟨-, q₂, h₂, q₃, h₃, rfl⟩, h₄⟩
      obtain ⟨hn, rfl⟩ := h.dequeue_ok h₂
      obtain ⟨hn', rfl⟩ := (h.drain_links _ _).dequeue_ok h₃
      rw [drain_unit_of_ne _ _ (hne r)] at hn'
      refine ⟨r, rfl, hn, hn', ?_⟩
      have := hoct r
      rw [removed] at this
      rw [this] at h₄
      exact h₄
    · rintro ⟨r', hr', hn, hn', h₄⟩
      obtain rfl : r = r' := by simpa using hr'
      refine ⟨removed q r f d p.pktLen rest, ⟨trivial, drain q (.user r) p.pktLen,
        h.dequeue_eq hn, _, (h.drain_links _ _).dequeue_eq ?_, rfl⟩, ?_⟩
      · rw [drain_unit_of_ne _ _ (hne r)]
        exact hn'
      · rw [hoct r]
        exact h₄

/-! ## Attaching and detaching a flow -/

/-- The user's unit on its way into `tbq_flow_backlog_attach`: linked to the bucket
when that is pending. -/
def userAttached (pending : List TcId) (q : QueueState) (r : UserRef) : QueueState :=
  if r.bucket ∈ pending ∧ (q.unit (.user r)).tc = none then link q (.user r) r.bucket else q

/-- The effect of `tbq_flow_backlog_attach`. -/
def attachedFlow (pending : List TcId) (q : QueueState) (f : FlowId) (d : Dir) (r : UserRef) :
    QueueState :=
  let q₁ := link (backlogEnqueue (userAttached pending q r) (.user r) (q.unit (.flow f d)).octets)
    (.flow f d) (.user r)
  q₁.setUnit (.flow f d) { q₁.unit (.flow f d) with weight := (q.flow f).weight r.i }

/-- Attaching a user keeps the links. -/
theorem Links.userAttached_links {q : QueueState} (h : Links q) (pending : List TcId)
    (r : UserRef) : Links (userAttached pending q r) := by
  unfold userAttached
  by_cases hc : r.bucket ∈ pending ∧ (q.unit (.user r)).tc = none
  · rw [if_pos hc]
    exact h.link_links hc.2 rfl
  · rw [if_neg hc]
    exact h

/-- Counting octets up leaves the links. -/
theorem sameLinks_backlogEnqueue (q : QueueState) (x : UnitId) (n : ℕ) :
    SameLinks q (backlogEnqueue q x n) := sameLinks_setUnit rfl rfl

/-- Counting octets up moves no packet and no weight. -/
theorem sameRest_backlogEnqueue (q : QueueState) (x : UnitId) (n : ℕ) :
    SameRest q (backlogEnqueue q x n) := sameRest_setUnit rfl

/-- Attaching a user moves no packet and no weight. -/
theorem sameRest_userAttached (pending : List TcId) (q : QueueState) (r : UserRef) :
    SameRest q (userAttached pending q r) := by
  unfold userAttached
  by_cases hc : r.bucket ∈ pending ∧ (q.unit (.user r)).tc = none
  · rw [if_pos hc]
    exact sameRest_link q _ _
  · rw [if_neg hc]
    exact .refl q

/-- Attaching a user touches no flow. -/
theorem userAttached_flow_unit (pending : List TcId) (q : QueueState) (r : UserRef) (f : FlowId)
    (d : Dir) : (userAttached pending q r).unit (.flow f d) = q.unit (.flow f d) := by
  unfold userAttached
  by_cases hc : r.bucket ∈ pending ∧ (q.unit (.user r)).tc = none
  · rw [if_pos hc, link, setUnit_of_ne _ _ (by intro e; cases e), setUnits_unit]
  · rw [if_neg hc]

/-- `tbq_flow_backlog_attach` returns when the flow is not attached yet, the bucket or
the user of the rule is pending and the rule exists. -/
theorem Links.flowAttach_iff {q q' : QueueState} (h : Links q) {pending : List TcId} {nrRule : ℕ}
    {f : FlowId} {d : Dir} {r : UserRef} :
    flowBacklogAttach pending nrRule q f d r = .ok q' ↔
      (q.unit (.flow f d)).tc = none ∧ (r.bucket ∈ pending ∨ TcId.user r ∈ pending)
        ∧ r.i.val < nrRule ∧ q' = attachedFlow pending q f d r := by
  have hne : UnitId.flow f d ≠ .user r := fun e => by cases e
  unfold flowBacklogAttach
  rw [h.attached_eq]
  cases htc : (q.unit (.flow f d)).tc with
  | some X =>
      constructor
      · intro hq
        cases hq
      · rintro ⟨hc, -⟩
        cases hc
  | none =>
      -- the user's unit
      have huser : (∀ q₁, (if r.bucket ∈ pending then backlogAttach q (.user r) r.bucket
            else do
              stopIf (TcId.user r ∉ pending) (Stop.queue .flowAttachActive)
              pure q) = .ok q₁ ↔
          (r.bucket ∈ pending ∨ TcId.user r ∈ pending) ∧ q₁ = userAttached pending q r) := by
        intro q₁
        unfold userAttached
        by_cases hb : r.bucket ∈ pending
        · rw [if_pos hb, h.attach_eq]
          cases hu : (q.unit (.user r)).tc with
          | none => simp [hb, eq_comm]
          | some Y => simp [hb, eq_comm]
        · rw [if_neg hb]
          by_cases hp : TcId.user r ∈ pending
          · rw [stopIf_of_not (by simpa using hp), if_neg (by simp [hb])]
            constructor
            · intro hq
              exact ⟨.inr hp, (pure_eq_ok.mp hq).symm⟩
            · rintro ⟨-, rfl⟩
              rfl
          · rw [stopIf_of (by simpa using hp)]
            constructor
            · intro hq
              cases hq
            · rintro ⟨hc, -⟩
              simp [hb, hp] at hc
      have hlinks := (h.userAttached_links pending r).congr
        (sameLinks_backlogEnqueue _ (.user r) (q.unit (.flow f d)).octets)
      have hnone : ((backlogEnqueue (userAttached pending q r) (.user r)
          (q.unit (.flow f d)).octets).unit (.flow f d)).tc = none := by
        rw [backlogEnqueue, setUnit_of_ne _ _ hne, userAttached_flow_unit, htc]
      have hflow : (link (backlogEnqueue (userAttached pending q r) (.user r)
          (q.unit (.flow f d)).octets) (.flow f d) (.user r)).flow = q.flow := by
        rw [(sameRest_link _ _ _).flow, (sameRest_backlogEnqueue _ _ _).flow,
          (sameRest_userAttached pending q r).flow]
      simp only [Option.isSome_none, bind_eq_ok, Except.ok.injEq, exists_eq_left', stopIf_eq_ok,
        Bool.false_eq_true, not_false_eq_true, exists_const, pure_eq_ok, huser]
      constructor
      · rintro ⟨-, q₁, ⟨hp, rfl⟩, q₂, h₂, hi, rfl⟩
        rw [userAttached_flow_unit, hlinks.attach_eq, hnone] at h₂
        simp only [Option.isSome_none, Bool.false_eq_true, if_false, Except.ok.injEq] at h₂
        subst h₂
        refine ⟨trivial, hp, by omega, ?_⟩
        unfold attachedFlow
        rw [hflow]
      · rintro ⟨-, hp, hi, rfl⟩
        refine ⟨trivial, _, ⟨hp, rfl⟩, link (backlogEnqueue (userAttached pending q r) (.user r)
          (q.unit (.flow f d)).octets) (.flow f d) (.user r), ?_, by omega, ?_⟩
        · rw [userAttached_flow_unit, hlinks.attach_eq, hnone]
          simp only [Option.isSome_none, Bool.false_eq_true, if_false]
        · unfold attachedFlow
          rw [hflow]

/-- Attaching a flow keeps the links. -/
theorem Links.attachedFlow_links {q : QueueState} (h : Links q) {pending : List TcId} {f : FlowId}
    {d : Dir} {r : UserRef} (htc : (q.unit (.flow f d)).tc = none) (hc : Compat (.flow f d) (.user r)) :
    Links (attachedFlow pending q f d r) := by
  have hne : UnitId.flow f d ≠ .user r := fun e => by cases e
  have hlinks := (h.userAttached_links pending r).congr
    (sameLinks_backlogEnqueue _ (.user r) (q.unit (.flow f d)).octets)
  have hnone : ((backlogEnqueue (userAttached pending q r) (.user r)
      (q.unit (.flow f d)).octets).unit (.flow f d)).tc = none := by
    rw [backlogEnqueue, setUnit_of_ne _ _ hne, userAttached_flow_unit, htc]
  exact (hlinks.link_links hnone hc).congr (sameLinks_setUnit rfl rfl)

/-- The effect of `tbq_flow_backlog_detach` on a flow attached to `r`. -/
def detachedFlow (q : QueueState) (r : UserRef) (f : FlowId) (d : Dir) : QueueState :=
  unlink (drain q (.user r) (q.unit (.flow f d)).octets) (.flow f d)

/-- When a flow is detached, and what is left. -/
theorem Links.flowDetach_iff {q q' : QueueState} (h : Links q) {f : FlowId} {d : Dir} :
    flowBacklogDetach q f d = .ok q' ↔
      ∃ r, (q.unit (.flow f d)).tc = some (.user r)
        ∧ (q.unit (.flow f d)).octets ≤ (q.unit (.user r)).octets
        ∧ q' = detachedFlow q r f d := by
  unfold flowBacklogDetach
  rw [h.attached_eq]
  obtain htc | ⟨r, htc⟩ := h.flow_cases f d
  · rw [htc]
    constructor
    · intro hq
      cases hq
    · rintro ⟨r, hr, -⟩
      cases hr
  · rw [htc]
    have hl := h.drain_links (.user r) (q.unit (.flow f d)).octets
    simp only [Option.isSome_some, bind_eq_ok, Except.ok.injEq, exists_eq_left',
      stopIf_eq_ok, Bool.true_eq_false, not_false_eq_true, exists_const]
    constructor
    · rintro ⟨-, q₂, h₂, -, -, h₃⟩
      obtain ⟨hn, rfl⟩ := h.dequeue_ok h₂
      rw [hl.detach_eq] at h₃
      exact ⟨r, rfl, hn, (Except.ok.inj h₃).symm⟩
    · rintro ⟨r', hr', hn, rfl⟩
      obtain rfl : r = r' := by simpa using hr'
      exact ⟨trivial, _, h.dequeue_eq hn, _, hl.attached_eq _, hl.detach_eq _⟩

/-- Detaching a flow keeps the links. -/
theorem Links.detachedFlow_links {q : QueueState} (h : Links q) (r : UserRef) (f : FlowId)
    (d : Dir) : Links (detachedFlow q r f d) := (h.drain_links _ _).unlink_links _

/-! ## Adding a packet -/

/-- The flow and its user after `tbq_flow_backlog_enqueue`. -/
def added (q : QueueState) (r : UserRef) (f : FlowId) (d : Dir) (p : Packet) : QueueState :=
  (backlogEnqueue (backlogEnqueue q (.user r) p.pktLen) (.flow f d) p.pktLen).setPackets f d
    (q.packets f d ++ [p])

/-- When a packet is put into its flow, and what is left. -/
theorem Links.flowEnqueue_iff {q q' : QueueState} (h : Links q) {f : FlowId} {d : Dir}
    {p : Packet} :
    flowBacklogEnqueue q f d p = .ok q' ↔
      ∃ r, (q.unit (.flow f d)).tc = some (.user r) ∧ q' = added q r f d p := by
  unfold flowBacklogEnqueue
  rw [h.attached_eq]
  obtain htc | ⟨r, htc⟩ := h.flow_cases f d
  · rw [htc]
    constructor
    · intro hq
      cases hq
    · rintro ⟨r, hr, -⟩
      cases hr
  · rw [htc]
    simp only [Option.isSome_some, bind_eq_ok, Except.ok.injEq, exists_eq_left',
      stopIf_eq_ok, Bool.true_eq_false, not_false_eq_true, exists_const, pure_eq_ok]
    constructor
    · rintro ⟨-, rfl⟩
      exact ⟨r, rfl, rfl⟩
    · rintro ⟨r', hr', rfl⟩
      obtain rfl : r = r' := by simpa using hr'
      exact ⟨trivial, rfl⟩

/-- A packet more leaves the links. -/
theorem sameLinks_added (q : QueueState) (r : UserRef) (f : FlowId) (d : Dir) (p : Packet) :
    SameLinks q (added q r f d p) :=
  ((sameLinks_backlogEnqueue q _ _).trans (sameLinks_backlogEnqueue _ _ _)).trans
    (sameLinks_setPackets _ f d _)

/-- A packet less keeps the links. -/
theorem Links.removed_links {q : QueueState} (h : Links q) (r : UserRef) (f : FlowId) (d : Dir)
    (n : ℕ) (rest : List Packet) : Links (removed q r f d n rest) :=
  ((h.drain_links _ _).drain_links _ _).congr (sameLinks_setPackets _ f d rest)

/-- Accounting a packet leaves the links. -/
theorem Updated.sameLinks {p : Packet} {len : ℤ} {w : RuleIdx → ℤ} {l : List RuleIdx}
    {q q' : QueueState} (h : Updated p len w l q q') : SameLinks q q' := by
  have hu : q'.unit = q.unit := by rw [h.frame]
  exact ⟨fun x => by rw [hu], fun x => by rw [hu], h.units⟩

/-- `tbq_packet_ctrl_backlog_update` that returns. -/
theorem packetCtrlBacklogUpdate_ok {p : Packet} {len : ℤ} {fb : Option FlowId} {q q' : QueueState}
    (h : packetCtrlBacklogUpdate q p len fb = .ok q') :
    Updated p len (updateWeight q len fb) p.ruleMask.bits q q'
      ∧ UpdateOk p len (updateWeight q len fb) p.ruleMask.bits q :=
  (foldlM_userBacklogUpdate _ p.ruleMask.nodup_bits q).1 q' h

/-- Taking a packet off its flow keeps the links. -/
theorem Links.takePacket_links {q q' : QueueState} (h : Links q) {f : FlowId} {d : Dir}
    {p : Packet} {rest : List Packet} (hq : takePacket q f d p rest = .ok q') : Links q' := by
  obtain ⟨r, -, -, -, hup⟩ := h.takePacket_iff.mp hq
  exact (h.removed_links r f d _ rest).congr (packetCtrlBacklogUpdate_ok hup).1.sameLinks

/-! ## Deficit round robin -/

/-- The unit after its charge, and its list after a possible move to the tail. -/
def scheduled (q : QueueState) (x : UnitId) (n : ℕ) : QueueState :=
  let c := drrCharge (q.unit x) n
  match (q.unit x).tc with
  | none => q
  | some X =>
      if c.2 then (q.setUnit x c.1).setUnits X ((q.bl X).units.erase x ++ [x])
      else q.setUnit x c.1

/-- A charge of the deficit changes nothing else of the unit. -/
theorem drrCharge_tc (b : Backlog) (n : ℕ) :
    (drrCharge b n).1.tc = b.tc ∧ (drrCharge b n).1.linked = b.linked
      ∧ (drrCharge b n).1.octets = b.octets ∧ (drrCharge b n).1.weight = b.weight := by
  unfold drrCharge
  by_cases h : i32 (b.drrDeficit - n) < 0
  · simp only [if_pos h, and_self]
  · simp only [if_neg h, and_self]

/-- What one turn of a unit computes. -/
theorem Links.drrSchedule_eq {q : QueueState} (h : Links q) (x : UnitId) (n : ℕ) :
    backlogDrrSchedule q x n = .ok (scheduled q x n) := by
  unfold backlogDrrSchedule scheduled
  rw [h.attached_eq]
  cases htc : (q.unit x).tc with
  | none => rfl
  | some X =>
      have hc := (drrCharge_tc (q.unit x) n).1
      rw [htc] at hc
      rcases hdc : drrCharge (q.unit x) n with ⟨b, rotate⟩
      rw [hdc] at hc
      obtain ⟨tc, linked, octets, weight, deficit⟩ := b
      obtain rfl : tc = some X := hc
      cases rotate <;> rfl

end Tbq
