/-
# The dequeue loops end

`tbq_user_dequeue` and `tbq_bucket_dequeue` run under the lock in timer context.  A round
may drop packets, send one, move the flow to another user entry, or detach a user, and
each of these takes something from the work queued under the token control: its packets,
its flows and its users.  Nothing is assumed about tokens, ceilings, counters or the timer:
only that a flow waits for an entry of its own user, and a user for its own bucket, which
no event of any run can change.
-/
import OpenwrtAc.TbqSafety
import OpenwrtAc.TbqTracks

open Outcome MachineInt ListSum

namespace Tbq

/-! ## Places -/

/-- Whatever waits, waits where it may. -/
structure Placed (q : QueueState) : Prop where
  tc : ∀ x X, (q.unit x).tc = some X → Compat x X
  units : ∀ X, ∀ x ∈ (q.bl X).units, Compat x X

/-- Nothing new waits where it may not. -/
structure Tame (q q' : QueueState) : Prop where
  tc : ∀ x X, (q'.unit x).tc = some X → (q.unit x).tc = some X ∨ Compat x X
  units : ∀ X, ∀ x ∈ (q'.bl X).units, x ∈ (q.bl X).units ∨ Compat x X

/-- A step that changes nothing is tame. -/
theorem Tame.refl (q : QueueState) : Tame q q := ⟨fun _ _ h => .inl h, fun _ _ h => .inl h⟩

/-- Tame steps compose. -/
theorem Tame.trans {q q' q'' : QueueState} (h : Tame q q') (h' : Tame q' q'') : Tame q q'' := by
  refine ⟨fun x X hx => ?_, fun X x hx => ?_⟩
  · rcases h'.tc x X hx with hx | hc
    · exact h.tc x X hx
    · exact .inr hc
  · rcases h'.units X x hx with hx | hc
    · exact h.units X x hx
    · exact .inr hc

/-- A tame step keeps every unit in a list of its own level. -/
theorem Placed.tame {q q' : QueueState} (h : Placed q) (ht : Tame q q') : Placed q' :=
  ⟨fun x X hx => (ht.tc x X hx).elim (h.tc x X) id,
    fun X x hx => (ht.units X x hx).elim (h.units X x) id⟩

/-- The links are the same. -/
theorem tame_of_same {q q' : QueueState} (htc : ∀ x, (q'.unit x).tc = (q.unit x).tc)
    (hunits : ∀ X, (q'.bl X).units = (q.bl X).units) : Tame q q' :=
  ⟨fun x _ hx => .inl (htc x ▸ hx), fun X _ hx => .inl (hunits X ▸ hx)⟩

/-- Attaching a unit where its level allows is tame. -/
theorem tame_link (q : QueueState) {x : UnitId} {X : TcId} (hc : Compat x X) :
    Tame q (link q x X) := by
  refine ⟨fun y Y hy => ?_, fun Y y hy => ?_⟩
  · by_cases hyx : y = x
    · subst hyx
      rw [link, setUnit_self] at hy
      obtain rfl := Option.some.inj hy
      exact .inr hc
    · rw [link, setUnit_of_ne _ _ hyx, setUnits_unit] at hy
      exact .inl hy
  · by_cases hYX : Y = X
    · subst hYX
      rw [link, setUnit_bl, setUnits_self, List.mem_append, List.mem_singleton] at hy
      rcases hy with hy | rfl
      · exact .inl hy
      · exact .inr hc
    · rw [link, setUnit_bl, setUnits_of_ne _ _ hYX] at hy
      exact .inl hy

/-! ## Work -/

/-- What is queued under the token controls of `S` got less or stayed: units may have left
their lists or changed places there, packets may have left their flows. -/
structure Lighter (S : TcId → Prop) (q q' : QueueState) : Prop where
  units : ∀ X, S X → (q'.bl X).units.Subperm (q.bl X).units
  packets : ∀ f d, (q'.packets f d).length ≤ (q.packets f d).length

namespace Lighter

variable {S : TcId → Prop} {q q' q'' : QueueState}

/-- Nothing weighs more than itself. -/
theorem refl (q : QueueState) : Lighter S q q := ⟨fun _ _ => .refl _, fun _ _ => le_rfl⟩

/-- The work on the lists of `S` only falls along a sequence of steps. -/
theorem trans (h : Lighter S q q') (h' : Lighter S q' q'') : Lighter S q q'' :=
  ⟨fun X hX => (h'.units X hX).trans (h.units X hX), fun f d => (h'.packets f d).trans (h.packets f d)⟩

end Lighter

/-- A unit with its packets. -/
def unitWork (q : QueueState) : UnitId → ℕ
  | .flow f d => (q.packets f d).length + 1
  | .user _ => 1

/-- The flows that wait for the user entry `r`, with their packets. -/
def userWork (q : QueueState) (r : UserRef) : ℕ := total (q.bl (.user r)).units (unitWork q)

/-- A user of a bucket with its flows. -/
def entryWork (q : QueueState) : UnitId → ℕ
  | .user r => userWork q r + 1
  | .flow _ _ => 1

/-- The users that wait for a bucket, with their flows. -/
def bucketWork (q : QueueState) (d : Dir) (i : RuleIdx) : ℕ :=
  total (q.bl (.bucket d i)).units (entryWork q)

namespace Lighter

variable {S : TcId → Prop} {q q' : QueueState}

/-- The packets of a flow do not grow. -/
theorem unitWork_le (h : Lighter S q q') (x : UnitId) : unitWork q' x ≤ unitWork q x := by
  cases x with
  | user r => exact le_rfl
  | flow f d => exact Nat.succ_le_succ (h.packets f d)

/-- The work of a user of `S` does not grow. -/
theorem userWork_le (h : Lighter S q q') {r : UserRef} (hr : S (.user r)) :
    userWork q' r ≤ userWork q r :=
  (total_subperm (h.units _ hr) _).trans (total_le_total fun x _ => h.unitWork_le x)

/-- The work of an entry does not grow where its user belongs to `S`. -/
theorem entryWork_le (h : Lighter S q q') {x : UnitId} (hx : ∀ r, x = .user r → S (.user r)) :
    entryWork q' x ≤ entryWork q x := by
  cases x with
  | user r => exact Nat.succ_le_succ (h.userWork_le (hx r rfl))
  | flow f d => exact le_rfl

/-- A flow of the user entry lost a packet. -/
theorem userWork_lt (h : Lighter S q q') {r : UserRef} (hr : S (.user r)) {f : FlowId} {d : Dir}
    (hf : .flow f d ∈ (q.bl (.user r)).units)
    (hlt : (q'.packets f d).length < (q.packets f d).length) : userWork q' r < userWork q r :=
  (total_subperm (h.units _ hr) _).trans_lt
    (total_lt_total (fun x _ => h.unitWork_le x) hf (Nat.succ_lt_succ hlt))

/-- A flow of the user entry has left it. -/
theorem userWork_lt_of_erase (h : Lighter S q q') {r : UserRef} {x : UnitId}
    (hx : x ∈ (q.bl (.user r)).units)
    (hleft : (q'.bl (.user r)).units.Subperm ((q.bl (.user r)).units.erase x)) :
    userWork q' r < userWork q r := by
  have hpos : 0 < unitWork q x := by
    cases x <;> exact Nat.succ_pos _
  have hperm : total (q.bl (.user r)).units (unitWork q)
      = unitWork q x + total ((q.bl (.user r)).units.erase x) (unitWork q) := by
    rw [← total_cons]
    exact ((List.perm_cons_erase hx).map _).sum_eq
  unfold userWork
  rw [hperm]
  have := (total_subperm hleft (unitWork q')).trans (total_le_total fun y _ => h.unitWork_le y)
  omega

end Lighter

/-! ## Taking away -/

/-- Units were detached and packets taken out, and nothing else. -/
structure Shrunk (q q' : QueueState) : Prop where
  units : ∀ X, (q'.bl X).units.Sublist (q.bl X).units
  packets : ∀ f d, (q'.packets f d).length ≤ (q.packets f d).length
  tc : ∀ x, (q'.unit x).tc = none ∨ (q'.unit x).tc = (q.unit x).tc
  mem : ∀ x X, (q'.unit x).tc = some X → x ∈ (q.bl X).units → x ∈ (q'.bl X).units

namespace Shrunk

variable {q q' q'' : QueueState}

/-- A queue has shrunk to itself. -/
theorem refl (q : QueueState) : Shrunk q q :=
  ⟨fun _ => .refl _, fun _ _ => le_rfl, fun _ => .inr rfl, fun _ _ _ h => h⟩

/-- What is attached after a shrinking step was attached before. -/
theorem attached (h : Shrunk q q') {x : UnitId} {X : TcId} (hx : (q'.unit x).tc = some X) :
    (q.unit x).tc = some X := by
  rcases h.tc x with h₁ | h₁
  · rw [h₁] at hx
    cases hx
  · rwa [← h₁]

/-- Shrinking steps compose. -/
theorem trans (h : Shrunk q q') (h' : Shrunk q' q'') : Shrunk q q'' := by
  refine ⟨fun X => (h'.units X).trans (h.units X), fun f d => (h'.packets f d).trans (h.packets f d),
    fun x => ?_, fun x X hx hm => h'.mem x X hx (h.mem x X (h'.attached hx) hm)⟩
  rcases h'.tc x with h₁ | h₁
  · exact .inl h₁
  · rw [h₁]
    exact h.tc x

/-- A shrinking step is tame. -/
theorem tame (h : Shrunk q q') : Tame q q' :=
  ⟨fun _ _ hx => .inl (h.attached hx), fun X _ hx => .inl ((h.units X).subset hx)⟩

/-- A shrinking step lowers the work whatever the lists looked at. -/
theorem lighter (h : Shrunk q q') (S : TcId → Prop) : Lighter S q q' :=
  ⟨fun X _ => (h.units X).subperm, h.packets⟩

/-- Counters have no part in it. -/
theorem of_same (htc : ∀ x, (q'.unit x).tc = (q.unit x).tc)
    (hunits : ∀ X, (q'.bl X).units = (q.bl X).units) (hpk : q'.packets = q.packets) :
    Shrunk q q' := by
  refine ⟨fun X => ?_, fun f d => ?_, fun x => .inr (htc x), fun x X _ hm => ?_⟩
  · rw [hunits]
  · rw [hpk]
  · rwa [hunits]

end Shrunk

/-- Unlinking erases the unit from its own list and from no other. -/
theorem unlink_list (q : QueueState) (x : UnitId) (X : TcId) :
    ((unlink q x).bl X).units
      = if (q.unit x).tc = some X then (q.bl X).units.erase x else (q.bl X).units := by
  rw [unlink, setUnit_bl, listDel]
  cases htc : (q.unit x).tc with
  | none => simp
  | some Y =>
      by_cases hXY : X = Y
      · subst hXY
        simp
      · have hne : ¬ some Y = some X := fun e => hXY (Option.some.inj e).symm
        rw [if_neg hne]
        dsimp only
        rw [setUnits_of_ne _ _ hXY]

/-- Taking a unit off its list moves no packet. -/
theorem listDel_packets (q : QueueState) (x : UnitId) : (listDel q x).packets = q.packets := by
  unfold listDel
  split <;> rfl

/-- Unlinking a unit shrinks the queue. -/
theorem shrunk_unlink (q : QueueState) (x : UnitId) : Shrunk q (unlink q x) := by
  refine ⟨fun X => ?_, fun f d => ?_, fun y => ?_, fun y X hy hm => ?_⟩
  · rw [unlink_list]
    split
    · exact List.erase_sublist
    · exact .refl _
  · rw [unlink, setUnit_packets, listDel_packets]
  · rw [Links.unlink_tc]
    split
    · exact .inl rfl
    · exact .inr rfl
  · rw [unlink_list]
    split
    · refine (List.mem_erase_of_ne ?_).mpr hm
      rintro rfl
      rw [Links.unlink_tc, if_pos rfl] at hy
      cases hy
    · exact hm

/-- Rewriting a unit's counters shrinks nothing and grows nothing. -/
theorem shrunk_setUnit {q : QueueState} {x : UnitId} {b : Backlog} (hb : b.tc = (q.unit x).tc) :
    Shrunk q (q.setUnit x b) := by
  refine .of_same (fun y => ?_) (fun _ => rfl) rfl
  by_cases hy : y = x
  · rw [hy, setUnit_self, hb]
  · rw [setUnit_of_ne _ _ hy]

/-- The test answers whether the unit has a token control. -/
theorem backlogAttached_ok {q : QueueState} {x : UnitId} {b : Bool}
    (h : backlogAttached q x = .ok b) : b = (q.unit x).tc.isSome := by
  unfold backlogAttached at h
  dsimp only at h
  split at h
  · rename_i htc
    obtain ⟨-, -, h⟩ := bind_eq_ok.mp h
    cases h
    exact (Option.isSome_iff_ne_none.mpr htc).symm
  · rename_i htc
    obtain ⟨-, -, h⟩ := bind_eq_ok.mp h
    cases h
    rw [not_not.mp htc]
    rfl

/-- A detached unit is off its list. -/
theorem backlogDetach_ok {q q' : QueueState} {x : UnitId} (h : backlogDetach q x = .ok q') :
    Shrunk q q' ∧ ∀ X, (q.unit x).tc = some X → q' = unlink q x := by
  unfold backlogDetach at h
  obtain ⟨b, hb, h⟩ := bind_eq_ok.mp h
  obtain rfl := backlogAttached_ok hb
  split at h
  · cases h
    exact ⟨shrunk_unlink q x, fun _ _ => rfl⟩
  · rename_i hnone
    cases h
    refine ⟨.refl q, fun X hX => ?_⟩
    rw [hX] at hnone
    exact absurd rfl hnone

/-- Taking octets off a unit shrinks the queue, also where the unit is detached by it. -/
theorem backlogDequeue_shrunk {q q' : QueueState} {x : UnitId} {n : ℕ}
    (h : backlogDequeue q x n = .ok q') : Shrunk q q' := by
  unfold backlogDequeue at h
  obtain ⟨-, -, h⟩ := bind_eq_ok.mp h
  have hset : Shrunk q (q.setUnit x { q.unit x with octets := (q.unit x).octets - n }) :=
    shrunk_setUnit rfl
  dsimp only at h
  split at h
  · exact hset.trans (backlogDetach_ok h).1
  · cases h
    exact hset

/-- Accounting a packet with its rules shrinks the queue. -/
theorem Updated.shrunk {p : Packet} {len : ℤ} {w : RuleIdx → ℤ} {l : List RuleIdx}
    {q q' : QueueState} (h : Updated p len w l q q') : Shrunk q q' := by
  refine .of_same (fun x => ?_) h.units ?_
  · rw [h.frame]
  · rw [h.frame]

/-- Unlinking a packet shrinks the queue and leaves the rest of the flow. -/
theorem takePacket_shrunk {q q' : QueueState} {f : FlowId} {d : Dir} {p : Packet}
    {rest : List Packet} (h : takePacket q f d p rest = .ok q')
    (hlen : rest.length ≤ (q.packets f d).length) : Shrunk q q' ∧ q'.packets f d = rest := by
  unfold takePacket at h
  obtain ⟨q₁, h₁, h⟩ := bind_eq_ok.mp h
  obtain ⟨hup, -⟩ := packetCtrlBacklogUpdate_ok h
  suffices hq₁ : Shrunk q q₁ ∧ q₁.packets f d = rest by
    refine ⟨hq₁.1.trans hup.shrunk, ?_⟩
    rw [hup.frame]
    exact hq₁.2
  unfold flowBacklogDequeue at h₁
  obtain ⟨b, -, h₁⟩ := bind_eq_ok.mp h₁
  obtain ⟨-, -, h₁⟩ := bind_eq_ok.mp h₁
  split at h₁
  · obtain ⟨q₂, h₂, h₁⟩ := bind_eq_ok.mp h₁
    obtain ⟨q₃, h₃, h₁⟩ := bind_eq_ok.mp h₁
    cases h₁
    have hs := (backlogDequeue_shrunk h₂).trans (backlogDequeue_shrunk h₃)
    refine ⟨⟨hs.units, fun g e => ?_, hs.tc, hs.mem⟩, setPackets_self _ f d rest⟩
    by_cases hge : g = f ∧ e = d
    · obtain ⟨rfl, rfl⟩ := hge
      rwa [setPackets_self]
    · rw [setPackets_of_ne _ _ hge]
      exact hs.packets g e
  · cases h₁

/-! ## Where a call can stop -/

/-- The computation returns, or runs into an assertion or a bad pointer: it does not go
round for ever. -/
def Ends {α : Type} (x : Except Stop α) : Prop := Sat x (fun _ => True) fun e => e ≠ .fuel

/-- Two steps that end, end in sequence. -/
theorem Ends.bind {α β : Type} {x : Except Stop α} {f : α → Except Stop β} (hx : Ends x)
    (hf : ∀ a, x = .ok a → Ends (f a)) : Ends (x >>= f) :=
  Sat.bind (Sat.and_run hx) fun a ha => hf a ha.1

/-- Returning a value takes no fuel. -/
theorem ends_pure {α : Type} (a : α) : Ends (pure a : Except Stop α) := trivial

/-- An assertion takes no fuel. -/
theorem ends_stopIf {c : Prop} [Decidable c] {e : Stop} (he : e ≠ .fuel) :
    Ends (stopIf c e) := sat_stopIf (fun _ => trivial) fun _ => he

/-- A test ends where both branches do. -/
theorem ends_ite {α : Type} {c : Prop} [Decidable c] {x y : Except Stop α} (hx : Ends x)
    (hy : Ends y) : Ends (if c then x else y) := by
  split
  · exact hx
  · exact hy

/-- A computation that ends whatever the bound `c` on the rounds says. -/
theorem Ends.run {α : Type} {x : Except Stop α} (h : Ends x) (c : Prop) :
    Sat x (fun a => x = .ok a) fun e => c → e ≠ .fuel :=
  (Sat.and_run h).mono (fun _ ha => ha.1) fun _ he _ => he

/-- A run that ends has not run out of fuel. -/
theorem Ends.ne_fuel {α : Type} {x : Except Stop α} (h : Ends x) : x ≠ .error .fuel :=
  fun he => h.of_error he rfl

/-- A run that has not run out of fuel ends. -/
theorem ends_of_ne_fuel {α : Type} {x : Except Stop α} (h : x ≠ .error .fuel) : Ends x :=
  sat_intro (fun _ _ => trivial) fun _ he hf => h (hf ▸ he)

/-- Steps on the backlogs do not loop. -/
theorem QueueRun.ends {α : Type} {x : Except Stop α} (h : QueueRun x) : Ends x := by
  refine h.mono (fun _ ha => ha) fun e he => ?_
  rintro rfl
  exact he

/-- Steps on the tokens do not loop. -/
theorem TokenRun.ends {α : Type} {x : Except Stop α} (h : TokenRun x) : Ends x := by
  refine h.mono (fun _ ha => ha) fun e he => ?_
  obtain ⟨b, rfl⟩ := he
  exact fun hf => by cases hf

/-- Attaching a unit does not loop. -/
theorem ends_backlogAttach (q : QueueState) (x : UnitId) (X : TcId) : Ends (backlogAttach q x X) :=
  (queueRun_backlogAttached q x).ends.bind fun _ _ => ends_ite (ends_pure _) (ends_pure _)

/-- One turn of a unit does not loop. -/
theorem ends_backlogDrrSchedule (q : QueueState) (x : UnitId) (n : ℕ) :
    Ends (backlogDrrSchedule q x n) := by
  refine (queueRun_backlogAttached q x).ends.bind fun _ _ => ends_ite ?_ (ends_pure _)
  dsimp only
  split
  · exact ends_pure _
  · exact ends_pure _

/-- One turn of a flow does not loop. -/
theorem ends_flowBacklogDrrSchedule (q : QueueState) (f : FlowId) (d : Dir) (n : ℕ) :
    Ends (flowBacklogDrrSchedule q f d n) := by
  unfold flowBacklogDrrSchedule
  split
  · exact (ends_backlogDrrSchedule _ _ _).bind fun _ _ => ends_backlogDrrSchedule _ _ _
  · exact fun hf => by cases hf

/-- Attaching a flow does not loop. -/
theorem ends_flowBacklogAttach (pending : List TcId) (nrRule : ℕ) (q : QueueState) (f : FlowId)
    (d : Dir) (r : UserRef) : Ends (flowBacklogAttach pending nrRule q f d r) := by
  refine (queueRun_backlogAttached q _).ends.bind fun _ _ => (ends_stopIf (by simp)).bind
    fun _ _ => Ends.bind (ends_ite (ends_backlogAttach _ _ _)
      ((ends_stopIf (by simp)).bind fun _ _ => ends_pure _)) fun _ _ => ?_
  exact (ends_backlogAttach _ _ _).bind fun _ _ => (ends_stopIf (by simp)).bind
    fun _ _ => ends_pure _

/-- Charging a packet to its controls does not loop. -/
theorem ends_packetCtrlConsume (t : TokenState) (p : Packet) : Ends (packetCtrlConsume t p) := by
  unfold packetCtrlConsume
  split
  · exact ends_pure _
  · split
    · exact ends_pure _
    · refine Ends.bind ?_ fun _ _ => ends_pure _
      refine sat_foldlM (fun _ _ => True) _ t trivial fun i l t _ => ?_
      exact (ends_stopIf (by simp)).bind fun _ _ =>
        (tokenRun_consumeOrDeactivate _ _ _).ends.bind fun _ _ =>
          (tokenRun_consumeOrDeactivate _ _ _).ends

/-! ## Dropping -/

/-- One turn of the dropping loop takes a packet off the flow, or ends the loop and changes
nothing. -/
theorem dropBody_sat (f : FlowId) (d : Dir) (maxOctets : ℕ) (q : QueueState) :
    Sat (dropBody f d maxOctets q) (fun r =>
        (r.1 = true → Shrunk q r.2 ∧ (r.2.packets f d).length < (q.packets f d).length)
          ∧ (r.1 = false → r.2 = q))
      fun e => e ≠ .fuel := by
  unfold dropBody
  split
  · cases hlast : (q.packets f d).getLast? with
    | none => exact fun hf => by cases hf
    | some p =>
        have hne : q.packets f d ≠ [] := by
          intro hnil
          rw [hnil] at hlast
          cases hlast
        have hlen : (q.packets f d).dropLast.length < (q.packets f d).length := by
          have := List.length_pos_iff.mpr hne
          rw [List.length_dropLast]
          omega
        refine Sat.bind (Sat.and_run (queueRun_takePacket q f d p _).ends) fun q' hq' => ?_
        obtain ⟨hs, hpk⟩ := takePacket_shrunk hq'.1 hlen.le
        refine ⟨fun _ => ⟨hs.trans (.of_same (fun _ => rfl) (fun _ => rfl) rfl), ?_⟩,
          fun h => by cases h⟩
        show (q'.packets f d).length < _
        rwa [hpk]
  · refine ⟨fun h => ?_, fun _ => rfl⟩
    cases h

/-- Dropping from the tail ends, and either nothing was dropped or the flow is shorter. -/
theorem flowBacklogDrop_sat (k : Ceiling) {fuel : ℕ} (q : QueueState) (f : FlowId) (d : Dir) :
    Sat (flowBacklogDrop k fuel q f d) (fun q' =>
        q' = q ∨ Shrunk q q' ∧ (q'.packets f d).length < (q.packets f d).length)
      fun e => (q.packets f d).length < fuel → e ≠ .fuel := by
  unfold flowBacklogDrop
  refine Sat.bind ((queueRun_flowBacklogMaxOctets k q f d).ends.run _) fun maxOctets _ => ?_
  refine sat_intro (fun q' hq' => ?_) fun e he hfuel hf => ?_
  · refine rel_of_loopFuel (R := fun q q' => q' = q ∨
        Shrunk q q' ∧ (q'.packets f d).length < (q.packets f d).length) ?_ ?_ _ _ _ hq'
    · rintro a b c (rfl | ⟨h₁, h₂⟩) (rfl | ⟨h₃, h₄⟩)
      · exact .inl rfl
      · exact .inr ⟨h₃, h₄⟩
      · exact .inr ⟨h₁, h₂⟩
      · exact .inr ⟨h₁.trans h₃, h₄.trans h₂⟩
    · intro s more s' hs
      obtain ⟨h₁, h₂⟩ := (dropBody_sat f d maxOctets s).of_ok hs
      cases more with
      | true => exact .inr (h₁ rfl)
      | false => exact .inl (h₂ rfl)
  · subst hf
    refine loopFuel_ne_out (I := fun _ => True) (μ := fun q => (q.packets f d).length)
      (fun s _ => ?_) _ _ trivial hfuel he
    exact (dropBody_sat f d maxOctets s).mono (fun r hr hm => ⟨trivial, (hr.1 hm).2⟩)
      fun _ he => he

/-! ## Moving a flow -/

/-- Taking octets off one unit leaves the other units as they are. -/
theorem backlogDequeue_unit {q q' : QueueState} {x y : UnitId} {n : ℕ}
    (h : backlogDequeue q x n = .ok q') (hy : y ≠ x) : q'.unit y = q.unit y := by
  unfold backlogDequeue at h
  obtain ⟨-, -, h⟩ := bind_eq_ok.mp h
  dsimp only at h
  split at h
  · unfold backlogDetach at h
    obtain ⟨b, -, h⟩ := bind_eq_ok.mp h
    split at h
    · cases h
      rw [unlink, setUnit_of_ne _ _ hy, Links.listDel_unit, setUnit_of_ne _ _ hy]
    · cases h
      rw [setUnit_of_ne _ _ hy]
  · cases h
    rw [setUnit_of_ne _ _ hy]

/-- A detached flow has left the user entry it waited for. -/
theorem flowBacklogDetach_ok {q q' : QueueState} {f : FlowId} {d : Dir} {r : UserRef}
    (htc : (q.unit (.flow f d)).tc = some (.user r)) (h : flowBacklogDetach q f d = .ok q') :
    Shrunk q q' ∧ (q'.bl (.user r)).units.Subperm ((q.bl (.user r)).units.erase (.flow f d)) := by
  unfold flowBacklogDetach at h
  obtain ⟨b, -, h⟩ := bind_eq_ok.mp h
  obtain ⟨-, -, h⟩ := bind_eq_ok.mp h
  rw [htc] at h
  dsimp only at h
  obtain ⟨q₁, h₁, h⟩ := bind_eq_ok.mp h
  obtain ⟨b', -, h⟩ := bind_eq_ok.mp h
  have hs := backlogDequeue_shrunk h₁
  obtain ⟨hd, hunlink⟩ := backlogDetach_ok h
  have htc₁ : (q₁.unit (.flow f d)).tc = some (.user r) := by
    rw [backlogDequeue_unit h₁ (by intro e; cases e), htc]
  refine ⟨hs.trans hd, ?_⟩
  rw [hunlink _ htc₁, unlink_list, if_pos htc₁]
  exact ((hs.units (.user r)).erase _).subperm

/-- A unit is attached only where it was detached. -/
theorem backlogAttach_ok {q q' : QueueState} {x : UnitId} {X : TcId}
    (h : backlogAttach q x X = .ok q') :
    q' = if (q.unit x).tc = none then link q x X else q := by
  unfold backlogAttach at h
  obtain ⟨b, hb, h⟩ := bind_eq_ok.mp h
  obtain rfl := backlogAttached_ok hb
  cases htc : (q.unit x).tc with
  | none =>
      rw [htc] at h
      cases h
      rfl
  | some Y =>
      rw [htc] at h
      cases h
      rfl

/-- Attaching to a control of the unit's level is tame. -/
theorem backlogAttach_tame {q q' : QueueState} {x : UnitId} {X : TcId} (hc : Compat x X)
    (h : backlogAttach q x X = .ok q') : Tame q q' := by
  rw [backlogAttach_ok h]
  split
  · exact tame_link q hc
  · exact .refl q

/-- Attaching changes the list of one control only. -/
theorem backlogAttach_units {q q' : QueueState} {x : UnitId} {X Y : TcId} (hY : Y ≠ X)
    (h : backlogAttach q x X = .ok q') : (q'.bl Y).units = (q.bl Y).units := by
  rw [backlogAttach_ok h]
  split
  · rw [link, setUnit_bl, setUnits_of_ne _ _ hY]
  · rfl

/-- What attaching a flow leaves alone. -/
structure Attaches (pending : List TcId) (f : FlowId) (d : Dir) (r : UserRef) (q q' : QueueState) :
    Prop where
  tame : Compat (.flow f d) (.user r) → Tame q q'
  units : ∀ X, X ≠ .user r → (X = r.bucket → X ∉ pending) → (q'.bl X).units = (q.bl X).units
  packets : q'.packets = q.packets
  tc : (q'.unit (.flow f d)).tc = some (.user r)

/-- Attaching a flow is what the relation `Attaches` says. -/
theorem flowBacklogAttach_ok {pending : List TcId} {nrRule : ℕ} {q q' : QueueState} {f : FlowId}
    {d : Dir} {r : UserRef} (h : flowBacklogAttach pending nrRule q f d r = .ok q') :
    Attaches pending f d r q q' := by
  unfold flowBacklogAttach at h
  obtain ⟨b, hb, h⟩ := bind_eq_ok.mp h
  obtain ⟨u, hfree, h⟩ := bind_eq_ok.mp h
  obtain ⟨q₁, h₁, h⟩ := bind_eq_ok.mp h
  obtain ⟨q₂, h₂, h⟩ := bind_eq_ok.mp h
  obtain ⟨-, -, h⟩ := bind_eq_ok.mp h
  cases h
  obtain rfl := backlogAttached_ok hb
  have hnone : (q.unit (.flow f d)).tc = none := by
    rw [stopIf_eq_ok] at hfree
    simpa using hfree
  -- the user goes first, and its bucket only gets it when it is on the timer
  have huser : Tame q q₁ ∧ q₁.packets = q.packets ∧ q₁.unit (.flow f d) = q.unit (.flow f d)
      ∧ ∀ X, (X = r.bucket → X ∉ pending) → (q₁.bl X).units = (q.bl X).units := by
    split at h₁
    · rename_i hp
      refine ⟨backlogAttach_tame (show Compat (.user r) r.bucket from rfl) h₁, ?_, ?_, fun X hX => ?_⟩
      · rw [backlogAttach_ok h₁]
        split <;> rfl
      · rw [backlogAttach_ok h₁]
        split
        · rw [link, setUnit_of_ne _ _ (by intro e; cases e), setUnits_unit]
        · rfl
      · exact backlogAttach_units (fun e => hX e (e ▸ hp)) h₁
    · obtain ⟨-, -, h₁⟩ := bind_eq_ok.mp h₁
      cases h₁
      exact ⟨.refl q, rfl, rfl, fun _ _ => rfl⟩
  obtain ⟨htame, hpk, hunit, hunits⟩ := huser
  have hoct : Tame q₁ (backlogEnqueue q₁ (.user r) (q₁.unit (.flow f d)).octets) :=
    tame_of_same (sameLinks_backlogEnqueue ..).tc (sameLinks_backlogEnqueue ..).units
  have hweight : ∀ b : Backlog, b.tc = (q₂.unit (.flow f d)).tc →
      Tame q₂ (q₂.setUnit (.flow f d) b) := fun b hb => (shrunk_setUnit hb).tame
  refine ⟨fun hc => ?_, fun X hX hp => ?_, ?_, ?_⟩
  · exact ((htame.trans hoct).trans (backlogAttach_tame hc h₂)).trans (hweight _ rfl)
  · exact (backlogAttach_units hX h₂).trans (hunits X hp)
  · rw [setUnit_packets, backlogAttach_ok h₂]
    split
    · exact hpk
    · exact hpk
  · rw [setUnit_self, backlogAttach_ok h₂, if_pos]
    · rw [link, setUnit_self]
    · rw [backlogEnqueue, setUnit_of_ne _ _ (by intro e; cases e), hunit, hnone]

/-- Scheduling moves a unit to the tail of the list of what it waits for, if anything. -/
theorem backlogDrrSchedule_ok {q q' : QueueState} {x : UnitId} {n : ℕ}
    (h : backlogDrrSchedule q x n = .ok q') :
    (∀ y, (q'.unit y).tc = (q.unit y).tc) ∧ q'.packets = q.packets
      ∧ ∀ X, (q'.bl X).units = (q.bl X).units
        ∨ (q.unit x).tc = some X ∧ (q'.bl X).units = (q.bl X).units.erase x ++ [x] := by
  unfold backlogDrrSchedule at h
  obtain ⟨a, -, h⟩ := bind_eq_ok.mp h
  split at h
  · obtain ⟨htc, -⟩ := drrCharge_tc (q.unit x) n
    rcases hdc : drrCharge (q.unit x) n with ⟨b, rotate⟩
    rw [hdc] at h htc
    dsimp only at h htc
    have hunit : ∀ y, ((q.setUnit x b).unit y).tc = (q.unit y).tc := by
      intro y
      by_cases hy : y = x
      · rw [hy, setUnit_self, htc]
      · rw [setUnit_of_ne _ _ hy]
    split at h
    · rename_i X hX
      cases h
      refine ⟨fun y => hunit y, rfl, fun Y => ?_⟩
      by_cases hY : Y = X
      · subst hY
        exact .inr ⟨htc ▸ hX, setUnits_self _ _ _⟩
      · rw [setUnits_of_ne _ _ hY]
        exact .inl rfl
    · cases h
      exact ⟨hunit, rfl, fun _ => .inl rfl⟩
  · cases h
    exact ⟨fun _ => rfl, rfl, fun _ => .inl rfl⟩

/-- One turn of a unit is tame. -/
theorem backlogDrrSchedule_tame {q q' : QueueState} (hq : Placed q) {x : UnitId} {n : ℕ}
    (h : backlogDrrSchedule q x n = .ok q') : Tame q q' := by
  obtain ⟨htc, -, hunits⟩ := backlogDrrSchedule_ok h
  refine ⟨fun y X hy => .inl (htc y ▸ hy), fun X y hy => ?_⟩
  rcases hunits X with he | ⟨hx, he⟩
  · rw [he] at hy
    exact .inl hy
  · rw [he, List.mem_append, List.mem_singleton] at hy
    rcases hy with hy | rfl
    · exact .inl (List.mem_of_mem_erase hy)
    · exact .inr (hq.tc y X hx)

/-- Where a unit that waits is on its list, scheduling only changes the order. -/
theorem backlogDrrSchedule_lighter {S : TcId → Prop} {q q' : QueueState} {x : UnitId} {n : ℕ}
    (hx : ∀ X, S X → (q.unit x).tc = some X → x ∈ (q.bl X).units)
    (h : backlogDrrSchedule q x n = .ok q') : Lighter S q q' := by
  obtain ⟨-, hpk, hunits⟩ := backlogDrrSchedule_ok h
  refine ⟨fun X hX => ?_, fun f d => by rw [hpk]⟩
  rcases hunits X with he | ⟨htc, he⟩
  · rw [he]
  · rw [he]
    have hperm : ((q.bl X).units.erase x ++ [x]).Perm (q.bl X).units :=
      (List.perm_append_singleton x _).trans (List.perm_cons_erase (hx X hX htc)).symm
    exact hperm.subperm

/-- A unit that takes its turn stays in its list. -/
theorem backlogDrrSchedule_mem {q q' : QueueState} {x y : UnitId} {X : TcId} {n : ℕ}
    (h : backlogDrrSchedule q x n = .ok q') (hy : y ∈ (q.bl X).units) : y ∈ (q'.bl X).units := by
  obtain ⟨-, -, hunits⟩ := backlogDrrSchedule_ok h
  rcases hunits X with he | ⟨-, he⟩
  · rwa [he]
  · rw [he, List.mem_append, List.mem_singleton]
    by_cases hyx : y = x
    · exact .inr hyx
    · exact .inl ((List.mem_erase_of_ne hyx).mpr hy)

/-! ## One try -/

/-- What a try on the flow `f`, which waits for the user entry `r`, takes from the token
controls of `S`. -/
structure Progress (S : TcId → Prop) (f : FlowId) (d : Dir) (r : UserRef) (q q' : QueueState) :
    Prop where
  tame : Tame q q'
  lighter : Lighter S q q'
  less : (q'.packets f d).length < (q.packets f d).length
    ∨ (q'.bl (.user r)).units.Subperm ((q.bl (.user r)).units.erase (.flow f d))

/-- The token controls of `S` are out of the way when the flow moves to another entry, and
hold the user when it is scheduled. -/
structure Guarded (S : TcId → Prop) (f : FlowId) (d : Dir) (r : UserRef) (s : State) : Prop where
  flow : (s.q.unit (.flow f d)).tc = some (.user r)
  mem : .flow f d ∈ (s.q.bl (.user r)).units
  moves : ∀ r', r' ≠ r → r'.u = f.user → r'.d = d →
    ¬ S (.user r') ∧ (S r'.bucket → r'.bucket ∉ s.t.pending)
  user : ∀ X, S X → (s.q.unit (.user r)).tc = some X → .user r ∈ (s.q.bl X).units

/-- Consuming returns a pending entry without charging anything. -/
theorem packetCtrlConsume_some {t t' : TokenState} {p : Packet} {i : RuleIdx}
    (h : packetCtrlConsume t p = .ok (some i, t')) : t' = t := by
  unfold packetCtrlConsume at h
  split at h
  · cases h
    rfl
  · split at h
    · cases h
      rfl
    · obtain ⟨t₁, -, h⟩ := bind_eq_ok.mp h
      cases h

/-- The flow moves to another entry of its user. -/
theorem switch_progress {S : TcId → Prop} {s : State} {f : FlowId} {d : Dir} {r r' : UserRef}
    (hg : Guarded S f d r s) {q q₁ q₂ : QueueState} (hs : Shrunk s.q q)
    (htc : (q.unit (.flow f d)).tc = some (.user r)) {n : ℕ}
    (h₁ : flowBacklogDetach q f d = .ok q₁)
    (h₂ : flowBacklogAttach s.t.pending n q₁ f d r' = .ok q₂)
    (hne : (q₂.unit (.flow f d)).tc ≠ some (.user r)) (hu : r'.u = f.user) (hd : r'.d = d) :
    Progress S f d r s.q q₂ := by
  obtain ⟨hdet, hleft⟩ := flowBacklogDetach_ok htc h₁
  have hatt := flowBacklogAttach_ok h₂
  have hne' : r' ≠ r := by
    rintro rfl
    exact hne hatt.tc
  obtain ⟨huser, hbucket⟩ := hg.moves r' hne' hu hd
  refine ⟨(hs.trans hdet).tame.trans (hatt.tame ⟨hu, hd⟩), ⟨fun X hX => ?_, fun g e => ?_⟩, .inr ?_⟩
  · rw [hatt.units X (fun e => huser (e ▸ hX)) fun e => e ▸ hbucket (e ▸ hX)]
    exact ((hs.trans hdet).units X).subperm
  · rw [hatt.packets]
    exact (hs.trans hdet).packets g e
  · rw [hatt.units _ (fun e => hne' (TcId.user.inj e).symm) fun e => by cases e]
    exact hleft.trans ((hs.units (.user r)).erase _).subperm

/-- The first packet of the flow is sent. -/
theorem send_progress {S : TcId → Prop} {s : State} {f : FlowId} {d : Dir} {r : UserRef}
    (hq : Placed s.q) (hg : Guarded S f d r s) {q q₁ q₂ : QueueState} (hs : Shrunk s.q q)
    (htc : (q.unit (.flow f d)).tc = some (.user r)) {p : Packet} {rest : List Packet}
    (hpk : q.packets f d = p :: rest) {n : ℕ} (h₁ : flowBacklogDrrSchedule q f d n = .ok q₁)
    (h₂ : takePacket q₁ f d p rest = .ok q₂) : Progress S f d r s.q q₂ := by
  unfold flowBacklogDrrSchedule at h₁
  rw [htc] at h₁
  dsimp only at h₁
  obtain ⟨q₀, h₀, h₁⟩ := bind_eq_ok.mp h₁
  obtain ⟨htc₀, hpk₀, -⟩ := backlogDrrSchedule_ok h₀
  obtain ⟨-, hpk₁, -⟩ := backlogDrrSchedule_ok h₁
  have hplaced : Placed q := hq.tame hs.tame
  have ht₀ := backlogDrrSchedule_tame hplaced h₀
  have ht₁ := backlogDrrSchedule_tame (hplaced.tame ht₀) h₁
  have huser : Lighter S q q₀ := backlogDrrSchedule_lighter
    (fun X hX hx => hs.mem _ X hx (hg.user X hX (hs.attached hx))) h₀
  have hflow : Lighter S q₀ q₁ := by
    refine backlogDrrSchedule_lighter (fun X hX hx => ?_) h₁
    rw [htc₀, htc] at hx
    obtain rfl := Option.some.inj hx
    exact backlogDrrSchedule_mem h₀ (hs.mem _ _ htc hg.mem)
  obtain ⟨htake, hrest⟩ := takePacket_shrunk h₂ (by rw [hpk₁, hpk₀, hpk]; simp)
  refine ⟨((hs.tame.trans ht₀).trans ht₁).trans htake.tame,
    (((hs.lighter S).trans huser).trans hflow).trans (htake.lighter S), .inl ?_⟩
  have := hs.packets f d
  rw [hpk, List.length_cons] at this
  rw [hrest]
  omega

/-- Trying a flow makes progress, and fuel for the flow's packets is enough. -/
theorem tryDequeue_sat {S : TcId → Prop} {fuel : ℕ} {s : State} {f : FlowId} {d : Dir}
    {r : UserRef} (hq : Placed s.q) (hg : Guarded S f d r s) :
    Sat (flowBacklogTryDequeue fuel s f d) (fun s' => Progress S f d r s.q s'.q)
      fun e => (s.q.packets f d).length < fuel → e ≠ .fuel := by
  unfold flowBacklogTryDequeue
  refine Sat.bind ((queueRun_flowBacklogEmpty s.q f d).ends.run _) fun e he => ?_
  refine Sat.bind (sat_stopIf (Q := fun _ => e = false) (fun hne => by simpa using hne)
    fun _ _ hf => by cases hf) fun _ hfalse => ?_
  obtain rfl := hfalse
  refine Sat.bind (flowBacklogDrop_sat s.ceiling s.q f d) fun q hdrop => ?_
  have hshrunk : Shrunk s.q q := by
    rcases hdrop with rfl | ⟨h, -⟩
    · exact .refl _
    · exact h
  refine Sat.bind ((queueRun_flowBacklogEmpty q f d).ends.run _) fun e' he' => ?_
  cases e' with
  | true =>
      -- only a packet that was dropped can have emptied the flow
      refine ⟨hshrunk.tame, hshrunk.lighter S, .inl ?_⟩
      rcases hdrop with rfl | ⟨-, h⟩
      · have := he.symm.trans he'
        cases this
      · exact h
  | false =>
      rw [if_neg (by simp)]
      cases hpk : q.packets f d with
      | nil => exact fun _ hf => by cases hf
      | cons p rest =>
          cases htc : (q.unit (.flow f d)).tc with
          | none => exact fun _ hf => by cases hf
          | some X =>
              obtain rfl : X = .user r :=
                Option.some.inj ((hshrunk.attached htc).symm.trans hg.flow)
              refine Sat.bind (sat_stopIf (Q := fun _ => p.flow = f ∧ p.dir = d)
                (fun hne => by simpa [not_or] using hne) fun _ _ hf => by cases hf) fun _ hp => ?_
              obtain ⟨rfl, rfl⟩ := hp
              refine Sat.bind ((ends_stopIf (by simp)).run _) fun _ _ => ?_
              refine Sat.bind ((ends_packetCtrlConsume s.t p).run _) fun a ha => ?_
              obtain ⟨o, t⟩ := a
              cases o with
              | some i =>
                  obtain rfl := packetCtrlConsume_some ha
                  refine Sat.bind ((queueRun_flowBacklogDetach q _ _).ends.run _)
                    fun q₁ h₁ => ?_
                  refine Sat.bind ((ends_flowBacklogAttach _ _ q₁ _ _ _).run _)
                    fun q₂ h₂ => ?_
                  refine Sat.bind (sat_stopIf (Q := fun _ => (q₂.unit (.flow p.flow p.dir)).tc
                    ≠ some (.user r)) id fun _ _ hf => by cases hf) fun _ hne => ?_
                  exact switch_progress hg hshrunk htc h₁ h₂ hne rfl rfl
              | none =>
                  refine Sat.bind ((ends_flowBacklogDrrSchedule q _ _ _).run _)
                    fun q₁ h₁ => ?_
                  refine Sat.bind ((queueRun_takePacket q₁ _ _ p rest).ends.run _)
                    fun q₂ h₂ => ?_
                  have hsend := send_progress hq hg hshrunk htc hpk h₁ h₂
                  exact ⟨hsend.tame.trans (tame_of_same (fun _ => rfl) fun _ => rfl),
                    ⟨hsend.lighter.units, hsend.lighter.packets⟩, hsend.less⟩

/-- Progress on a flow of the user's list lowers the user's work. -/
theorem Progress.userWork_lt {S : TcId → Prop} {f : FlowId} {d : Dir} {r : UserRef}
    {q q' : QueueState} (h : Progress S f d r q q') (hr : S (.user r))
    (hf : .flow f d ∈ (q.bl (.user r)).units) : userWork q' r < userWork q r := by
  rcases h.less with hlt | hleft
  · exact h.lighter.userWork_lt hr hf hlt
  · exact h.lighter.userWork_lt_of_erase hf hleft

/-! ## The loop of a user entry -/

/-- A flow in the list has fewer packets than its user has work. -/
theorem length_lt_userWork {q : QueueState} {r : UserRef} {f : FlowId} {d : Dir}
    (hf : .flow f d ∈ (q.bl (.user r)).units) : (q.packets f d).length < userWork q r :=
  le_total hf (unitWork q)

/-- A round of `tbq_user_dequeue`. -/
theorem userDequeueBody_progress {fuel : ℕ} {r : UserRef} {s : State} (hq : Placed s.q) :
    Sat (userDequeueBody fuel r s) (fun x => Tame s.q x.2.q
        ∧ (x.1 = true → userWork x.2.q r < userWork s.q r)) fun e => userWork s.q r < fuel → e ≠ .fuel := by
  unfold userDequeueBody
  split
  · split
    · cases hunits : (s.q.bl (.user r)).units with
      | nil => exact fun _ hf => by cases hf
      | cons x rest =>
          cases x with
          | user r' => exact fun _ hf => by cases hf
          | flow f d =>
              have hmem : .flow f d ∈ (s.q.bl (.user r)).units := by
                rw [hunits]
                exact List.mem_cons_self
              refine Sat.bind (sat_stopIf (Q := fun _ =>
                (s.q.unit (.flow f d)).tc = some (.user r)) not_not.mp fun _ _ hf => by cases hf)
                fun _ htc => ?_
              have hg : Guarded (fun X => X = .user r) f d r s := by
                refine ⟨htc, hmem, fun r' hne _ _ => ⟨fun e => hne (TcId.user.inj e),
                  fun e => by cases e⟩, fun X hX hx => ?_⟩
                subst hX
                cases hq.tc _ _ hx
              refine Sat.bind ((tryDequeue_sat hq hg).mono (fun _ h => h) fun _ he hfuel => he ((length_lt_userWork hmem).trans hfuel))
                fun s' hs' => ?_
              exact ⟨hs'.tame, fun _ => hs'.userWork_lt rfl hmem⟩
    · refine Sat.bind ((ends_backlogAttach _ _ _).run _) fun q' hq' => ?_
      exact ⟨backlogAttach_tame (show Compat (.user r) r.bucket from rfl) hq',
        fun h => by cases h⟩
  · exact ⟨.refl _, fun h => by cases h⟩

/-- The user's loop ends with fuel above the user's work. -/
theorem userDequeue_ends {fuel : ℕ} {s : State} {r : UserRef} (hq : Placed s.q)
    (hfuel : userWork s.q r < fuel) : userDequeue fuel s r ≠ .error .fuel := by
  unfold userDequeue
  refine ((ends_stopIf (by simp)).bind fun _ _ => ends_of_ne_fuel ?_).ne_fuel
  refine loopFuel_ne_out (I := fun s => Placed s.q ∧ userWork s.q r < fuel)
    (μ := fun s => userWork s.q r) (fun s hs => ?_) _ _ ⟨hq, hfuel⟩ hfuel
  refine (userDequeueBody_progress hs.1).mono (fun x hx hm => ?_) fun _ he => he hs.2
  exact ⟨⟨hs.1.tame hx.1, (hx.2 hm).trans hs.2⟩, hx.2 hm⟩

/-! ## The loop of a bucket -/

/-- The token controls of rule `i` in direction `d`. -/
def OfRule (d : Dir) (i : RuleIdx) (X : TcId) : Prop :=
  X = .bucket d i ∨ ∃ u, X = .user ⟨u, d, i⟩

/-- The users of a bucket have less to do, and one of them strictly less. -/
theorem Lighter.bucketWork_lt {d : Dir} {i : RuleIdx} {q q' : QueueState} (hq : Placed q)
    (h : Lighter (OfRule d i) q q') {r : UserRef} (hr : .user r ∈ (q.bl (.bucket d i)).units)
    (hlt : userWork q' r < userWork q r) : bucketWork q' d i < bucketWork q d i := by
  refine (total_subperm (h.units _ (.inl rfl)) _).trans_lt
    (total_lt_total (fun x hx => h.entryWork_le fun r' hr' => ?_) hr (Nat.succ_lt_succ hlt))
  subst hr'
  have hc : TcId.bucket d i = r'.bucket := hq.units _ _ hx
  obtain ⟨u, d', i'⟩ := r'
  cases hc
  exact .inr ⟨u, rfl⟩

/-- A user has left the bucket. -/
theorem Lighter.bucketWork_lt_of_erase {d : Dir} {i : RuleIdx} {q q' : QueueState} (hq : Placed q)
    (h : Lighter (OfRule d i) q q') {r : UserRef} (hr : .user r ∈ (q.bl (.bucket d i)).units)
    (hleft : (q'.bl (.bucket d i)).units.Subperm ((q.bl (.bucket d i)).units.erase (.user r))) :
    bucketWork q' d i < bucketWork q d i := by
  have hle : ∀ x ∈ (q.bl (.bucket d i)).units.erase (.user r), entryWork q' x ≤ entryWork q x := by
    intro x hx
    refine h.entryWork_le fun r' hr' => ?_
    subst hr'
    have hc : TcId.bucket d i = r'.bucket := hq.units _ _ (List.mem_of_mem_erase hx)
    obtain ⟨u, d', i'⟩ := r'
    cases hc
    exact .inr ⟨u, rfl⟩
  have hperm : bucketWork q d i
      = entryWork q (.user r) + total ((q.bl (.bucket d i)).units.erase (.user r)) (entryWork q) := by
    rw [← total_cons]
    exact ((List.perm_cons_erase hr).map _).sum_eq
  have hpos : 0 < entryWork q (.user r) := Nat.succ_pos _
  rw [hperm]
  have := (total_subperm hleft (entryWork q')).trans (total_le_total hle)
  unfold bucketWork
  omega

/-- A user in the list has less work than its bucket. -/
theorem userWork_lt_bucketWork {q : QueueState} {d : Dir} {i : RuleIdx} {r : UserRef}
    (hr : .user r ∈ (q.bl (.bucket d i)).units) : userWork q r < bucketWork q d i :=
  le_total hr (entryWork q)

/-- The flow and the user are in their places, so a flow that moves leaves the rule. -/
theorem guarded_ofRule {s : State} (hq : Placed s.q) {f : FlowId} {d d' : Dir} {i : RuleIdx}
    {r : UserRef} (hb : (s.q.unit (.user r)).tc = some (.bucket d i))
    (hr : .user r ∈ (s.q.bl (.bucket d i)).units)
    (htc : (s.q.unit (.flow f d')).tc = some (.user r))
    (hmem : .flow f d' ∈ (s.q.bl (.user r)).units) :
    OfRule d i (.user r) ∧ Guarded (OfRule d i) f d' r s := by
  obtain ⟨u, d₀, i₀⟩ := r
  obtain ⟨rfl, rfl⟩ := TcId.bucket.inj (hq.tc _ _ hb : TcId.bucket d i = .bucket d₀ i₀)
  obtain ⟨hu, hd⟩ : u = f.user ∧ d = d' := hq.tc _ _ htc
  refine ⟨.inr ⟨u, rfl⟩, htc, hmem, fun r' hne hu' hd' => ?_, fun X _ hx => ?_⟩
  · obtain ⟨u', d₁, i'⟩ := r'
    obtain rfl : u' = u := hu'.trans hu.symm
    obtain rfl : d₁ = d := hd'.trans hd.symm
    have hi : i' ≠ i := by
      rintro rfl
      exact hne rfl
    refine ⟨?_, fun hS => ?_⟩
    · rintro (e | ⟨u₁, e⟩)
      · cases e
      · exact hi (congrArg TcId.rule e)
    · rcases hS with e | ⟨u₁, e⟩
      · exact absurd (congrArg TcId.rule e) hi
      · cases e
  · obtain rfl := Option.some.inj (hb.symm.trans hx)
    exact hr

/-- A round of `tbq_bucket_dequeue`. -/
theorem bucketDequeueBody_progress {fuel : ℕ} {d : Dir} {i : RuleIdx} {s : State}
    (hq : Placed s.q) :
    Sat (bucketDequeueBody fuel d i s) (fun x => Tame s.q x.2.q
        ∧ (x.1 = true → bucketWork x.2.q d i < bucketWork s.q d i)) fun e => bucketWork s.q d i < fuel → e ≠ .fuel := by
  unfold bucketDequeueBody
  split
  · cases hunits : (s.q.bl (.bucket d i)).units with
    | nil => exact fun _ hf => by cases hf
    | cons x rest =>
        cases x with
        | flow f d' => exact fun _ hf => by cases hf
        | user r =>
            have hr : .user r ∈ (s.q.bl (.bucket d i)).units := by
              rw [hunits]
              exact List.mem_cons_self
            refine Sat.bind (sat_stopIf (Q := fun _ =>
              (s.q.unit (.user r)).tc = some (.bucket d i)) not_not.mp fun _ _ hf => by cases hf)
              fun _ hb => ?_
            refine Sat.bind ((queueRun_backlogEmpty s.q _).ends.run _) fun e _ => ?_
            refine Sat.bind ((ends_stopIf (by simp)).run _) fun _ _ => ?_
            split
            · cases hflows : (s.q.bl (.user r)).units with
              | nil => exact fun _ hf => by cases hf
              | cons y rest' =>
                  cases y with
                  | user r' => exact fun _ hf => by cases hf
                  | flow f d' =>
                      have hmem : .flow f d' ∈ (s.q.bl (.user r)).units := by
                        rw [hflows]
                        exact List.mem_cons_self
                      refine Sat.bind (sat_stopIf (Q := fun _ =>
                        (s.q.unit (.flow f d')).tc = some (.user r)) not_not.mp
                        fun _ _ hf => by cases hf) fun _ htc => ?_
                      obtain ⟨hS, hg⟩ := guarded_ofRule hq hb hr htc hmem
                      have hlt := (length_lt_userWork hmem).trans (userWork_lt_bucketWork hr)
                      refine Sat.bind ((tryDequeue_sat hq hg).mono (fun _ h => h) fun _ he hfuel => he (hlt.trans hfuel)) fun s' hs' => ?_
                      exact ⟨hs'.tame, fun _ => hs'.lighter.bucketWork_lt hq hr
                        (hs'.userWork_lt hS hmem)⟩
            · refine Sat.bind ((queueRun_backlogDetach s.q _).ends.run _) fun q' hq' => ?_
              obtain ⟨hs, hunlink⟩ := backlogDetach_ok hq'
              refine ⟨hs.tame, fun _ => (hs.lighter (OfRule d i)).bucketWork_lt_of_erase hq hr ?_⟩
              show (q'.bl (.bucket d i)).units.Subperm _
              rw [hunlink _ hb, unlink_list, if_pos hb]
  · exact ⟨.refl _, fun h => by cases h⟩

/-- The bucket's loop ends with fuel above the bucket's work. -/
theorem bucketDequeue_ends {fuel : ℕ} {s : State} {d : Dir} {i : RuleIdx} (hq : Placed s.q)
    (hfuel : bucketWork s.q d i < fuel) : bucketDequeue fuel s d i ≠ .error .fuel := by
  unfold bucketDequeue
  refine ((ends_stopIf (by simp)).bind fun _ _ => ends_of_ne_fuel ?_).ne_fuel
  refine loopFuel_ne_out (I := fun s => Placed s.q ∧ bucketWork s.q d i < fuel)
    (μ := fun s => bucketWork s.q d i) (fun s hs => ?_) _ _ ⟨hq, hfuel⟩ hfuel
  refine (bucketDequeueBody_progress hs.1).mono (fun x hx hm => ?_) fun _ he => he hs.2
  exact ⟨⟨hs.1.tame hx.1, (hx.2 hm).trans hs.2⟩, hx.2 hm⟩

/-! ## Every event leaves everything in its place -/

/-- In its place before, in its place afterwards. -/
def Steady (s s' : State) : Prop := Placed s.q → Tame s.q s'.q

/-- Steady steps compose. -/
theorem Steady.trans (s s' s'' : State) (h : Steady s s') (h' : Steady s' s'') : Steady s s'' :=
  fun hq => (h hq).trans (h' (hq.tame (h hq)))

/-- A step that leaves the lists and the attachments alone is steady. -/
theorem steady_of_same {s s' : State} (htc : ∀ x, (s'.q.unit x).tc = (s.q.unit x).tc)
    (hunits : ∀ X, (s'.q.bl X).units = (s.q.bl X).units) : Steady s s' :=
  fun _ => tame_of_same htc hunits

/-- Serving a user is steady. -/
theorem steady_userDequeue {fuel : ℕ} {s s' : State} {r : UserRef}
    (h : userDequeue fuel s r = .ok s') : Steady s s' := by
  obtain ⟨-, -, h⟩ := bind_eq_ok.mp h
  refine rel_of_loopFuel Steady.trans (fun s more s' hs => ?_) _ _ _ h
  exact fun hq => ((userDequeueBody_progress hq).of_ok hs).1

/-- Serving a bucket is steady. -/
theorem steady_bucketDequeue {fuel : ℕ} {s s' : State} {d : Dir} {i : RuleIdx}
    (h : bucketDequeue fuel s d i = .ok s') : Steady s s' := by
  obtain ⟨-, -, h⟩ := bind_eq_ok.mp h
  refine rel_of_loopFuel Steady.trans (fun s more s' hs => ?_) _ _ _ h
  exact fun hq => ((bucketDequeueBody_progress hq).of_ok hs).1

/-- A timer tick is steady. -/
theorem steady_timerFunc {fuel : ℕ} {order : SlotOrder} {s s' : State}
    (h : timerFunc fuel order s = .ok s') : Steady s s' :=
  rel_timerFunc Steady.trans
    (fun h => steady_of_same (fun _ => by rw [h.unit]) fun _ => by rw [h.bl])
    steady_userDequeue steady_bucketDequeue h

/-- Giving a user its units is tame. -/
theorem tame_userTrackQueue (s : State) (u : UserId) : Tame s.q (userTrackQueue s u) := by
  refine ⟨fun x X hx => .inl ?_, fun X x hx => .inl ?_⟩
  · cases x with
    | flow f d => exact hx
    | user r =>
        by_cases hr : r.u = u
        · simp [userTrackQueue, hr, backlogInit] at hx
        · simpa [userTrackQueue, hr] using hx
  · cases X with
    | bucket d i => exact hx
    | user r =>
        by_cases hr : r.u = u
        · simp [userTrackQueue, hr] at hx
        · simpa [userTrackQueue, hr] using hx

/-- A flow whose backlogs are as new waits for nothing. -/
theorem FlowReset.tame {q q' : QueueState} {f : FlowId} (h : FlowReset f q q') : Tame q q' := by
  refine ⟨fun x X hx => .inl ?_, fun X x hx => .inl (by rwa [← h.bl])⟩
  obtain ⟨d, rfl⟩ | hunit := h.unit_cases x
  · rw [h.tc] at hx
    cases hx
  · rwa [← hunit]

/-- Tracking a flow is tame. -/
theorem tame_track {s s₁ : State} {f : FlowId} {app : ℕ} {allocOk : Bool}
    (h : track s f app allocOk = .ok (some s₁)) : Tame s.q s₁.q := by
  unfold track at h
  split at h
  · cases h
  · obtain ⟨s₂, h₂, h⟩ := bind_eq_ok.mp h
    have huser : Tame s.q s₂.q := by
      split at h₂
      · cases h₂
        exact .refl _
      · unfold userTrackAlloc at h₂
        obtain ⟨-, -, h₂⟩ := bind_eq_ok.mp h₂
        cases h₂
        exact tame_userTrackQueue s f.user
    cases h
    refine huser.trans ?_
    have hclass : ∀ (q : QueueState) (g : FlowId → FlowTrack), Tame q { q with flow := g } :=
      fun _ _ => tame_of_same (fun _ => rfl) fun _ => rfl
    split
    · exact hclass _ _
    · exact (flowReset_init s₂.q f).tame.trans (hclass _ _)

/-- The filter's verdict on a packet is steady. -/
theorem steady_filterPacket {s s' : State} {f : FlowId} {d : Dir} {app : ℕ} {len : SkbLen}
    {allocOk : Bool} {v : Verdict} (h : filterPacket s f d app len allocOk = .ok (v, s')) :
    Steady s s' := by
  unfold filterPacket at h
  obtain ⟨o, ho, h⟩ := bind_eq_ok.mp h
  have htrack : ∀ s₁, o = some s₁ → Tame s.q s₁.q := by
    rintro s₁ rfl
    exact tame_track ho
  cases o with
  | none =>
      cases h
      exact steady_of_same (fun _ => rfl) fun _ => rfl
  | some s₁ =>
      refine fun _ => (htrack s₁ rfl).trans ?_
      dsimp only at h
      split at h
      · cases h
        exact .refl _
      · obtain ⟨⟨wait, s₂⟩, h₂, h⟩ := bind_eq_ok.mp h
        have hq : s₂.q = s₁.q := by
          obtain ⟨e, -, h₂⟩ := bind_eq_ok.mp h₂
          split at h₂
          · obtain ⟨a, -, h₂⟩ := bind_eq_ok.mp h₂
            cases h₂
            rfl
          · cases h₂
            rfl
        dsimp only at h
        split at h
        · cases h
          rw [hq]
          exact .refl _
        · split at h
          · cases h
            rw [hq]
            exact .refl _
          · cases h
            rw [hq]
            exact .refl _

/-- Putting a packet into its flow is tame. -/
theorem tame_putPacket {s s' : State} {p : Packet} {attach : Bool}
    (h : putPacket s p attach = .ok s') : Tame s.q s'.q := by
  unfold putPacket at h
  obtain ⟨q₁, h₁, h⟩ := bind_eq_ok.mp h
  obtain ⟨q₂, h₂, h⟩ := bind_eq_ok.mp h
  cases h
  have hput : Tame s.q q₁ := by
    unfold flowBacklogEnqueue at h₁
    obtain ⟨b, -, h₁⟩ := bind_eq_ok.mp h₁
    obtain ⟨-, -, h₁⟩ := bind_eq_ok.mp h₁
    split at h₁
    · rename_i r _
      cases h₁
      have hsame : SameLinks s.q (backlogEnqueue (backlogEnqueue s.q (.user r) p.pktLen)
          (.flow p.flow p.dir) p.pktLen) :=
        (sameLinks_backlogEnqueue s.q (.user r) p.pktLen).trans
          (sameLinks_backlogEnqueue _ (.flow p.flow p.dir) p.pktLen)
      exact tame_of_same hsame.tc hsame.units
    · cases h₁
  exact hput.trans ((packetCtrlBacklogUpdate_ok h₂).1.shrunk.tame.trans
    (tame_of_same (fun _ => rfl) fun _ => rfl))

/-- Queueing a packet is steady. -/
theorem steady_enqueue {fuel : ℕ} {s s' : State} {p : Packet} {v : EnqueueResult}
    (h : enqueue fuel s p = .ok (v, s')) : Steady s s' := by
  unfold enqueue at h
  split at h
  · cases h
    exact steady_of_same (fun _ => rfl) fun _ => rfl
  · obtain ⟨e, -, h⟩ := bind_eq_ok.mp h
    have hstart : Tame s.q { s.q with dq := .init } :=
      tame_of_same (fun _ => rfl) fun _ => rfl
    refine fun _ => hstart.trans ?_
    split at h
    · obtain ⟨⟨o, t⟩, -, h⟩ := bind_eq_ok.mp h
      cases o with
      | none =>
          cases h
          exact .refl _
      | some i =>
          obtain ⟨q₁, h₁, h⟩ := bind_eq_ok.mp h
          obtain ⟨s₂, h₂, h⟩ := bind_eq_ok.mp h
          cases h
          exact ((flowBacklogAttach_ok h₁).tame ⟨rfl, rfl⟩).trans (tame_putPacket h₂)
    · obtain ⟨q₁, h₁, h⟩ := bind_eq_ok.mp h
      have hdrop : Tame { s.q with dq := .init } q₁ := by
        rcases (flowBacklogDrop_sat _ _ _ _).of_ok h₁ with rfl | ⟨hs, -⟩
        · exact .refl _
        · exact hs.tame
      dsimp only at h
      split at h
      · cases h
        exact hdrop.trans (tame_of_same (fun _ => rfl) fun _ => rfl)
      · obtain ⟨s₂, h₂, h⟩ := bind_eq_ok.mp h
        cases h
        exact hdrop.trans (tame_putPacket h₂)

/-- Any event, at any time. -/
theorem steady_step {fuel : ℕ} {s s' : State} {e : Event} (h : step fuel s e = .ok s') :
    Steady s s' := by
  have hself : Steady s s := steady_of_same (fun _ => rfl) fun _ => rfl
  cases e with
  | filter f d app len allocOk =>
      change (if s.status = .running then _ else _) = _ at h
      split at h
      · obtain ⟨⟨v, s₁⟩, h₁, h⟩ := bind_eq_ok.mp h
        cases h
        exact steady_filterPacket h₁
      · cases h
        exact hself
  | enqueue p =>
      obtain ⟨⟨v, s₁⟩, h₁, h⟩ := bind_eq_ok.mp h
      cases h
      have hland : Steady (s.land p) s' := steady_enqueue h₁
      exact hland
  | elapse n =>
      cases h
      exact hself
  | tick order => exact steady_timerFunc h
  | userFree u =>
      obtain rfl | ⟨hq, -⟩ := onUserFree_ok h
      · exact hself
      · refine fun _ => ?_
        rw [hq]
        exact tame_of_same (fun _ => rfl) fun _ => rfl
  | flowFree f =>
      obtain rfl | rfl := onFlowFree_ok h
      · exact hself
      · exact fun _ => (flowReset_clear s.q f).tame
  | _ =>
      cases h
      split
      · exact hself
      · exact hself

/-! ## Termination -/

/-- The states that the scheduler goes through, within a tick as well: between two events,
between two token controls that a tick activates and between two rounds of a loop. -/
inductive Reached (cfg : Config) (now : ℕ) : State → Prop
  | init : Reached cfg now (initState cfg now)
  | event {fuel : ℕ} {s s' : State} {e : Event} : Reached cfg now s → step fuel s e = .ok s' →
      Reached cfg now s'
  /-- `tbq_timer_func` starts. -/
  | start {s : State} : Reached cfg now s → Reached cfg now { s with q := { s.q with dq := .init } }
  /-- `tbq_timer_feed` goes on to another slot. -/
  | clock {s : State} (n : ℕ) : Reached cfg now s → Reached cfg now { s with timerJiffies := n }
  /-- `tbq_token_ctrl_activate` takes a token control off the timer. -/
  | fire {s : State} {X : TcId} {t : TokenState} : Reached cfg now s → fire s.t X = .ok t →
      Reached cfg now { s with t := t }
  /-- A round of `tbq_user_dequeue`. -/
  | userRound {fuel : ℕ} {s s' : State} {r : UserRef} {more : Bool} : Reached cfg now s →
      userDequeueBody fuel r s = .ok (more, s') → Reached cfg now s'
  /-- A round of `tbq_bucket_dequeue`. -/
  | bucketRound {fuel : ℕ} {s s' : State} {d : Dir} {i : RuleIdx} {more : Bool} :
      Reached cfg now s → bucketDequeueBody fuel d i s = .ok (more, s') → Reached cfg now s'

/-- What restricted runs reach, unrestricted runs reach. -/
theorem Reachable.reached {P : State → Event → Prop} {cfg : Config} {now : ℕ} {s : State}
    (h : Reachable P (initState cfg now) s) : Reached cfg now s := by
  induction h with
  | init => exact .init
  | step _ _ _ hs ih => exact ih.event hs

/-- At the start no unit is in any list. -/
theorem placed_initState (cfg : Config) (now : ℕ) : Placed (initState cfg now).q := by
  refine ⟨fun x X hx => ?_, fun X x hx => ?_⟩
  · cases hx
  · cases hx

/-- In every reached state the units stand in lists of their own level. -/
theorem Reached.placed {cfg : Config} {now : ℕ} {s : State} (h : Reached cfg now s) :
    Placed s.q := by
  induction h with
  | init => exact placed_initState cfg now
  | event _ hs ih => exact ih.tame (steady_step hs ih)
  | start _ ih => exact ih.tame (tame_of_same (fun _ => rfl) fun _ => rfl)
  | clock _ _ ih => exact ih
  | fire _ _ ih => exact ih
  | userRound _ hs ih => exact ih.tame ((userDequeueBody_progress ih).of_ok hs).1
  | bucketRound _ hs ih => exact ih.tame ((bucketDequeueBody_progress ih).of_ok hs).1

/-- In every state, and whatever the tokens, the ceilings and the entries of the timer may
be there, each round of the two dequeue loops that does not end the loop lessens the work
under the token control, so the loops end: with more fuel than that work they do not run
out of it. -/
theorem dequeue_terminates {cfg : Config} {now : ℕ} {s : State} (h : Reached cfg now s)
    (t : TokenState) (c : Config) :
    (∀ r, (∀ fuel s', userDequeueBody fuel r { s with t := t, cfg := c } = .ok (true, s') →
          userWork s'.q r < userWork s.q r)
        ∧ ∀ fuel, userWork s.q r < fuel →
          userDequeue fuel { s with t := t, cfg := c } r ≠ .error .fuel)
      ∧ ∀ d i, (∀ fuel s', bucketDequeueBody fuel d i { s with t := t, cfg := c } = .ok (true, s') →
          bucketWork s'.q d i < bucketWork s.q d i)
        ∧ ∀ fuel, bucketWork s.q d i < fuel →
          bucketDequeue fuel { s with t := t, cfg := c } d i ≠ .error .fuel := by
  have hq : Placed ({ s with t := t, cfg := c } : State).q := h.placed
  refine ⟨fun r => ⟨fun fuel s' hs' => ?_, fun fuel hfuel => userDequeue_ends hq hfuel⟩,
    fun d i => ⟨fun fuel s' hs' => ?_, fun fuel hfuel => bucketDequeue_ends hq hfuel⟩⟩
  · exact ((userDequeueBody_progress hq).of_ok hs').2 rfl
  · exact ((bucketDequeueBody_progress hq).of_ok hs').2 rfl

/-- Two packets of one flow wait: three units of work for its user, four for its bucket. -/
theorem dequeue_terminates_slowRun :
    ∃ s, Reached slowConfig 0 s ∧ userWork s.q ⟨1, 0, 0⟩ = 3 ∧ bucketWork s.q 0 0 = 4
      ∧ userDequeue 4 s ⟨1, 0, 0⟩ ≠ .error .fuel := by
  obtain ⟨s, hs, hp⟩ := reach_of_play (B := 2 ^ 31) (c := slowConfig) (l := slowRun)
    (p := fun s => decide (userWork s.q ⟨1, 0, 0⟩ = 3 ∧ bucketWork s.q 0 0 = 4)) (by decide +kernel)
  obtain ⟨h₁, h₂⟩ := of_decide_eq_true hp
  exact ⟨s, hs.reached, h₁, h₂,
    ((dequeue_terminates hs.reached s.t s.cfg).1 ⟨1, 0, 0⟩).2 4 (by omega)⟩

end Tbq
