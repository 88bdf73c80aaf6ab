/-
# The timer wheel

`tbq_timer` of `drivers/tbq/src/tbq_core.c` with its links: 256 slots, each the head of a
list of token controls, and the list `work_list` on the stack of `tbq_timer_feed`.  The
scheduler sees the wheel as the set of pending token controls; here the lists are memory,
and the walk over a slot follows and writes links as the source does.

What the activation of a token control does to the wheel besides taking it off is to put
other token controls on it (`tbq_token_ctrl_deactivate` in the dequeue loops); which ones,
and for how long, is a parameter.  Times are `unsigned long` values and do not wrap here.
The tokens have no part in the links and are left out.
-/
import OpenwrtAc.TbqSlots

open Outcome KernelList

namespace Tbq

/-- `struct tbq_timer` with the links of its lists, `tc->jiffies` of every token control,
and the clock.  The last four fields are a record of what happened: which token controls
were put on the wheel and not yet taken off, and how often each one was put on it,
activated, and taken off by the removal of its user. -/
structure Wheel where
  mem : Mem Node
  jiffies : ℕ
  nrPending : ℕ
  expiry : TcId → ℕ
  now : ℕ
  armed : List TcId
  armings : TcId → ℕ
  activations : TcId → ℕ
  removals : TcId → ℕ

/-- A token control that goes on the wheel for `expire` jiffies: its tokens are below zero
and its rate is positive, so that is at least one. -/
structure Arming where
  tc : TcId
  expire : ℕ
  pos : 0 < expire

/-- Count one more for `X`. -/
def bump (f : TcId → ℕ) (X : TcId) : TcId → ℕ := Function.update f X (f X + 1)

/-- `tbq_timer_mod`. -/
def wheelMod (w : Wheel) (X : TcId) (expireJiffies : ℕ) : Wheel :=
  { w with
    mem := w.mem.listAddTail (.tc X) (.slot (slotOf expireJiffies))
    nrPending := w.nrPending + 1
    armed := w.armed ++ [X]
    armings := bump w.armings X }

/-- `tbq_timer_del`. -/
def wheelDel (w : Wheel) (X : TcId) : Except Stop Wheel := do
  stopIf (w.mem.listEmpty (.tc X) = true) (.token .timerDelList)
  return { w with
    mem := w.mem.listDelInit (.tc X)
    nrPending := w.nrPending - 1
    armed := w.armed.erase X }

/-- `tbq_token_ctrl_deactivate`. -/
def wheelDeactivate (w : Wheel) (a : Arming) : Except Stop Wheel := do
  stopIf (w.mem.listEmpty (.tc a.tc) = false) (.token .deactivateList)
  let activeJiffies := w.now + a.expire
  return wheelMod { w with expiry := Function.update w.expiry a.tc activeJiffies } a.tc activeJiffies

/-- What the dequeue loops put on the wheel when a token control is activated. -/
abbrev Dequeue := Wheel → TcId → List Arming

/-- `tbq_token_ctrl_activate`. -/
def wheelActivate (deq : Dequeue) (w : Wheel) (X : TcId) : Except Stop Wheel := do
  let w' ← wheelDel w X
  (deq w X).foldlM wheelDeactivate { w' with activations := bump w'.activations X }

/-- One round of `list_for_each_entry_safe` over `work_list`: `pos` is the entry, and the
next one is read before the body runs. -/
def walkBody (deq : Dequeue) (vecJiffies : ℕ) (x : Node × Wheel) :
    Except Stop (Bool × (Node × Wheel)) := do
  match x.1 with
  | .work => return (false, x)
  | .slot _ => throw .badPointer
  | .tc X =>
    let next := x.2.mem.next (.tc X)
    if x.2.expiry X = vecJiffies then
      let w ← wheelActivate deq x.2 X
      return (true, next, w)
    else
      return (true, next, { x.2 with
        mem := x.2.mem.listAddTail (.tc X) (.slot (slotOf vecJiffies)) })

/-- The walk over one slot. -/
def walkSlot (deq : Dequeue) (fuel vecJiffies : ℕ) (w : Wheel) : Except Stop Wheel := do
  let vecList := Node.slot (slotOf vecJiffies)
  if w.mem.listEmpty vecList = false then
    let w := { w with mem := w.mem.listReplaceInit vecList .work }
    let x ← loopFuel .fuel (walkBody deq vecJiffies) fuel (w.mem.next .work, w)
    return x.2
  else
    return w

/-- One round of the loop of `tbq_timer_feed`. -/
def wheelFeedBody (deq : Dequeue) (fuel : ℕ) (w : Wheel) : Except Stop (Bool × Wheel) := do
  if w.jiffies ≤ w.now then
    let w ← walkSlot deq fuel w.jiffies { w with jiffies := w.jiffies + 1 }
    return (true, w)
  else
    return (false, w)

/-- `tbq_timer_feed`. -/
def wheelFeed (deq : Dequeue) (fuel : ℕ) (w : Wheel) : Except Stop Wheel :=
  loopFuel .fuel (wheelFeedBody deq fuel) fuel w

/-- `tbq_timer_init`. -/
def initWheel (now : ℕ) : Wheel where
  mem := ⟨id, id⟩
  jiffies := now
  nrPending := 0
  expiry := fun _ => 0
  now := now
  armed := []
  armings := fun _ => 0
  activations := fun _ => 0
  removals := fun _ => 0

/-! ## The invariant -/

/-- The wheel while the token controls `l` are in no slot: the list of the slot `k` holds
`c k`, and everything else is as it should be. -/
structure Walking (w : Wheel) (c : Fin 256 → List TcId) (l : List TcId) : Prop where
  ring : ∀ k, Ring w.mem (.slot k) ((c k).map .tc)
  mem : ∀ k X, X ∈ c k ↔ X ∈ w.armed ∧ X ∉ l ∧ slotOf (w.expiry X) = k
  rest : ∀ X ∈ l, X ∈ w.armed ∧ w.jiffies ≤ w.expiry X + 1
  off : ∀ X, X ∉ w.armed → w.mem.next (.tc X) = .tc X
  nodup : w.armed.Nodup
  count : w.nrPending = w.armed.length
  early : ∀ X ∈ w.armed, X ∉ l → w.jiffies ≤ w.expiry X
  clock : w.jiffies ≤ w.now + 1
  balance : ∀ X, w.armings X = w.activations X + w.removals X + if X ∈ w.armed then 1 else 0

/-- Every slot is a circular list of token controls; the token controls that are on the
wheel are each linked exactly once, in the slot of their expiry, and are not overdue; the
others are linked to themselves; `nr_pending` counts them; and whatever was put on the
wheel is still there, or was activated once, or was taken off once. -/
def Intact (w : Wheel) : Prop := ∃ c, Walking w c []

/-- The links during a walk. -/
theorem Walking.threaded {w : Wheel} {c : Fin 256 → List TcId} {l : List TcId} (h : Walking w c l) :
    Threaded w.mem (· ∈ w.armed) w.expiry c l :=
  ⟨h.ring, h.mem, fun X hX => (h.rest X hX).1, h.off⟩

/-! ## Putting on the wheel -/

/-- The reasons to stop that a walk has: the bound on the rounds, and a token control that is
put on the wheel twice. -/
def WheelStop (e : Stop) : Prop := e = .fuel ∨ e = .token .deactivateList

/-- A walk is in order: besides the slots, `work_list` holds `l`. -/
structure Working (w : Wheel) (c : Fin 256 → List TcId) (l : List TcId) : Prop extends
    Walking w c l where
  work : Ring w.mem .work (l.map .tc)

/-- What stays the same when token controls are put on the wheel during a walk. -/
structure SameWalk (l : List TcId) (w w' : Wheel) : Prop where
  jiffies : w'.jiffies = w.jiffies
  now : w'.now = w.now
  expiry : ∀ X ∈ l, w'.expiry X = w.expiry X

/-- A token control that is off the wheel is put on it. -/
theorem Walking.deactivated {w : Wheel} {c : Fin 256 → List TcId} {l : List TcId}
    (h : Walking w c l) (a : Arming) (ha : a.tc ∉ w.armed) :
    Walking (wheelMod { w with expiry := Function.update w.expiry a.tc (w.now + a.expire) } a.tc
      (w.now + a.expire)) (Function.update c (slotOf (w.now + a.expire))
        (c (slotOf (w.now + a.expire)) ++ [a.tc])) l := by
  have hpos := a.pos
  have hclock := h.clock
  have hexp : ∀ X, X ≠ a.tc →
      Function.update w.expiry a.tc (w.now + a.expire) X = w.expiry X :=
    fun X hX => Function.update_of_ne hX _ _
  have hth : Threaded _ (· ∈ w.armed ++ [a.tc]) _ _ l :=
    (h.threaded.add ha (w.now + a.expire)).congr (fun X => by simp) fun _ _ => rfl
  refine ⟨hth.ring, hth.mem, fun X hX => ⟨hth.rest X hX, ?_⟩, hth.off, ?_, ?_, fun X hX hl => ?_,
    h.clock, fun X => ?_⟩
  · have hne : X ≠ a.tc := fun e => ha (e ▸ (h.rest X hX).1)
    show w.jiffies ≤ Function.update w.expiry a.tc (w.now + a.expire) X + 1
    rw [hexp X hne]
    exact (h.rest X hX).2
  · exact h.nodup.append (List.nodup_singleton _) fun y hy hya => ha (List.mem_singleton.mp hya ▸ hy)
  · show w.nrPending + 1 = (w.armed ++ [a.tc]).length
    rw [h.count, List.length_append, List.length_singleton]
  · show w.jiffies ≤ Function.update w.expiry a.tc (w.now + a.expire) X
    by_cases hne : X = a.tc
    · rw [hne, Function.update_self]
      omega
    · rw [hexp X hne]
      have hX : X ∈ w.armed ++ [a.tc] := hX
      rw [List.mem_append, List.mem_singleton] at hX
      exact h.early X (hX.resolve_right hne) hl
  · show bump w.armings a.tc X = w.activations X + w.removals X + if X ∈ w.armed ++ [a.tc] then 1 else 0
    have hb := h.balance X
    by_cases hne : X = a.tc
    · subst hne
      rw [if_neg ha] at hb
      simp [bump, hb]
    · simp [bump, hne, hb]

/-- `tbq_token_ctrl_deactivate`, outside a walk. -/
theorem Intact.deactivate {w : Wheel} (h : Intact w) (a : Arming) :
    Sat (wheelDeactivate w a) Intact WheelStop := by
  obtain ⟨c, h⟩ := h
  unfold wheelDeactivate
  by_cases hself : w.mem.next (.tc a.tc) = .tc a.tc
  · rw [stopIf_of_not (by simpa [Mem.listEmpty] using hself)]
    exact ⟨_, h.deactivated a fun hm => h.threaded.linked hm (by simp) hself⟩
  · rw [stopIf_of (by simpa [Mem.listEmpty] using hself)]
    exact .inr rfl

/-- `tbq_token_ctrl_deactivate`, called from a walk. -/
theorem Working.deactivate {w : Wheel} {c : Fin 256 → List TcId} {l : List TcId}
    (h : Working w c l) (a : Arming) :
    Sat (wheelDeactivate w a) (fun w' => (∃ c', Working w' c' l) ∧ SameWalk l w w') WheelStop := by
  unfold wheelDeactivate
  by_cases hself : w.mem.next (.tc a.tc) = .tc a.tc
  · rw [stopIf_of_not (by simpa [Mem.listEmpty] using hself)]
    have ha : a.tc ∉ w.armed := (h.threaded.self_iff (fun _ => h.work) a.tc).mp hself
    refine ⟨⟨_, h.deactivated a ha, h.threaded.work_add ha _ h.work⟩, rfl, rfl, fun X hX => ?_⟩
    have hne : X ≠ a.tc := fun e => ha (e ▸ (h.rest X hX).1)
    exact Function.update_of_ne hne _ _
  · rw [stopIf_of (by simpa [Mem.listEmpty] using hself)]
    exact .inr rfl

theorem SameWalk.trans {l : List TcId} {w w' w'' : Wheel} (h : SameWalk l w w')
    (h' : SameWalk l w' w'') : SameWalk l w w'' :=
  ⟨h'.jiffies.trans h.jiffies, h'.now.trans h.now,
    fun X hX => (h'.expiry X hX).trans (h.expiry X hX)⟩

theorem Working.deactivateAll {w : Wheel} {c : Fin 256 → List TcId} {l : List TcId}
    (h : Working w c l) (as : List Arming) :
    Sat (as.foldlM wheelDeactivate w) (fun w' => (∃ c', Working w' c' l) ∧ SameWalk l w w')
      WheelStop := by
  induction as generalizing w c with
  | nil => exact ⟨⟨c, h⟩, rfl, rfl, fun _ _ => rfl⟩
  | cons a as ih =>
      rw [List.foldlM_cons]
      refine (h.deactivate a).bind fun w₁ hw₁ => ?_
      obtain ⟨⟨c₁, h₁⟩, hs⟩ := hw₁
      exact (ih h₁).mono (fun w₂ hw₂ => ⟨hw₂.1, hs.trans hw₂.2⟩) fun _ he => he

/-! ## Taking off the wheel -/

/-- Counts after `X` was taken off the wheel, whatever the reason that is counted for it. -/
theorem balance_erase {w : Wheel} {X : TcId} (hn : w.armed.Nodup) (hX : X ∈ w.armed)
    {act rem : TcId → ℕ}
    (hcount : ∀ Y, act Y + rem Y = w.activations Y + w.removals Y + if Y = X then 1 else 0)
    (hb : ∀ Y, w.armings Y = w.activations Y + w.removals Y + if Y ∈ w.armed then 1 else 0) (Y : TcId) :
    w.armings Y = act Y + rem Y + if Y ∈ w.armed.erase X then 1 else 0 := by
  rw [hb Y, hcount Y]
  by_cases hY : Y = X
  · subst hY
    simp [hX, hn.mem_erase_iff]
  · simp [hY, hn.mem_erase_iff]

/-- The user of a token control is removed. -/
theorem Intact.remove {w : Wheel} (h : Intact w) {X : TcId} (hX : X ∈ w.armed) :
    ∃ w', wheelDel w X = .ok w' ∧ Intact { w' with removals := bump w'.removals X } := by
  obtain ⟨c, h⟩ := h
  have hlinked : w.mem.next (.tc X) ≠ .tc X := h.threaded.linked hX (by simp)
  have hth : Threaded _ (· ∈ w.armed.erase X) _ _ [] :=
    (h.threaded.del hX (by simp)).congr (fun Y => by rw [h.nodup.mem_erase_iff, and_comm]) fun _ _ => rfl
  unfold wheelDel
  rw [stopIf_of_not (by simpa [Mem.listEmpty] using hlinked)]
  refine ⟨_, rfl, _, hth.ring, hth.mem, (fun Y hY => by cases hY), hth.off, h.nodup.erase X, ?_,
    fun Y hY _ => ?_, h.clock, balance_erase h.nodup hX (fun Y => ?_) h.balance⟩
  · show w.nrPending - 1 = (w.armed.erase X).length
    rw [h.count, List.length_erase_of_mem hX]
  · exact h.early Y (List.mem_of_mem_erase hY) (by simp)
  · show w.activations Y + bump w.removals X Y = _
    by_cases hne : Y = X
    · subst hne
      simp [bump, Nat.add_assoc]
    · simp [bump, hne]

/-- The first entry of `work_list` is activated. -/
theorem Working.activate {w : Wheel} {c : Fin 256 → List TcId} {X : TcId} {l : List TcId}
    (h : Working w c (X :: l)) (deq : Dequeue) :
    Sat (wheelActivate deq w X) (fun w' => (∃ c', Working w' c' l) ∧ SameWalk l w w') WheelStop := by
  have hX : X ∈ w.armed := (h.rest X List.mem_cons_self).1
  have hXl : X ∉ l := (List.nodup_cons.mp (nodup_of_ring h.work)).1
  have hlinked : w.mem.next (.tc X) ≠ .tc X := h.work.next_ne_self (by simp)
  obtain ⟨hdel, hwork⟩ := h.threaded.delWork h.work
  have hth : Threaded _ (· ∈ w.armed.erase X) _ c l :=
    hdel.congr (fun Y => by rw [h.nodup.mem_erase_iff, and_comm]) fun _ _ => rfl
  unfold wheelActivate wheelDel
  rw [stopIf_of_not (by simpa [Mem.listEmpty] using hlinked)]
  set w₁ : Wheel := { w with
    mem := w.mem.listDelInit (.tc X), nrPending := w.nrPending - 1, armed := w.armed.erase X
    activations := bump w.activations X } with hw₁
  have h₁ : Working w₁ c l := by
    refine ⟨⟨hth.ring, hth.mem, fun Y hY => ⟨hth.rest Y hY, ?_⟩, hth.off, h.nodup.erase X, ?_,
      fun Y hY hl => ?_, h.clock, balance_erase h.nodup hX (fun Y => ?_) h.balance⟩, hwork⟩
    · exact (h.rest Y (List.mem_cons_of_mem X hY)).2
    · show w.nrPending - 1 = (w.armed.erase X).length
      rw [h.count, List.length_erase_of_mem hX]
    · refine h.early Y (List.mem_of_mem_erase hY) ?_
      rw [List.mem_cons, not_or]
      exact ⟨(h.nodup.mem_erase_iff.mp hY).1, hl⟩
    · show bump w.activations X Y + w.removals Y = _
      by_cases hne : Y = X
      · subst hne
        simp [bump]
        omega
      · simp [bump, hne]
  exact (h₁.deactivateAll (deq w X)).mono (fun w₂ hw₂ => ⟨hw₂.1, hw₂.2.jiffies, hw₂.2.now,
    hw₂.2.expiry⟩) fun _ he => he

/-! ## The walk -/

/-- The entry of the walk goes back to the tail of its slot.  Its links in `work_list` are
left as they are, which does no harm as long as nothing is taken out of that list any more. -/
theorem Walking.readd {w : Wheel} {c : Fin 256 → List TcId} {X : TcId} {l : List TcId}
    (h : Walking w c (X :: l)) (hl : X ∉ l) (hexp : w.jiffies ≤ w.expiry X) :
    Walking { w with mem := w.mem.listAddTail (.tc X) (.slot (slotOf (w.expiry X))) }
      (Function.update c (slotOf (w.expiry X)) (c (slotOf (w.expiry X)) ++ [X])) l := by
  have hth := h.threaded.readd hl
  refine ⟨hth.ring, hth.mem, fun Y hY => h.rest Y (List.mem_cons_of_mem X hY), hth.off, h.nodup,
    h.count, fun Y hY hYl => ?_, h.clock, h.balance⟩
  by_cases hYX : Y = X
  · rw [hYX]
    exact hexp
  · exact h.early Y hY (by simp [hYX, hYl])

/-- A walk over entries that are not due. -/
theorem Walking.walk_later {w : Wheel} {c : Fin 256 → List TcId} {l : List TcId} (h : Walking w c l)
    (deq : Dequeue) {v : ℕ} (hv : w.jiffies = v + 1) (hn : l.Nodup) (hf : Forward w.mem l)
    (hl : ∀ X ∈ l, w.expiry X ≠ v ∧ slotOf (w.expiry X) = slotOf v) (fuel : ℕ) :
    Sat (loopFuel .fuel (walkBody deq v) fuel (firstNode l, w)) (fun x => Intact x.2) WheelStop := by
  induction l generalizing w c fuel with
  | nil =>
      cases fuel with
      | zero => exact .inl rfl
      | succ n => exact ⟨c, h⟩
  | cons X l ih =>
      cases fuel with
      | zero => exact .inl rfl
      | succ n =>
          obtain ⟨hne, hslot⟩ := hl X List.mem_cons_self
          obtain ⟨hX, hlate⟩ := h.rest X List.mem_cons_self
          obtain ⟨hXl, hn'⟩ := List.nodup_cons.mp hn
          have hready := h.readd hXl (by omega)
          rw [hslot] at hready
          have hbody : walkBody deq v (firstNode (X :: l), w) = .ok (true, firstNode l, { w with
              mem := w.mem.listAddTail (.tc X) (.slot (slotOf v)) }) := by
            unfold walkBody firstNode
            simp only [if_neg hne, hf.1]
            rfl
          rw [loopFuel, hbody, sat_bind, sat_ok]
          exact ih hready hv hn' (h.threaded.forward_readd hXl _ hf.2)
            (fun Y hY => hl Y (List.mem_cons_of_mem X hY)) n

/-- A walk in which no due entry stands behind one that is not due. -/
theorem Working.walk {w : Wheel} {c : Fin 256 → List TcId} {l : List TcId} (h : Working w c l)
    (deq : Dequeue) {v : ℕ} (hv : w.jiffies = v + 1)
    (hl : ∀ X ∈ l, slotOf (w.expiry X) = slotOf v)
    (hord : l.Pairwise fun X Y => w.expiry Y = v → w.expiry X = v) (fuel : ℕ) :
    Sat (loopFuel .fuel (walkBody deq v) fuel (firstNode l, w)) (fun x => Intact x.2) WheelStop := by
  induction l generalizing w c fuel with
  | nil =>
      cases fuel with
      | zero => exact .inl rfl
      | succ n => exact ⟨c, h.toWalking⟩
  | cons X l ih =>
      obtain ⟨hhead, hord'⟩ := List.pairwise_cons.mp hord
      by_cases hdue : w.expiry X = v
      · cases fuel with
        | zero => exact .inl rfl
        | succ n =>
            have hnext : w.mem.next (.tc X) = firstNode l := (forward_of_seg h.work.seg).2.1
            have hbody : walkBody deq v (firstNode (X :: l), w)
                = (do
                  let w' ← wheelActivate deq w X
                  return (true, firstNode l, w')) := by
              unfold walkBody firstNode
              simp only [if_pos hdue, hnext]
              rfl
            rw [loopFuel, hbody, bind_assoc]
            refine (h.activate deq).bind fun w' hw' => ?_
            obtain ⟨⟨c', h'⟩, hsame⟩ := hw'
            refine ih h' (hsame.jiffies.trans hv) (fun Y hY => ?_) (hord'.imp_of_mem ?_) n
            · rw [hsame.expiry Y hY]
              exact hl Y (List.mem_cons_of_mem X hY)
            · intro Y Z hY hZ
              rw [hsame.expiry Y hY, hsame.expiry Z hZ]
              exact id
      · -- from here on nothing is due
        refine h.toWalking.walk_later deq hv (nodup_of_ring h.work) (forward_of_seg h.work.seg).2 (fun Y hY => ?_) fuel
        refine ⟨fun hY' => hdue ?_, hl Y hY⟩
        rcases List.mem_cons.mp hY with rfl | hm
        · exact hY'
        · exact hhead Y hm hY'

/-- In the slot that is walked next, no token control that is due stands behind one that is
not. -/
def Orderly (w : Wheel) : Prop :=
  ∀ l : List TcId, Ring w.mem (.slot (slotOf w.jiffies)) (l.map .tc) →
    l.Pairwise fun X Y => w.expiry Y = w.jiffies → w.expiry X = w.jiffies

/-- One slot of `tbq_timer_feed`. -/
theorem Intact.feedBody {w : Wheel} (h : Intact w) (hord : Orderly w) (deq : Dequeue) (fuel : ℕ) :
    Sat (wheelFeedBody deq fuel w) (fun x => Intact x.2) WheelStop := by
  obtain ⟨c, h⟩ := h
  unfold wheelFeedBody
  by_cases hle : w.jiffies ≤ w.now
  swap
  · rw [if_neg hle]
    exact ⟨c, h⟩
  rw [if_pos hle]
  unfold walkSlot
  set k := slotOf w.jiffies with hk
  have hring := h.ring k
  have hempty := hring.next_eq_head_iff
  have hmem : ∀ X, X ∈ c k ↔ X ∈ w.armed ∧ slotOf (w.expiry X) = k := fun X => by simp [h.mem]
  by_cases hnil : (c k).map Node.tc = []
  · -- an empty slot: nothing on the wheel is due now
    simp only [Mem.listEmpty, hempty, hnil, decide_true, Bool.true_eq_false, if_false]
    refine ⟨c, h.ring, h.mem, fun X hX => (by cases hX), h.off, h.nodup, h.count, fun X hX hl => ?_,
      Nat.succ_le_succ hle, h.balance⟩
    have hge := h.early X hX hl
    rcases Nat.lt_or_eq_of_le hge with hlt | heq
    · exact hlt
    · have hin : X ∈ c k := (hmem X).mpr ⟨hX, by rw [hk, heq]⟩
      rw [List.map_eq_nil_iff.mp hnil] at hin
      cases hin
  · simp only [Mem.listEmpty, hempty, hnil, decide_false, if_true]
    obtain ⟨hth, hwork⟩ := h.threaded.take (k := k) fun e => hnil (by rw [e]; rfl)
    set w₁ : Wheel := { w with
      jiffies := w.jiffies + 1, mem := w.mem.listReplaceInit (.slot k) .work } with hw₁
    have h₁ : Working w₁ (Function.update c k []) (c k) := by
      refine ⟨⟨hth.ring, hth.mem, fun X hX => ⟨hth.rest X hX, ?_⟩, hth.off, h.nodup, h.count,
        fun X hX hl => ?_, Nat.succ_le_succ hle, h.balance⟩, hwork⟩
      · exact Nat.succ_le_succ (h.early X (hth.rest X hX) (by simp))
      · have hge := h.early X hX (by simp)
        rcases Nat.lt_or_eq_of_le hge with hlt | heq
        · exact hlt
        · exact absurd ((hmem X).mpr ⟨hX, by rw [hk, heq]⟩) hl
    have hfirst : w₁.mem.next .work = firstNode (c k) := (forward_of_seg hwork.seg).1
    have hwalk := h₁.walk deq (v := w.jiffies) rfl (fun X hX => ((hmem X).mp hX).2)
      (hord (c k) hring) fuel
    rw [← hfirst] at hwalk
    exact Sat.bind (P := Intact) (hwalk.bind fun x hx => hx) fun w' hw' => hw'

/-! ## Runs -/

/-- What can happen to the wheel. -/
inductive WheelEvent
  | elapse (n : ℕ)
  /-- A packet puts a token control into debt. -/
  | deactivate (a : Arming)
  /-- The user of a token control on the wheel is removed. -/
  | remove (X : TcId)
  /-- One round of the loop of `tbq_timer_feed`. -/
  | feed (deq : Dequeue)

/-- One event. -/
def wheelStep (fuel : ℕ) (w : Wheel) : WheelEvent → Except Stop Wheel
  | .elapse n => pure { w with now := w.now + n }
  | .deactivate a => wheelDeactivate w a
  | .remove X => do
      let w ← wheelDel w X
      return { w with removals := bump w.removals X }
  | .feed deq => do
      let (_, w) ← wheelFeedBody deq fuel w
      return w

/-- Only what is on the wheel is removed, and every slot that is walked is in order. -/
def WheelAdmissible (w : Wheel) : WheelEvent → Prop
  | .remove X => X ∈ w.armed
  | .feed _ => w.jiffies ≤ w.now → Orderly w
  | _ => True

/-- The states that events reach from a new wheel, each admitted by `P`. -/
inductive WheelReach (P : Wheel → WheelEvent → Prop) (now : ℕ) : Wheel → Prop
  | init : WheelReach P now (initWheel now)
  | step {w w' : Wheel} {fuel : ℕ} {e : WheelEvent} : WheelReach P now w → P w e →
      wheelStep fuel w e = .ok w' → WheelReach P now w'

theorem initWheel_intact (now : ℕ) : Intact (initWheel now) := by
  refine ⟨fun _ => [], fun k => Ring.nil_iff.mpr ⟨rfl, rfl⟩, fun k X => ?_, fun X hX => (by cases hX),
    fun X _ => rfl, List.nodup_nil, rfl, fun X hX => (by cases hX), Nat.le_succ now, fun X => rfl⟩
  simp [initWheel]

theorem Intact.elapse {w : Wheel} (h : Intact w) (n : ℕ) : Intact { w with now := w.now + n } := by
  obtain ⟨c, h⟩ := h
  exact ⟨c, h.ring, h.mem, h.rest, h.off, h.nodup, h.count, h.early, by have := h.clock; dsimp only; omega,
    h.balance⟩

/-- A step on a wheel in order: it keeps the wheel in order, and the links it follows are
those it takes them for. -/
theorem Intact.step_sat {w : Wheel} (h : Intact w) (fuel : ℕ) {e : WheelEvent}
    (hadm : WheelAdmissible w e) : Sat (wheelStep fuel w e) Intact WheelStop := by
  cases e with
  | elapse n => exact h.elapse n
  | deactivate a => exact h.deactivate a
  | remove X =>
      obtain ⟨w', hw', hi⟩ := h.remove hadm
      show Sat (wheelDel w X >>= _) _ _
      rw [hw']
      exact hi
  | feed deq =>
      show Sat (wheelFeedBody deq fuel w >>= _) _ _
      by_cases hle : w.jiffies ≤ w.now
      · exact (h.feedBody (hadm hle) deq fuel).bind fun x hx => hx
      · unfold wheelFeedBody
        rw [if_neg hle]
        exact h

/-- In every run in which no slot is walked with a due token control behind one that is not
due, the wheel stays in order, no walk follows a link to something that is not a token
control, and when `tbq_timer_feed` has caught up with the clock everything that was due has
been activated, once. -/
theorem wheel_intact {now : ℕ} {w : Wheel} (h : WheelReach WheelAdmissible now w) :
    Intact w ∧ (w.now < w.jiffies → ∀ X ∈ w.armed, w.now < w.expiry X)
      ∧ ∀ fuel e err, WheelAdmissible w e → wheelStep fuel w e = .error err → WheelStop err := by
  have hi : Intact w := by
    induction h with
    | init => exact initWheel_intact now
    | step _ hadm hs ih => exact (ih.step_sat _ hadm).of_ok hs
  refine ⟨hi, fun hlt X hX => ?_, fun fuel e err hadm herr => (hi.step_sat fuel hadm).of_error herr⟩
  obtain ⟨c, hw⟩ := hi
  exact hlt.trans_le (hw.early X hX (by simp))

/-! Two token controls that share a slot, one lap apart. -/

/-- The bucket of the first rule. -/
def ctrlX : TcId := .bucket 0 0

/-- The bucket of the second rule. -/
def ctrlY : TcId := .bucket 0 1

/-- A dequeue that puts nothing on the wheel: the token control has no backlog. -/
def nothing : Dequeue := fun _ _ => []

/-- The nearer one first. -/
def nearFirst : List WheelEvent :=
  [.deactivate ⟨ctrlY, 1, by decide⟩, .deactivate ⟨ctrlX, 257, by decide⟩, .elapse 1]

/-- The nearer one last. -/
def nearLast : List WheelEvent :=
  [.deactivate ⟨ctrlX, 257, by decide⟩, .deactivate ⟨ctrlY, 1, by decide⟩, .elapse 1]

/-- Events without walks and removals, one after the other. -/
theorem reach_events {P : Wheel → WheelEvent → Prop} {now : ℕ} {l : List WheelEvent} {w w' : Wheel}
    (h : WheelReach P now w) (hP : ∀ e ∈ l, ∀ w, P w e)
    (hl : l.foldlM (wheelStep 10) w = .ok w') : WheelReach P now w' := by
  induction l generalizing w with
  | nil =>
      obtain rfl := pure_eq_ok.mp hl
      exact h
  | cons e l ih =>
      rw [List.foldlM_cons, bind_eq_ok] at hl
      obtain ⟨w₁, hw₁, hl⟩ := hl
      exact ih (.step h (hP e List.mem_cons_self w) hw₁)
        (fun e' he' => hP e' (List.mem_cons_of_mem e he')) hl

/-- A slot whose links are known is in order when its token controls are. -/
theorem orderly_of_ring {w : Wheel} {l : List TcId}
    (hr : Ring w.mem (.slot (slotOf w.jiffies)) (l.map .tc))
    (hl : l.Pairwise fun X Y => w.expiry Y = w.jiffies → w.expiry X = w.jiffies) : Orderly w := by
  intro l' hr'
  have heq := hr.unique hr'
  have hinj : Function.Injective Node.tc := fun X Y e => Node.tc.inj e
  rw [← (List.map_injective_iff.mpr hinj) heq]
  exact hl

theorem wheel_intact_nearFirst :
    ∃ w, WheelReach WheelAdmissible 0 w ∧ Intact w ∧ w.activations ctrlY = 1 ∧ w.armed = [ctrlX]
      ∧ w.mem.next (.tc ctrlX) = .slot 1 := by
  have heval : (nearFirst.foldlM (wheelStep 10) (initWheel 0)).toOption.any (fun w =>
      decide (w.jiffies = 0 ∧ w.mem.next (.slot 0) = .slot 0 ∧ w.mem.prev (.slot 0) = .slot 0) &&
      (wheelStep 10 w (.feed nothing)).toOption.any fun w =>
        decide (w.jiffies = 1 ∧ w.expiry ctrlY = 1 ∧ w.mem.next (.slot 1) = .tc ctrlY
          ∧ w.mem.prev (.tc ctrlY) = .slot 1 ∧ w.mem.next (.tc ctrlY) = .tc ctrlX
          ∧ w.mem.prev (.tc ctrlX) = .tc ctrlY ∧ w.mem.next (.tc ctrlX) = .slot 1
          ∧ w.mem.prev (.slot 1) = .tc ctrlX) &&
        (wheelStep 10 w (.feed nothing)).toOption.any fun w =>
          decide (w.activations ctrlY = 1 ∧ w.armed = [ctrlX] ∧ w.mem.next (.tc ctrlX) = .slot 1))
      = true := by decide +kernel
  obtain ⟨w₁, hw₁, h₁⟩ := ok_of_any heval
  obtain ⟨h₁, heval⟩ := (Bool.and_eq_true _ _).mp h₁
  obtain ⟨w₂, hw₂, h₂⟩ := ok_of_any heval
  obtain ⟨h₂, heval⟩ := (Bool.and_eq_true _ _).mp h₂
  obtain ⟨w₃, hw₃, h₃⟩ := ok_of_any heval
  obtain ⟨hj₁, hn₁, hp₁⟩ := of_decide_eq_true h₁
  obtain ⟨hj₂, he₂, hn₂, hp₂, hn₃, hp₃, hn₄, hp₄⟩ := of_decide_eq_true h₂
  obtain ⟨hact, harmed, hnext⟩ := of_decide_eq_true h₃
  have hreach₁ : WheelReach WheelAdmissible 0 w₁ :=
    reach_events .init (fun e he w => by
      simp only [nearFirst, List.mem_cons, List.not_mem_nil, or_false] at he
      rcases he with rfl | rfl | rfl
      · trivial
      · trivial
      · trivial) hw₁
  have hord₁ : Orderly w₁ := by
    refine orderly_of_ring (l := []) ?_ List.Pairwise.nil
    rw [hj₁]
    exact Ring.nil_iff.mpr ⟨hn₁, hp₁⟩
  have hord₂ : Orderly w₂ := by
    refine orderly_of_ring (l := [ctrlY, ctrlX]) ?_ ?_
    · rw [hj₂]
      exact ⟨by decide, hn₂, hp₂, hn₃, hp₃, hn₄, hp₄⟩
    · rw [hj₂]
      refine List.Pairwise.cons (fun Z _ _ => he₂) (List.pairwise_singleton _ _)
  have hreach₃ : WheelReach WheelAdmissible 0 w₃ :=
    .step (e := .feed nothing) (.step (e := .feed nothing) hreach₁ (fun _ => hord₁) hw₂)
      (fun _ => hord₂) hw₃
  exact ⟨w₃, hreach₃, (wheel_intact hreach₃).1, hact, harmed, hnext⟩

/-- Only what is on the wheel is removed. -/
def WheelPossible (w : Wheel) : WheelEvent → Prop
  | .remove X => X ∈ w.armed
  | _ => True

/-- A link to `work_list` is no link of a slot. -/
theorem not_intact_of_work {w : Wheel} {X : TcId} (hX : X ∈ w.armed)
    (hnext : w.mem.next (.tc X) = .work) : ¬ Intact w := by
  rintro ⟨c, h⟩
  have hm : X ∈ c (slotOf (w.expiry X)) := (h.mem _ X).mpr ⟨hX, by simp, rfl⟩
  have hc := ((h.ring _).closed (List.mem_cons_of_mem _ (List.mem_map_of_mem hm))).1
  rw [hnext] at hc
  exact work_not_mem_slot _ _ hc

/-- With the due token control behind the other one in their slot, `tbq_timer_feed` leaves a
link to its own stack on the wheel. -/
theorem feed_links_stack :
    ∃ w w', WheelReach WheelPossible 0 w ∧ wheelFeed nothing 10 w = .ok w'
      ∧ w'.mem.next (.tc ctrlX) = .work ∧ ¬ Intact w' := by
  have heval : (nearLast.foldlM (wheelStep 10) (initWheel 0)).toOption.any (fun w =>
      (wheelFeed nothing 10 w).toOption.any fun w' =>
        decide (ctrlX ∈ w'.armed ∧ w'.mem.next (.tc ctrlX) = .work)) = true := by decide +kernel
  obtain ⟨w, hw, heval⟩ := ok_of_any heval
  obtain ⟨w', hw', heval⟩ := ok_of_any heval
  obtain ⟨harmed, hnext⟩ := of_decide_eq_true heval
  refine ⟨w, w', reach_events .init (fun e he w => ?_) hw, hw', hnext, not_intact_of_work harmed hnext⟩
  simp only [nearLast, List.mem_cons, List.not_mem_nil, or_false] at he
  rcases he with rfl | rfl | rfl
  · trivial
  · trivial
  · trivial

end Tbq
