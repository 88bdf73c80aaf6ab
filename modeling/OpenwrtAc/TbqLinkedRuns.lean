/-
# Runs over the linked timer

While no slot is walked in which a due token control stands behind one that is not due, the
links stay in order, so that every run over the links is one of the scheduler whose timer is a
set: what holds of that scheduler holds of the code.  A walk out of order leaves the links in a
state in which a token control is on the timer for the masks and is never found again, and in
which the timer keeps a link to a user that is freed.
-/
import OpenwrtAc.TbqLinkedSim
import OpenwrtAc.TbqSafety

open Outcome MachineInt KernelList

namespace Tbq.Linked

variable {e : TcId → ℕ} {out : Stop → Prop} {cfg : Config} {L : Sched}

/-! ## One event -/

/-- The event, with an order of the slots for a tick. -/
def inOrderOf (order : SlotOrder) : Event → Event
  | .tick _ => .tick order
  | ev => ev

/-- The events that leave the timer alone. -/
def Quiet : Event → Prop
  | .filter .. | .enqueue _ | .tick _ | .userFree _ => False
  | _ => True

theorem step_quiet {fuel : ℕ} {s s' : State} {ev : Event} (hev : Quiet ev)
    (h : Tbq.step fuel s ev = .ok s') : s'.t.pending = s.t.pending ∧ s'.t.tc = s.t.tc := by
  cases ev with
  | elapse n =>
      obtain rfl := pure_eq_ok.mp h
      exact ⟨rfl, rfl⟩
  | flowFree f =>
      have h : onFlowFree s f = .ok s' := h
      unfold onFlowFree at h
      split at h
      · obtain ⟨q, -, h⟩ := bind_eq_ok.mp h
        cases h
        exact ⟨rfl, rfl⟩
      · cases h
        exact ⟨rfl, rfl⟩
  | disableStop =>
      obtain rfl := pure_eq_ok.mp h
      split <;> exact ⟨rfl, rfl⟩
  | disableWait =>
      obtain rfl := pure_eq_ok.mp h
      split <;> exact ⟨rfl, rfl⟩
  | disableEnd =>
      obtain rfl := pure_eq_ok.mp h
      split <;> exact ⟨rfl, rfl⟩
  | enable =>
      obtain rfl := pure_eq_ok.mp h
      split <;> exact ⟨rfl, rfl⟩
  | _ => exact hev.elim

/-- An event that leaves the timer alone goes the way of the scheduler without links. -/
theorem quiet_sim {fuel : ℕ} (ev : Event) (hev : Quiet ev) (h : Threads [] e L.tokens) :
    Sim out (AlongS [] e) (Tbq.step fuel L.s ev >>= fun s => pure ⟨s, L.mem⟩)
      (Tbq.step fuel L.s ev) := by
  cases hs : Tbq.step fuel L.s ev with
  | error err => exact sim_error err
  | ok s =>
      obtain ⟨hp, htc⟩ := step_quiet hev hs
      refine sim_ok ⟨rfl, h.congr (x := L.tokens) hp fun X _ => ?_⟩
      rw [htc]
      rfl

/-- What an event that finds the slots in order does to the links, it does to the set, where the
slots are taken in the order of their links. -/
theorem step_sim (hout : out .fuel) (fuel : ℕ) {ev : Event} (h : Threads [] e L.tokens)
    (hlive : ∀ r, TcId.user r ∈ L.s.t.pending → r.u ∈ L.s.q.users) (hord : InOrder fuel L ev) :
    ∃ order : SlotOrder, (∀ v l, (order v l).Perm l) ∧
      Sim out (AlongS [] e) (step fuel L ev) (Tbq.step fuel L.s (inOrderOf order ev)) := by
  have hany : ∀ {x : Except Stop Sched} {y : SlotOrder → Except Stop State},
      Sim out (AlongS [] e) x (y fun _ l => l) →
      ∃ order : SlotOrder, (∀ v l, (order v l).Perm l) ∧ Sim out (AlongS [] e) x (y order) :=
    fun hsim => ⟨_, fun _ _ => .refl _, hsim⟩
  cases ev with
  | filter f d app len allocOk =>
      refine hany (sim_ite Iff.rfl (fun _ => ?_) fun _ => sim_pure ⟨rfl, h⟩)
      exact (filterPacket_sim h hlive f d app len allocOk).bind fun a b hab => sim_pure hab.2
  | enqueue p =>
      have hsim := @enqueue_sim e out fuel { L with s := L.s.land p } h p
      exact hany (hsim.bind fun a b hab => sim_pure hab.2)
  | tick _ =>
      obtain ⟨order, hperm, hsim⟩ := timerFeed_sim hout fuel fuel (L := L.begin) h hord
      refine ⟨order, hperm, hsim.bind ?_⟩
      rintro L' _ ⟨rfl, hL'⟩
      exact timerEnd_sim hL'
  | userFree u =>
      obtain ⟨c, hc, -⟩ := h.filtered
      exact hany ((onUserFree_sim hc u).mono fun L' s hL' => ⟨hL'.1, hL'.2.threads⟩)
  | elapse n => exact hany (quiet_sim (.elapse n) trivial h)
  | flowFree f => exact hany (quiet_sim (.flowFree f) trivial h)
  | disableStop => exact hany (quiet_sim .disableStop trivial h)
  | disableWait => exact hany (quiet_sim .disableWait trivial h)
  | disableEnd => exact hany (quiet_sim .disableEnd trivial h)
  | enable => exact hany (quiet_sim .enable trivial h)

/-- What the surroundings promise does not depend on the order that they promise it for. -/
theorem admissible_inOrderOf {s : State} {ev : Event} (h : Admissible s ev) {order : SlotOrder}
    (hperm : ∀ v l, (order v l).Perm l) : Admissible s (inOrderOf order ev) := by
  cases ev with
  | tick _ => exact hperm
  | _ => exact h

/-! ## Runs -/

theorem initSched_threads (cfg : Config) (now : ℕ) : Threads [] e (initSched cfg now).tokens := by
  refine ⟨⟨fun _ => [], fun k => Ring.nil_iff.mpr ⟨rfl, rfl⟩, fun k X => ?_,
    fun X hX => (by cases hX), fun X _ => rfl⟩, fun hl => absurd rfl hl, fun X hX => (by cases hX),
    List.nodup_nil⟩
  simp [initSched, initState, Sched.tokens]

/-- Only a user that is tracked is on the timer. -/
theorem live_of_reachable {P : State → Event → Prop} {now : ℕ} {s : State}
    (h : Tbq.Reachable P (initState cfg now) s) (r : UserRef) (hr : TcId.user r ∈ s.t.pending) :
    r.u ∈ s.q.users := by
  have hidle : Idle False cfg s := h.idle fun _ _ _ hb => hb.elim
  exact (hidle.inv.base.tokens.live _ hr).1.1

/-- Every run over the links that finds all slots in order is a run of the scheduler whose timer
    is a set, and its links are those of this set.  A condition `P` on the events, which does not
    look at the order of a tick, is kept. -/
theorem Reachable.refines {P : State → Event → Prop}
    (hP : ∀ s ev order, P s ev → P s (inOrderOf order ev)) {now : ℕ}
    (h : Reachable (fun fuel L ev => InOrder fuel L ev ∧ P L.s ev) (initSched cfg now) L) :
    Tbq.Reachable P (initState cfg now) L.s ∧ Threads [] e L.tokens := by
  induction h with
  | init => exact ⟨.init, initSched_threads cfg now⟩
  | @step L L' fuel ev _ hadm hok hs ih =>
      obtain ⟨hreach, hth⟩ := ih
      obtain ⟨order, hperm, hsim⟩ := @step_sim e (· = .fuel) _ rfl fuel ev hth
        (live_of_reachable hreach) hok.1
      obtain ⟨s, hstep, rfl, hL'⟩ := Sat.of_ok hsim hs
      exact ⟨.step hreach (admissible_inOrderOf hadm hperm) (hP _ _ _ hok.2) hstep, hL'⟩

/-- The same without a condition on the events. -/
theorem Reachable.refines_any {now : ℕ} (h : Reachable InOrder (initSched cfg now) L) :
    Tbq.Reachable AnyEvent (initState cfg now) L.s ∧ Threads [] e L.tokens := by
  refine Reachable.refines (fun _ _ _ _ => trivial) ?_
  induction h with
  | init => exact .init
  | step _ hadm hord hs ih => exact .step ih hadm ⟨hord, trivial⟩ hs

/-! ## Runs that can be evaluated -/

/-- The token controls that the forward links from the node `y` lead to, up to the head `h`. -/
def follow (m : Mem Node) (h : Node) : ℕ → Node → Option (List TcId)
  | 0, _ => none
  | n + 1, y =>
    if y = h then some [] else
      match y with
      | .tc X => (follow m h n (m.next y)).map (X :: ·)
      | _ => none

theorem follow_seg {m : Mem Node} {h : Node} {l : List TcId} (hh : h ∉ l.map Node.tc) {a : Node}
    (hs : Seg m a (l.map .tc) h) {n : ℕ} {l' : List TcId} (hl : follow m h n (m.next a) = some l') :
    l' = l := by
  induction l generalizing a n l' with
  | nil =>
      cases n with
      | zero => cases hl
      | succ n =>
          unfold follow at hl
          rw [if_pos hs.1] at hl
          exact (Option.some.inj hl).symm
  | cons X l ih =>
      obtain ⟨hX, hrest⟩ := not_or.mp (mt List.mem_cons.mpr hh)
      obtain ⟨h₁, -, h₃⟩ := hs
      cases n with
      | zero => cases hl
      | succ n =>
          rw [h₁] at hl
          unfold follow at hl
          rw [if_neg fun e => hX e.symm] at hl
          obtain ⟨l₁, hl₁, rfl⟩ := Option.map_eq_some_iff.mp hl
          rw [ih hrest h₃ hl₁]

/-- The slot that is walked next is in order, as far as its forward links tell. -/
def orderlyTest (n : ℕ) (L : Sched) : Bool :=
  let vec := Node.slot (slotOf L.s.timerJiffies)
  (follow L.mem vec n (L.mem.next vec)).any fun l =>
    decide (l.Pairwise fun X Y => u32 (L.s.t.tc Y).jiffies = u32 L.s.timerJiffies →
      u32 (L.s.t.tc X).jiffies = u32 L.s.timerJiffies)

theorem orderly_of_test {n : ℕ} (h : orderlyTest n L = true) : Orderly L := by
  intro l hr
  obtain ⟨l', hl', hord⟩ := (Option.any_eq_true _ _).mp h
  obtain rfl := follow_seg (List.nodup_cons.mp hr.nodup).1 hr.seg hl'
  exact of_decide_eq_true hord

/-- The next `n` rounds of `tbq_timer_feed` pass the test. -/
def feedsTest (fuel : ℕ) : ℕ → Sched → Bool
  | 0, _ => true
  | n + 1, L =>
    (decide (i32 ((L.s.t.jiffies : ℤ) - L.s.timerJiffies) < 0) || orderlyTest fuel L) &&
      match timerFeedBody fuel L with
      | .ok (true, L') => feedsTest fuel n L'
      | _ => true

theorem feedsOrderly_of_test {fuel n : ℕ} (h : feedsTest fuel n L = true) :
    FeedsOrderly fuel n L := by
  induction n generalizing L with
  | zero => trivial
  | succ n ih =>
      rw [feedsTest, Bool.and_eq_true, Bool.or_eq_true] at h
      obtain ⟨hnow, hlater⟩ := h
      refine ⟨fun hle => ?_, fun L' hL' => ih ?_⟩
      · rcases hnow with hlt | hord
        · exact absurd hle (not_le.mpr (of_decide_eq_true hlt))
        · exact orderly_of_test hord
      · rw [hL'] at hlater
        exact hlater

/-- What can be evaluated of the promises about an event; `none` is a tick, whose slots are
tested where `inOrder` says so. -/
def test (inOrder : Bool) (L : Sched) : Option Event → Bool
  | some e => e.evident L.s
  | none => !inOrder || feedsTest 20 20 L.begin

/-- The events of a list, as long as each one passes the test. -/
def play (inOrder : Bool) (L : Sched) (l : List (Option Event)) : Except Stop Sched :=
  l.foldlM (fun L o => do
    stopIf (test inOrder L o = false) .fuel
    step 20 L (o.getD (.tick fun _ l => l))) L

theorem reachable_play {P : ℕ → Sched → Event → Prop} {inOrder : Bool}
    (hP : ∀ L o, test inOrder L o = true → P 20 L (o.getD (.tick fun _ l => l))) {L₀ L L' : Sched}
    {l : List (Option Event)} (h : Reachable P L₀ L) (hl : play inOrder L l = .ok L') :
    Reachable P L₀ L' := by
  induction l generalizing L with
  | nil =>
      obtain rfl := pure_eq_ok.mp hl
      exact h
  | cons o l ih =>
      unfold play at hl
      rw [List.foldlM_cons, bind_eq_ok] at hl
      obtain ⟨L₁, hL₁, hl⟩ := hl
      obtain ⟨_, htest, hL₁⟩ := bind_eq_ok.mp hL₁
      rw [stopIf_eq_ok, Bool.not_eq_false] at htest
      refine ih (.step h ?_ (hP L o htest) hL₁) hl
      cases o with
      | some e => exact Event.admissible_of_evident htest
      | none => exact fun _ l => List.Perm.refl l

/-- The test for a run that finds all slots in order. -/
theorem inOrder_of_test {o : Option Event} (h : test true L o = true) :
    InOrder 20 L (o.getD (.tick fun _ l => l)) := by
  cases o with
  | none => exact feedsOrderly_of_test h
  | some e =>
      have he : e.evident L.s = true := h
      cases e with
      | tick order => cases he
      | _ => trivial

/-- A rate of 20 octets per tick. -/
def tinyConfig : Config := oneRule 20 10 ⟨by decide, by decide⟩ (by decide)

/-- A packet of the user `u` reaches the filter. -/
def packet (u : UserId) (d : Dir) (len : SkbLen) : Option Event := some (.filter ⟨u, 1⟩ d 1 len true)

/-- The packet reaches the queue handler. -/
def queued (u : UserId) (d : Dir) (len : SkbLen) : Option Event :=
  some (.enqueue ⟨⟨u, 1⟩, d, 1#32, len.1, len.pos, len.lt⟩)

/-- User 1 goes into debt for 257 ticks in one direction, user 2 for one tick in the other, where a
packet of user 3 waits that takes 256 ticks; the first tick finds them all in one slot. -/
def longFirst : List (Option Event) :=
  [packet 1 0 ⟨5140, by decide⟩, packet 2 1 ⟨20, by decide⟩, packet 3 1 ⟨5120, by decide⟩,
    queued 3 1 ⟨5120, by decide⟩, some (.elapse 1), none]

/-- The run of `longFirst` without user 3. -/
def twoDebts : List (Option Event) :=
  [packet 1 0 ⟨5140, by decide⟩, packet 2 1 ⟨20, by decide⟩, some (.elapse 1), none]

/-- The clock goes round the slots once. -/
def lap : List (Option Event) := (List.replicate 16 [some (.elapse 16), none]).flatten

/-- The run of `longFirst` with the short debt first. -/
def shortFirst : List (Option Event) :=
  [packet 2 1 ⟨20, by decide⟩, packet 1 0 ⟨5140, by decide⟩, packet 3 1 ⟨5120, by decide⟩,
    queued 3 1 ⟨5120, by decide⟩, some (.elapse 1), none]

/-! ## Masks, timer and tokens -/

/-- What the masks count as pending is in the slot of its expiry. -/
theorem Threads.onTimer_iff (h : Threads [] e L.tokens) (X : TcId) :
    L.OnTimer X ↔ X ∈ L.s.t.pending := by
  obtain ⟨c, hc⟩ := h.slots
  have hinj : Function.Injective Node.tc := fun X Y e => Node.tc.inj e
  constructor
  · rintro ⟨l, hr, hX⟩
    have hl := List.map_injective_iff.mpr hinj (hr.unique (hc.ring _))
    rw [hl] at hX
    exact ((hc.mem _ X).mp hX).1
  · intro hX
    exact ⟨_, hc.ring _, (hc.mem _ X).mpr ⟨hX, by simp, rfl⟩⟩

/-- In every run in which no slot is walked with a due token control behind one that is not due,
a bit of an inactive mask is set exactly when the token control is in the slot of its expiry, which
`list_empty` tells; a token control off the timer has no debt; and the assertions that rely on it
hold in every step that finds the slots in order. -/
theorem masks_timer_agree {now : ℕ} (hpos : cfg.RatesPositive)
    (h : Reachable InOrder (initSched cfg now) L) :
    (∀ d i, (L.s.t.bucketInactive d).has i = true ↔ L.OnTimer (.bucket d i))
    ∧ (∀ u d i, (L.s.t.userInactive u d).has i = true ↔ L.OnTimer (.user ⟨u, d, i⟩))
    ∧ (∀ X, L.mem.listEmpty (.tc X) = false ↔ L.OnTimer X)
    ∧ (∀ X, ¬ L.OnTimer X → 0 ≤ (L.s.t.tc X).tokens)
    ∧ ∀ fuel ev err, Admissible L.s ev → InOrder fuel L ev → step fuel L ev = .error err →
        err ∉ agreementBugs := by
  obtain ⟨hreach, hth⟩ := h.refines_any (e := fun _ => 0)
  have hidle : Idle False cfg L.s := hreach.idle fun _ _ _ hb => hb.elim
  obtain ⟨hmask, htok⟩ := hidle.masks_tokens hpos
  simp only [hth.onTimer_iff]
  refine ⟨fun d i => hmask (.bucket d i), fun u d i => hmask (.user ⟨u, d, i⟩),
    hth.listEmpty_false_iff, fun X _ => htok X, fun fuel ev err hadm hord herr => ?_⟩
  obtain ⟨order, hperm, hsim⟩ := @step_sim (fun _ => 0) (· = .fuel) _ rfl fuel ev hth
    (live_of_reachable hreach) hord
  rcases Sat.of_error hsim herr with rfl | hset
  · decide
  · exact ((hidle.step_sat fuel (admissible_inOrderOf hadm hperm) fun hb => hb.elim).of_error
      hset).not_agreement hpos

/-- The run with the short debt first walks slot 1 while the bucket of the other direction goes back
into it for another lap. -/
theorem masks_timer_agree_shortFirst :
    ∃ L, Reachable InOrder (initSched tinyConfig 0) L ∧ L.s.t.nrPending = 4
      ∧ L.OnTimer (.bucket 1 0) ∧ ¬ L.OnTimer (.user ⟨2, 1, 0⟩) := by
  have heval : ((play true (initSched tinyConfig 0) shortFirst).toOption.any fun L =>
      decide (L.s.t.nrPending = 4 ∧ (L.s.t.bucketInactive 1).has 0 = true
        ∧ (L.s.t.userInactive 2 1).has 0 = false)) = true := by decide +kernel
  obtain ⟨L, hL, heval⟩ := ok_of_any heval
  obtain ⟨hnr, hbucket, huser⟩ := of_decide_eq_true heval
  have hreach := reachable_play (fun _ _ => inOrder_of_test) .init hL
  obtain ⟨hb, hu, -⟩ := masks_timer_agree (oneRule_ratesPositive (by decide)) hreach
  refine ⟨L, hreach, hnr, (hb 1 0).mp hbucket, fun hon => ?_⟩
  rw [(hu 2 1 0).mpr hon] at huser
  cases huser

/-- With the long debt first, the last entry of the slot takes what joined the slot out of its
links.  The next lap finds the rest of the slot and then all slots are empty, while the bucket
counts as pending and its mask keeps every packet of that direction back, for good. -/
theorem joined_entry_lost :
    ∃ L, Reachable (fun _ _ _ => True) (initSched tinyConfig 0) L
      ∧ (L.s.t.bucketInactive 1).has 0 = true ∧ L.s.t.nrPending = 2
      ∧ (∀ k, L.mem.next (.slot k) = .slot k) ∧ ¬ L.OnTimer (.bucket 1 0) := by
  have heval : ((play false (initSched tinyConfig 0) (longFirst ++ lap)).toOption.any fun L =>
      decide ((L.s.t.bucketInactive 1).has 0 = true ∧ L.s.t.nrPending = 2
        ∧ ∀ k, L.mem.next (.slot k) = .slot k)) = true := by decide +kernel
  obtain ⟨L, hL, heval⟩ := ok_of_any heval
  obtain ⟨hmask, hnr, hempty⟩ := of_decide_eq_true heval
  refine ⟨L, reachable_play (fun _ _ _ => trivial) .init hL, hmask, hnr, hempty, ?_⟩
  rintro ⟨l, hr, hX⟩
  have hnil := List.map_eq_nil_iff.mp (hr.next_eq_head_iff.mp (hempty _))
  rw [hnil] at hX
  cases hX

/-! ## Freeing a user -/

/-- The token controls of a user that are on the timer, slot by slot. -/
def ofSlots (c : Fin 256 → List TcId) (u : UserId) : List TcId :=
  (List.finRange 256).flatMap fun k => (c k).filter fun X => X.ofUser u

/-- The slots list what is on the timer. -/
theorem ofSlots_perm {m : Mem Node} {pending : List TcId} {expiry : TcId → ℕ}
    {c : Fin 256 → List TcId} (h : Threaded m (· ∈ pending) expiry c []) (hn : pending.Nodup)
    (u : UserId) : (ofSlots c u).Perm (pending.filter fun X => X.ofUser u) := by
  refine (List.perm_ext_iff_of_nodup ?_ (hn.filter _)).mpr fun X => ?_
  · refine List.nodup_flatMap.mpr ⟨fun k _ => (nodup_of_ring (h.ring k)).filter _, ?_⟩
    refine (List.nodup_finRange 256).imp fun {k k'} hk X hX hX' => hk ?_
    have h₁ := (h.mem k X).mp (List.mem_of_mem_filter hX)
    have h₂ := (h.mem k' X).mp (List.mem_of_mem_filter hX')
    exact h₁.2.2.symm.trans h₂.2.2
  · simp only [ofSlots, List.mem_flatMap, List.mem_finRange, true_and, List.mem_filter, h.mem,
      List.not_mem_nil, not_false_eq_true]
    constructor
    · rintro ⟨k, ⟨hX, -⟩, hu⟩
      exact ⟨hX, hu⟩
    · rintro ⟨hX, hu⟩
      exact ⟨_, ⟨hX, rfl⟩, hu⟩

/-- In every run in which no slot is walked with a due token control behind one that is not due, a
user whose flows hold no packets can be freed, in debt or not: no assertion fails; every slot
lists what it listed but for the token controls of the user, which are linked nowhere;
`nr_pending` drops by their number; and no other token control, mask or backlog changes. -/
theorem user_free_exact {now : ℕ} {u : UserId} (h : Reachable InOrder (initSched cfg now) L)
    (hidle : ∀ f ∈ L.s.q.flows, f.user = u → ∀ d, L.s.q.packets f d = []) :
    ∃ L' c, onUserFree L u = .ok L'
      ∧ (∀ k, Ring L.mem (.slot k) ((c k).map .tc))
      ∧ (∀ k, Ring L'.mem (.slot k) (((c k).filter fun X => !X.ofUser u).map .tc))
      ∧ (∀ X, X.ofUser u = true → L'.mem.next (.tc X) = .tc X)
      ∧ L'.s.t.nrPending + (ofSlots c u).length = L.s.t.nrPending
      ∧ (∀ X, X.ofUser u = false → L'.s.t.tc X = L.s.t.tc X ∧ L'.s.t.inactive X = L.s.t.inactive X
          ∧ L'.s.q.bl X = L.s.q.bl X)
      ∧ L'.s.q = { L.s.q with users := L.s.q.users.erase u } := by
  obtain ⟨hreach, hlinks⟩ := h.refines_any (e := fun _ => 0)
  have hi : Idle False cfg L.s := hreach.idle fun _ _ _ hb => hb.elim
  obtain ⟨s', hfree, hpend, hcount, hother, hq⟩ := hi.userFree hidle
  obtain ⟨c, hc, hth⟩ := hlinks.filtered
  have hsim := (@onUserFree_sim (fun _ => False) c L hc u).sat
    (Q := fun s => s = s') (E := fun _ => False) (by rw [hfree]; exact rfl) fun _ he => he
  obtain ⟨L', hL', s, ⟨rfl, -, p, hp⟩, rfl⟩ := hsim.exists_ok
  have hslots : ∀ k, (c k).filter p = (c k).filter fun X => !X.ofUser u := by
    intro k
    apply List.filter_congr
    intro X hX
    have hX' : X ∈ L.s.t.pending := ((hth.mem k X).mp hX).1
    have hleft : X ∈ L'.s.t.pending ↔ (!X.ofUser u) = true := by
      rw [hpend, List.mem_filter]
      exact and_iff_right hX'
    rw [Bool.eq_iff_iff, ← hleft]
    constructor
    · intro hpX
      exact ((hp.mem k X).mp (List.mem_filter.mpr ⟨hX, hpX⟩)).1
    · intro hX''
      exact (List.mem_filter.mp ((hp.mem _ X).mpr ⟨hX'', by simp, rfl⟩)).2
  refine ⟨L', c, hL', hth.ring, fun k => hslots k ▸ hp.ring k, fun X hX => hp.off X ?_, ?_, hother, hq⟩
  · show X ∉ L'.s.t.pending
    rw [hpend, List.mem_filter, hX]
    simp
  · rw [(ofSlots_perm hth hlinks.nodup u).length_eq]
    exact hcount

/-- A user is freed that is in debt for another lap, from a slot that others share with it. -/
theorem user_free_exact_shortFirst :
    ∃ (L L' : Sched) (c : Fin 256 → List TcId), Reachable InOrder (initSched tinyConfig 0) L
      ∧ L.s.t.nrPending = 4
      ∧ onUserFree L 1 = .ok L' ∧ L'.s.t.nrPending = 3
      ∧ (∀ k, Ring L'.mem (.slot k) (((c k).filter fun X => !X.ofUser 1).map .tc))
      ∧ L'.mem.next (.tc (.user ⟨1, 0, 0⟩)) = .tc (.user ⟨1, 0, 0⟩) := by
  have heval : ((play true (initSched tinyConfig 0) shortFirst).toOption.any fun L =>
      decide (L.s.t.nrPending = 4 ∧ ∀ f ∈ L.s.q.flows, f.user = 1 → ∀ d, L.s.q.packets f d = []) &&
        (onUserFree L 1).toOption.any fun L' => decide (L'.s.t.nrPending = 3)) = true := by
    decide +kernel
  obtain ⟨L, hL, heval⟩ := ok_of_any heval
  obtain ⟨hnow, heval⟩ := (Bool.and_eq_true _ _).mp heval
  obtain ⟨L', hL', heval⟩ := ok_of_any heval
  obtain ⟨hnr, hidle⟩ := of_decide_eq_true hnow
  have hreach := reachable_play (fun _ _ => inOrder_of_test) .init hL
  obtain ⟨L'', c, hL'', -, hslots, hself, -⟩ := user_free_exact hreach hidle
  obtain rfl : L' = L'' := Except.ok.inj (hL'.symm.trans hL'')
  exact ⟨L, L', c, hreach, hnr, hL', of_decide_eq_true heval, hslots, hself _ rfl⟩

/-- After a walk with the long debt first, the user is freed and its slot keeps a link to it, while
the bucket before it leads to the stack of the walk. -/
theorem freed_user_linked :
    ∃ L L', Reachable (fun _ _ _ => True) (initSched tinyConfig 0) L
      ∧ (∀ f ∈ L.s.q.flows, f.user = 1 → ∀ d, L.s.q.packets f d = []) ∧ onUserFree L 1 = .ok L'
      ∧ L'.mem.prev (.slot 1) = .tc (.user ⟨1, 0, 0⟩)
      ∧ L'.mem.next (.tc (.bucket 0 0)) = .work
      ∧ ∀ l : List TcId, ¬ Ring L'.mem (.slot 1) (l.map .tc) := by
  have heval : ((play false (initSched tinyConfig 0) twoDebts).toOption.any fun L =>
      decide (∀ f ∈ L.s.q.flows, f.user = 1 → ∀ d, L.s.q.packets f d = []) &&
        (onUserFree L 1).toOption.any fun L' =>
          decide (L'.mem.prev (.slot 1) = .tc (.user ⟨1, 0, 0⟩)
            ∧ L'.mem.next (.tc (.bucket 0 0)) = .work
            ∧ L'.mem.next (.tc (.user ⟨1, 0, 0⟩)) = .tc (.user ⟨1, 0, 0⟩))) = true := by
    decide +kernel
  obtain ⟨L, hL, heval⟩ := ok_of_any heval
  obtain ⟨hidle, heval⟩ := (Bool.and_eq_true _ _).mp heval
  obtain ⟨L', hL', heval⟩ := ok_of_any heval
  obtain ⟨hprev, hnext, hself⟩ := of_decide_eq_true heval
  refine ⟨L, L', reachable_play (fun _ _ _ => trivial) .init hL, of_decide_eq_true hidle, hL', hprev,
    hnext, fun l hr => ?_⟩
  have hm := (hr.closed List.mem_cons_self).2
  rw [hprev] at hm
  exact hr.next_ne_self (List.mem_map_of_mem (mem_of_tc_mem (by simp) hm)) hself

end Tbq.Linked
