/-
# The slots of the timer

The lists of `tbq_timer` in `drivers/tbq/src/tbq_core.c`: 256 slots, each the head of a circular
list of token controls, and the list `work_list` on the stack of `tbq_timer_feed`, which takes
over the entries of the slot that is walked.

`Threaded m on expiry c l` says that the links are those of a timer on which the token controls
`on` are, with their expiry in `expiry`: the slot `k` lists `c k`, and the token controls `l` are in no
slot.  Below is what each operation on the lists does to it.
-/
import OpenwrtAc.KernelList
import OpenwrtAc.TbqTypes

open KernelList

namespace Tbq

/-- The list heads and list nodes of the wheel. -/
inductive Node
  | slot (k : Fin 256)
  | tc (X : TcId)
  | work
  deriving DecidableEq, Repr

/-- `jiffies & TBQ_TIMER_VEC_MASK`. -/
def slotOf (j : ℕ) : Fin 256 := ⟨j % 256, Nat.mod_lt j (by decide)⟩

/-- The token controls `on` are on the timer, each linked once, in the slot of its expiry, but for
those in `l`; what is off the timer is linked to itself. -/
structure Threaded (m : Mem Node) (on : TcId → Prop) (expiry : TcId → ℕ)
    (c : Fin 256 → List TcId) (l : List TcId) : Prop where
  ring : ∀ k, Ring m (.slot k) ((c k).map .tc)
  mem : ∀ k X, X ∈ c k ↔ on X ∧ X ∉ l ∧ slotOf (expiry X) = k
  rest : ∀ X ∈ l, on X
  off : ∀ X, ¬ on X → m.next (.tc X) = .tc X

/-- A list of token controls in memory holds each one once. -/
theorem nodup_of_ring {m : Mem Node} {h : Node} {l : List TcId} (hr : Ring m h (l.map .tc)) :
    l.Nodup :=
  List.Nodup.of_map _ (List.nodup_cons.mp hr.nodup).2

theorem work_not_mem_slot (k : Fin 256) (l : List TcId) : Node.work ∉ Node.slot k :: l.map .tc := by
  intro hm
  rcases List.mem_cons.mp hm with e | hm
  · cases e
  · obtain ⟨_, _, e⟩ := List.mem_map.mp hm
    cases e

/-- A token control is in a list where it is among its nodes. -/
theorem mem_of_tc_mem {h : Node} {l : List TcId} {X : TcId} (hh : h ≠ .tc X)
    (hm : Node.tc X ∈ h :: l.map Node.tc) : X ∈ l := by
  rcases List.mem_cons.mp hm with e | hm
  · exact absurd e.symm hh
  · obtain ⟨Y, hY, e⟩ := List.mem_map.mp hm
    cases e
    exact hY

namespace Threaded

variable {m : Mem Node} {on : TcId → Prop} {expiry : TcId → ℕ} {c : Fin 256 → List TcId}
  {l : List TcId} {X : TcId}

/-- What is on the timer and when it expires is all that counts. -/
theorem congr (h : Threaded m on expiry c l) {on' : TcId → Prop} {expiry' : TcId → ℕ}
    (hon : ∀ X, on' X ↔ on X) (hexp : ∀ X, on X → expiry' X = expiry X) :
    Threaded m on' expiry' c l := by
  refine ⟨h.ring, fun k X => ?_, fun X hX => (hon X).mpr (h.rest X hX),
    fun X hX => h.off X (mt (hon X).mpr hX)⟩
  rw [h.mem, hon]
  constructor
  · rintro ⟨h₁, h₂, h₃⟩
    exact ⟨h₁, h₂, by rw [hexp X h₁, h₃]⟩
  · rintro ⟨h₁, h₂, h₃⟩
    exact ⟨h₁, h₂, by rw [← hexp X h₁, h₃]⟩

/-- The nodes of a slot and the token controls outside. -/
theorem not_mem_ring (h : Threaded m on expiry c l) (hX : ¬ on X ∨ X ∈ l) (k : Fin 256) :
    Node.tc X ∉ Node.slot k :: (c k).map .tc := by
  intro hm
  obtain ⟨h₁, h₂, -⟩ := (h.mem k X).mp (mem_of_tc_mem (by simp) hm)
  rcases hX with hX | hX
  · exact hX h₁
  · exact h₂ hX

/-- The lists of two slots have no node in common. -/
theorem disjoint (h : Threaded m on expiry c l) {k k' : Fin 256} (hk : k ≠ k') :
    List.Disjoint (Node.slot k :: (c k).map Node.tc) (Node.slot k' :: (c k').map Node.tc) := by
  intro y hy hy'
  cases y with
  | work => exact work_not_mem_slot k _ hy
  | slot j =>
      have hj : ∀ {k : Fin 256} {l : List TcId}, Node.slot j ∈ Node.slot k :: l.map Node.tc →
          j = k := by
        intro k l hm
        rcases List.mem_cons.mp hm with e | hm
        · exact Node.slot.inj e
        · obtain ⟨_, _, e⟩ := List.mem_map.mp hm
          cases e
      exact hk ((hj hy).symm.trans (hj hy'))
  | tc X =>
      have h₁ := (h.mem k X).mp (mem_of_tc_mem (by simp) hy)
      have h₂ := (h.mem k' X).mp (mem_of_tc_mem (by simp) hy')
      exact hk (h₁.2.2.symm.trans h₂.2.2)

/-- `work_list` and a slot have no node in common. -/
theorem disjoint_work (h : Threaded m on expiry c l) (k : Fin 256) :
    List.Disjoint (Node.slot k :: (c k).map Node.tc) (Node.work :: l.map Node.tc) := by
  intro y hy hy'
  rcases List.mem_cons.mp hy' with rfl | hm
  · exact work_not_mem_slot k _ hy
  · obtain ⟨X, hX, rfl⟩ := List.mem_map.mp hm
    exact h.not_mem_ring (.inr hX) k hy

/-- What is in a slot is linked. -/
theorem linked (h : Threaded m on expiry c l) (hX : on X) (hl : X ∉ l) :
    m.next (.tc X) ≠ .tc X := by
  have hm := (h.mem (slotOf (expiry X)) X).mpr ⟨hX, hl, rfl⟩
  exact (h.ring _).next_ne_self (List.mem_map_of_mem hm)

/-- While `work_list` holds the entries outside the slots, `list_empty` tells what is off the
timer. -/
theorem self_iff (h : Threaded m on expiry c l)
    (hw : l ≠ [] → Ring m .work (l.map .tc)) (X : TcId) :
    m.next (.tc X) = .tc X ↔ ¬ on X := by
  constructor
  · intro hself hX
    by_cases hl : X ∈ l
    · have hr := hw fun e => by
        rw [e] at hl
        cases hl
      exact hr.next_ne_self (List.mem_map_of_mem hl) hself
    · exact h.linked hX hl hself
  · exact h.off X

/-! ## Putting on the timer -/

/-- A token control outside the slots is added to one of them. -/
theorem ring_addTail (h : Threaded m on expiry c l) (hX : ¬ on X ∨ X ∈ l) (k k' : Fin 256) :
    Ring (m.listAddTail (.tc X) (.slot k)) (.slot k')
      ((Function.update c k (c k ++ [X]) k').map .tc) := by
  by_cases hk : k' = k
  · subst hk
    rw [Function.update_self, List.map_append]
    exact (h.ring k').addTail (h.not_mem_ring hX k')
  · rw [Function.update_of_ne hk]
    exact (h.ring k).addTail_other (h.ring k') (h.not_mem_ring hX k')
      (h.disjoint fun e => hk e.symm)

/-- The links of another token control outside the slots are not written. -/
theorem next_addTail (h : Threaded m on expiry c l) (k : Fin 256) {Y : TcId}
    (hY : ¬ on Y ∨ Y ∈ l) (hne : Y ≠ X) :
    (m.listAddTail (.tc X) (.slot k)).next (.tc Y) = m.next (.tc Y) := by
  have hprev : Node.tc Y ≠ m.prev (.slot k) := by
    intro e
    have hm := ((h.ring k).closed List.mem_cons_self).2
    rw [← e] at hm
    exact h.not_mem_ring hY k hm
  rw [Mem.next_listAddTail, if_neg hprev, if_neg fun e => hne (Node.tc.inj e)]

/-- `tbq_timer_mod`: a token control off the timer joins the slot of its new expiry. -/
theorem add (h : Threaded m on expiry c l) (hX : ¬ on X) (e : ℕ) :
    Threaded (m.listAddTail (.tc X) (.slot (slotOf e))) (fun Y => on Y ∨ Y = X)
      (Function.update expiry X e) (Function.update c (slotOf e) (c (slotOf e) ++ [X])) l := by
  have hXl : X ∉ l := fun hm => hX (h.rest X hm)
  refine ⟨fun k => h.ring_addTail (.inl hX) _ k, fun k Y => ?_, fun Y hY => .inl (h.rest Y hY),
    fun Y hY => ?_⟩
  · by_cases hY : Y = X
    · have hnot : ∀ k, X ∉ c k := fun k hm => hX ((h.mem k X).mp hm).1
      rw [hY, Function.update_self]
      by_cases hk : k = slotOf e
      · subst hk
        simp [hXl]
      · rw [Function.update_of_ne hk]
        simp only [hnot k, false_iff]
        exact fun hc => hk hc.2.2.symm
    · rw [Function.update_of_ne hY]
      by_cases hk : k = slotOf e
      · subst hk
        simp [hY, h.mem]
      · rw [Function.update_of_ne hk]
        simp [hY, h.mem]
  · obtain ⟨hY, hne⟩ := not_or.mp hY
    rw [h.next_addTail _ (.inl hY) hne]
    exact h.off Y hY

/-- `work_list` does not notice what joins a slot. -/
theorem work_add (h : Threaded m on expiry c l) (hX : ¬ on X) (k : Fin 256)
    (hw : Ring m .work (l.map .tc)) :
    Ring (m.listAddTail (.tc X) (.slot k)) .work (l.map .tc) := by
  refine (h.ring k).addTail_other hw (fun hm => ?_) (h.disjoint_work k)
  exact hX (h.rest X (mem_of_tc_mem (by simp) hm))

/-- The entry of the walk goes back to the tail of its slot.  Its links in `work_list` are
left as they are, which does no harm as long as nothing is taken out of that list any more. -/
theorem readd (h : Threaded m on expiry c (X :: l)) (hl : X ∉ l) :
    Threaded (m.listAddTail (.tc X) (.slot (slotOf (expiry X)))) on expiry
      (Function.update c (slotOf (expiry X)) (c (slotOf (expiry X)) ++ [X])) l := by
  have hX : on X := h.rest X List.mem_cons_self
  refine ⟨fun k => h.ring_addTail (.inr List.mem_cons_self) _ k, fun k Y => ?_,
    fun Y hY => h.rest Y (List.mem_cons_of_mem X hY), fun Y hY => ?_⟩
  · by_cases hk : k = slotOf (expiry X)
    · subst hk
      rw [Function.update_self, List.mem_append, List.mem_singleton, h.mem, List.mem_cons, not_or]
      by_cases hYX : Y = X
      · subst hYX
        simp [hX, hl]
      · simp [hYX]
    · rw [Function.update_of_ne hk, h.mem, List.mem_cons, not_or]
      refine ⟨fun ⟨h₁, h₂, h₃⟩ => ⟨h₁, h₂.2, h₃⟩, fun ⟨h₁, h₂, h₃⟩ => ⟨h₁, ⟨?_, h₂⟩, h₃⟩⟩
      rintro rfl
      exact hk h₃.symm
  · rw [h.next_addTail _ (.inl hY) fun e => hY (e ▸ hX)]
    exact h.off Y hY

/-- `INIT_LIST_HEAD` of a token control off the timer. -/
theorem initListHead (h : Threaded m on expiry c l) (hX : ¬ on X) :
    Threaded (m.initListHead (.tc X)) on expiry c l := by
  refine ⟨fun k => (h.ring k).congr fun y hy => ?_, h.mem, h.rest, fun Y hY => ?_⟩
  · have hne : y ≠ .tc X := fun e => h.not_mem_ring (.inl hX) k (e ▸ hy)
    simp [Mem.initListHead, Mem.setNext, Mem.setPrev, hne]
  · by_cases hYX : Y = X
    · simp [Mem.initListHead, Mem.setNext, Mem.setPrev, hYX]
    · simp [Mem.initListHead, Mem.setNext, Mem.setPrev, hYX, h.off Y hY]

/-! ## Taking off the timer -/

/-- Taking `X` out of a list does not write the links of what is off the timer. -/
theorem off_delInit (h : Threaded m on expiry c l) {hd : Node} {ns : List TcId}
    (hr : Ring m hd (ns.map .tc)) (hhd : ∀ Y, hd ≠ .tc Y) (hX : X ∈ ns) (hns : ∀ Y ∈ ns, on Y)
    {Y : TcId} (hY : ¬ (on Y ∧ Y ≠ X)) : (m.listDelInit (.tc X)).next (.tc Y) = .tc Y := by
  rw [Mem.next_listDelInit]
  by_cases hne : Y = X
  · rw [hne, if_pos rfl]
  · have hY' : ¬ on Y := fun hon => hY ⟨hon, hne⟩
    have hprev : Node.tc Y ≠ m.prev (.tc X) := by
      intro e
      have hc := (hr.closed (List.mem_cons_of_mem _ (List.mem_map_of_mem hX))).2
      rw [← e] at hc
      exact hY' (hns Y (mem_of_tc_mem (hhd Y) hc))
    rw [if_neg fun e => hne (Node.tc.inj e), if_neg hprev]
    exact h.off Y hY'

/-- `tbq_timer_del` of a token control in its slot. -/
theorem del (h : Threaded m on expiry c l) (hX : on X) (hl : X ∉ l) :
    Threaded (m.listDelInit (.tc X)) (fun Y => on Y ∧ Y ≠ X) expiry (fun k => (c k).erase X) l := by
  have hm : X ∈ c (slotOf (expiry X)) := (h.mem _ X).mpr ⟨hX, hl, rfl⟩
  have hring := h.ring (slotOf (expiry X))
  refine ⟨fun k => ?_, fun k Y => ?_, fun Y hY => ⟨h.rest Y hY, fun e => hl (e ▸ hY)⟩,
    fun Y hY => h.off_delInit hring (by simp) hm (fun Z hZ => ((h.mem _ Z).mp hZ).1) hY⟩
  · by_cases hk : k = slotOf (expiry X)
    · subst hk
      obtain ⟨l₁, l₂, hsplit⟩ := List.append_of_mem hm
      have hnodup := nodup_of_ring hring
      rw [hsplit] at hring hnodup ⊢
      have hX₁ : X ∉ l₁ := fun hm => (List.nodup_append.mp hnodup).2.2 X hm X List.mem_cons_self rfl
      rw [List.erase_append_right _ hX₁, List.erase_cons_head, List.map_append]
      rw [List.map_append, List.map_cons] at hring
      exact hring.delInit
    · have hXk : X ∉ c k := fun hc => hk ((h.mem k X).mp hc).2.2.symm
      rw [List.erase_of_not_mem hXk]
      exact hring.delInit_other (List.mem_map_of_mem hm) (h.ring k) (h.disjoint fun e => hk e.symm)
  · rw [(nodup_of_ring (h.ring k)).mem_erase_iff, h.mem]
    constructor
    · rintro ⟨h₁, h₂, h₃⟩
      exact ⟨⟨h₂, h₁⟩, h₃⟩
    · rintro ⟨⟨h₂, h₁⟩, h₃⟩
      exact ⟨h₁, h₂, h₃⟩

/-- `tbq_timer_del` of the first entry of `work_list`. -/
theorem delWork (h : Threaded m on expiry c (X :: l)) (hw : Ring m .work ((X :: l).map .tc)) :
    Threaded (m.listDelInit (.tc X)) (fun Y => on Y ∧ Y ≠ X) expiry c l
      ∧ Ring (m.listDelInit (.tc X)) .work (l.map .tc) := by
  have hXl : X ∉ l := (List.nodup_cons.mp (nodup_of_ring hw)).1
  have hw' : Ring m .work ([] ++ Node.tc X :: l.map .tc) := hw
  refine ⟨⟨fun k => ?_, fun k Y => ?_, fun Y hY => ⟨h.rest Y (List.mem_cons_of_mem X hY), ?_⟩,
    fun Y hY => h.off_delInit hw (by simp) List.mem_cons_self h.rest hY⟩, hw'.delInit⟩
  · exact hw.delInit_other List.mem_cons_self (h.ring k)
      (List.disjoint_comm.mp (h.disjoint_work k))
  · rw [h.mem, List.mem_cons, not_or]
    constructor
    · rintro ⟨h₁, ⟨h₂, h₃⟩, h₄⟩
      exact ⟨⟨h₁, h₂⟩, h₃, h₄⟩
    · rintro ⟨⟨h₁, h₂⟩, h₃, h₄⟩
      exact ⟨h₁, ⟨h₂, h₃⟩, h₄⟩
  · rintro rfl
    exact hXl hY

/-! ## The walk -/

/-- `work_list` takes over the entries of a slot. -/
theorem take (h : Threaded m on expiry c []) {k : Fin 256} (hk : c k ≠ []) :
    Threaded (m.listReplaceInit (.slot k) .work) on expiry (Function.update c k []) (c k)
      ∧ Ring (m.listReplaceInit (.slot k) .work) .work ((c k).map .tc) := by
  have hring := h.ring k
  have hnil : (c k).map Node.tc ≠ [] := mt List.map_eq_nil_iff.mp hk
  obtain ⟨hwork, hslot⟩ := hring.replaceInit hnil (work_not_mem_slot k (c k))
  have hmem : ∀ X, X ∈ c k ↔ on X ∧ slotOf (expiry X) = k := fun X => by simp [h.mem]
  refine ⟨⟨fun k' => ?_, fun k' X => ?_, fun X hX => ((hmem X).mp hX).1, fun X hX => ?_⟩, hwork⟩
  · by_cases hk' : k' = k
    · subst hk'
      rw [Function.update_self]
      exact hslot
    · rw [Function.update_of_ne hk']
      exact hring.replaceInit_other hnil (h.ring k') (work_not_mem_slot k' _)
        (h.disjoint fun e => hk' e.symm)
  · by_cases hk' : k' = k
    · rw [hk', Function.update_self, hmem X]
      simp only [List.not_mem_nil, false_iff]
      exact fun hc => hc.2.1 ⟨hc.1, hc.2.2⟩
    · rw [Function.update_of_ne hk', h.mem, hmem X]
      refine ⟨fun hc => ⟨hc.1, fun hc' => hk' (hc.2.2.symm.trans hc'.2), hc.2.2⟩,
        fun hc => ⟨hc.1, by simp, hc.2.2⟩⟩
  · have hne : Node.tc X ≠ m.prev (.slot k) := by
      intro e
      have hc := (hring.closed List.mem_cons_self).2
      rw [← e] at hc
      exact h.not_mem_ring (.inl hX) k hc
    have hoff := h.off X hX
    have hnk : m.next (.slot k) ≠ .slot k := fun e => hnil (hring.next_eq_head_iff.mp e)
    simp [Mem.listReplaceInit, Mem.initListHead, Mem.setNext, Mem.setPrev, hne, hnk.symm, hoff]

end Threaded

/-- Where the walk over `l` stands. -/
def firstNode : List TcId → Node
  | [] => .work
  | X :: _ => .tc X

/-- The forward links of the entries of `l` lead through them to `work_list`. -/
def Forward (m : Mem Node) : List TcId → Prop
  | [] => True
  | X :: l => m.next (.tc X) = firstNode l ∧ Forward m l

theorem Forward.congr {m m' : Mem Node} {l : List TcId} (h : Forward m l)
    (heq : ∀ X ∈ l, m'.next (.tc X) = m.next (.tc X)) : Forward m' l := by
  induction l with
  | nil => trivial
  | cons X l ih =>
      obtain ⟨h₁, h₂⟩ := h
      refine ⟨by rw [heq X List.mem_cons_self, h₁], ih h₂ fun Y hY => heq Y ?_⟩
      exact List.mem_cons_of_mem X hY

theorem forward_of_seg {m : Mem Node} {a : Node} {l : List TcId}
    (h : Seg m a (l.map .tc) .work) : m.next a = firstNode l ∧ Forward m l := by
  induction l generalizing a with
  | nil => exact ⟨h.1, trivial⟩
  | cons X l ih =>
      obtain ⟨h₁, -, h₃⟩ := h
      obtain ⟨h₄, h₅⟩ := ih h₃
      exact ⟨h₁, h₄, h₅⟩

/-- The entries that are left of a walk stay linked when the first one goes back to its slot. -/
theorem Threaded.forward_readd {m : Mem Node} {on : TcId → Prop} {expiry : TcId → ℕ}
    {c : Fin 256 → List TcId} {X : TcId} {l : List TcId} (h : Threaded m on expiry c (X :: l))
    (hl : X ∉ l) (k : Fin 256) (hf : Forward m l) :
    Forward (m.listAddTail (.tc X) (.slot k)) l := by
  refine hf.congr fun Y hY => h.next_addTail k (.inr (List.mem_cons_of_mem X hY)) ?_
  rintro rfl
  exact hl hY

end Tbq
