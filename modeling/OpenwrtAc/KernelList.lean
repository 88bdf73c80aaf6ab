/-
# Circular doubly linked lists

The intrusive lists of the kernel's `list.h` over an arbitrary type of nodes: a memory
holds the two links of every node, the head of a list is a node like the others, and an
empty list is a head linked to itself.  The operations write the links one after the
other, whether or not the nodes they are given are in the lists they are taken for.

`Ring m h l` says that the list with the head `h` holds the nodes `l` in this order.  Each
operation has a lemma about the list it works on, and a lemma that the lists it does not
touch stay as they are.
-/
import Mathlib.Data.List.Nodup
import Mathlib.Logic.Function.Basic
import Mathlib.Tactic.Common

namespace KernelList

variable {N : Type*} [DecidableEq N]

/-- The links of all nodes. -/
@[ext]
structure Mem (N : Type*) where
  next : N → N
  prev : N → N

namespace Mem

/-- `x->next = y`. -/
def setNext (m : Mem N) (x y : N) : Mem N := { m with next := Function.update m.next x y }

/-- `x->prev = y`. -/
def setPrev (m : Mem N) (x y : N) : Mem N := { m with prev := Function.update m.prev x y }

/-- `INIT_LIST_HEAD`. -/
def initListHead (m : Mem N) (x : N) : Mem N := (m.setNext x x).setPrev x x

/-- `list_empty`. -/
def listEmpty (m : Mem N) (x : N) : Bool := decide (m.next x = x)

/-- `list_add_tail`. -/
def listAddTail (m : Mem N) (x h : N) : Mem N :=
  let prev := m.prev h
  (((m.setPrev h x).setNext x h).setPrev x prev).setNext prev x

/-- `list_del_init`. -/
def listDelInit (m : Mem N) (x : N) : Mem N :=
  let prev := m.prev x
  let next := m.next x
  ((m.setPrev next prev).setNext prev next).initListHead x

/-- `list_replace_init`. -/
def listReplaceInit (m : Mem N) (old new : N) : Mem N :=
  let m := m.setNext new (m.next old)
  let m := m.setPrev (m.next new) new
  let m := m.setPrev new (m.prev old)
  let m := m.setNext (m.prev new) new
  m.initListHead old

/-! What each operation writes. -/

theorem next_listAddTail (m : Mem N) (x h y : N) :
    (m.listAddTail x h).next y = if y = m.prev h then x else if y = x then h else m.next y := by
  simp [listAddTail, setNext, setPrev, Function.update_apply]

theorem prev_listAddTail (m : Mem N) (x h y : N) :
    (m.listAddTail x h).prev y = if y = x then m.prev h else if y = h then x else m.prev y := by
  simp [listAddTail, setNext, setPrev, Function.update_apply]

theorem next_listDelInit (m : Mem N) (x y : N) :
    (m.listDelInit x).next y = if y = x then x else if y = m.prev x then m.next x else m.next y := by
  simp [listDelInit, initListHead, setNext, setPrev, Function.update_apply]

theorem prev_listDelInit (m : Mem N) (x y : N) :
    (m.listDelInit x).prev y = if y = x then x else if y = m.next x then m.prev x else m.prev y := by
  simp [listDelInit, initListHead, setNext, setPrev, Function.update_apply]

end Mem

/-! ## Segments -/

/-- From the node `a` the links lead through the nodes of `l` to the node `b`, and back. -/
def Seg (m : Mem N) : N → List N → N → Prop
  | a, [], b => m.next a = b ∧ m.prev b = a
  | a, x :: l, b => m.next a = x ∧ m.prev x = a ∧ Seg m x l b

omit [DecidableEq N] in
theorem seg_append {m : Mem N} {a x b : N} {l l' : List N} :
    Seg m a (l ++ x :: l') b ↔ Seg m a l x ∧ Seg m x l' b := by
  induction l generalizing a with
  | nil =>
      constructor
      · rintro ⟨h₁, h₂, h₃⟩
        exact ⟨⟨h₁, h₂⟩, h₃⟩
      · rintro ⟨⟨h₁, h₂⟩, h₃⟩
        exact ⟨h₁, h₂, h₃⟩
  | cons y l ih =>
      rw [List.cons_append, Seg, Seg, ih]
      constructor
      · rintro ⟨h₁, h₂, h₃, h₄⟩
        exact ⟨⟨h₁, h₂, h₃⟩, h₄⟩
      · rintro ⟨⟨h₁, h₂, h₃⟩, h₄⟩
        exact ⟨h₁, h₂, h₃, h₄⟩

omit [DecidableEq N] in
/-- A segment depends on the forward links of all its nodes but the last and on the backward
links of all but the first. -/
theorem Seg.congr {m m' : Mem N} {a b : N} {l : List N} (h : Seg m a l b)
    (hnext : ∀ x ∈ a :: l, m'.next x = m.next x) (hprev : ∀ x ∈ l ++ [b], m'.prev x = m.prev x) :
    Seg m' a l b := by
  induction l generalizing a with
  | nil =>
      obtain ⟨h₁, h₂⟩ := h
      exact ⟨by rw [hnext a List.mem_cons_self, h₁], by rw [hprev b (by simp), h₂]⟩
  | cons y l ih =>
      obtain ⟨h₁, h₂, h₃⟩ := h
      refine ⟨by rw [hnext a List.mem_cons_self, h₁], by rw [hprev y (by simp), h₂], ih h₃ ?_ ?_⟩
      · intro x hx
        exact hnext x (List.mem_cons_of_mem a hx)
      · intro x hx
        exact hprev x (List.mem_cons_of_mem y hx)

omit [DecidableEq N] in
/-- The last node before the end of a segment. -/
theorem Seg.prev_mem {m : Mem N} {a x : N} {l : List N} (h : Seg m a l x) : m.prev x ∈ a :: l := by
  induction l generalizing a with
  | nil =>
      rw [h.2]
      exact List.mem_cons_self
  | cons y l ih => exact List.mem_cons_of_mem a (ih h.2.2)

omit [DecidableEq N] in
/-- The last link of a segment is led to another node. -/
theorem Seg.retarget {m m' : Mem N} {a x b : N} {l : List N} (h : Seg m a l x) (hn : (a :: l).Nodup)
    (hnext : ∀ y ∈ a :: l, y ≠ m.prev x → m'.next y = m.next y)
    (hprev : ∀ y ∈ l, m'.prev y = m.prev y) (h₁ : m'.next (m.prev x) = b)
    (h₂ : m'.prev b = m.prev x) : Seg m' a l b := by
  induction l generalizing a with
  | nil =>
      rw [h.2] at h₁ h₂
      exact ⟨h₁, h₂⟩
  | cons y l ih =>
      obtain ⟨ha, hn'⟩ := List.nodup_cons.mp hn
      have hax : a ≠ m.prev x := fun e => ha (e ▸ h.2.2.prev_mem)
      refine ⟨?_, ?_, ih h.2.2 hn' (fun z hz => hnext z (List.mem_cons_of_mem a hz))
        fun z hz => hprev z (List.mem_cons_of_mem y hz)⟩
      · rw [hnext a List.mem_cons_self hax, h.1]
      · rw [hprev y List.mem_cons_self, h.2.1]

/-! ## Rings -/

/-- The list with the head `h` holds the nodes `l`. -/
structure Ring (m : Mem N) (h : N) (l : List N) : Prop where
  nodup : (h :: l).Nodup
  seg : Seg m h l h

namespace Ring

variable {m m' : Mem N} {h x : N} {l : List N}

omit [DecidableEq N] in
/-- The list only depends on the links of its own nodes. -/
theorem congr (hr : Ring m h l) (heq : ∀ y ∈ h :: l, m'.next y = m.next y ∧ m'.prev y = m.prev y) :
    Ring m' h l := by
  refine ⟨hr.nodup, hr.seg.congr (fun y hy => (heq y hy).1) fun y hy => (heq y ?_).2⟩
  rcases List.mem_append.mp hy with hy | hy
  · exact List.mem_cons_of_mem h hy
  · rw [List.mem_singleton.mp hy]
    exact List.mem_cons_self

omit [DecidableEq N] in
theorem nil_iff : Ring m h [] ↔ m.next h = h ∧ m.prev h = h :=
  ⟨fun hr => hr.seg, fun hs => ⟨List.nodup_singleton h, hs⟩⟩

omit [DecidableEq N] in
/-- A list is empty when its head is linked to itself. -/
theorem next_eq_head_iff (hr : Ring m h l) : m.next h = h ↔ l = [] := by
  cases l with
  | nil => exact ⟨fun _ => rfl, fun _ => hr.seg.1⟩
  | cons y l =>
      have hy : y ≠ h := fun e => (List.nodup_cons.mp hr.nodup).1 (e ▸ List.mem_cons_self)
      rw [hr.seg.1]
      exact ⟨fun e => absurd e hy, fun e => by cases e⟩

omit [DecidableEq N] in
/-- A node of a list is not linked to itself. -/
theorem next_ne_self (hr : Ring m h l) (hx : x ∈ l) : m.next x ≠ x := by
  obtain ⟨l₁, l₂, rfl⟩ := List.append_of_mem hx
  obtain ⟨-, hseg⟩ := seg_append.mp hr.seg
  have hn := (List.nodup_cons.mp hr.nodup).2
  rw [List.nodup_append, List.nodup_cons] at hn
  intro hself
  cases l₂ with
  | nil =>
      have : x = h := hself.symm.trans hseg.1
      exact (List.nodup_cons.mp hr.nodup).1 (by rw [← this]; simp)
  | cons y l₂ =>
      have : x = y := hself.symm.trans hseg.1
      exact hn.2.1.1 (by rw [this]; exact List.mem_cons_self)

omit [DecidableEq N] in
/-- The neighbours of the nodes of a list are in the list. -/
theorem closed (hr : Ring m h l) {y : N} (hy : y ∈ h :: l) :
    m.next y ∈ h :: l ∧ m.prev y ∈ h :: l := by
  have hseg : ∀ (l : List N) (a b : N), Seg m a l b →
      (∀ y ∈ a :: l, m.next y ∈ l ++ [b]) ∧ (∀ y ∈ l ++ [b], m.prev y ∈ a :: l) := by
    intro l
    induction l with
    | nil =>
        rintro a b ⟨h₁, h₂⟩
        simp [h₁, h₂]
    | cons c l ih =>
        rintro a b ⟨h₁, h₂, h₃⟩
        obtain ⟨i₁, i₂⟩ := ih c b h₃
        refine ⟨fun y hy => ?_, fun y hy => ?_⟩
        · rcases List.mem_cons.mp hy with rfl | hy
          · rw [h₁]
            exact List.mem_cons_self
          · exact List.mem_cons_of_mem c (i₁ y hy)
        · rcases List.mem_cons.mp hy with rfl | hy
          · rw [h₂]
            exact List.mem_cons_self
          · exact List.mem_cons_of_mem a (i₂ y hy)
  obtain ⟨h₁, h₂⟩ := hseg l h h hr.seg
  have hmem : ∀ z, z ∈ l ++ [h] ↔ z ∈ h :: l := by
    intro z
    simp [or_comm]
  exact ⟨(hmem _).mp (h₁ y hy), h₂ y ((hmem y).mpr hy)⟩

omit [DecidableEq N] in
/-- The memory determines what a list holds. -/
theorem unique {l' : List N} (hr : Ring m h l) (hr' : Ring m h l') : l = l' := by
  have hseg : ∀ (l l' : List N) (a : N), h ∉ l → h ∉ l' → Seg m a l h → Seg m a l' h → l = l' := by
    intro l
    induction l with
    | nil =>
        intro l' a _ hl' hs hs'
        cases l' with
        | nil => rfl
        | cons y l' => exact absurd (hs.1.symm.trans hs'.1 ▸ List.mem_cons_self) hl'
    | cons x l ih =>
        intro l' a hl hl' hs hs'
        cases l' with
        | nil => exact absurd (hs'.1.symm.trans hs.1 ▸ List.mem_cons_self) hl
        | cons y l' =>
            obtain rfl : x = y := hs.1.symm.trans hs'.1
            rw [ih l' x (fun hm => hl (List.mem_cons_of_mem x hm))
              (fun hm => hl' (List.mem_cons_of_mem x hm)) hs.2.2 hs'.2.2]
  exact hseg l l' h (List.nodup_cons.mp hr.nodup).1 (List.nodup_cons.mp hr'.nodup).1 hr.seg hr'.seg

/-! ## The operations on rings -/

/-- A node that is in no way part of the list is added at its tail. -/
theorem addTail (hr : Ring m h l) (hx : x ∉ h :: l) : Ring (m.listAddTail x h) h (l ++ [x]) := by
  have hxh : x ≠ h := fun e => hx (e ▸ List.mem_cons_self)
  have hlast : m.prev h ∈ h :: l := hr.seg.prev_mem
  have hxt : x ≠ m.prev h := fun e => hx (e ▸ hlast)
  have hne : ∀ y ∈ h :: l, y ≠ x := fun y hy e => hx (e ▸ hy)
  refine ⟨?_, seg_append.mpr ⟨hr.seg.retarget hr.nodup (fun y hy hyt => ?_) (fun y hy => ?_) ?_ ?_,
    ?_, ?_⟩⟩
  · rw [← List.cons_append]
    refine hr.nodup.append (List.nodup_singleton x) fun y hy hyx => ?_
    exact hne y hy (List.mem_singleton.mp hyx)
  · rw [Mem.next_listAddTail, if_neg hyt, if_neg (hne y hy)]
  · have hyh : y ≠ h := fun e => (List.nodup_cons.mp hr.nodup).1 (e ▸ hy)
    rw [Mem.prev_listAddTail, if_neg (hne y (List.mem_cons_of_mem h hy)), if_neg hyh]
  · rw [Mem.next_listAddTail, if_pos rfl]
  · rw [Mem.prev_listAddTail, if_pos rfl]
  · rw [Mem.next_listAddTail, if_neg hxt, if_pos rfl]
  · rw [Mem.prev_listAddTail, if_neg hxh.symm, if_pos rfl]

/-- Adding a node to one list leaves the others alone. -/
theorem addTail_other (hr : Ring m h l) {h' : N} {l' : List N} (hr' : Ring m h' l')
    (hx : x ∉ h' :: l') (hd : List.Disjoint (h :: l) (h' :: l')) :
    Ring (m.listAddTail x h) h' l' := by
  refine hr'.congr fun y hy => ?_
  have hyx : y ≠ x := fun e => hx (e ▸ hy)
  have hyh : y ≠ h := fun e => hd List.mem_cons_self (e ▸ hy)
  have hyp : y ≠ m.prev h := fun e => hd (hr.closed List.mem_cons_self).2 (e ▸ hy)
  rw [Mem.next_listAddTail, Mem.prev_listAddTail, if_neg hyp, if_neg hyx, if_neg hyx, if_neg hyh]
  exact ⟨rfl, rfl⟩

/-- A node is taken out of its list. -/
theorem delInit {l₁ l₂ : List N} (hr : Ring m h (l₁ ++ x :: l₂)) :
    Ring (m.listDelInit x) h (l₁ ++ l₂) := by
  have hperm : (h :: (l₁ ++ x :: l₂)).Perm (x :: ((h :: l₁) ++ l₂)) := by
    rw [← List.cons_append]
    exact List.perm_middle
  obtain ⟨hx, hn⟩ := List.nodup_cons.mp (hperm.nodup_iff.mp hr.nodup)
  obtain ⟨hn₁, -, hdisj⟩ := List.nodup_append.mp hn
  have hne : ∀ y ∈ (h :: l₁) ++ l₂, y ≠ x := fun y hy e => hx (e ▸ hy)
  obtain ⟨hseg₁, hseg₂⟩ := seg_append.mp hr.seg
  have hlast : m.prev x ∈ h :: l₁ := hseg₁.prev_mem
  -- what the operation writes, away from the node itself
  have hnext : ∀ y ∈ (h :: l₁) ++ l₂, y ≠ m.prev x → (m.listDelInit x).next y = m.next y := by
    intro y hy hyp
    rw [Mem.next_listDelInit, if_neg (hne y hy), if_neg hyp]
  have hprev : ∀ y ∈ (h :: l₁) ++ l₂, y ≠ m.next x → (m.listDelInit x).prev y = m.prev y := by
    intro y hy hyn
    rw [Mem.prev_listDelInit, if_neg (hne y hy), if_neg hyn]
  have hsucc : (m.listDelInit x).next (m.prev x) = m.next x := by
    rw [Mem.next_listDelInit, if_neg (hne _ (List.mem_append_left _ hlast)), if_pos rfl]
  have hpred : (m.listDelInit x).prev (m.next x) = m.prev x := by
    rw [Mem.prev_listDelInit, if_neg (hr.next_ne_self (by simp)), if_pos rfl]
  have hfirst : m.next x ∉ l₁ → Seg (m.listDelInit x) h l₁ (m.next x) := fun hb =>
    hseg₁.retarget hn₁ (fun y hy hyp => hnext y (List.mem_append_left _ hy) hyp)
      (fun y hy => hprev y (List.mem_append_left _ (List.mem_cons_of_mem h hy)) fun e => hb (e ▸ hy))
      hsucc hpred
  refine ⟨hn, ?_⟩
  cases l₂ with
  | nil =>
      have hb : m.next x = h := hseg₂.1
      rw [List.append_nil]
      rw [hb] at hfirst
      exact hfirst (List.nodup_cons.mp hn₁).1
  | cons z l₂ =>
      obtain ⟨hb, -, hseg₃⟩ := hseg₂
      rw [hb] at hfirst hprev
      have hz : z ∉ l₂ := (List.nodup_cons.mp (List.nodup_append.mp hn).2.1).1
      have hzh : ∀ y ∈ h :: l₁, y ≠ z := fun y hy => hdisj y hy z List.mem_cons_self
      refine seg_append.mpr ⟨hfirst fun hm => hzh z (List.mem_cons_of_mem h hm) rfl,
        hseg₃.congr (fun y hy => hnext y (List.mem_append_right _ hy) ?_) fun y hy => ?_⟩
      · rintro rfl
        exact hdisj _ hlast _ hy rfl
      · rcases List.mem_append.mp hy with hy | hy
        · exact hprev y (List.mem_append_right _ (List.mem_cons_of_mem z hy)) fun e => hz (e ▸ hy)
        · rw [List.mem_singleton.mp hy]
          exact hprev h (by simp) (hzh h List.mem_cons_self)

/-- Taking a node out of one list leaves the others alone. -/
theorem delInit_other (hr : Ring m h l) (hx : x ∈ l) {h' : N} {l' : List N} (hr' : Ring m h' l')
    (hd : List.Disjoint (h :: l) (h' :: l')) : Ring (m.listDelInit x) h' l' := by
  obtain ⟨hnext, hprev⟩ := hr.closed (List.mem_cons_of_mem h hx)
  refine hr'.congr fun y hy => ?_
  have hyx : y ≠ x := fun e => hd (List.mem_cons_of_mem h hx) (e ▸ hy)
  have hyn : y ≠ m.next x := fun e => hd hnext (e ▸ hy)
  have hyp : y ≠ m.prev x := fun e => hd hprev (e ▸ hy)
  rw [Mem.next_listDelInit, Mem.prev_listDelInit, if_neg hyx, if_neg hyp, if_neg hyx, if_neg hyn]
  exact ⟨rfl, rfl⟩

/-- The nodes of a list get a new head, and the old head is left empty. -/
theorem replaceInit {w : N} (hr : Ring m h l) (hl : l ≠ []) (hw : w ∉ h :: l) :
    Ring (m.listReplaceInit h w) w l ∧ Ring (m.listReplaceInit h w) h [] := by
  obtain ⟨hh, hn⟩ := List.nodup_cons.mp hr.nodup
  have hwh : w ≠ h := fun e => hw (e ▸ List.mem_cons_self)
  have hwl : w ∉ l := fun hm => hw (List.mem_cons_of_mem h hm)
  obtain ⟨a, l', rfl⟩ := List.exists_cons_of_ne_nil hl
  have ha : m.next h = a := hr.seg.1
  have hb : m.prev h ∈ a :: l' := hr.seg.2.2.prev_mem
  have hah : a ≠ h := fun e => hh (e ▸ List.mem_cons_self)
  have haw : a ≠ w := fun e => hwl (e ▸ List.mem_cons_self)
  have hbh : m.prev h ≠ h := fun e => hh (e ▸ hb)
  have hbw : m.prev h ≠ w := fun e => hwl (e ▸ hb)
  have hnext : ∀ y, (m.listReplaceInit h w).next y
      = if y = h then h else if y = m.prev h then w else if y = w then a else m.next y := by
    intro y
    simp [Mem.listReplaceInit, Mem.initListHead, Mem.setNext, Mem.setPrev, Function.update_apply, ha,
      hah.symm]
  have hprev : ∀ y, (m.listReplaceInit h w).prev y
      = if y = h then h else if y = w then m.prev h else if y = a then w else m.prev y := by
    intro y
    simp [Mem.listReplaceInit, Mem.initListHead, Mem.setNext, Mem.setPrev, Function.update_apply, ha,
      hah.symm]
  refine ⟨⟨List.nodup_cons.mpr ⟨hwl, hn⟩, ?_, ?_, ?_⟩, nil_iff.mpr ⟨?_, ?_⟩⟩
  · rw [hnext, if_neg hwh, if_neg hbw.symm, if_pos rfl]
  · rw [hprev, if_neg hah, if_neg haw, if_pos rfl]
  · refine hr.seg.2.2.retarget hn (fun y hy hyb => ?_) (fun y hy => ?_) ?_ ?_
    · have hyh : y ≠ h := fun e => hh (e ▸ hy)
      have hyw : y ≠ w := fun e => hwl (e ▸ hy)
      rw [hnext, if_neg hyh, if_neg hyb, if_neg hyw]
    · have hyh : y ≠ h := fun e => hh (e ▸ List.mem_cons_of_mem a hy)
      have hyw : y ≠ w := fun e => hwl (e ▸ List.mem_cons_of_mem a hy)
      have hya : y ≠ a := fun e => (List.nodup_cons.mp hn).1 (e ▸ hy)
      rw [hprev, if_neg hyh, if_neg hyw, if_neg hya]
    · rw [hnext, if_neg hbh, if_pos rfl]
    · rw [hprev, if_neg hwh, if_pos rfl]
  · rw [hnext, if_pos rfl]
  · rw [hprev, if_pos rfl]

/-- The other lists do not notice the new head. -/
theorem replaceInit_other {w : N} (hr : Ring m h l) (hl : l ≠ []) {h' : N} {l' : List N}
    (hr' : Ring m h' l') (hw : w ∉ h' :: l') (hd : List.Disjoint (h :: l) (h' :: l')) :
    Ring (m.listReplaceInit h w) h' l' := by
  obtain ⟨hnext, hprev⟩ := hr.closed List.mem_cons_self
  have hne : m.next h ≠ h := fun e => hl (hr.next_eq_head_iff.mp e)
  refine hr'.congr fun y hy => ?_
  have hyw : y ≠ w := fun e => hw (e ▸ hy)
  have hyh : y ≠ h := fun e => hd List.mem_cons_self (e ▸ hy)
  have hyn : y ≠ m.next h := fun e => hd hnext (e ▸ hy)
  have hyp : y ≠ m.prev h := fun e => hd hprev (e ▸ hy)
  constructor
  · simp [Mem.listReplaceInit, Mem.initListHead, Mem.setNext, Mem.setPrev, hyw, hyh, hyp, hne.symm]
  · simp [Mem.listReplaceInit, Mem.initListHead, Mem.setNext, Mem.setPrev, hyw, hyh, hyn]

end Ring

end KernelList
