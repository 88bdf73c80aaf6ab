/-
# The priority queue of `heap.lua`

The elements are in a Lua array, so positions count from `1`; the children of `root` are
at `2 * root` and `2 * root + 1`.  `enqueue` appends and sifts up, `dequeue` moves the
last element to the root and sifts down.
-/
import OpenwrtAc.HeapOrder
import Mathlib.Data.List.Perm.Basic
import Mathlib.Data.Nat.Basic

namespace LuaHeap

variable {α : Type*} {n : ℕ}

/-- A position of an array of `n` elements. -/
abbrev Slot (n : ℕ) := {i : ℕ // 1 ≤ i ∧ i ≤ n}

/-- `arr[i]`. -/
def item (arr : Vector α n) (i : Slot n) : α :=
  have := i.2
  arr[i.1 - 1]

/-- `arr[i], arr[j] = arr[j], arr[i]`. -/
def exchange (arr : Vector α n) (i j : Slot n) : Vector α n :=
  have := i.2
  have := j.2
  arr.swap (i.1 - 1) (j.1 - 1)

/-- `(child - child % 2) / 2`. -/
def parent (child : Slot n) (h : 1 < child.1) : Slot n :=
  ⟨(child.1 - child.1 % 2) / 2, by have := child.2; omega⟩

/-- The loop of `enqueue`. -/
def siftUp (cmp : α → α → Bool) (arr : Vector α n) (child : Slot n) : Vector α n :=
  if h : 1 < child.1 then
    if cmp (item arr child) (item arr (parent child h)) then
      siftUp cmp (exchange arr child (parent child h)) (parent child h)
    else
      arr
  else
    arr
termination_by child.1
decreasing_by simp only [parent]; omega

/-- The child of `root` that `dequeue` compares with it, where `2 * root` is in the
array: the right one where it is there and before the left one. -/
def lesserChild (cmp : α → α → Bool) (arr : Vector α n) (root : Slot n)
    (h : 2 * root.1 ≤ n) : Slot n :=
  let child : Slot n := ⟨2 * root.1, by have := root.2; omega⟩
  if hr : child.1 + 1 ≤ n then
    if cmp (item arr ⟨child.1 + 1, by omega⟩) (item arr child) then
      ⟨child.1 + 1, by omega⟩
    else
      child
  else
    child

/-- The lesser child is one of the two. -/
theorem lesserChild_cases (cmp : α → α → Bool) (arr : Vector α n) (root : Slot n)
    (h : 2 * root.1 ≤ n) :
    (lesserChild cmp arr root h).1 = 2 * root.1 ∨
      (lesserChild cmp arr root h).1 = 2 * root.1 + 1 := by
  simp only [lesserChild]
  split_ifs
  · exact .inr rfl
  · exact .inl rfl
  · exact .inl rfl

/-- The loop of `dequeue`. -/
def siftDown (cmp : α → α → Bool) (arr : Vector α n) (root : Slot n) : Vector α n :=
  if h : 2 * root.1 ≤ n then
    let child := lesserChild cmp arr root h
    if cmp (item arr child) (item arr root) then
      siftDown cmp (exchange arr root child) child
    else
      arr
  else
    arr
termination_by n - root.1
decreasing_by
  have := root.2
  have := lesserChild_cases cmp arr root h
  omega

/-- The object that `new` makes. -/
structure Heap (α : Type*) where
  cmp : α → α → Bool
  arr : Array α

namespace Heap

def enqueue (self : Heap α) (v : α) : Heap α :=
  { self with
    arr := (siftUp self.cmp (self.arr.push v).toVector
      ⟨(self.arr.push v).size, by simp⟩).toArray }

/-- `arr[root] = remove(arr)` for `root = 1`. -/
def lastToRoot (arr : Array α) (h : ¬ arr.size < 2) : Array α :=
  arr.pop.set 0 arr[arr.size - 1] (by simp; omega)

/-- The element returned, `nil` where there is none, and the heap left. -/
def dequeue (self : Heap α) : Option α × Heap α :=
  if h : self.arr.size < 2 then
    (self.arr.back?, { self with arr := self.arr.pop })
  else
    let r := self.arr[0]
    let arr := lastToRoot self.arr h
    if hs : 1 < arr.size then
      (some r, { self with arr := (siftDown self.cmp arr.toVector ⟨1, by omega⟩).toArray })
    else
      (some r, { self with arr := arr })

def peek (self : Heap α) : Option α :=
  self.arr[0]?

/-- Without `cmp` the elements are compared by `<`. -/
def new [LT α] [DecidableLT α] (cmp : Option (α → α → Bool)) (init : Option (List α)) :
    Heap α :=
  (init.getD []).foldl enqueue ⟨cmp.getD fun a b => decide (a < b), #[]⟩

end Heap

/-! ## The forest of positions -/

/-- The parent of a position as the library of heap orders asks for it. -/
def parentOf (i : Slot n) : Option (Slot n) :=
  if h : 1 < i.1 then some (parent i h) else none

/-- The parent of a slot stands at half its index. -/
theorem parentOf_eq_some {i p : Slot n} :
    parentOf i = some p ↔ 1 < i.1 ∧ p.1 = i.1 / 2 := by
  have hdiv : (i.1 - i.1 % 2) / 2 = i.1 / 2 := by omega
  unfold parentOf parent
  split_ifs with h
  · rw [Option.some.injEq, Subtype.ext_iff]
    dsimp only
    rw [hdiv]
    exact ⟨fun e => ⟨h, e.symm⟩, fun e => e.2.symm⟩
  · simp [h]

/-- The root alone has no parent. -/
theorem parentOf_eq_none {i : Slot n} : parentOf i = none ↔ i.1 = 1 := by
  have := i.2
  unfold parentOf
  split_ifs with h
  · simp; omega
  · simp; omega

/-- From every slot the parents lead to the root. -/
theorem parentOf_founded : HeapOrder.Founded (parentOf (n := n)) := by
  refine Subrelation.wf (r := InvImage (· < ·) (fun i : Slot n => i.1)) ?_
    (InvImage.wf _ Nat.lt_wfRel.wf)
  intro p i h
  obtain ⟨hi, hp⟩ := parentOf_eq_some.mp h
  show p.1 < i.1
  omega

/-- An exchange swaps two items. -/
theorem item_exchange (arr : Vector α n) (i j : Slot n) :
    item (exchange arr i j) = item arr ∘ Equiv.swap i j := by
  funext k
  have hi := i.2
  have hj := j.2
  have hk := k.2
  have hki : k.1 - 1 = i.1 - 1 ↔ k = i := by rw [Subtype.ext_iff]; omega
  have hkj : k.1 - 1 = j.1 - 1 ↔ k = j := by rw [Subtype.ext_iff]; omega
  simp only [item, exchange, Vector.getElem_swap, Function.comp_apply,
    Equiv.swap_apply_def, hki, hkj]
  split_ifs <;> rfl

/-- An exchange loses nothing. -/
theorem exchange_perm (arr : Vector α n) (i j : Slot n) :
    (exchange arr i j).toList.Perm arr.toList := by
  have hi := i.2
  have hj := j.2
  have hswap : (exchange arr i j).Perm arr := Vector.swap_perm (by omega) (by omega)
  exact hswap.toList

/-! ## The two loops -/

/-- Sifting up loses nothing. -/
theorem siftUp_perm (cmp : α → α → Bool) (arr : Vector α n) (child : Slot n) :
    (siftUp cmp arr child).toList.Perm arr.toList := by
  fun_induction siftUp cmp arr child with
  | case1 arr child h hlt ih => exact ih.trans (exchange_perm _ _ _)
  | case2 arr child h hlt => exact .rfl
  | case3 arr child h => exact .rfl

/-- Sifting down loses nothing. -/
theorem siftDown_perm (cmp : α → α → Bool) (arr : Vector α n) (root : Slot n) :
    (siftDown cmp arr root).toList.Perm arr.toList := by
  fun_induction siftDown cmp arr root with
  | case1 arr root h child hlt ih => exact ih.trans (exchange_perm _ _ _)
  | case2 arr root h child hlt => exact .rfl
  | case3 arr root h => exact .rfl

section Order

variable {cmp : α → α → Bool} [IsStrictWeakOrder α (fun a b => cmp a b = true)]

/-- Sifting up ends in order when only the value that moves may be out of order. -/
theorem siftUp_ordered {arr : Vector α n} {child : Slot n}
    (h : HeapOrder.UpOrder parentOf (fun a b => cmp a b = true) (item arr) child) :
    HeapOrder.Ordered parentOf (fun a b => cmp a b = true) (item (siftUp cmp arr child)) := by
  fun_induction siftUp cmp arr child with
  | case1 arr child hc hlt ih =>
    apply ih
    rw [item_exchange]
    exact h.swap parentOf_founded (dif_pos hc) hlt
  | case2 arr child hc hlt =>
    refine h.ordered fun p hp => ?_
    obtain rfl : parent child hc = p := Option.some.inj ((dif_pos hc).symm.trans hp)
    exact hlt
  | case3 arr child hc =>
    refine h.ordered fun p hp => ?_
    exact absurd (parentOf_eq_some.mp hp).1 hc

omit [IsStrictWeakOrder α (fun a b => cmp a b = true)] in
/-- The lesser child has the slot for its parent. -/
theorem parentOf_lesserChild (arr : Vector α n) (root : Slot n) (h : 2 * root.1 ≤ n) :
    parentOf (lesserChild cmp arr root h) = some root := by
  have := root.2
  rw [parentOf_eq_some]
  rcases lesserChild_cases cmp arr root h with hc | hc <;> omega

/-- No child of the root is before the one that is compared with it. -/
theorem lesserChild_least (arr : Vector α n) (root : Slot n) (h : 2 * root.1 ≤ n)
    (i : Slot n) (hi : parentOf i = some root) :
    ¬ cmp (item arr i) (item arr (lesserChild cmp arr root h)) = true := by
  have hl : 1 ≤ 2 * root.1 ∧ 2 * root.1 ≤ n := ⟨by have := root.2; omega, h⟩
  obtain ⟨hi1, hir⟩ := parentOf_eq_some.mp hi
  have irr : ∀ a, ¬ cmp a a = true := fun a => irrefl_of (fun a b => cmp a b = true) a
  have hsides : i.1 = 2 * root.1 ∨ i.1 = 2 * root.1 + 1 := by omega
  simp only [lesserChild]
  split_ifs with hr hlt
  · rcases hsides with hs | hs
    · obtain rfl : i = ⟨2 * root.1, hl⟩ := Subtype.ext hs
      exact HeapOrder.not_lt_symm (fun a b => cmp a b = true) hlt
    · obtain rfl : i = ⟨2 * root.1 + 1, Nat.le_add_left 1 _, hr⟩ :=
        Subtype.ext hs
      exact irr _
  · rcases hsides with hs | hs
    · obtain rfl : i = ⟨2 * root.1, hl⟩ := Subtype.ext hs
      exact irr _
    · obtain rfl : i = ⟨2 * root.1 + 1, Nat.le_add_left 1 _, hr⟩ :=
        Subtype.ext hs
      exact hlt
  · -- the right child is not in the array
    have hin := i.2.2
    obtain rfl : i = ⟨2 * root.1, hl⟩ := Subtype.ext (by dsimp only; omega)
    exact irr _

/-- Sifting down ends in order when only the value that moves may be out of order. -/
theorem siftDown_ordered {arr : Vector α n} {root : Slot n}
    (h : HeapOrder.DownOrder parentOf (fun a b => cmp a b = true) (item arr) root) :
    HeapOrder.Ordered parentOf (fun a b => cmp a b = true)
      (item (siftDown cmp arr root)) := by
  fun_induction siftDown cmp arr root with
  | case1 arr root hr child hlt ih =>
    apply ih
    rw [item_exchange]
    exact h.swap parentOf_founded (parentOf_lesserChild arr root hr)
      (lesserChild_least arr root hr) hlt
  | case2 arr root hr child hlt =>
    refine h.ordered fun i hi => ?_
    exact HeapOrder.not_lt_trans (fun a b => cmp a b = true)
      (lesserChild_least arr root hr i hi) hlt
  | case3 arr root hr =>
    refine h.ordered fun i hi => ?_
    obtain ⟨hi1, hir⟩ := parentOf_eq_some.mp hi
    have := i.2.2
    omega

end Order

/-! ## The queue -/

namespace Heap

/-- No element is before its parent in the array. -/
def Ordered (self : Heap α) : Prop :=
  ∀ i, (_ : 1 < i) → (_ : i ≤ self.arr.size) →
    ¬ self.cmp self.arr[i - 1] self.arr[i / 2 - 1] = true

/-- The order of the array is that of the tree of slots. -/
theorem ordered_iff (cmp : α → α → Bool) (arr : Vector α n) :
    Ordered ⟨cmp, arr.toArray⟩ ↔
      HeapOrder.Ordered parentOf (fun a b => cmp a b = true) (item arr) := by
  constructor
  · intro h i p hp
    obtain ⟨hi, hpi⟩ := parentOf_eq_some.mp hp
    have := h i.1 hi (by simpa using i.2.2)
    simpa only [item, hpi, Vector.getElem_toArray] using this
  · intro h i hi hn
    have hn' : i ≤ n := by simpa using hn
    have := h ⟨i, by omega, hn'⟩ ⟨i / 2, by omega, by omega⟩ (parentOf_eq_some.mpr ⟨hi, rfl⟩)
    simpa only [item, Vector.getElem_toArray] using this

/-- An item that enters is added to the others. -/
theorem enqueue_perm (self : Heap α) (v : α) :
    (self.enqueue v).arr.toList.Perm (self.arr.toList ++ [v]) := by
  have h := siftUp_perm self.cmp (self.arr.push v).toVector ⟨(self.arr.push v).size, by simp⟩
  have hv : (self.arr.push v).toVector.toList = self.arr.toList ++ [v] := Array.toList_push
  rwa [hv] at h

/-- Entering keeps the order. -/
theorem enqueue_ordered {self : Heap α} (v : α)
    [IsStrictWeakOrder α (fun a b => self.cmp a b = true)] (h : self.Ordered) :
    (self.enqueue v).Ordered := by
  refine (ordered_iff _ _).mpr (siftUp_ordered ?_)
  constructor
  · intro i p hp hi
    obtain ⟨hi1, hpi⟩ := parentOf_eq_some.mp hp
    have hsize : (self.arr.push v).size = self.arr.size + 1 := Array.size_push v
    have hlt : i.1 ≤ self.arr.size := by
      have h1 := i.2.2
      have h2 : i.1 ≠ (self.arr.push v).size := fun e => hi (Subtype.ext e)
      omega
    have := h i.1 hi1 hlt
    simp only [item, hpi, Array.toVector, Vector.getElem_mk]
    rwa [Array.getElem_push_lt (by omega), Array.getElem_push_lt (by omega)]
  · -- the last position has no child
    intro i g hi
    obtain ⟨hi1, hpi⟩ := parentOf_eq_some.mp hi
    have := i.2.2
    dsimp only at hpi
    omega

@[simp] theorem enqueue_cmp (self : Heap α) (v : α) : (self.enqueue v).cmp = self.cmp :=
  rfl

/-- Moving the last item to the root shortens the array by one. -/
theorem size_lastToRoot (arr : Array α) (h : ¬ arr.size < 2) :
    (lastToRoot arr h).size = arr.size - 1 := by
  simp [lastToRoot]

/-- Away from the root nothing moves. -/
theorem getElem_lastToRoot (arr : Array α) (h : ¬ arr.size < 2) {i : ℕ} (hi : 0 < i)
    (hn : i < (lastToRoot arr h).size) (hn' : i < arr.size) :
    (lastToRoot arr h)[i] = arr[i] := by
  simp only [lastToRoot]
  rw [size_lastToRoot] at hn
  rw [Array.getElem_set_ne _ (by rw [Array.size_pop]; omega) (by omega), Array.getElem_pop]

/-- It takes away the old root. -/
theorem lastToRoot_perm (arr : Array α) (h : ¬ arr.size < 2) :
    (arr[0] :: (lastToRoot arr h).toList).Perm arr.toList := by
  obtain ⟨l, rfl⟩ : ∃ l : List α, arr = l.toArray := ⟨arr.toList, by simp⟩
  match l, h with
  | [], h => exact absurd (by simp) h
  | a :: m, h =>
    have hm : m ≠ [] := by
      intro e
      subst e
      simp at h
    obtain ⟨b, c, rfl⟩ : ∃ b c, m = b ++ [c] :=
      ⟨m.dropLast, m.getLast hm, (List.dropLast_append_getLast hm).symm⟩
    have hl : (lastToRoot (a :: (b ++ [c])).toArray h).toList = c :: b := by
      have hd : (a :: (b ++ [c])).dropLast = a :: b := by
        rw [← List.cons_append, List.dropLast_concat]
      simp [lastToRoot, hd]
    rw [hl]
    exact List.Perm.cons a (List.perm_append_singleton c b).symm

/-- What `dequeue` leaves and returns is what was there. -/
theorem dequeue_perm (self : Heap α) :
    (self.dequeue.1.toList ++ self.dequeue.2.arr.toList).Perm self.arr.toList := by
  unfold dequeue
  split_ifs with h
  · obtain ⟨cmp, ⟨l⟩⟩ := self
    match l, h with
    | [], _ => exact .rfl
    | [a], _ => exact .rfl
  · dsimp only
    split_ifs with hs
    · refine List.Perm.trans ?_ (lastToRoot_perm self.arr h)
      exact List.Perm.cons _ (siftDown_perm self.cmp _ _)
    · exact lastToRoot_perm self.arr h

/-- What leaves is the item at the root. -/
theorem dequeue_fst (self : Heap α) : self.dequeue.1 = self.peek := by
  unfold dequeue peek
  split_ifs with h
  · obtain ⟨cmp, ⟨l⟩⟩ := self
    match l, h with
    | [], _ => rfl
    | [a], _ => rfl
  · dsimp only
    split_ifs
    · exact (Array.getElem?_eq_getElem (by omega)).symm
    · exact (Array.getElem?_eq_getElem (by omega)).symm

@[simp] theorem dequeue_cmp (self : Heap α) : self.dequeue.2.cmp = self.cmp := by
  unfold dequeue
  split_ifs
  · rfl
  · dsimp only
    split_ifs <;> rfl

/-- An array of at most one element is in order. -/
theorem ordered_of_size_lt {self : Heap α} (h : self.arr.size < 2) : self.Ordered := by
  intro i h1 hi
  omega

/-- Leaving keeps the order. -/
theorem dequeue_ordered {self : Heap α}
    [IsStrictWeakOrder α (fun a b => self.cmp a b = true)] (h : self.Ordered) :
    self.dequeue.2.Ordered := by
  unfold dequeue
  split_ifs with hsize
  · exact ordered_of_size_lt (by simp; omega)
  dsimp only
  split_ifs with hs
  · refine (ordered_iff _ _).mpr (siftDown_ordered ?_)
    constructor
    · -- only the root has another value than before
      intro i p hp hroot
      obtain ⟨hi1, hpi⟩ := parentOf_eq_some.mp hp
      have hp1 : p.1 ≠ 1 := fun e => hroot (Subtype.ext e)
      have hin := i.2.2
      have hpn := p.2.1
      have hsize' := size_lastToRoot self.arr hsize
      have hold := h i.1 hi1 (by omega)
      simp only [item, hpi, Array.toVector, Vector.getElem_mk]
      rwa [getElem_lastToRoot _ _ (by omega) _ (by omega),
        getElem_lastToRoot _ _ (by omega) _ (by omega)]
    · intro i g _ hg
      exact absurd (parentOf_eq_some.mp hg).1 (lt_irrefl 1)
  · exact ordered_of_size_lt (by dsimp only; omega)

/-- In a heap in order the first element is a least one. -/
theorem Ordered.peek_least {self : Heap α}
    [IsStrictWeakOrder α (fun a b => self.cmp a b = true)] (h : self.Ordered) {r : α}
    (hr : self.peek = some r) {x : α} (hx : x ∈ self.arr) : ¬ self.cmp x r = true := by
  obtain ⟨j, hj, rfl⟩ := Array.mem_iff_getElem.mp hx
  obtain ⟨h0, rfl⟩ := Array.getElem?_eq_some_iff.mp hr
  have hroot := HeapOrder.Ordered.root ((ordered_iff self.cmp self.arr.toVector).mp h)
    parentOf_founded (r := ⟨1, le_rfl, h0⟩) (fun i hi => Subtype.ext (parentOf_eq_none.mp hi))
  exact hroot ⟨j + 1, by omega, hj⟩

end Heap

/-! ## Runs -/

/-- What a user of the queue does. -/
inductive Op (α : Type*)
  | enqueue (v : α)
  | dequeue
  deriving DecidableEq, Repr

/-- The queue and all that it has returned so far. -/
structure Used (α : Type*) where
  heap : Heap α
  returned : List α

def Used.step (s : Used α) : Op α → Used α
  | .enqueue v => { s with heap := s.heap.enqueue v }
  | .dequeue => ⟨s.heap.dequeue.2, s.returned ++ s.heap.dequeue.1.toList⟩

def Used.run (s : Used α) (ops : List (Op α)) : Used α :=
  ops.foldl Used.step s

/-- The elements that operations enqueue. -/
def enqueued : List (Op α) → List α
  | [] => []
  | .enqueue v :: ops => v :: enqueued ops
  | .dequeue :: ops => enqueued ops

/-- A queue in order, and `given` is what it holds and what it returned. -/
structure Used.Keeps (s : Used α) (cmp : α → α → Bool) (given : List α) : Prop where
  cmp_eq : s.heap.cmp = cmp
  ordered : s.heap.Ordered
  perm : (s.heap.arr.toList ++ s.returned).Perm given

/-- An item that enters is counted as given. -/
theorem Used.Keeps.enqueue {s : Used α} {cmp : α → α → Bool} {given : List α}
    [IsStrictWeakOrder α (fun a b => cmp a b = true)] (h : s.Keeps cmp given) (v : α) :
    (s.step (.enqueue v)).Keeps cmp (given ++ [v]) := by
  obtain ⟨rfl, ho, hp⟩ := h
  refine ⟨rfl, Heap.enqueue_ordered v ho, ?_⟩
  refine ((Heap.enqueue_perm s.heap v).append_right s.returned).trans ?_
  rw [List.append_assoc]
  refine (List.perm_append_comm.append_left _).trans ?_
  rw [← List.append_assoc]
  exact hp.append_right _

/-- An item that leaves is the least of those given and not yet taken. -/
theorem Used.Keeps.dequeue {s : Used α} {cmp : α → α → Bool} {given : List α}
    [IsStrictWeakOrder α (fun a b => cmp a b = true)] (h : s.Keeps cmp given) :
    (s.step .dequeue).Keeps cmp given := by
  obtain ⟨rfl, ho, hp⟩ := h
  refine ⟨Heap.dequeue_cmp _, Heap.dequeue_ordered ho, List.Perm.trans ?_ hp⟩
  have hd := (Heap.dequeue_perm s.heap).append_right s.returned
  refine List.Perm.trans ?_ hd
  show (s.heap.dequeue.2.arr.toList ++ (s.returned ++ s.heap.dequeue.1.toList)).Perm _
  rw [← List.append_assoc]
  refine List.perm_append_comm.trans ?_
  rw [List.append_assoc]

/-- The invariant holds along any sequence of operations. -/
theorem Used.Keeps.run {cmp : α → α → Bool}
    [IsStrictWeakOrder α (fun a b => cmp a b = true)] (ops : List (Op α)) :
    ∀ {s : Used α} {given : List α}, s.Keeps cmp given →
      (s.run ops).Keeps cmp (given ++ enqueued ops) := by
  induction ops with
  | nil =>
    intro s given h
    simpa [Used.run, enqueued] using h
  | cons op ops ih =>
    intro s given h
    cases op with
    | enqueue v =>
      have := ih (h.enqueue v)
      rwa [List.append_assoc] at this
    | dequeue => exact ih h.dequeue

/-- A new queue. -/
theorem Used.Keeps.new {cmp : α → α → Bool} : Used.Keeps ⟨⟨cmp, #[]⟩, []⟩ cmp [] :=
  ⟨rfl, Heap.ordered_of_size_lt (Nat.zero_lt_two), .rfl⟩

/-- The values given to `new` are enqueued one by one. -/
theorem foldl_enqueue (self : Heap α) (init returned : List α) :
    (Used.mk self returned).run (init.map .enqueue) =
      ⟨init.foldl Heap.enqueue self, returned⟩ := by
  induction init generalizing self with
  | nil => rfl
  | cons v init ih => exact ih (self.enqueue v)

/-- The items of a list of entries. -/
theorem enqueued_map (init : List α) : enqueued (init.map .enqueue) = init := by
  induction init with
  | nil => rfl
  | cons v init ih => rw [List.map_cons, enqueued, ih]

section Correct

variable [LT α] [DecidableLT α]

/-- After any operations on a new queue, with any strict weak order: the array is in heap
order; what it holds and what was returned is what was enqueued; a further `dequeue`
returns `nil` when the queue is empty, else a least element, and leaves the others. -/
theorem queue_correct (cmp : Option (α → α → Bool)) (init : Option (List α))
    (ops : List (Op α))
    (hcmp : IsStrictWeakOrder α
      (fun a b => cmp.getD (fun a b => decide (a < b)) a b = true)) :
    let s := (Used.mk (Heap.new cmp init) []).run ops
    s.heap.Ordered ∧
      (s.heap.arr.toList ++ s.returned).Perm (init.getD [] ++ enqueued ops) ∧
      (s.heap.dequeue.1 = none ↔ s.heap.arr.toList = []) ∧
      ∀ r, s.heap.dequeue.1 = some r →
        r ∈ s.heap.arr.toList ∧
        (∀ x ∈ s.heap.arr.toList, ¬ s.heap.cmp x r = true) ∧
        (r :: s.heap.dequeue.2.arr.toList).Perm s.heap.arr.toList := by
  intro s
  have hinit : (Used.mk (Heap.new cmp init) []).Keeps
      (cmp.getD fun a b => decide (a < b)) (init.getD []) := by
    have h : ((Used.mk ⟨cmp.getD fun a b => decide (a < b), #[]⟩ []).run
        ((init.getD []).map .enqueue)).Keeps (cmp.getD fun a b => decide (a < b))
        ([] ++ enqueued ((init.getD []).map .enqueue)) := Used.Keeps.run _ Used.Keeps.new
    rwa [foldl_enqueue, enqueued_map] at h
  obtain ⟨hc, ho, hp⟩ := hinit.run ops
  rw [← hc] at hcmp
  refine ⟨ho, hp, ?_, ?_⟩
  · rw [Heap.dequeue_fst, Heap.peek, Array.getElem?_eq_none_iff]
    simp
  · intro r hr
    have hperm := Heap.dequeue_perm s.heap
    rw [hr] at hperm
    rw [Heap.dequeue_fst] at hr
    refine ⟨hperm.subset (List.mem_cons_self ..), fun x hx => ?_, hperm⟩
    exact ho.peek_least hr (Array.mem_toList_iff.mp hx)

/-- Two values in, the lesser one out, another in. -/
theorem queue_correct_nat :
    let s := (Used.mk (Heap.new (none : Option (ℕ → ℕ → Bool)) (some [5, 3])) []).run
      [.dequeue, .enqueue 4]
    s.heap.Ordered ∧
      (s.heap.arr.toList ++ s.returned).Perm ([5, 3] ++ [4]) ∧
      (s.heap.dequeue.1 = none ↔ s.heap.arr.toList = []) ∧
      ∀ r, s.heap.dequeue.1 = some r →
        r ∈ s.heap.arr.toList ∧
        (∀ x ∈ s.heap.arr.toList, ¬ s.heap.cmp x r = true) ∧
        (r :: s.heap.dequeue.2.arr.toList).Perm s.heap.arr.toList := by
  refine queue_correct none (some [5, 3]) [.dequeue, .enqueue 4] ?_
  simp only [Option.getD_none, decide_eq_true_eq]
  exact { incomp_trans := fun a b c hab hbc => by omega }

end Correct

end LuaHeap
