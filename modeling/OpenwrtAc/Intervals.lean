/-
# Lists of closed intervals

Intervals of a linear order as pairs of their ends, in order and apart from one another,
and a sweep that takes one more interval through such a list.  A sweep leaves behind
what lies before the interval that it carries and swallows what meets it.
-/
import Mathlib.Order.CompletePartialOrder
import Mathlib.Order.Interval.Set.LinearOrder
import Mathlib.Data.Set.Lattice

namespace Intervals

variable {α : Type*} [LinearOrder α]

/-- All of `r` lies before all of `s`. -/
def Before (r s : α × α) : Prop := r.2 < s.1

/-- Intervals that are not empty, each before those behind it. -/
structure Ordered (l : List (α × α)) : Prop where
  proper : ∀ r ∈ l, r.1 ≤ r.2
  before : l.Pairwise Before

/-- What the intervals have together. -/
def cover (l : List (α × α)) : Set α := {x | ∃ r ∈ l, x ∈ Set.Icc r.1 r.2}

/-- A point is covered by one of the intervals. -/
theorem mem_cover {l : List (α × α)} {x : α} :
    x ∈ cover l ↔ ∃ r ∈ l, x ∈ Set.Icc r.1 r.2 := Iff.rfl

/-- No interval covers nothing. -/
theorem cover_nil : cover ([] : List (α × α)) = ∅ := by
  ext x
  simp [mem_cover]

/-- One more interval in front. -/
theorem cover_cons (r : α × α) (l : List (α × α)) :
    cover (r :: l) = Set.Icc r.1 r.2 ∪ cover l := by
  ext x
  simp [mem_cover]

/-- Two lists of intervals cover what each covers. -/
theorem cover_append (l m : List (α × α)) : cover (l ++ m) = cover l ∪ cover m := by
  ext x
  simp [mem_cover, or_and_right, exists_or]

/-- One more interval at the end. -/
theorem cover_concat (l : List (α × α)) (r : α × α) :
    cover (l ++ [r]) = cover l ∪ Set.Icc r.1 r.2 := by
  rw [cover_append, cover_cons, cover_nil, Set.union_empty]

/-! ## Order -/

/-- The empty list is ordered. -/
theorem ordered_nil : Ordered ([] : List (α × α)) := ⟨nofun, .nil⟩

/-- An interval behind all others keeps the order. -/
theorem Ordered.concat {l : List (α × α)} (h : Ordered l) {r : α × α} (hr : r.1 ≤ r.2)
    (hl : ∀ s ∈ l, Before s r) : Ordered (l ++ [r]) where
  proper := by
    intro s hs
    rcases List.mem_append.mp hs with hs | hs
    · exact h.proper s hs
    · rw [List.mem_singleton.mp hs]
      exact hr
  before := by
    refine List.pairwise_append.mpr ⟨h.before, List.pairwise_singleton _ _, ?_⟩
    intro s hs t ht
    rw [List.mem_singleton.mp ht]
    exact hl s hs

/-- The first interval is proper. -/
theorem Ordered.head {l : List (α × α)} {r : α × α} (h : Ordered (r :: l)) : r.1 ≤ r.2 :=
  h.proper r List.mem_cons_self

/-- The others are ordered. -/
theorem Ordered.tail {l : List (α × α)} {r : α × α} (h : Ordered (r :: l)) : Ordered l :=
  ⟨fun s hs => h.proper s (List.mem_cons_of_mem r hs), h.before.tail⟩

/-- The first interval stands before the others. -/
theorem Ordered.head_before {l : List (α × α)} {r : α × α} (h : Ordered (r :: l)) :
    ∀ s ∈ l, Before r s := (List.pairwise_cons.mp h.before).1

/-- What lies before an interval lies before what lies behind it. -/
theorem Before.trans {r s t : α × α} (hrs : Before r s) (hs : s.1 ≤ s.2) (hst : Before s t) :
    Before r t := lt_of_lt_of_le hrs (hs.trans hst.le)

/-- Being before one another is being sorted and disjoint. -/
theorem before_iff {r s : α × α} (hr : r.1 ≤ r.2) (hs : s.1 ≤ s.2) :
    Before r s ↔ r.1 ≤ s.1 ∧ Disjoint (Set.Icc r.1 r.2) (Set.Icc s.1 s.2) := by
  constructor
  · intro h
    refine ⟨hr.trans h.le, Set.disjoint_left.mpr fun x hx hx' => ?_⟩
    exact absurd (lt_of_le_of_lt hx.2 h) (not_lt.mpr hx'.1)
  · rintro ⟨hle, hdisj⟩
    by_contra hnot
    exact Set.disjoint_left.mp hdisj ⟨hle, not_lt.mp hnot⟩ ⟨le_rfl, hs⟩

/-- Proper intervals are ordered where they begin one after the other and are disjoint. -/
theorem ordered_iff {l : List (α × α)} (h : ∀ r ∈ l, r.1 ≤ r.2) :
    Ordered l ↔
      l.Pairwise fun r s => r.1 ≤ s.1 ∧ Disjoint (Set.Icc r.1 r.2) (Set.Icc s.1 s.2) := by
  constructor
  · intro hl
    exact hl.before.imp_of_mem fun hr hs => (before_iff (h _ hr) (h _ hs)).mp
  · intro hl
    exact ⟨h, hl.imp_of_mem fun hr hs => (before_iff (h _ hr) (h _ hs)).mpr⟩

/-! ## A sweep -/

/-- `left` is left behind, `cur` is carried and `rest` is still to come. -/
structure Sweeping (left : List (α × α)) (cur : α × α) (rest : List (α × α)) : Prop where
  done : Ordered left
  proper : cur.1 ≤ cur.2
  todo : Ordered rest
  before_cur : ∀ s ∈ left, Before s cur
  before_rest : ∀ s ∈ left, ∀ r ∈ rest, Before s r

/-- What a sweep has altogether. -/
def swept (left : List (α × α)) (cur : α × α) (rest : List (α × α)) : Set α :=
  cover left ∪ Set.Icc cur.1 cur.2 ∪ cover rest

variable {left rest : List (α × α)} {cur r : α × α}

/-- The sweep at its start. -/
theorem sweeping_nil (hcur : cur.1 ≤ cur.2) (hrest : Ordered rest) : Sweeping [] cur rest :=
  ⟨ordered_nil, hcur, hrest, nofun, nofun⟩

/-- What the sweep has left is ordered. -/
theorem Sweeping.ordered (h : Sweeping left cur rest) : Ordered (left ++ [cur]) :=
  h.done.concat h.proper h.before_cur

omit [LinearOrder α] in
/-- What holds of the intervals and of one more behind them. -/
theorem forall_mem_concat {P : α × α → Prop} {l : List (α × α)} {r : α × α} (h : ∀ s ∈ l, P s)
    (hr : P r) : ∀ s ∈ l ++ [r], P s :=
  List.forall_mem_append.mpr ⟨h, List.forall_mem_singleton.mpr hr⟩

/-- At the end of the sweep everything is swept. -/
theorem swept_nil : swept left cur [] = cover (left ++ [cur]) := by
  rw [swept, cover_nil, Set.union_empty, cover_concat]

/-- The carried interval stays and the next one is carried on. -/
theorem Sweeping.leave (h : Sweeping left cur (r :: rest)) (hr : Before cur r) :
    Sweeping (left ++ [cur]) r rest where
  done := h.ordered
  proper := h.todo.head
  todo := h.todo.tail
  before_cur := forall_mem_concat (fun s hs => h.before_rest s hs r List.mem_cons_self) hr
  before_rest := forall_mem_concat (fun s hs t ht => h.before_rest s hs t (List.mem_cons_of_mem r ht))
    fun t ht => hr.trans h.todo.head (h.todo.head_before t ht)

/-- The current interval is left behind. -/
theorem swept_leave : swept (left ++ [cur]) r rest = swept left cur (r :: rest) := by
  rw [swept, swept, cover_concat, cover_cons, Set.union_assoc _ (Set.Icc r.1 r.2)]

/-- The next interval stays behind. -/
theorem Sweeping.skip (h : Sweeping left cur (r :: rest)) (hr : Before r cur) :
    Sweeping (left ++ [r]) cur rest where
  done := h.done.concat h.todo.head fun s hs => h.before_rest s hs r List.mem_cons_self
  proper := h.proper
  todo := h.todo.tail
  before_cur := forall_mem_concat h.before_cur hr
  before_rest := forall_mem_concat (fun s hs t ht => h.before_rest s hs t (List.mem_cons_of_mem r ht))
    h.todo.head_before

/-- An interval in front of the current one is kept. -/
theorem swept_skip : swept (left ++ [r]) cur rest = swept left cur (r :: rest) := by
  rw [swept, swept, cover_concat, cover_cons, ← Set.union_assoc _ (Set.Icc r.1 r.2),
    Set.union_right_comm (cover left)]

/-- The carried interval takes in the next one, which it meets. -/
theorem Sweeping.absorb (h : Sweeping left cur (r :: rest)) :
    Sweeping left (min cur.1 r.1, max cur.2 r.2) rest where
  done := h.done
  proper := (min_le_left _ _).trans (h.proper.trans (le_max_left _ _))
  todo := h.todo.tail
  before_cur := fun s hs =>
    lt_min (h.before_cur s hs) (h.before_rest s hs r List.mem_cons_self)
  before_rest := fun s hs t ht => h.before_rest s hs t (List.mem_cons_of_mem r ht)

/-- An interval that meets the current one is taken into it. -/
theorem swept_absorb (hr : r.1 ≤ cur.2) (hcur : cur.1 ≤ r.2) :
    swept left (min cur.1 r.1, max cur.2 r.2) rest = swept left cur (r :: rest) := by
  show cover left ∪ Set.Icc (min cur.1 r.1) (max cur.2 r.2) ∪ cover rest = _
  rw [← Set.Icc_union_Icc' hr hcur, swept, cover_cons, ← Set.union_assoc, ← Set.union_assoc]

end Intervals
