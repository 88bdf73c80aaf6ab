/-
# The sort of nproto

`QSORT.c`: quicksort without recursion, with the parts that are still to be sorted on a stack
of 30 entries, and a selection sort for the short ones.  A pointer into the array is the number
of its element; the array has less than 2^32 bytes.
-/
import OpenwrtAc.Outcome
import Mathlib.Data.Int.Notation

open Outcome

namespace Qsort

/-- Why a sort would not return: an access outside of the array or of the stack. -/
inductive Stop where
  | outside
  | stack
  | fuel
deriving DecidableEq, Repr

variable {α : Type}

/-- `CUTOFF`. -/
def cutoff : ℕ := 8

/-- The entries of `lostk` and `histk`. -/
def stackSize : ℕ := 30

/-- `comp(p, q)`, for two elements of the array. -/
def compare (comp : α → α → ℤ) (a : Array α) (p q : ℕ) : Except Stop ℤ :=
  match a[p]?, a[q]? with
  | some x, some y => .ok (comp x y)
  | _, _ => .error .outside

def swap (a : Array α) (p q : ℕ) : Except Stop (Array α) :=
  if h : p < a.size ∧ q < a.size then .ok (a.swap p q h.1 h.2) else .error .outside

/-- The `for` of `shortsort`. -/
def findMax (comp : α → α → ℤ) (a : Array α) (hi : ℕ) : ℕ → ℕ → ℕ → Except Stop ℕ
  | 0, _, _ => .error .fuel
  | fuel + 1, p, max =>
    if p ≤ hi then do
      let c ← compare comp a p max
      findMax comp a hi fuel (p + 1) (if c > 0 then p else max)
    else return max

def shortsort (comp : α → α → ℤ) : ℕ → Array α → ℕ → ℕ → Except Stop (Array α)
  | 0, _, _, _ => .error .fuel
  | fuel + 1, a, lo, hi =>
    if hi > lo then do
      let max ← findMax comp a hi (a.size + 1) (lo + 1) lo
      let a ← swap a max hi
      shortsort comp fuel a lo (hi - 1)
    else return a

/-- `loguy` goes up to an element that is greater than the first. -/
def scanUp (comp : α → α → ℤ) (a : Array α) (lo hi : ℕ) : ℕ → ℕ → Except Stop ℕ
  | 0, _ => .error .fuel
  | fuel + 1, loguy =>
    if loguy + 1 ≤ hi then do
      let c ← compare comp a (loguy + 1) lo
      if c ≤ 0 then scanUp comp a lo hi fuel (loguy + 1) else return loguy + 1
    else return loguy + 1

/-- `higuy` goes down to an element that is less than the first. -/
def scanDown (comp : α → α → ℤ) (a : Array α) (lo : ℕ) : ℕ → ℕ → Except Stop ℕ
  | 0, _ => .error .fuel
  | fuel + 1, higuy => do
    -- a pointer in front of the array
    stopIf (higuy = 0) .outside
    if higuy - 1 > lo then
      let c ← compare comp a (higuy - 1) lo
      if c ≥ 0 then scanDown comp a lo fuel (higuy - 1) else return higuy - 1
    else return higuy - 1

/-- The `for (;;)`: the array, `loguy` and `higuy`. -/
def partitionLoop (comp : α → α → ℤ) (lo hi : ℕ) :
    ℕ → Array α → ℕ → ℕ → Except Stop (Array α × ℕ × ℕ)
  | 0, _, _, _ => .error .fuel
  | fuel + 1, a, loguy, higuy => do
    let loguy ← scanUp comp a lo hi (a.size + 1) loguy
    let higuy ← scanDown comp a lo (a.size + 1) higuy
    if higuy < loguy then return (a, loguy, higuy)
    else do
      let a ← swap a loguy higuy
      partitionLoop comp lo hi fuel a loguy higuy

/-- The partition of a sub-array around its middle element. -/
def partition (comp : α → α → ℤ) (a : Array α) (lo hi : ℕ) :
    Except Stop (Array α × ℕ × ℕ) := do
  let size := hi - lo + 1
  let a ← swap a (lo + size / 2) lo
  let (a, loguy, higuy) ← partitionLoop comp lo hi (a.size + 1) a lo (hi + 1)
  let a ← swap a lo higuy
  return (a, loguy, higuy)

/-- An entry of the stack more. -/
def push (stk : List (ℕ × ℕ)) (part : ℕ × ℕ) : Except Stop (List (ℕ × ℕ)) :=
  if stk.length < stackSize then .ok (part :: stk) else .error .stack

/-- The sub-arrays on both sides, the one to go on with in front. -/
def subarrays (width lo hi loguy higuy : ℕ) (stk : List (ℕ × ℕ)) :
    Except Stop (List (ℕ × ℕ)) :=
  if (width : ℤ) * higuy - 1 - width * lo ≥ width * hi - width * loguy then do
    let stk ← (if lo + 1 < higuy then push stk (lo, higuy - 1) else pure stk :
      Except Stop (List (ℕ × ℕ)))
    return if loguy < hi then (loguy, hi) :: stk else stk
  else do
    let stk ← (if loguy < hi then push stk (loguy, hi) else pure stk :
      Except Stop (List (ℕ × ℕ)))
    return if lo + 1 < higuy then (lo, higuy - 1) :: stk else stk

/-- From `recurse` on; the sub-array in hand is in front of those on the stack. -/
def sortLoop (comp : α → α → ℤ) (width : ℕ) :
    ℕ → Array α → List (ℕ × ℕ) → Except Stop (Array α)
  | 0, _, _ => .error .fuel
  | _ + 1, a, [] => return a
  | fuel + 1, a, (lo, hi) :: stk =>
    if hi - lo + 1 ≤ cutoff then do
      let a ← shortsort comp (a.size + 1) a lo hi
      sortLoop comp width fuel a stk
    else do
      let (a, loguy, higuy) ← partition comp a lo hi
      let parts ← subarrays width lo hi loguy higuy stk
      sortLoop comp width fuel a parts

/-- `qsort`. -/
def qsort (comp : α → α → ℤ) (width : ℕ) (a : Array α) : Except Stop (Array α) :=
  if a.size < 2 ∨ width = 0 then .ok a
  else sortLoop comp width (a.size + 1) a [(0, a.size - 1)]

end Qsort
