/-
# The log of the access control (`acmgr/aclog.lua`, `acmgr/queue.lua`)

Messages of the kernel about connections that a rule met are kept in two queues, the newest first
and no more than a limit of them.  The user interface reads the one of the control rules page by
page.
-/
import Mathlib.Data.List.Basic
import Mathlib.Tactic.Ring
import Mathlib.Tactic.Linarith

namespace AcLog

variable {α : Type}

/-! ## The queues -/

structure Queue (α : Type) where
  arr : List α
  limit : ℕ

/-- `push`: the last entry goes where there is no room. -/
def Queue.push (q : Queue α) (item : α) : Queue α :=
  let arr := if q.limit ≤ q.arr.length then q.arr.dropLast else q.arr
  { q with arr := item :: arr }

/-- `log_limit`. -/
def logLimit : ℕ := 300

structure Logs (α : Type) where
  ctrlLog : Queue α
  auditLog : Queue α

/-- `aclog_add` of an entry; what is neither of the control rules goes with the audit. -/
def aclogAdd (ls : Logs α) (ruletype : String) (aclog : α) : Logs α :=
  if ruletype = "CONTROL" then { ls with ctrlLog := ls.ctrlLog.push aclog }
  else { ls with auditLog := ls.auditLog.push aclog }

/-- `init`, with what the files of the queues have. -/
def init (ctrl audit : List α) : Logs α := ⟨⟨ctrl, logLimit⟩, ⟨audit, logLimit⟩⟩

def run (ls : Logs α) (msgs : List (String × α)) : Logs α :=
  msgs.foldl (fun ls m => aclogAdd ls m.1 m.2) ls

/-- `ctrllog_get`; `none` where the assertion on `count` fails. -/
def ctrllogGet (ls : Logs α) (page count : ℤ) : Option (List α) :=
  let arr := ls.ctrlLog.arr
  if 0 < count then
    let idx : ℤ := if 1 < page then (page - 1) * count + 1 else 1
    if idx ≤ arr.length then
      let left := arr.length - idx
      let count := if left < count then left else count
      -- the loop from 0 to `count - 1`, over an array that starts at 1
      some ((List.range count.toNat).filterMap fun i => arr[i + idx.toNat - 1]?)
    else some []
  else none

/-! ## What a queue holds -/

/-- The number of entries that a queue gets to: one that its file made longer than the limit stays
    so. -/
def Queue.room (q : Queue α) : ℕ := max q.arr.length (max 1 q.limit)

theorem room_push (q : Queue α) (item : α) : (q.push item).room = q.room := by
  unfold Queue.push Queue.room
  dsimp only
  split
  · rw [List.length_cons, List.length_dropLast]
    omega
  · rw [List.length_cons]
    omega

theorem push_arr (q : Queue α) (item : α) : (q.push item).arr = (item :: q.arr).take q.room := by
  unfold Queue.push Queue.room
  dsimp only
  split
  · rename_i hfull
    obtain ⟨k, hk⟩ : ∃ k, max q.arr.length (max 1 q.limit) = k + 1 :=
      ⟨max q.arr.length (max 1 q.limit) - 1, by omega⟩
    rw [hk, List.take_succ_cons, List.dropLast_eq_take]
    by_cases hempty : q.arr.length = 0
    · rw [List.eq_nil_of_length_eq_zero hempty, List.take_nil, List.take_nil]
    · have hlen : q.arr.length - 1 = k := by omega
      rw [hlen]
  · rw [List.take_of_length_le]
    rw [List.length_cons]
    omega

/-- The newest entries, as many as there is room for. -/
theorem pushes_arr (q : Queue α) (items : List α) :
    (items.foldl Queue.push q).arr = (items.reverse ++ q.arr).take q.room ∧
      (items.foldl Queue.push q).room = q.room := by
  induction items generalizing q with
  | nil => exact ⟨(List.take_of_length_le (Nat.le_max_left _ _)).symm, rfl⟩
  | cons item items ih =>
    obtain ⟨harr, hroom⟩ := ih (q.push item)
    rw [List.foldl_cons, harr, hroom, room_push, push_arr]
    refine ⟨?_, rfl⟩
    rw [List.reverse_cons, List.append_assoc, List.singleton_append, List.take_append,
      List.take_append, List.take_take, Nat.min_eq_left (Nat.sub_le _ _)]

/-- Each message goes to its queue. -/
theorem run_ctrlLog (ls : Logs α) (msgs : List (String × α)) :
    (run ls msgs).ctrlLog
      = ((msgs.filter fun m => m.1 = "CONTROL").map (·.2)).foldl Queue.push ls.ctrlLog := by
  induction msgs generalizing ls with
  | nil => rfl
  | cons m msgs ih =>
    rw [run, List.foldl_cons, ← run, ih, List.filter_cons]
    by_cases hm : m.1 = "CONTROL"
    · simp [aclogAdd, hm]
    · simp [aclogAdd, hm]

/-! ## Pages -/

theorem filterMap_range (l : List α) (n a : ℕ) :
    ((List.range n).filterMap fun i => l[i + a]?) = (l.drop a).take n := by
  induction n with
  | zero => rfl
  | succ n ih =>
    rw [List.range_succ, List.filterMap_append, ih, List.take_add_one, List.getElem?_drop,
      Nat.add_comm a n, List.filterMap_cons]
    cases l[n + a]? <;> rfl

/-- A page has its part of all entries but the last. -/
theorem ctrllogGet_eq (ls : Logs α) (p n : ℕ) :
    ctrllogGet ls (p + 1 : ℕ) (n + 1 : ℕ)
      = some ((ls.ctrlLog.arr.dropLast.drop (p * (n + 1))).take (n + 1)) := by
  have hidx : (if (1 : ℤ) < (p + 1 : ℕ) then (((p + 1 : ℕ) : ℤ) - 1) * (n + 1 : ℕ) + 1 else 1)
      = ((p * (n + 1) + 1 : ℕ) : ℤ) := by
    split
    · push_cast
      ring
    · have hp : p = 0 := by omega
      simp [hp]
  unfold ctrllogGet
  dsimp only
  rw [if_pos (by omega), hidx, List.dropLast_eq_take, List.drop_take, List.take_take]
  generalize p * (n + 1) = m
  generalize ls.ctrlLog.arr = arr
  split
  · have hcount : (if (arr.length : ℤ) - (m + 1 : ℕ) < (n + 1 : ℕ)
        then (arr.length : ℤ) - (m + 1 : ℕ) else (n + 1 : ℕ)).toNat
        = min (n + 1) (arr.length - 1 - m) := by
      split <;> omega
    have hplace : ∀ i, i + ((m + 1 : ℕ) : ℤ).toNat - 1 = i + m := by
      intro i
      omega
    rw [hcount]
    simp only [hplace]
    rw [filterMap_range]
  · have hnone : min (n + 1) (arr.length - 1 - m) = 0 := by omega
    rw [hnone, List.take_zero]

/-- A page below the first is the first. -/
theorem ctrllogGet_toNat (ls : Logs α) (page count : ℤ) :
    ctrllogGet ls page count = ctrllogGet ls (page.toNat - 1 + 1 : ℕ) count := by
  by_cases hpage : 1 < page
  · have h : ((page.toNat - 1 + 1 : ℕ) : ℤ) = page := by omega
    rw [h]
  · have h : ¬ 1 < ((page.toNat - 1 + 1 : ℕ) : ℤ) := by omega
    simp only [ctrllogGet, if_neg hpage, if_neg h]

theorem pages_take (l : List α) (n k : ℕ) :
    ((List.range k).flatMap fun p => (l.drop (p * n)).take n) = l.take (k * n) := by
  induction k with
  | zero => simp
  | succ k ih =>
    rw [List.range_succ, List.flatMap_append, ih, Nat.succ_mul, List.take_add]
    simp

/-- What the files had and what has come since, the newest first. -/
def kept (ctrl : List α) (msgs : List (String × α)) : List α :=
  let items := (msgs.filter fun m => m.1 = "CONTROL").map (·.2)
  (items.reverse ++ ctrl).take (max ctrl.length logLimit)

/-- Whatever has come, the pages of any size show all that is kept of the control rules but the
    oldest entry, in order and each once, and no page of any number shows anything else. -/
theorem run_pages (ctrl audit : List α) (msgs : List (String × α)) (n : ℕ) :
    ((List.range (kept ctrl msgs).length).flatMap fun p =>
        (ctrllogGet (run (init ctrl audit) msgs) (p + 1 : ℕ) (n + 1 : ℕ)).getD [])
      = (kept ctrl msgs).dropLast ∧
    ∀ page, ∀ l ∈ ctrllogGet (run (init ctrl audit) msgs) page (n + 1 : ℕ),
      l <:+: (kept ctrl msgs).dropLast := by
  have harr : (run (init ctrl audit) msgs).ctrlLog.arr = kept ctrl msgs := by
    rw [run_ctrlLog, (pushes_arr _ _).1]
    rfl
  constructor
  · simp only [ctrllogGet_eq, Option.getD_some]
    rw [pages_take, harr]
    apply List.take_of_length_le
    rw [List.length_dropLast]
    calc (kept ctrl msgs).length - 1 ≤ (kept ctrl msgs).length * 1 := by omega
      _ ≤ (kept ctrl msgs).length * (n + 1) := Nat.mul_le_mul_left _ (by omega)
  · intro page l hl
    rw [ctrllogGet_toNat, ctrllogGet_eq, harr] at hl
    rw [← Option.some.inj hl]
    exact (List.take_prefix _ _).isInfix.trans (List.drop_suffix _ _).isInfix

/-- The only entry of a log is on no page. -/
example : ctrllogGet (run (init [] []) [("CONTROL", 7)]) 1 10 = some [] := by decide

end AcLog
