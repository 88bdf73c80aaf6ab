/-
# The slices of a batch (`fp.slice`, `fp.limit`)

The handlers of the login daemon go through a batch by `limit(arr, i, step)` for
`i = 1, 1 + step, ...`.  `limit` takes the elements from `start` to `start + count`, both
included, so each slice ends with the first element of the next one.
-/
import Mathlib.Data.List.Basic
import OpenwrtAc.AuthLogin
import OpenwrtAc.LuaBatch

namespace AuthSlices

variable {α : Type}

/-! ## `fp.slice` and `fp.limit` -/

/-- `arr[i]`. -/
def item (arr : List α) (i : ℕ) : Option α :=
  if i = 0 then none else arr[i - 1]?

/-- The loop of `slice`, with `n` values of `i` left. -/
def sliceLoop (arr : List α) : ℕ → ℕ → List α → List α
  | 0, _, narr => narr
  | n + 1, i, narr =>
    match item arr i with
    | none => narr
    | some a => sliceLoop arr n (i + 1) (narr ++ [a])

def slice (arr : List α) (start fin : ℕ) : List α :=
  sliceLoop arr (fin + 1 - start) start []

def limit (arr : List α) (start count : ℕ) : List α :=
  let fin := start + count
  slice arr start (if fin > arr.length then arr.length else fin)

theorem sliceLoop_eq (arr : List α) (n i : ℕ) (narr : List α) :
    sliceLoop arr n (i + 1) narr = narr ++ (arr.drop i).take n := by
  induction n generalizing i narr with
  | zero => simp [sliceLoop]
  | succ n ih =>
    by_cases hi : i < arr.length
    · have hitem : item arr (i + 1) = some arr[i] := by
        simp only [item, Nat.add_sub_cancel, List.getElem?_eq_getElem hi]
        rfl
      rw [sliceLoop, hitem]
      show sliceLoop arr n (i + 1 + 1) (narr ++ [arr[i]]) = _
      rw [ih, List.drop_eq_getElem_cons hi, List.take_succ_cons, List.append_assoc]
      rfl
    · have hitem : item arr (i + 1) = none := by
        simp only [item, Nat.add_sub_cancel, List.getElem?_eq_none (not_lt.mp hi)]
        rfl
      rw [sliceLoop, hitem, List.drop_of_length_le (not_lt.mp hi), List.take_nil,
        List.append_nil]

/-- `limit` takes one element more than `count`. -/
theorem limit_eq (arr : List α) (i count : ℕ) :
    limit arr (i + 1) count = (arr.drop i).take (count + 1) := by
  rw [limit, slice, sliceLoop_eq, List.nil_append]
  split_ifs with h
  · rw [List.take_of_length_le, List.take_of_length_le]
    · rw [List.length_drop]
      omega
    · rw [List.length_drop]
      omega
  · congr 1
    omega

/-- What the loop of the web logins takes. -/
theorem authLogin_limit (arr : List AuthLogin.Request) (i count : ℕ) :
    AuthLogin.limit arr (i + 1) count = limit arr (i + 1) count := by
  rw [limit_eq]
  rfl

/-! ## The loops of the handlers -/

/-- The values of `i` of `for i = start, stop, step`, for a positive `step`. -/
def numericFor (start stop step : ℕ) : List ℕ :=
  (List.range ((stop + step - start) / step)).map fun k => start + k * step

theorem numericFor_of_lt {start stop step : ℕ} (h : stop < start) (hs : 0 < step) :
    numericFor start stop step = [] := by
  rw [numericFor, Nat.div_eq_of_lt (by omega)]
  rfl

theorem numericFor_cons {start stop step : ℕ} (h : start ≤ stop) (hs : 0 < step) :
    numericFor start stop step = start :: numericFor (start + step) stop step := by
  have hdiv : (stop + step - start) / step = (stop + step - (start + step)) / step + 1 := by
    rw [show stop + step - start = stop + step - (start + step) + step by omega,
      Nat.add_div_right _ hs]
  rw [numericFor, hdiv, List.range_succ_eq_map, List.map_cons, List.map_map, Nat.zero_mul,
    Nat.add_zero]
  congr 1
  apply List.map_congr_left
  intro k _
  simp only [Function.comp, Nat.succ_mul]
  omega

/-- `limit(arr, i, step)` for `i = 1, 1 + step, ...` up to `count`. -/
def slices (count step : ℕ) (arr : List α) : List (List α) :=
  (numericFor 1 count step).map fun i => limit arr i step

/-- The slices of `on_login` of the web logins. -/
def webSlices (count : ℕ) (arr : List α) : List (List α) :=
  slices count 100 arr

/-- The slices of `on_keepalive_batch` of the automatic logins. -/
def autoSlices (arr : List α) : List (List α) :=
  slices arr.length 100 arr

/-- The slices of `on_keepalive` of the WeChat logins. -/
def wechatSlices (arr : List α) : List (List α) :=
  slices arr.length 100 arr

/-- The count that the handlers get of a batch of items is its number of elements. -/
theorem webSlices_eq {σ : ℕ → LuaBatch.State α} {ev : ℕ → LuaBatch.Event α}
    (h : LuaBatch.Run σ ev) (hp : ∀ n, ev n ≠ .emit none) {n : ℕ} {call : ℕ × List α}
    (hc : call ∈ (σ n).calls) : webSlices call.1 call.2 = autoSlices call.2 := by
  rw [webSlices, autoSlices, (h.count_eq hp n).2 call hc]

/-! ## How often an element is taken -/

variable {step : ℕ}

/-- From a position on, the elements are taken once each, and once more those that are a
multiple of `step` behind it. -/
theorem slicesFrom_length (hs : 0 < step) (arr : List α) (m i : ℕ) (hm : arr.length = i + m) :
    ((numericFor (i + 1) arr.length step).map fun j => limit arr j step).flatten.length =
      m + (m - 1) / step := by
  induction m using Nat.strong_induction_on generalizing i with
  | _ m ih =>
    rcases Nat.eq_zero_or_pos m with rfl | hpos
    · rw [numericFor_of_lt (by omega) hs]
      simp
    rw [numericFor_cons (by omega) hs, List.map_cons, List.flatten_cons, List.length_append,
      limit_eq, List.length_take, List.length_drop]
    by_cases hlast : m ≤ step
    · -- nothing is left behind this slice
      rw [show i + 1 + step = i + step + 1 by omega, numericFor_of_lt (by omega) hs,
        Nat.div_eq_of_lt (by omega)]
      simp
      omega
    · rw [show i + 1 + step = i + step + 1 by omega, ih (m - step) (by omega) _ (by omega),
        Nat.min_eq_left (by omega)]
      have hdiv : (m - 1) / step = (m - step - 1) / step + 1 := by
        rw [show m - 1 = m - step - 1 + step by omega, Nat.add_div_right _ hs]
      omega

/-- Of a batch, every `step`-th element behind the first is taken twice. -/
theorem slices_length (hs : 0 < step) (arr : List α) :
    (slices arr.length step arr).flatten.length = arr.length + (arr.length - 1) / step :=
  slicesFrom_length hs arr arr.length 0 (by omega)

/-- The slices are a partition of the batch if and only if there is no second one. -/
theorem slices_flatten_iff (hs : 0 < step) (arr : List α) :
    (slices arr.length step arr).flatten = arr ↔ arr.length ≤ step := by
  constructor
  · intro h
    have hlen := slices_length hs arr
    rw [h] at hlen
    by_contra hlong
    have : 0 < (arr.length - 1) / step := Nat.div_pos (by omega) hs
    omega
  · intro h
    rcases Nat.eq_zero_or_pos arr.length with h0 | hpos
    · rw [slices, numericFor_of_lt (show arr.length < 1 by omega) hs,
        List.length_eq_zero_iff.mp h0]
      rfl
    · rw [slices, numericFor_cons hpos hs, numericFor_of_lt (by omega) hs]
      rw [List.map_cons, List.map_nil, List.flatten_cons, List.flatten_nil, List.append_nil,
        limit_eq, List.drop_zero, List.take_of_length_le (by omega)]

/-- The slices of the three handlers, of a batch whose count is its number of elements,
are a partition of it if and only if it has at most `100` elements. -/
theorem handlers_partition_iff (arr : List α) :
    ((webSlices arr.length arr).flatten = arr ∧ (autoSlices arr).flatten = arr ∧
      (wechatSlices arr).flatten = arr) ↔ arr.length ≤ 100 := by
  have h := slices_flatten_iff (show 0 < 100 by decide) arr
  exact ⟨fun hp => h.mp hp.1, fun hl => ⟨h.mpr hl, h.mpr hl, h.mpr hl⟩⟩

/-- Of `101` elements the last is taken twice. -/
theorem slices_of_101 :
    ¬ ∀ arr : List ℕ, (webSlices arr.length arr).flatten = arr ∧
      (autoSlices arr).flatten = arr ∧ (wechatSlices arr).flatten = arr := by
  intro h
  have hlen := slices_length (show 0 < 100 by decide) (List.range 101)
  have hflat := (h (List.range 101)).1
  rw [webSlices] at hflat
  rw [hflat, List.length_range] at hlen
  exact absurd hlen (by decide)

end AuthSlices
