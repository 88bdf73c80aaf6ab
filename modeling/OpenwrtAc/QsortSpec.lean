/-
# The sort sorts

Whatever the comparison answers, the sort ends, stays inside of the array and of its stack and
leaves a permutation; when the comparison is one of an order, the array is sorted.
-/
import OpenwrtAc.InPlace
import OpenwrtAc.Qsort
import Mathlib.Tactic.Linarith

open Outcome InPlace

namespace Qsort

variable {α : Type} {comp : α → α → ℤ} {E : Stop → Prop}

/-- What a sort asks of its comparison: that the sign turns with the arguments, and is one of an
    order. -/
structure Comparison (comp : α → α → ℤ) : Prop where
  flip : ∀ x y, 0 ≤ comp x y ↔ comp y x ≤ 0
  trans : ∀ x y z, comp x y ≤ 0 → comp y z ≤ 0 → comp x z ≤ 0

/-- `comp` puts the one not behind the other. -/
def Le (comp : α → α → ℤ) (x y : α) : Prop := comp x y ≤ 0

/-- No element belongs behind itself. -/
theorem Comparison.refl (h : Comparison comp) (x : α) : comp x x ≤ 0 := by
  have := h.flip x x
  omega

/-- Two elements inside the array are compared. -/
theorem compare_eq {a : Array α} {p q : ℕ} {x y : α} (hp : a[p]? = some x) (hq : a[q]? = some y) :
    compare comp a p q = .ok (comp x y) := by
  unfold compare
  rw [hp, hq]

/-- Inside the array there is an element. -/
theorem exists_at {a : Array α} {p : ℕ} (h : p < a.size) : ∃ x, a[p]? = some x :=
  ⟨a[p], Array.getElem?_eq_getElem h⟩

/-- Two elements inside the array are swapped. -/
theorem swap_eq {a : Array α} {p q : ℕ} (hp : p < a.size) (hq : q < a.size) :
    swap a p q = .ok (a.swap p q hp hq) := dif_pos ⟨hp, hq⟩

/-! ## The selection sort -/

/-- The place of an element that none of the others is behind. -/
theorem sat_findMax {a : Array α} {lo hi : ℕ} (hhi : hi < a.size) :
    ∀ (fuel p max : ℕ), lo ≤ max → max < p → p ≤ hi + 1 → hi + 1 < p + fuel →
      Sat (findMax comp a hi fuel p max) (fun m => lo ≤ m ∧ m ≤ hi ∧
        (Comparison comp → (∀ k, lo ≤ k → k < p → RelAt (Le comp) a k max) →
          ∀ k, lo ≤ k → k ≤ hi → RelAt (Le comp) a k m)) E := by
  intro fuel
  induction fuel with
  | zero =>
      intro p max _ _ _ hfuel
      omega
  | succ fuel ih =>
      intro p max hlo hmax hp hfuel
      unfold findMax
      by_cases hpi : p ≤ hi
      · obtain ⟨x, hx⟩ := exists_at (a := a) (p := p) (by omega)
        obtain ⟨y, hy⟩ := exists_at (a := a) (p := max) (by omega)
        rw [if_pos hpi, compare_eq hx hy]
        show Sat (findMax comp a hi fuel (p + 1) (if comp x y > 0 then p else max)) _ _
        by_cases hc : comp x y > 0
        · rw [if_pos hc]
          refine (ih (p + 1) p (by omega) (by omega) (by omega) (by omega)).mono
            (fun m hm => ⟨hm.1, hm.2.1, fun hcomp hall => hm.2.2 hcomp fun k hklo hkp => ?_⟩)
            fun _ => id
          intro z hz w hw
          obtain rfl := Option.mem_unique hx hw
          by_cases hk : k = p
          · subst hk
            obtain rfl := Option.mem_unique hx hz
            exact hcomp.refl x
          · have hyx : comp y x ≤ 0 := (hcomp.flip x y).1 (by omega)
            exact hcomp.trans z y x (hall k hklo (by omega) z hz y hy) hyx
        · rw [if_neg hc]
          refine (ih (p + 1) max hlo (by omega) (by omega) (by omega)).mono
            (fun m hm => ⟨hm.1, hm.2.1, fun hcomp hall => hm.2.2 hcomp fun k hklo hkp => ?_⟩)
            fun _ => id
          by_cases hk : k = p
          · subst hk
            intro z hz w hw
            obtain rfl := Option.mem_unique hx hz
            obtain rfl := Option.mem_unique hy hw
            exact Int.le_of_not_gt hc
          · exact hall k hklo (by omega)
      · rw [if_neg hpi]
        obtain rfl : p = hi + 1 := by omega
        exact ⟨hlo, by omega, fun _ hall k hklo hkhi => hall k hklo (by omega)⟩

/-- A part of a segment keeps its distance. -/
theorem apart_of_apart {lo hi lo' hi' : ℕ} {s : ℕ × ℕ} (h : Apart (lo, hi) s) (hlo : lo ≤ lo')
    (hhi : hi' ≤ hi) : Apart (lo', hi') s := by
  unfold Apart at *
  dsimp only at *
  omega

/-- A part of one element is in order. -/
theorem sortedBut_of_single {r : α → α → Prop} {lo hi : ℕ} {rest : List (ℕ × ℕ)} {a : Array α}
    (h : SortedBut r ((lo, hi) :: rest) a) (hhi : hi ≤ lo) : SortedBut r rest a := by
  intro i j hij
  obtain ⟨s, hs, hhas⟩ | hrel := h i j hij
  · rcases List.mem_cons.1 hs with rfl | hs
    · unfold Has at hhas
      dsimp only at hhas
      omega
    · exact Or.inl ⟨s, hs, hhas⟩
  · exact Or.inr hrel

/-- The selection sort of a short segment. -/
theorem sat_shortsort {rest : List (ℕ × ℕ)} {lo : ℕ} :
    ∀ (fuel : ℕ) (a : Array α) (hi : ℕ), lo ≤ hi → hi < a.size → hi < lo + fuel →
      (∀ s ∈ rest, Apart (lo, hi) s) →
      Sat (shortsort comp fuel a lo hi) (fun b => Rearranged lo hi a b ∧ (Comparison comp →
        SortedBut (Le comp) ((lo, hi) :: rest) a → SortedBut (Le comp) rest b)) E := by
  intro fuel
  induction fuel with
  | zero =>
      intro a hi hlo _ hfuel
      omega
  | succ fuel ih =>
      intro a hi hlohi hhi hfuel hapart
      unfold shortsort
      by_cases hlt : hi > lo
      · rw [if_pos hlt]
        refine (@sat_findMax _ _ _ _ lo _ hhi (a.size + 1) (lo + 1) lo (Nat.le_refl _) (by omega)
          (by omega) (by omega)).bind fun max hmax => ?_
        obtain ⟨hlo, hle, hmost⟩ := hmax
        rw [swap_eq (by omega) hhi]
        have hswap := rearranged_swap (by omega : max < a.size) hhi hlo hle (Nat.le_of_lt hlt)
          (Nat.le_refl hi)
        refine (ih _ (hi - 1) (by omega) (by rw [hswap.size]; omega) (by omega)
          fun s hs => apart_of_apart (hapart s hs) (Nat.le_refl lo) (Nat.sub_le _ _)).mono
          (fun b hb => ⟨hswap.trans (hb.1.widen (Nat.le_refl lo) (Nat.sub_le _ _)),
            fun hcomp hsorted => hb.2 hcomp ?_⟩) fun _ => id
        refine @SortedBut.step _ _ lo hi [(lo, hi - 1)] _ _ _ hsorted hapart hswap ?_
        intro i j hilo hij hjhi
        by_cases hj : j = hi
        · -- the greatest of them is at the end
          subst hj
          obtain ⟨k, hklo, hkhi, hk⟩ := hswap.inside i hilo (by omega)
          refine Or.inr ((hmost hcomp (fun k _ _ => ?_) k hklo hkhi).congr hk ?_)
          · obtain rfl : k = lo := by omega
            intro x hx y hy
            obtain rfl := Option.mem_unique hx hy
            exact hcomp.refl x
          · rw [getElem?_swap, if_pos rfl]
        · exact Or.inl ⟨_, List.mem_singleton_self _, hilo, Nat.le_sub_one_of_lt (by omega)⟩
      · rw [if_neg hlt]
        exact ⟨Rearranged.refl lo hi a, fun _ hsorted => sortedBut_of_single hsorted (by omega)⟩

/-! ## The partition -/

/-- The elements from `i` on up to before `j` have a property. -/
def Between (P : α → Prop) (a : Array α) (i j : ℕ) : Prop := ∀ k, i ≤ k → k < j → ∀ x ∈ a[k]?, P x

/-- The elements of a segment, and of no other, matter. -/
theorem Between.congr {P : α → Prop} {a b : Array α} {i j : ℕ} (h : Between P a i j)
    (hb : ∀ k, i ≤ k → k < j → b[k]? = a[k]?) : Between P b i j := by
  intro k hi hj x hx
  rw [hb k hi hj] at hx
  exact h k hi hj x hx

/-- One more element at the end. -/
theorem Between.snoc {P : α → Prop} {a : Array α} {i j : ℕ} (h : Between P a i j)
    (hP : ∀ x ∈ a[j]?, P x) : Between P a i (j + 1) := by
  intro k hi hj x hx
  by_cases hk : k = j
  · rw [hk] at hx
    exact hP x hx
  · exact h k hi (by omega) x hx

/-- One more element in front. -/
theorem Between.cons {P : α → Prop} {a : Array α} {i j : ℕ} (h : Between P a (i + 1) j)
    (hP : ∀ x ∈ a[i]?, P x) : Between P a i j := by
  intro k hi hj x hx
  by_cases hk : k = i
  · rw [hk] at hx
    exact hP x hx
  · exact h k (by omega) hj x hx

/-- The first element is `p`, those before `l` are not behind it, and those from `h` on not
    before it. -/
structure Parted (comp : α → α → ℤ) (p : α) (a : Array α) (lo hi l h : ℕ) : Prop where
  first : a[lo]? = some p
  low : Between (fun x => comp x p ≤ 0) a (lo + 1) l
  high : Between (fun x => 0 ≤ comp x p) a h (hi + 1)

/-- The scan from the left stops at an element that belongs to the right. -/
theorem sat_scanUp {a : Array α} {lo hi h : ℕ} {p : α} (hhi : hi < a.size) :
    ∀ (fuel loguy : ℕ), Parted comp p a lo hi (loguy + 1) h → loguy ≤ hi → hi < loguy + fuel →
      Sat (scanUp comp a lo hi fuel loguy) (fun r => loguy < r ∧ r ≤ hi + 1 ∧
        Parted comp p a lo hi r h ∧ (r ≤ hi → ∀ x ∈ a[r]?, 0 < comp x p)) E := by
  intro fuel
  induction fuel with
  | zero =>
      intro loguy _ hle hfuel
      omega
  | succ fuel ih =>
      intro loguy hparted hle hfuel
      unfold scanUp
      by_cases hlt : loguy + 1 ≤ hi
      · obtain ⟨x, hx⟩ := exists_at (a := a) (p := loguy + 1) (by omega)
        rw [if_pos hlt, compare_eq hx hparted.first]
        show Sat (if comp x p ≤ 0 then scanUp comp a lo hi fuel (loguy + 1) else _) _ _
        by_cases hc : comp x p ≤ 0
        · rw [if_pos hc]
          have hnext := hparted.low.snoc fun y hy => Option.mem_unique hx hy ▸ hc
          exact (ih (loguy + 1) ⟨hparted.first, hnext, hparted.high⟩ hlt (by omega)).mono
            (fun r hr => ⟨by omega, hr.2⟩) fun _ => id
        · rw [if_neg hc]
          exact ⟨Nat.lt_succ_self _, by omega, hparted,
            fun _ y hy => Option.mem_unique hx hy ▸ Int.lt_of_not_ge hc⟩
      · rw [if_neg hlt]
        exact ⟨Nat.lt_succ_self _, by omega, hparted, fun h => absurd h hlt⟩

/-- The scan from the right stops at an element that belongs to the left. -/
theorem sat_scanDown {a : Array α} {lo hi l : ℕ} {p : α} (hhi : hi < a.size) :
    ∀ (fuel higuy : ℕ), Parted comp p a lo hi l higuy → lo < higuy → higuy ≤ hi + 1 →
      higuy < lo + fuel + 1 →
      Sat (scanDown comp a lo fuel higuy) (fun r => lo ≤ r ∧ r < higuy ∧
        Parted comp p a lo hi l (r + 1) ∧ (lo < r → ∀ x ∈ a[r]?, comp x p < 0)) E := by
  intro fuel
  induction fuel with
  | zero =>
      intro higuy _ hlo _ hfuel
      omega
  | succ fuel ih =>
      intro higuy hparted hlo hle hfuel
      obtain ⟨r, rfl⟩ : ∃ r, higuy = r + 1 := ⟨higuy - 1, by omega⟩
      unfold scanDown
      rw [stopIf_of_not (by omega), Nat.add_sub_cancel]
      show Sat (if r > lo then _ else _) _ _
      by_cases hlt : r > lo
      · obtain ⟨x, hx⟩ := exists_at (a := a) (p := r) (by omega)
        rw [if_pos hlt, compare_eq hx hparted.first]
        show Sat (if comp x p ≥ 0 then scanDown comp a lo fuel r else _) _ _
        by_cases hc : comp x p ≥ 0
        · rw [if_pos hc]
          have hnext := hparted.high.cons fun y hy => Option.mem_unique hx hy ▸ hc
          exact (ih r ⟨hparted.first, hparted.low, hnext⟩ hlt (by omega) (by omega)).mono
            (fun q hq => ⟨hq.1, by omega, hq.2.2⟩) fun _ => id
        · rw [if_neg hc]
          exact ⟨Nat.le_of_lt hlt, Nat.lt_succ_self r, hparted,
            fun _ y hy => Option.mem_unique hx hy ▸ Int.lt_of_not_ge hc⟩
      · rw [if_neg hlt]
        exact ⟨by omega, Nat.lt_succ_self r, hparted, fun h => absurd h hlt⟩

/-- Exchanging the two elements that the scans stopped at lets them go on. -/
theorem Parted.swap {a : Array α} {lo hi l r : ℕ} {p : α} (h : Parted comp p a lo hi l (r + 1))
    (hr : r < a.size) (hlo : lo < l) (hlr : l < r) (hup : ∀ x ∈ a[l]?, 0 < comp x p)
    (hdown : ∀ x ∈ a[r]?, comp x p < 0) :
    Parted comp p (a.swap l r (by omega) hr) lo hi (l + 1) r := by
  refine ⟨?_, ?_, ?_⟩
  · rw [getElem?_swap, if_neg (by omega), if_neg (by omega)]
    exact h.first
  · refine (h.low.congr fun k _ hk => ?_).snoc fun x hx => ?_
    · rw [getElem?_swap, if_neg (by omega), if_neg (by omega)]
    · rw [getElem?_swap, if_neg (by omega), if_pos rfl] at hx
      exact Int.le_of_lt (hdown x hx)
  · refine (h.high.congr fun k hk _ => ?_).cons fun x hx => ?_
    · rw [getElem?_swap, if_neg (by omega), if_neg (by omega)]
    · rw [getElem?_swap, if_pos rfl] at hx
      exact Int.le_of_lt (hup x hx)

/-- Where the scans have met. -/
structure Met (comp : α → α → ℤ) (p : α) (a b : Array α) (lo hi loguy higuy : ℕ) : Prop where
  moved : Rearranged lo hi a b
  parted : Parted comp p b lo hi loguy (higuy + 1)
  lo_le : lo ≤ higuy
  lt : higuy < loguy
  loguy_le : loguy ≤ hi + 1
  higuy_le : higuy ≤ hi

/-- The loop of the two scans parts the segment. -/
theorem sat_partitionLoop {lo hi : ℕ} {p : α} :
    ∀ (fuel : ℕ) (a : Array α) (loguy higuy : ℕ), hi < a.size →
      Parted comp p a lo hi (loguy + 1) higuy → lo ≤ loguy → loguy < higuy → higuy ≤ hi + 1 →
      higuy < loguy + fuel + 1 →
      Sat (partitionLoop comp lo hi fuel a loguy higuy)
        (fun r => Met comp p a r.1 lo hi r.2.1 r.2.2) E := by
  intro fuel
  induction fuel with
  | zero =>
      intro a loguy higuy _ _ _ hlt _ hfuel
      omega
  | succ fuel ih =>
      intro a loguy higuy hhi hparted hlo hlt hle hfuel
      unfold partitionLoop
      refine (sat_scanUp hhi (a.size + 1) loguy hparted (by omega) (by omega)).bind fun l hl => ?_
      obtain ⟨hl₁, hl₂, hparted, hup⟩ := hl
      refine (sat_scanDown hhi (a.size + 1) higuy hparted (by omega) hle (by omega)).bind
        fun r hr => ?_
      obtain ⟨hr₁, hr₂, hparted, hdown⟩ := hr
      by_cases hmet : r < l
      · rw [if_pos hmet]
        exact ⟨Rearranged.refl lo hi a, hparted, hr₁, hmet, hl₂, by dsimp only; omega⟩
      · rw [if_neg hmet]
        have hup := hup (by omega)
        have hdown := hdown (by omega)
        -- one element cannot have stopped both scans
        have hne : l ≠ r := by
          rintro rfl
          obtain ⟨x, hx⟩ := exists_at (a := a) (p := l) (by omega)
          have h₁ := hup x hx
          have h₂ := hdown x hx
          omega
        rw [swap_eq (by omega) (by omega)]
        have hswap := rearranged_swap (by omega : l < a.size) (by omega : r < a.size)
          (by omega : lo ≤ l) (by omega : l ≤ hi) hr₁ (by omega : r ≤ hi)
        exact (ih _ l r (by rw [hswap.size]; exact hhi)
          (hparted.swap (by omega) (by omega) (by omega) hup hdown) (by omega) (by omega)
          (by omega) (by omega)).mono (fun _ h => { h with moved := hswap.trans h.moved })
          fun _ => id

/-- The first element goes between the two sides. -/
theorem Met.order {a b : Array α} {lo hi l h : ℕ} {p : α} (hmet : Met comp p a b lo hi l h)
    (hhi : hi < b.size) (hcomp : Comparison comp) {i j : ℕ} (hi' : lo ≤ i) (hij : i < j)
    (hj : j ≤ hi) (hleft : h ≤ j) (hright : i < l) :
    RelAt (Le comp) (b.swap lo h (by have := hmet.lo_le; have := hmet.higuy_le; omega)
      (by have := hmet.higuy_le; omega)) i j := by
  have hlo := hmet.lo_le
  have hlt := hmet.lt
  have hfirst := hmet.parted.first
  intro x hx y hy
  rw [getElem?_swap] at hx hy
  have hxp : comp x p ≤ 0 := by
    split at hx
    · obtain rfl := Option.mem_unique hfirst hx
      exact hcomp.refl p
    · split at hx
      · by_cases hzero : h = lo
        · rw [hzero] at hx
          obtain rfl := Option.mem_unique hfirst hx
          exact hcomp.refl p
        · exact hmet.parted.low h (by omega) hlt x hx
      · exact hmet.parted.low i (by omega) hright x hx
  have hpy : comp p y ≤ 0 := by
    split at hy
    · obtain rfl := Option.mem_unique hfirst hy
      exact hcomp.refl p
    · split at hy
      · omega
      · exact (hcomp.flip y p).1 (hmet.parted.high j (by omega) (by omega) y hy)
  exact hcomp.trans x p y hxp hpy

/-- What a partition leaves. -/
structure Partitioned (comp : α → α → ℤ) (a b : Array α) (lo hi loguy higuy : ℕ) : Prop where
  moved : Rearranged lo hi a b
  lo_le : lo ≤ higuy
  lt : higuy < loguy
  loguy_le : loguy ≤ hi + 1
  higuy_le : higuy ≤ hi
  order : Comparison comp → ∀ i j, lo ≤ i → i < j → j ≤ hi → higuy ≤ j → i < loguy →
    RelAt (Le comp) b i j

/-- A segment is parted around its pivot. -/
theorem sat_partition {a : Array α} {lo hi : ℕ} (hhi : hi < a.size) (hlo : lo ≤ hi) :
    Sat (partition comp a lo hi) (fun r => Partitioned comp a r.1 lo hi r.2.1 r.2.2) E := by
  unfold partition
  show Sat (swap a (lo + (hi - lo + 1) / 2) lo >>= _) _ _
  rw [swap_eq (by omega) (by omega)]
  have hmid := rearranged_swap (by omega : lo + (hi - lo + 1) / 2 < a.size)
    (by omega : lo < a.size) (Nat.le_add_right _ _) (by omega) (Nat.le_refl lo) hlo
  generalize a.swap (lo + (hi - lo + 1) / 2) lo (by omega) (by omega) = b at hmid ⊢
  have hsize := hmid.size
  obtain ⟨p, hp⟩ := exists_at (a := b) (p := lo) (by omega)
  have hparted : Parted comp p b lo hi (lo + 1) (hi + 1) :=
    ⟨hp, fun k hk hk' => by omega, fun k hk hk' => by omega⟩
  show Sat (partitionLoop comp lo hi (b.size + 1) b lo (hi + 1) >>= _) _ _
  refine (sat_partitionLoop (b.size + 1) b lo (hi + 1) (by omega) hparted (Nat.le_refl lo)
    (by omega) (Nat.le_refl _) (by omega)).bind fun r hmet => ?_
  obtain ⟨c, l, h⟩ := r
  dsimp only at hmet ⊢
  have hc := hmet.moved.size
  have hle := hmet.higuy_le
  rw [swap_eq (by omega) (by omega)]
  have hlast := rearranged_swap (a := c) (by omega : lo < c.size) (by omega : h < c.size)
    (Nat.le_refl lo) hlo hmet.lo_le hle
  exact { hmet with
    moved := (hmid.trans hmet.moved).trans hlast
    order := fun hcomp i j hi' hij hj hleft hright =>
      hmet.order (by omega) hcomp hi' hij hj hleft hright }

/-! ## The stack -/

/-- The number of elements in a sub-array. -/
def len (s : ℕ × ℕ) : ℕ := s.2 - s.1 + 1

/-- A sub-array with `k` others under it has at most one in `2^k` of the elements. -/
def Small (n : ℕ) : List (ℕ × ℕ) → Prop
  | [] => True
  | s :: stk => len s * 2 ^ stk.length ≤ n ∧ Small n stk

/-- The elements that are still to be sorted. -/
def work (parts : List (ℕ × ℕ)) : ℕ := (parts.map len).sum

/-- The sub-arrays that are still to be sorted, of an array of `n` elements. -/
structure Pending (n : ℕ) (parts : List (ℕ × ℕ)) : Prop where
  within : ∀ s ∈ parts, s.1 < s.2 ∧ s.2 < n
  apart : parts.Pairwise Apart
  small : Small n parts

/-- The other segments of the stack. -/
theorem Pending.tail {n : ℕ} {s : ℕ × ℕ} {stk : List (ℕ × ℕ)} (h : Pending n (s :: stk)) :
    Pending n stk :=
  ⟨fun t ht => h.within t (List.mem_cons_of_mem s ht), (List.pairwise_cons.1 h.apart).2, h.small.2⟩

/-- There is room for one more entry as long as the sub-array in hand is not a short one. -/
theorem Pending.room {n : ℕ} {s : ℕ × ℕ} {stk : List (ℕ × ℕ)} (h : Pending n (s :: stk))
    (hn : n < 2 ^ 32) (hs : cutoff < len s) : stk.length < stackSize := by
  by_contra hfull
  have hpow : 2 ^ 30 ≤ 2 ^ stk.length :=
    Nat.pow_le_pow_right (by decide) (Nat.le_of_not_lt hfull)
  have hsmall := h.small.1
  have := Nat.mul_le_mul (Nat.succ_le_of_lt hs) hpow
  unfold cutoff at this
  omega

/-- A sub-array, unless it is too short to be sorted. -/
def side (lo hi : ℕ) : List (ℕ × ℕ) := if lo < hi then [(lo, hi)] else []

/-- A side of one element need not be sorted. -/
theorem mem_side {lo hi : ℕ} {s : ℕ × ℕ} : s ∈ side lo hi ↔ s = (lo, hi) ∧ lo < hi := by
  unfold side
  split
  case isTrue h => simp only [List.mem_singleton, h, and_true]
  case isFalse h => simp only [List.not_mem_nil, h, and_false]

/-- A side has less work than the segment. -/
theorem work_side {lo hi n : ℕ} (h : hi < lo + n ∨ hi ≤ lo) (parts : List (ℕ × ℕ)) :
    work (side lo hi ++ parts) ≤ n + work parts := by
  unfold side work
  split
  · simp only [List.singleton_append, List.map_cons, List.sum_cons, len]
    omega
  · exact Nat.le_add_left _ _

/-- The two sides of a sub-array instead of it, the shorter one in front. -/
theorem Pending.sides {n lo hi a b c d : ℕ} {stk : List (ℕ × ℕ)} (h : Pending n ((lo, hi) :: stk))
    (ha : lo ≤ a) (hb : b ≤ hi) (hc : lo ≤ c) (hd : d ≤ hi) (hapart : b < c ∨ d < a)
    (hhalf : 2 * (b + 1 - a) ≤ hi + 1 - lo) : Pending n (side a b ++ (side c d ++ stk)) := by
  have hwithin := h.within _ List.mem_cons_self
  have hstk := List.pairwise_cons.1 h.apart
  have hsmall := h.small.1
  unfold len at hsmall
  dsimp only at hwithin hsmall
  refine ⟨fun s hs => ?_, ?_, ?_⟩
  · rcases List.mem_append.1 hs with hs | hs
    · obtain ⟨rfl, hlt⟩ := mem_side.1 hs
      exact ⟨hlt, by dsimp only; omega⟩
    · rcases List.mem_append.1 hs with hs | hs
      · obtain ⟨rfl, hlt⟩ := mem_side.1 hs
        exact ⟨hlt, by dsimp only; omega⟩
      · exact h.tail.within s hs
  · have hsingle : ∀ x y : ℕ, (side x y).Pairwise Apart := by
      intro x y
      unfold side
      split
      · exact List.pairwise_singleton _ _
      · exact List.Pairwise.nil
    refine List.pairwise_append.2 ⟨hsingle a b, List.pairwise_append.2 ⟨hsingle c d, hstk.2, ?_⟩, ?_⟩
    · intro s hs t ht
      obtain ⟨rfl, hlt⟩ := mem_side.1 hs
      exact apart_of_apart (hstk.1 t ht) hc hd
    · intro s hs t ht
      obtain ⟨rfl, hlt⟩ := mem_side.1 hs
      rcases List.mem_append.1 ht with ht | ht
      · obtain ⟨rfl, hlt'⟩ := mem_side.1 ht
        exact hapart
      · exact apart_of_apart (hstk.1 t ht) ha hb
  · have hlow : Small n (side c d ++ stk) := by
      unfold side
      split
      · refine ⟨Nat.le_trans (Nat.mul_le_mul_right _ ?_) hsmall, h.small.2⟩
        unfold len
        dsimp only
        omega
      · exact h.small.2
    have hlen : (side c d ++ stk).length ≤ stk.length + 1 := by
      unfold side
      split
      · exact Nat.le_refl _
      · exact Nat.le_succ _
    unfold side at *
    split
    · refine ⟨Nat.le_trans (Nat.mul_le_mul_left _ (Nat.pow_le_pow_right (by decide) hlen)) ?_, hlow⟩
      rw [Nat.pow_succ, Nat.mul_comm (2 ^ stk.length), ← Nat.mul_assoc]
      refine Nat.le_trans (Nat.mul_le_mul_right _ ?_) hsmall
      unfold len
      dsimp only
      omega
    · exact hlow

/-- The sides in the order in which they are sorted. -/
theorem subarrays_eq {width lo hi l h : ℕ} {stk : List (ℕ × ℕ)} (hroom : stk.length < stackSize) :
    subarrays width lo hi l h stk =
      .ok (if (width : ℤ) * h - 1 - width * lo ≥ width * hi - width * l
        then side l hi ++ (side lo (h - 1) ++ stk) else side lo (h - 1) ++ (side l hi ++ stk)) := by
  have hpush : ∀ part, push stk part = .ok (part :: stk) := fun part => if_pos hroom
  have hleft : lo + 1 < h ↔ lo < h - 1 := by omega
  unfold subarrays side
  simp only [hpush, hleft]
  split
  · split <;> split <;> rfl
  · split <;> split <;> rfl

/-- The test on the addresses compares the lengths of the sides. -/
theorem shorter_side {width lo hi l h : ℕ} (hw : 0 < width) :
    (width : ℤ) * h - 1 - width * lo ≥ width * hi - width * l ↔ hi + lo < l + h := by
  have hw' : (0 : ℤ) < width := by omega
  rw [show (width : ℤ) * h - 1 - width * lo ≥ width * hi - width * l ↔
    (width : ℤ) * (hi + lo) < width * (l + h) by rw [Int.mul_add, Int.mul_add]; omega]
  constructor
  · intro hlt
    have := Int.lt_of_mul_lt_mul_left hlt (Int.le_of_lt hw')
    omega
  · intro hlt
    exact Int.mul_lt_mul_of_pos_left (by omega) hw'

/-! ## The sort -/

/-- The loop with its stack sorts every segment pending. -/
theorem sat_sortLoop {width n : ℕ} (hw : 0 < width) (hn : n < 2 ^ 32) :
    ∀ (fuel : ℕ) (a : Array α) (parts : List (ℕ × ℕ)), a.size = n → Pending n parts →
      work parts < fuel →
      Sat (sortLoop comp width fuel a parts) (fun b => b.Perm a ∧ (Comparison comp →
        SortedBut (Le comp) parts a → SortedBut (Le comp) [] b)) E := by
  intro fuel
  induction fuel with
  | zero =>
      intro a parts _ _ hfuel
      omega
  | succ fuel ih =>
      intro a parts hsize hpend hfuel
      match parts, hpend with
      | [], _ => exact ⟨.rfl, fun _ h => h⟩
      | (lo, hi) :: stk, hpend =>
        have hwithin := hpend.within _ List.mem_cons_self
        have hapart := (List.pairwise_cons.1 hpend.apart).1
        have hwork : work ((lo, hi) :: stk) = hi - lo + 1 + work stk := rfl
        dsimp only at hwithin
        rw [sortLoop]
        by_cases hcut : hi - lo + 1 ≤ cutoff
        · rw [if_pos hcut]
          refine (sat_shortsort (a.size + 1) a hi (by omega) (by omega) (by omega) hapart).bind
            fun b hb => ?_
          refine (ih b stk (hb.1.size.trans hsize) hpend.tail (by omega)).mono
            (fun c hc => ⟨hc.1.trans hb.1.perm, fun hcomp h => hc.2 hcomp (hb.2 hcomp h)⟩)
            fun _ => id
        · rw [if_neg hcut]
          refine (sat_partition (by omega) (Nat.le_of_lt hwithin.1)).bind fun r hr => ?_
          obtain ⟨b, l, h⟩ := r
          dsimp only at hr ⊢
          have hlo := hr.lo_le
          have hlt := hr.lt
          have hl := hr.loguy_le
          have hh := hr.higuy_le
          rw [subarrays_eq (hpend.room hn (Nat.lt_of_not_le hcut))]
          show Sat (sortLoop comp width fuel b _) _ _
          -- the two sides, in either order
          have hgo : ∀ top, Pending n (top ++ stk) → work (top ++ stk) < work ((lo, hi) :: stk) →
              (∀ i j, i < j → j < h → lo ≤ i → ∃ s ∈ top, Has s i j) →
              (∀ i j, i < j → j ≤ hi → l ≤ i → ∃ s ∈ top, Has s i j) →
              Sat (sortLoop comp width fuel b (top ++ stk)) (fun b => b.Perm a ∧ (Comparison comp →
                SortedBut (Le comp) ((lo, hi) :: stk) a → SortedBut (Le comp) [] b)) E := by
            intro top hpend' hless hleft hright
            refine (ih b _ (hr.moved.size.trans hsize) hpend' (by omega)).mono
              (fun c hc => ⟨hc.1.trans hr.moved.perm, fun hcomp hsorted => hc.2 hcomp ?_⟩)
              fun _ => id
            refine hsorted.step hapart hr.moved fun i j hi' hij hj => ?_
            by_cases hj' : j < h
            · exact Or.inl (hleft i j hij hj' hi')
            · by_cases hi'' : l ≤ i
              · exact Or.inl (hright i j hij hj hi'')
              · exact Or.inr (hr.order hcomp i j hi' hij hj (by omega) (by omega))
          have hleft : ∀ i j, i < j → j < h → lo ≤ i → ∃ s ∈ side lo (h - 1), Has s i j :=
            fun i j _ _ _ => ⟨_, mem_side.2 ⟨rfl, by omega⟩, by unfold Has; omega⟩
          have hright : ∀ i j, i < j → j ≤ hi → l ≤ i → ∃ s ∈ side l hi, Has s i j :=
            fun i j _ _ _ => ⟨_, mem_side.2 ⟨rfl, by omega⟩, by unfold Has; omega⟩
          split
          next hcond =>
            have hshort := (shorter_side hw).1 hcond
            have hpend' := hpend.sides (a := l) (b := hi) (c := lo) (d := h - 1) (by omega)
              (by omega) (by omega) (by omega) (by omega) (by omega)
            have hless := work_side (by omega : hi < l + (hi + 1 - l) ∨ hi ≤ l) (side lo (h - 1) ++ stk)
            have hless' := work_side (by omega : h - 1 < lo + (h - lo) ∨ h - 1 ≤ lo) stk
            rw [← List.append_assoc] at hpend' hless ⊢
            refine hgo _ hpend' (by omega) (fun i j hij hj hi' => ?_) fun i j hij hj hi' => ?_
            · obtain ⟨s, hs, hhas⟩ := hleft i j hij hj hi'
              exact ⟨s, List.mem_append_right _ hs, hhas⟩
            · obtain ⟨s, hs, hhas⟩ := hright i j hij hj hi'
              exact ⟨s, List.mem_append_left _ hs, hhas⟩
          next hcond =>
            have hshort := mt (shorter_side hw).2 hcond
            have hpend' := hpend.sides (a := lo) (b := h - 1) (c := l) (d := hi) (by omega)
              (by omega) (by omega) (by omega) (by omega) (by omega)
            have hless := work_side (by omega : h - 1 < lo + (h - lo) ∨ h - 1 ≤ lo) (side l hi ++ stk)
            have hless' := work_side (by omega : hi < l + (hi + 1 - l) ∨ hi ≤ l) stk
            rw [← List.append_assoc] at hpend' hless ⊢
            refine hgo _ hpend' (by omega) (fun i j hij hj hi' => ?_) fun i j hij hj hi' => ?_
            · obtain ⟨s, hs, hhas⟩ := hleft i j hij hj hi'
              exact ⟨s, List.mem_append_left _ hs, hhas⟩
            · obtain ⟨s, hs, hhas⟩ := hright i j hij hj hi'
              exact ⟨s, List.mem_append_right _ hs, hhas⟩

/-- For every comparison the sort returns a permutation of an array of less than 2^32 bytes, and
    a sorted one when the comparison is one of an order. -/
theorem sat_qsort (comp : α → α → ℤ) {width : ℕ} {a : Array α} (hw : 0 < width)
    (hbytes : width * a.size < 2 ^ 32) :
    Sat (qsort comp width a) (fun b => b.Perm a ∧
      (Comparison comp → b.toList.Pairwise fun x y => comp x y ≤ 0)) fun _ => False := by
  unfold qsort
  have hn : a.size < 2 ^ 32 := by
    have := Nat.le_mul_of_pos_left a.size hw
    omega
  by_cases hnum : a.size < 2 ∨ width = 0
  · rw [if_pos hnum]
    refine ⟨.rfl, fun _ => ?_⟩
    have hlen : a.toList.length < 2 := by
      rw [Array.length_toList]
      omega
    match a.toList, hlen with
    | [], _ => exact List.Pairwise.nil
    | [x], _ => exact List.pairwise_singleton _ x
  · rw [if_neg hnum]
    have hpend : Pending a.size [(0, a.size - 1)] := by
      refine ⟨fun s hs => ?_, List.pairwise_singleton _ _, ?_, trivial⟩
      · obtain rfl := List.mem_singleton.1 hs
        dsimp only
        omega
      · unfold len
        show (a.size - 1 - 0 + 1) * 1 ≤ a.size
        omega
    have hwork : work [(0, a.size - 1)] < a.size + 1 := by
      show a.size - 1 - 0 + 1 + 0 < a.size + 1
      omega
    exact (sat_sortLoop hw hn (a.size + 1) a _ rfl hpend hwork).mono
      (fun b hb => ⟨hb.1, fun hcomp => (hb.2 hcomp (sortedBut_whole _ a)).pairwise⟩) fun _ => id

/-- Whatever the comparison answers, the sort of an array of less than 2^32 bytes stays inside of
    the array and of its stack, ends, and leaves a permutation; for the comparison of an order
    the array is sorted. -/
theorem qsort_sorts (comp : α → α → ℤ) (width : ℕ) (a : Array α)
    (hbytes : width * a.size < 2 ^ 32) :
    ∃ b, qsort comp width a = .ok b ∧ b.Perm a ∧
      (0 < width → Comparison comp → b.toList.Pairwise fun x y => comp x y ≤ 0) := by
  by_cases hw : 0 < width
  · obtain ⟨b, hb, hperm, hsorted⟩ := (sat_qsort comp hw hbytes).exists_ok
    exact ⟨b, hb, hperm, fun _ => hsorted⟩
  · exact ⟨a, if_pos (Or.inr (by omega)), .rfl, fun h => absurd h hw⟩

/-- The comparison of numbers by their difference. -/
theorem sub_comparison : Comparison fun x y : ℕ => (x : ℤ) - y where
  flip x y := by omega
  trans x y z h h' := by omega

/-- Ten numbers that stand in the wrong order, one of them twice. -/
theorem qsort_sorts_ten :
    ∃ b, qsort (fun x y : ℕ => (x : ℤ) - y) 4 #[9, 8, 3, 6, 5, 4, 3, 2, 1, 0] = .ok b ∧
      b.Perm #[9, 8, 3, 6, 5, 4, 3, 2, 1, 0] ∧ b.toList.Pairwise fun x y : ℕ => (x : ℤ) - y ≤ 0 := by
  obtain ⟨b, hb, hperm, hsorted⟩ :=
    qsort_sorts (fun x y : ℕ => (x : ℤ) - y) 4 #[9, 8, 3, 6, 5, 4, 3, 2, 1, 0] (by decide)
  exact ⟨b, hb, hperm, hsorted (by decide) sub_comparison⟩

end Qsort
