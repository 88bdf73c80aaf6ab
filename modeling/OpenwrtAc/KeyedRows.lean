/-
# Rows with a key

Rows that are told apart by a key and by a second column, as the tables of a configuration
are: a row is replaced by its key, new keys are the least ones that are free, and rows that
carry a rank are read in the order of their ranks.
-/
import Mathlib.Data.List.Sort
import Mathlib.Data.List.Nodup
import Mathlib.Data.List.Perm.Subperm
import Mathlib.Data.Int.Order.Basic
import Mathlib.Tactic.Common

namespace KeyedRows

variable {α : Type}

/-! ## Rows replaced by their key -/

section Replace

variable {κ ν : Type} [DecidableEq κ] {key : α → κ} {name : α → ν}

/-- The rows with key `k` become what `p` makes of them. -/
def rewrite (key : α → κ) (k : κ) (p : α → α) (rows : List α) : List α :=
  rows.map fun r => if key r = k then p r else r

/-- The rows after one key is rewritten. -/
theorem mem_rewrite {k : κ} {p : α → α} {rows : List α} {r : α} :
    r ∈ rewrite key k p rows ↔ (r ∈ rows ∧ key r ≠ k) ∨ ∃ r₀ ∈ rows, key r₀ = k ∧ r = p r₀ := by
  simp only [rewrite, List.mem_map]
  constructor
  · rintro ⟨r₀, hr₀, rfl⟩
    by_cases h : key r₀ = k
    · right
      exact ⟨r₀, hr₀, h, if_pos h⟩
    · left
      rw [if_neg h]
      exact ⟨hr₀, h⟩
  · rintro (⟨hr, h⟩ | ⟨r₀, hr₀, h, rfl⟩)
    · exact ⟨r, hr, if_neg h⟩
    · exact ⟨r₀, hr₀, if_pos h⟩

/-- A column that `p` leaves alone. -/
theorem map_rewrite {β : Type} {k : κ} {p : α → α} {rows : List α} {f : α → β}
    (h : ∀ r ∈ rows, key r = k → f (p r) = f r) : (rewrite key k p rows).map f = rows.map f := by
  rw [rewrite, List.map_map]
  apply List.map_congr_left
  intro r hr
  simp only [Function.comp_apply]
  split
  · exact h r hr ‹_›
  · rfl

/-- A key that is in the table stays in it. -/
theorem exists_key_rewrite {k : κ} {p : α → α} {rows : List α}
    (h : ∀ r ∈ rows, key r = k → key (p r) = k) {i : κ} :
    (∃ r ∈ rewrite key k p rows, key r = i) ↔ ∃ r ∈ rows, key r = i := by
  have hmap : (rewrite key k p rows).map key = rows.map key :=
    map_rewrite fun r hr hk => (h r hr hk).trans hk.symm
  rw [← List.mem_map, hmap, List.mem_map]

/-- A row with a new value at the end. -/
theorem nodup_snoc {β : Type} {f : α → β} {rows : List α} {r : α} (h : (rows.map f).Nodup)
    (hr : ∀ r' ∈ rows, f r' ≠ f r) : ((rows ++ [r]).map f).Nodup := by
  rw [List.map_append, List.map_singleton, List.nodup_append]
  refine ⟨h, List.nodup_singleton _, ?_⟩
  intro a ha b hb
  obtain ⟨r', hr', rfl⟩ := List.mem_map.1 ha
  rw [List.mem_singleton.1 hb]
  exact hr r' hr'

/-- Fewer rows have no more equal values. -/
theorem nodup_filter {β : Type} {f : α → β} {rows : List α} (q : α → Bool)
    (h : (rows.map f).Nodup) : ((rows.filter q).map f).Nodup :=
  h.sublist (List.filter_sublist.map f)

/-- Names stay distinct when the row with key `k` gets a name that no other row has. -/
theorem nodup_rewrite {k : κ} {p : α → α} {rows : List α} (hkey : (rows.map key).Nodup)
    (hname : (rows.map name).Nodup)
    (h : ∀ r ∈ rows, key r = k → ∀ r' ∈ rows, key r' ≠ k → name r' ≠ name (p r)) :
    ((rewrite key k p rows).map name).Nodup := by
  rw [rewrite, List.map_map, List.Nodup, List.pairwise_map]
  rw [List.Nodup, List.pairwise_map] at hkey hname
  refine (hkey.and hname).imp_of_mem ?_
  rintro r r' hr hr' ⟨hk, hn⟩
  simp only [Function.comp_apply]
  split <;> split
  · exact absurd (‹key r = k›.trans ‹key r' = k›.symm) hk
  · exact (h r hr ‹_› r' hr' ‹_›).symm
  · exact h r' hr' ‹_› r hr ‹_›
  · exact hn

omit [DecidableEq κ] in
/-- A key belongs to one row. -/
theorem eq_of_key {rows : List α} (h : (rows.map key).Nodup) {r r' : α} (hr : r ∈ rows)
    (hr' : r' ∈ rows) (hk : key r = key r') : r = r' :=
  List.inj_on_of_nodup_map h hr hr' hk

end Replace

/-! ## The row that a key and a name pick -/

section Pick

variable {κ ν : Type} [DecidableEq κ] [DecidableEq ν]

/-- The rows with the key or the name, where that is one row and the key is its own. -/
def pick (key : α → κ) (name : α → ν) (rows : List α) (k : κ) (n : ν) : Option α :=
  match rows.filter fun r => key r = k ∨ name r = n with
  | [r] => if key r = k then some r else none
  | _ => none

/-- The row that is picked has the key, and nobody else the name. -/
theorem pick_some {key : α → κ} {name : α → ν} {rows : List α} {k : κ} {n : ν} {r : α}
    (h : pick key name rows k n = some r) :
    r ∈ rows ∧ key r = k ∧ ∀ r' ∈ rows, key r' = k ∨ name r' = n → r' = r := by
  unfold pick at h
  split at h
  · rename_i r₀ hf
    split at h
    · rename_i hk
      cases h
      have hmem : ∀ r', r' ∈ rows ∧ (key r' = k ∨ name r' = n) ↔ r' = r := by
        intro r'
        have : r' ∈ rows.filter (fun r => key r = k ∨ name r = n) ↔ r' ∈ [r] := by rw [hf]
        simpa using this
      exact ⟨((hmem r).2 rfl).1, hk, fun r' hr' hc => (hmem r').1 ⟨hr', hc⟩⟩
    · cases h
  · cases h

end Pick

/-! ## Values that all name rows -/

/-- As many rows as there are values are found only if the values are distinct and each is the
    key of a row. -/
theorem covers {κ : Type} [DecidableEq κ] {key : α → κ} {rows : List α} {vals : List κ}
    (hkey : (rows.map key).Nodup)
    (h : vals.length ≤ (rows.filter fun r => key r ∈ vals).length) :
    vals.Nodup ∧ ∀ v ∈ vals, ∃ r ∈ rows, key r = v := by
  have hnodup : ((rows.filter fun r => key r ∈ vals).map key).Nodup := nodup_filter _ hkey
  have hsub : (rows.filter fun r => key r ∈ vals).map key ⊆ vals := by
    intro v hv
    obtain ⟨r, hr, rfl⟩ := List.mem_map.1 hv
    simpa using (List.mem_filter.1 hr).2
  have hperm := (List.subperm_of_subset hnodup hsub).perm_of_length_le (by simpa using h)
  refine ⟨hperm.nodup_iff.1 hnodup, ?_⟩
  intro v hv
  obtain ⟨r, hr, hrv⟩ := List.mem_map.1 (hperm.mem_iff.2 hv)
  exact ⟨r, (List.mem_filter.1 hr).1, hrv⟩

/-! ## The least key that is free -/

section Least

/-- `m` is the least number from `lo` on that is not among the keys. -/
def LeastFree (lo : ℤ) (ids : List ℤ) (m : ℤ) : Prop :=
  lo ≤ m ∧ m ∉ ids ∧ ∀ k, lo ≤ k → k < m → k ∈ ids

/-- There is one least free number. -/
theorem LeastFree.unique {lo m m' : ℤ} {ids : List ℤ} (h : LeastFree lo ids m)
    (h' : LeastFree lo ids m') : m = m' := by
  rcases lt_trichotomy m m' with hlt | heq | hgt
  · exact absurd (h'.2.2 m h.1 hlt) h.2.1
  · exact heq
  · exact absurd (h.2.2 m' h'.1 hgt) h'.2.1

/-- The least free number depends on which numbers are taken. -/
theorem LeastFree.congr {lo m : ℤ} {ids ids' : List ℤ} (h : LeastFree lo ids m)
    (hmem : ∀ k, k ∈ ids ↔ k ∈ ids') : LeastFree lo ids' m :=
  ⟨h.1, fun hm => h.2.1 ((hmem m).2 hm), fun k hlo hk => (hmem k).1 (h.2.2 k hlo hk)⟩

/-- The first place of an ascending list whose entry is above the number of the place. -/
def firstGap : ℤ → List ℤ → ℤ
  | lo, [] => lo
  | lo, v :: vs => if v > lo then lo else firstGap (lo + 1) vs

/-- In a sorted list the first gap is the least free number. -/
theorem firstGap_least : ∀ (ids : List ℤ) (lo : ℤ), ids.Pairwise (· < ·) → (∀ v ∈ ids, lo ≤ v) →
    LeastFree lo ids (firstGap lo ids)
  | [], lo, _, _ => by
    refine ⟨le_refl _, List.not_mem_nil, ?_⟩
    intro k hlo hk
    exact absurd hlo (not_le.2 hk)
  | v :: vs, lo, hsorted, hlow => by
    rw [firstGap]
    have hv := hlow v List.mem_cons_self
    have habove := (List.pairwise_cons.1 hsorted).1
    split
    · rename_i hgt
      refine ⟨le_refl _, ?_, fun k hlo hk => absurd hlo (not_le.2 hk)⟩
      intro hm
      rcases List.mem_cons.1 hm with rfl | hm
      · exact lt_irrefl _ hgt
      · have := habove _ hm
        omega
    · have hvlo : v = lo := by omega
      subst hvlo
      obtain ⟨hle, hnot, hall⟩ := firstGap_least vs (v + 1) (List.pairwise_cons.1 hsorted).2
        fun w hw => habove w hw
      refine ⟨by omega, ?_, ?_⟩
      · intro hm
        rcases List.mem_cons.1 hm with heq | hm
        · omega
        · exact hnot hm
      · intro k hk hlt
        rcases eq_or_lt_of_le hk with rfl | hk
        · exact List.mem_cons_self
        · exact List.mem_cons_of_mem _ (hall k hk hlt)

/-- The least free number is at most the number of keys. -/
theorem LeastFree.le_length {m : ℤ} {ids : List ℤ} (h : LeastFree 0 ids m) : m ≤ ids.length := by
  have hsub : (List.range m.toNat).map (Int.ofNat) ⊆ ids := by
    intro k hk
    obtain ⟨n, hn, rfl⟩ := List.mem_map.1 hk
    have hn := List.mem_range.1 hn
    apply h.2.2 _ (Int.natCast_nonneg n)
    omega
  have hnodup : ((List.range m.toNat).map Int.ofNat).Nodup :=
    List.nodup_range.map fun a b hab => Int.ofNat.inj hab
  have hlen := (List.subperm_of_subset hnodup hsub).length_le
  rw [List.length_map, List.length_range] at hlen
  have := h.1
  omega

end Least

/-! ## Rows in the order of their ranks -/

section Rank

variable {κ : Type} {key : α → κ} {rank : α → ℤ}

/-- The rows from the lowest rank to the highest. -/
def ranked (rank : α → ℤ) (rows : List α) : List α :=
  rows.insertionSort fun r r' => rank r ≤ rank r'

/-- The keys from the lowest rank to the highest. -/
def order (key : α → κ) (rank : α → ℤ) (rows : List α) : List κ := (ranked rank rows).map key

/-- Sorting by rank loses no row. -/
theorem ranked_perm (rank : α → ℤ) (rows : List α) : (ranked rank rows).Perm rows :=
  List.perm_insertionSort _ rows

/-- The rows are sorted by rank. -/
theorem ranked_sorted (rank : α → ℤ) (rows : List α) :
    (ranked rank rows).Pairwise fun r r' => rank r ≤ rank r' := by
  have : Std.Total fun r r' : α => rank r ≤ rank r' := ⟨fun r r' => le_total _ _⟩
  have : IsTrans α fun r r' : α => rank r ≤ rank r' := ⟨fun _ _ _ h h' => le_trans h h'⟩
  exact List.pairwise_insertionSort _ rows

/-- Rows of different ranks stand in one order only. -/
theorem ranked_eq {rows l : List α} (hnodup : (rows.map rank).Nodup) (hperm : l.Perm rows)
    (hsorted : l.Pairwise fun r r' => rank r ≤ rank r') : ranked rank rows = l := by
  apply List.Perm.eq_of_pairwise _ (ranked_sorted rank rows) hsorted
    ((ranked_perm rank rows).trans hperm.symm)
  intro r r' hr hr' hle hge
  exact List.inj_on_of_nodup_map hnodup ((ranked_perm rank rows).mem_iff.1 hr)
    (hperm.mem_iff.1 hr') (le_antisymm hle hge)

/-- The keys of the order are those of the rows. -/
theorem mem_order {rows : List α} {i : κ} : i ∈ order key rank rows ↔ ∃ r ∈ rows, key r = i := by
  rw [order, List.mem_map]
  simp only [(ranked_perm rank rows).mem_iff]

/-- A key comes once in the order where it comes once in the rows. -/
theorem order_nodup {rows : List α} : (order key rank rows).Nodup ↔ (rows.map key).Nodup :=
  ((ranked_perm rank rows).map key).nodup_iff

/-- A row of a higher rank than all comes last. -/
theorem order_snoc {rows : List α} {r : α} (hnodup : (rows.map rank).Nodup)
    (h : ∀ r' ∈ rows, rank r' < rank r) :
    order key rank (rows ++ [r]) = order key rank rows ++ [key r] := by
  have heq : ranked rank (rows ++ [r]) = ranked rank rows ++ [r] := by
    apply ranked_eq (nodup_snoc hnodup fun r' hr' => (h r' hr').ne)
      ((ranked_perm rank rows).append_right [r])
    rw [List.pairwise_append]
    refine ⟨ranked_sorted rank rows, List.pairwise_singleton _ _, ?_⟩
    intro a ha b hb
    rw [List.mem_singleton.1 hb]
    exact (h a ((ranked_perm rank rows).mem_iff.1 ha)).le
  rw [order, heq, List.map_append, List.map_singleton, order]

/-- Rows that go leave the others in their order. -/
theorem order_filter {rows : List α} (hnodup : (rows.map rank).Nodup) (q : κ → Bool) :
    order key rank (rows.filter fun r => q (key r)) = (order key rank rows).filter q := by
  have heq : ranked rank (rows.filter fun r => q (key r))
      = (ranked rank rows).filter fun r => q (key r) :=
    ranked_eq (nodup_filter _ hnodup) ((ranked_perm rank rows).filter _)
      ((ranked_sorted rank rows).sublist List.filter_sublist)
  rw [order, heq, order, List.filter_map]
  rfl

variable [DecidableEq κ]

/-- A row that keeps its key and its rank keeps its place. -/
theorem order_rewrite {rows : List α} {k : κ} {p : α → α} (hnodup : (rows.map rank).Nodup)
    (hkey : ∀ r ∈ rows, key r = k → key (p r) = key r)
    (hrank : ∀ r ∈ rows, key r = k → rank (p r) = rank r) :
    order key rank (rewrite key k p rows) = order key rank rows := by
  have hsub : ∀ r ∈ ranked rank rows, r ∈ rows := fun r hr => (ranked_perm rank rows).mem_iff.1 hr
  have hranks : (rewrite key k p (ranked rank rows)).map rank = (ranked rank rows).map rank :=
    map_rewrite fun r hr hk => hrank r (hsub r hr) hk
  have heq : ranked rank (rewrite key k p rows) = rewrite key k p (ranked rank rows) := by
    have hnodup' : ((rewrite key k p rows).map rank).Nodup := by rwa [map_rewrite hrank]
    have hsorted : (rewrite key k p (ranked rank rows)).Pairwise fun r r' => rank r ≤ rank r' := by
      have hsorted := ranked_sorted rank rows
      rw [← List.pairwise_map (f := rank) (R := fun x y => x ≤ y)] at hsorted ⊢
      rwa [hranks]
    exact ranked_eq hnodup' ((ranked_perm rank rows).map _) hsorted
  rw [order, heq, order]
  exact map_rewrite fun r hr hk => hkey r (hsub r hr) hk

/-- Two keys in each other's place. -/
def exchange (a b i : κ) : κ := if i = a then b else if i = b then a else i

/-- Exchanging twice changes nothing. -/
theorem exchange_exchange (a b i : κ) : exchange a b (exchange a b i) = i := by
  unfold exchange
  split_ifs <;> simp_all

/-- An exchange is injective. -/
theorem exchange_injective (a b : κ) : Function.Injective (exchange a b) := by
  intro i j h
  rw [← exchange_exchange a b i, h, exchange_exchange]

/-- An exchange does not depend on which of the two comes first. -/
theorem exchange_comm (a b : κ) : exchange a b = exchange b a := by
  funext i
  unfold exchange
  split_ifs <;> simp_all

/-- Two rows that change their ranks change their places, and the ranks stay distinct. -/
theorem order_exchange {rows rows' : List α} {setRank : α → ℤ → α} {ra rb : α}
    (hkeys : (rows.map key).Nodup) (hranks : (rows.map rank).Nodup) (ha : ra ∈ rows)
    (hb : rb ∈ rows)
    (hne : key ra ≠ key rb) (hkey : ∀ r n, key (setRank r n) = key r)
    (hrank : ∀ r n, rank (setRank r n) = n)
    (hrows' : rows' = rewrite key (key rb) (fun r => setRank r (rank ra))
      (rewrite key (key ra) (fun r => setRank r (rank rb)) rows)) :
    (rows'.map rank).Nodup ∧
      order key rank rows' = (order key rank rows).map (exchange (key ra) (key rb)) := by
  -- the row that stands after the exchange where `r` stood before
  let g : α → α := fun r =>
    if key r = key ra then setRank rb (rank ra) else if key r = key rb then setRank ra (rank rb) else r
  have hsub : ∀ r ∈ ranked rank rows, r ∈ rows := fun r hr => (ranked_perm rank rows).mem_iff.1 hr
  have hgkey : ∀ r, key (g r) = exchange (key ra) (key rb) (key r) := by
    intro r
    simp only [g, exchange]
    split_ifs
    · exact hkey _ _
    · exact hkey _ _
    · rfl
  have hgrank : ∀ r ∈ rows, rank (g r) = rank r := by
    intro r hr
    simp only [g]
    split_ifs with h h'
    · rw [hrank, eq_of_key hkeys hr ha h]
    · rw [hrank, eq_of_key hkeys hr hb h']
    · rfl
  have hmem : ∀ r ∈ rows, g r ∈ rows' := by
    intro r hr
    rw [hrows']
    simp only [g]
    split_ifs with h h'
    · exact mem_rewrite.2 (Or.inr ⟨rb, mem_rewrite.2 (Or.inl ⟨hb, hne.symm⟩), rfl, rfl⟩)
    · exact mem_rewrite.2 (Or.inl ⟨mem_rewrite.2 (Or.inr ⟨ra, ha, rfl, rfl⟩), by rwa [hkey]⟩)
    · exact mem_rewrite.2 (Or.inl ⟨mem_rewrite.2 (Or.inl ⟨hr, h⟩), h'⟩)
  have hmapkey : ((ranked rank rows).map g).map key
      = (order key rank rows).map (exchange (key ra) (key rb)) := by
    rw [order, List.map_map, List.map_map]
    exact List.map_congr_left fun r _ => hgkey r
  have hmaprank : ((ranked rank rows).map g).map rank = (ranked rank rows).map rank := by
    rw [List.map_map]
    exact List.map_congr_left fun r hr => hgrank r (hsub r hr)
  have hperm : ((ranked rank rows).map g).Perm rows' := by
    have hnodup : ((ranked rank rows).map g).Nodup := by
      apply List.Nodup.of_map key
      rw [hmapkey]
      exact (order_nodup.2 hkeys).map (exchange_injective _ _)
    have hsubset : (ranked rank rows).map g ⊆ rows' := by
      intro x hx
      obtain ⟨r, hr, rfl⟩ := List.mem_map.1 hx
      exact hmem r (hsub r hr)
    apply (List.subperm_of_subset hnodup hsubset).perm_of_length_le
    simp only [hrows', rewrite, List.length_map, (ranked_perm rank rows).length_eq, le_refl]
  have hnodup' : (rows'.map rank).Nodup := by
    rw [← (hperm.map rank).nodup_iff, hmaprank, ((ranked_perm rank rows).map rank).nodup_iff]
    exact hranks
  have hsorted : ((ranked rank rows).map g).Pairwise fun r r' => rank r ≤ rank r' := by
    have hsorted := ranked_sorted rank rows
    rw [← List.pairwise_map (f := rank) (R := fun x y => x ≤ y)] at hsorted ⊢
    rwa [hmaprank]
  refine ⟨hnodup', ?_⟩
  rw [order, ranked_eq hnodup' hperm hsorted, hmapkey]

end Rank

end KeyedRows
