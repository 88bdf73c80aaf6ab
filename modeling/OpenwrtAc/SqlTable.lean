/-
# Tables of a database

A row gives each column a value, or none where it is NULL; a table is a list of rows in
which no two share their key or another unique column.  `replace into` removes the rows
that share such a column with the one that it writes.
-/
import Mathlib.Data.List.Basic
import Mathlib.Tactic.Common

namespace SqlTable

variable {Column V : Type}

/-- A row; none is NULL, also of a column that the table has not. -/
abbrev Row (Column V : Type) := Column → Option V

/-- The columns of a table, its key, the other columns that are unique, and what a column gets
    that a statement does not name. -/
structure Schema (Column V : Type) where
  columns : List Column
  key : Column
  uniques : List Column
  default : Column → Option V
  apart_mem : ∀ c ∈ key :: uniques, c ∈ columns
  default_outside : ∀ c, c ∉ columns → default c = none

/-- The columns that no two rows share. -/
def Schema.apart (sch : Schema Column V) : List Column := sch.key :: sch.uniques

/-- A row of the table: it has no other columns, and the unique ones are not NULL. -/
structure Schema.Valid (sch : Schema Column V) (r : Row Column V) : Prop where
  outside : ∀ c, c ∉ sch.columns → r c = none
  unique : ∀ c ∈ sch.apart, ∃ v, r c = some v

/-- Two lists with the same rows. -/
def Same (t t' : List (Row Column V)) : Prop := ∀ r, r ∈ t ↔ r ∈ t'

/-- A row that is gone is a change. -/
theorem not_same_of_gone {sch : Schema Column V} {old cur : List (Row Column V)} {r : Row Column V}
    (hr : r ∈ old) (hgone : ∀ s ∈ cur, s sch.key ≠ r sch.key) : ¬ Same old cur :=
  fun h => hgone r ((h r).1 hr) rfl

section

variable [DecidableEq V]

/-- Two rows share a column that is unique. -/
def Schema.clash (sch : Schema Column V) (r s : Row Column V) : Bool :=
  sch.apart.any fun c => (r c).isSome && r c == s c

/-- The constraints of a table. -/
structure Schema.Ok (sch : Schema Column V) (t : List (Row Column V)) : Prop where
  valid : ∀ r ∈ t, sch.Valid r
  apart : ∀ r ∈ t, ∀ s ∈ t, sch.clash r s = true → r = s

/-- `where c in (vals)`. -/
def within (c : Column) (vals : List V) (r : Row Column V) : Bool := (r c).any fun v => v ∈ vals

def select (c : Column) (vals : List V) (t : List (Row Column V)) : List (Row Column V) :=
  t.filter (within c vals)

def deleteWhere (c : Column) (vals : List V) (t : List (Row Column V)) : List (Row Column V) :=
  t.filter fun r => !within c vals r

/-- `replace into` with one row. -/
def Schema.replaceRow (sch : Schema Column V) (t : List (Row Column V)) (r : Row Column V) :
    List (Row Column V) :=
  (t.filter fun s => !sch.clash r s) ++ [r]

/-- `replace into` with rows. -/
def Schema.replaceAll (sch : Schema Column V) (rows t : List (Row Column V)) : List (Row Column V) :=
  rows.foldl sch.replaceRow t

/-! ## Rows that share a column -/

theorem within_iff {c : Column} {vals : List V} {r : Row Column V} :
    within c vals r = true ↔ ∃ v ∈ vals, r c = some v := by
  unfold within
  cases r c with
  | none => simp
  | some v => simp

theorem mem_select {c : Column} {vals : List V} {t : List (Row Column V)} {r : Row Column V} :
    r ∈ select c vals t ↔ r ∈ t ∧ ∃ v ∈ vals, r c = some v := by
  rw [select, List.mem_filter, within_iff]

theorem mem_deleteWhere {c : Column} {vals : List V} {t : List (Row Column V)} {r : Row Column V} :
    r ∈ deleteWhere c vals t ↔ r ∈ t ∧ ¬ ∃ v ∈ vals, r c = some v := by
  rw [deleteWhere, List.mem_filter, ← within_iff, Bool.not_eq_true', Bool.not_eq_true]

theorem clash_iff {sch : Schema Column V} {r s : Row Column V} :
    sch.clash r s = true ↔ ∃ c ∈ sch.apart, ∃ v, r c = some v ∧ s c = some v := by
  unfold Schema.clash
  rw [List.any_eq_true]
  refine exists_congr fun c => and_congr_right fun _ => ?_
  rw [Bool.and_eq_true, beq_iff_eq, Option.isSome_iff_exists]
  constructor
  · rintro ⟨⟨v, hv⟩, heq⟩
    exact ⟨v, hv, heq ▸ hv⟩
  · rintro ⟨v, hr, hs⟩
    exact ⟨⟨v, hr⟩, hr.trans hs.symm⟩

theorem clash_symm {sch : Schema Column V} {r s : Row Column V} (h : sch.clash r s = true) :
    sch.clash s r = true := by
  obtain ⟨c, hc, v, hr, hs⟩ := clash_iff.1 h
  exact clash_iff.2 ⟨c, hc, v, hs, hr⟩

/-- Only the columns that are unique count. -/
theorem clash_congr {sch : Schema Column V} {r r' : Row Column V}
    (h : ∀ c ∈ sch.apart, r c = r' c) (s : Row Column V) : sch.clash r s = sch.clash r' s := by
  rw [Bool.eq_iff_iff, clash_iff, clash_iff]
  refine exists_congr fun c => and_congr_right fun hc => ?_
  rw [h c hc]

/-- Rows with the same key. -/
theorem clash_of_key {sch : Schema Column V} {r s : Row Column V} (hr : sch.Valid r)
    (h : r sch.key = s sch.key) : sch.clash r s = true := by
  obtain ⟨v, hv⟩ := hr.unique sch.key (List.mem_cons_self ..)
  exact clash_iff.2 ⟨sch.key, List.mem_cons_self .., v, hv, h ▸ hv⟩

/-- Two rows of a table that have the same key are one. -/
theorem Schema.Ok.eq_of_key {sch : Schema Column V} {t : List (Row Column V)} {r s : Row Column V}
    (h : sch.Ok t) (hr : r ∈ t) (hs : s ∈ t) (hkey : r sch.key = s sch.key) : r = s :=
  h.apart r hr s hs (clash_of_key (h.valid r hr) hkey)

theorem Schema.Ok.filter {sch : Schema Column V} {t : List (Row Column V)} (h : sch.Ok t)
    (p : Row Column V → Bool) : sch.Ok (t.filter p) :=
  ⟨fun r hr => h.valid r (List.mem_of_mem_filter hr),
    fun r hr s hs => h.apart r (List.mem_of_mem_filter hr) s (List.mem_of_mem_filter hs)⟩

/-- A row that shares nothing with the rows of a table. -/
theorem Schema.Ok.snoc {sch : Schema Column V} {t : List (Row Column V)} {r : Row Column V}
    (h : sch.Ok t) (hr : sch.Valid r) (hfree : ∀ s ∈ t, sch.clash r s = false) :
    sch.Ok (t ++ [r]) := by
  refine ⟨fun s hs => ?_, fun s hs s' hs' hclash => ?_⟩
  · rcases List.mem_append.1 hs with hs | hs
    · exact h.valid s hs
    · exact List.mem_singleton.1 hs ▸ hr
  · rcases List.mem_append.1 hs with hs | hs <;> rcases List.mem_append.1 hs' with hs' | hs'
    · exact h.apart s hs s' hs' hclash
    · rw [List.mem_singleton.1 hs'] at hclash
      exact absurd (clash_symm hclash) (by simp [hfree s hs])
    · rw [List.mem_singleton.1 hs] at hclash
      exact absurd hclash (by simp [hfree s' hs'])
    · rw [List.mem_singleton.1 hs, List.mem_singleton.1 hs']

/-! ## Replacing -/

theorem mem_replaceRow {sch : Schema Column V} {t : List (Row Column V)} {r s : Row Column V} :
    s ∈ sch.replaceRow t r ↔ (s ∈ t ∧ sch.clash r s = false) ∨ s = r := by
  simp [Schema.replaceRow]

/-- Rows that share nothing with each other replace those that share something with one of them. -/
theorem mem_replaceAll {sch : Schema Column V} {rows : List (Row Column V)}
    (h : ∀ r ∈ rows, ∀ s ∈ rows, sch.clash r s = true → r = s) (t : List (Row Column V))
    (s : Row Column V) :
    s ∈ sch.replaceAll rows t ↔ s ∈ rows ∨ (s ∈ t ∧ ∀ r ∈ rows, sch.clash r s = false) := by
  induction rows generalizing t with
  | nil => simp [Schema.replaceAll]
  | cons r rows ih =>
    have hrows : ∀ r ∈ rows, ∀ s ∈ rows, sch.clash r s = true → r = s :=
      fun a ha b hb => h a (List.mem_cons_of_mem r ha) b (List.mem_cons_of_mem r hb)
    rw [Schema.replaceAll, List.foldl_cons, ← Schema.replaceAll, ih hrows, mem_replaceRow,
      List.mem_cons, List.forall_mem_cons]
    constructor
    · rintro (hs | ⟨⟨hs, hclash⟩ | rfl, hall⟩)
      · exact .inl (.inr hs)
      · exact .inr ⟨hs, hclash, hall⟩
      · exact .inl (.inl rfl)
    · rintro ((rfl | hs) | ⟨hs, hclash, hall⟩)
      · -- the row just written stays unless a later one shares a column with it, and that one is it
        by_cases hin : s ∈ rows
        · exact .inl hin
        · refine .inr ⟨.inr rfl, fun a ha => Bool.eq_false_iff.2 fun hclash => hin ?_⟩
          exact h a (List.mem_cons_of_mem s ha) s (List.mem_cons_self ..) hclash ▸ ha
      · exact .inl hs
      · exact .inr ⟨.inl ⟨hs, hclash⟩, hall⟩

/-- When rows of the present table are written over a copy of the old one, from which the rows in
    `D` are gone, the copy becomes the present table: exactly if they are written as they are, and
    no row of the present table is missed. -/
theorem same_iff {sch : Schema Column V} {old cur sel t : List (Row Column V)}
    {W : Row Column V → Row Column V} {D : Row Column V → Prop} (hold : sch.Ok old)
    (hcur : sch.Ok cur) (hsel : ∀ r ∈ sel, r ∈ cur) (hW : ∀ r ∈ sel, W r sch.key = r sch.key)
    (ht : ∀ s, s ∈ t ↔ (∃ r ∈ sel, W r = s) ∨ ((s ∈ old ∧ ¬ D s) ∧ ∀ r ∈ sel, sch.clash r s = false))
    (hD : ∀ r ∈ old, (∀ s ∈ cur, s sch.key ≠ r sch.key) → D r) :
    Same t cur ↔ (∀ r ∈ sel, W r = r) ∧ ∀ r ∈ cur, r ∉ old ∨ D r → r ∈ sel := by
  constructor
  · intro h
    have hwrite : ∀ r ∈ sel, W r = r := fun r hr =>
      hcur.eq_of_key ((h _).1 ((ht _).2 (.inl ⟨r, hr, rfl⟩))) (hsel r hr) (hW r hr)
    refine ⟨hwrite, fun r hr hmiss => ?_⟩
    rcases (ht r).1 ((h r).2 hr) with ⟨s, hs, rfl⟩ | ⟨⟨hin, hnot⟩, -⟩
    · exact (hwrite s hs).symm ▸ hs
    · rcases hmiss with hmiss | hmiss
      · exact absurd hin hmiss
      · exact absurd hmiss hnot
  · rintro ⟨hwrite, hcover⟩ r
    rw [ht]
    constructor
    · rintro (⟨s, hs, rfl⟩ | ⟨⟨hr, hnot⟩, hfree⟩)
      · exact (hwrite s hs).symm ▸ hsel s hs
      · -- a row that is left of the copy: the present one with its key is that row
        by_contra hr'
        refine hnot (hD r hr fun s hs hkey => ?_)
        by_cases hs' : s ∈ old
        · exact hr' (hold.eq_of_key hs' hr hkey ▸ hs)
        · have hclash := clash_of_key (hcur.valid s hs) hkey
          rw [hfree s (hcover s hs (.inl hs'))] at hclash
          cases hclash
    · intro hr
      by_cases hsr : r ∈ sel
      · exact .inl ⟨r, hsr, hwrite r hsr⟩
      · refine .inr ⟨⟨?_, fun hd => hsr (hcover r hr (.inr hd))⟩, fun s hs => ?_⟩
        · by_contra hnew
          exact hsr (hcover r hr (.inl hnew))
        · exact Bool.eq_false_iff.2 fun hclash => hsr (hcur.apart s (hsel s hs) r hr hclash ▸ hs)

end

end SqlTable
