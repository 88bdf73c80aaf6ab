/-
# What the commands keep of a table

A table keeps distinct ids in a range and distinct names through every command, a new row
gets the least id that is free, and the place of a row among the others is moved by an
adjustment alone.
-/
import OpenwrtAc.CfgStore
import OpenwrtAc.Outcome

open KeyedRows Outcome

namespace CfgMgr

/-- A requirement is met or the command is refused. -/
theorem require_ok {ok : Bool} {e : String} : require ok e = .ok () ↔ ok = true := by
  unfold require
  cases ok <;> simp

/-- After a check that held. -/
theorem check_bind_ok {β : Type} {x : Except String Unit} {f : Unit → Except String β} {b : β} :
    (x >>= f) = .ok b ↔ x = .ok () ∧ f () = .ok b := by
  rw [bind_eq_ok]
  constructor
  · rintro ⟨_, h, hf⟩
    exact ⟨h, hf⟩
  · rintro ⟨h, hf⟩
    exact ⟨(), h, hf⟩

/-- The numbers that stand in an SQL list. -/
theorem mem_inPart {ids : List Id} {i : ℤ} : i ∈ inPart ids ↔ ∃ id ∈ ids, id.value = i :=
  List.mem_map

/-! ## Lengths of tables -/

/-- Not every number from `1` on is a key. -/
theorem exists_not_key (keys : List Id) : ∃ n ≤ keys.length, .num (n + 1) ∉ keys := by
  by_contra hall
  push Not at hall
  have hsub : (List.range (keys.length + 1)).map (fun n : ℕ => Id.num (n + 1)) ⊆ keys := by
    intro i hi
    obtain ⟨n, hn, rfl⟩ := List.mem_map.1 hi
    exact hall n (Nat.le_of_lt_succ (List.mem_range.1 hn))
  have hnodup : ((List.range (keys.length + 1)).map (fun n : ℕ => Id.num (n + 1))).Nodup := by
    refine List.nodup_range.map ?_
    intro a b hab
    have : ((a : ℤ) + 1) = b + 1 := Id.num.inj hab
    omega
  have hle := (List.subperm_of_subset hnodup hsub).length_le
  rw [List.length_map, List.length_range] at hle
  omega

/-- The length that one comes to by counting up. -/
def Length.least : Length where
  of keys := ((List.range (keys.length + 1)).find? fun n : ℕ => .num (n + 1) ∉ keys).getD 0
  border keys := by
    obtain ⟨n, hn, hnot⟩ := exists_not_key keys
    cases hfind : (List.range (keys.length + 1)).find? fun n : ℕ => .num (n + 1) ∉ keys with
    | none =>
      have hnone := List.find?_eq_none.1 hfind n (List.mem_range.2 (Nat.lt_succ_of_le hn))
      exact absurd (decide_eq_true hnot) hnone
    | some m =>
      obtain ⟨hm, -, hbefore⟩ := List.find?_range_eq_some.1 hfind
      refine ⟨?_, of_decide_eq_true hm⟩
      cases m with
      | zero => exact .inl rfl
      | succ m => exact .inr (by simpa using hbefore m (Nat.lt_succ_self m))

/-- Where `1` and `2` are keys the table is sorted, which fails. -/
theorem sortMarks_error (len : Length) {keys : List Id} (h1 : .num 1 ∈ keys)
    (h2 : .num 2 ∈ keys) :
    sortMarks len keys = .error "attempt to compare two boolean values" := by
  have hlen : ¬ len.of keys < 2 := by
    intro hlt
    obtain ⟨-, hnot⟩ := len.border keys
    obtain h | h : len.of keys = 0 ∨ len.of keys = 1 := by omega
    · rw [h] at hnot
      exact hnot h1
    · rw [h] at hnot
      exact hnot h2
  rw [sortMarks, if_pos h1, require, decide_eq_false hlen]
  rfl

/-! ## The next id -/

/-- From `0` below `max`. -/
def Below (max : ℕ) (i : ℤ) : Prop := 0 ≤ i ∧ i < max

/-- The loop of the source finds the first gap. -/
theorem nextIdLoop_eq : ∀ (ids : List ℤ) (i : ℤ),
    (nextIdLoop i ids).getD (i - 1 + ids.length) = firstGap (i - 1) ids
  | [], i => by simp [nextIdLoop, firstGap]
  | v :: vs, i => by
    rw [nextIdLoop, firstGap]
    split
    · rfl
    · rw [show i - 1 + 1 = i + 1 - 1 by omega, ← nextIdLoop_eq vs (i + 1), List.length_cons]
      congr 1
      push_cast
      omega

/-- The ids in ascending order are strictly ascending when no two are the same. -/
theorem sorted_ids {ids : List ℤ} (hn : ids.Nodup) :
    (ids.insertionSort (· ≤ ·)).Pairwise (· < ·) := by
  have hle : (ids.insertionSort (· ≤ ·)).Pairwise (· ≤ ·) := List.pairwise_insertionSort _ ids
  have hne : (ids.insertionSort (· ≤ ·)).Nodup := (List.perm_insertionSort _ ids).nodup_iff.2 hn
  refine (hle.and hne).imp ?_
  rintro a b ⟨h, h'⟩
  exact lt_of_le_of_ne h h'

/-- Distinct ids below a bound are no more than it. -/
theorem length_le_of_below {ids : List ℤ} {max : ℕ} (hn : ids.Nodup) (h : ∀ i ∈ ids, Below max i) :
    ids.length ≤ max := by
  have hnodup : (ids.map Int.toNat).Nodup := by
    rw [List.nodup_map_iff_inj_on hn]
    intro x hx y hy hxy
    have := (h x hx).1
    have := (h y hy).1
    omega
  have hsub : ids.map Int.toNat ⊆ List.range max := by
    intro n hn
    obtain ⟨i, hi, rfl⟩ := List.mem_map.1 hn
    have := h i hi
    exact List.mem_range.2 (by unfold Below at this; omega)
  simpa using (List.subperm_of_subset hnodup hsub).length_le

/-- The next id is the least one that is free, or all are taken. -/
theorem nextId_spec {ids : List ℤ} {max : ℕ} (hn : ids.Nodup) (h : ∀ i ∈ ids, Below max i) :
    (nextId ids max = .error "full" ∧ ids.length = max) ∨
      ∃ id, nextId ids max = .ok id ∧ LeastFree 0 ids id ∧ Below max id := by
  have hperm := List.perm_insertionSort (· ≤ ·) ids
  have hleast : LeastFree 0 ids (firstGap 0 (ids.insertionSort (· ≤ ·))) :=
    (firstGap_least _ 0 (sorted_ids hn) fun v hv => (h v (hperm.mem_iff.1 hv)).1).congr
      fun k => hperm.mem_iff
  by_cases hfull : ids.length = max
  · left
    refine ⟨?_, hfull⟩
    rw [nextId]
    exact if_pos (hperm.length_eq.trans hfull)
  · right
    refine ⟨_, ?_, hleast, hleast.1, ?_⟩
    · have hloop := nextIdLoop_eq (ids.insertionSort (· ≤ ·)) 1
      rw [show (1 : ℤ) - 1 = 0 from rfl, Int.zero_add, hperm.length_eq] at hloop
      unfold nextId
      simp only [hperm.length_eq]
      rw [if_neg hfull]
      split
      · rename_i hzero
        rw [List.length_eq_zero_iff] at hzero
        subst hzero
        rfl
      · split
        · rename_i vv hvv
          rw [hvv] at hloop
          exact congrArg Except.ok hloop
        · rename_i hnone
          rw [hnone] at hloop
          exact congrArg Except.ok hloop
    · have := hleast.le_length
      have := length_le_of_below hn h
      omega

/-- The id that is given is the least free one. -/
theorem nextId_ok {ids : List ℤ} {max : ℕ} {id : ℤ} (hn : ids.Nodup) (h : ∀ i ∈ ids, Below max i)
    (hid : nextId ids max = .ok id) : LeastFree 0 ids id ∧ Below max id := by
  rcases nextId_spec hn h with ⟨herr, _⟩ | ⟨id', hid', hleast⟩
  · rw [herr] at hid
    cases hid
  · rw [hid'] at hid
    cases hid
    exact hleast

/-- The priority that is given is behind all others. -/
theorem lt_nextPriority {priorities : List ℤ} : ∀ p ∈ priorities, p < nextPriority priorities := by
  intro p hp
  have hsorted : (priorities.insertionSort (· ≤ ·)).Pairwise (· ≤ ·) :=
    List.pairwise_insertionSort _ priorities
  have hp' : p ∈ priorities.insertionSort (· ≤ ·) :=
    (List.perm_insertionSort _ priorities).mem_iff.2 hp
  unfold nextPriority
  split
  · rename_i last hlast
    obtain ⟨front, hfront⟩ := List.getLast?_eq_some_iff.1 hlast
    rw [hfront, List.pairwise_append] at hsorted
    rw [hfront, List.mem_append, List.mem_singleton] at hp'
    rcases hp' with hp' | rfl
    · have := hsorted.2.2 p hp' last List.mem_cons_self
      omega
    · omega
  · rename_i hnone
    rw [List.getLast?_eq_none_iff] at hnone
    rw [hnone] at hp'
    cases hp'

/-! ## Ids and names -/

/-- No two rows share their id or their name, and the ids are in range. -/
structure Table.Holds {α : Type} (t : Table α) (inRange : ℤ → Prop) (rows : List α) : Prop where
  ids : (rows.map t.id).Nodup
  names : (rows.map t.name).Nodup
  range : ∀ r ∈ rows, inRange (t.id r)

section

variable {α : Type} {t : Table α} {inRange : ℤ → Prop} {max : ℕ} {rows rows' : List α} {p : α}

/-- An accepted update replaces the one row with the id, and no other row has the name. -/
theorem Table.setRow_ok [DecidableEq α] {invalid : String}
    (h : t.setRow invalid p rows = .ok rows') :
    ∃ r ∈ rows, t.id r = t.id p ∧
      (∀ r' ∈ rows, t.id r' = t.id p ∨ t.name r' = t.name p → r' = r) ∧
      rows' = rewrite t.id (t.id p) (fun r => t.fill r p) rows := by
  unfold setRow at h
  split at h
  · cases h
  · rename_i r hpick
    obtain ⟨hr, hid, hone⟩ := pick_some hpick
    refine ⟨r, hr, hid, hone, ?_⟩
    split at h
    · rename_i hsame
      cases h
      refine (List.map_id _).symm.trans (List.map_congr_left ?_)
      intro r' hr'
      split
      · rename_i hk
        rw [hone r' hr' (Or.inl hk)]
        exact hsame.symm
      · rfl
    · cases h
      rfl

/-- The ids stay what they were. -/
theorem Table.map_id_fill {k : ℤ} (hp : t.id p = k) :
    (rewrite t.id k (fun r => t.fill r p) rows).map t.id = rows.map t.id := by
  apply map_rewrite
  intro r _ hk
  rw [t.id_fill, hp, hk]

/-- Changing a row keeps the keys. -/
theorem Table.Holds.setRow [DecidableEq α] {invalid : String} (hT : t.Holds inRange rows)
    (h : t.setRow invalid p rows = .ok rows') : t.Holds inRange rows' := by
  obtain ⟨r, hr, hid, hone, rfl⟩ := Table.setRow_ok h
  constructor
  · rw [Table.map_id_fill rfl]
    exact hT.ids
  · apply nodup_rewrite hT.ids hT.names
    intro r₁ hr₁ hk r' hr' hk' hn
    rw [t.name_fill] at hn
    rw [hone r' hr' (Or.inr hn), hid] at hk'
    exact hk' rfl
  · intro r' hr'
    rcases mem_rewrite.1 hr' with ⟨hr', _⟩ | ⟨r₀, hr₀, _, rfl⟩
    · exact hT.range r' hr'
    · rw [t.id_fill, ← hid]
      exact hT.range r hr

/-- A new id is the least free one of the range, and no row has the name. -/
theorem Table.newId_ok {exists_ : String} {id : ℤ} (hT : t.Holds (Below max) rows)
    (h : t.newId exists_ max p rows = .ok id) :
    (∀ r ∈ rows, t.name r ≠ t.name p) ∧ LeastFree 0 (rows.map t.id) id ∧ Below max id := by
  unfold newId at h
  split at h
  · cases h
  · rename_i hname
    refine ⟨?_, nextId_ok hT.ids ?_ h⟩
    · intro r hr hn
      exact hname (List.any_eq_true.2 ⟨r, hr, decide_eq_true hn⟩)
    · intro i hi
      obtain ⟨r, hr, rfl⟩ := List.mem_map.1 hi
      exact hT.range r hr

/-- A row is appended with an id and a name that are new. -/
theorem Table.Holds.snoc {r : α} (hT : t.Holds inRange rows) (hid : t.id r ∉ rows.map t.id)
    (hname : ∀ r' ∈ rows, t.name r' ≠ t.name r) (hr : inRange (t.id r)) :
    t.Holds inRange (rows ++ [r]) := by
  constructor
  · exact nodup_snoc hT.ids fun r' hr' h => hid (List.mem_map.2 ⟨r', hr', h⟩)
  · exact nodup_snoc hT.names hname
  · intro r' hr'
    rcases List.mem_append.1 hr' with hr' | hr'
    · exact hT.range r' hr'
    · rwa [List.mem_singleton.1 hr']

/-- A row that is added stands at the end with a new id. -/
theorem Table.addRow_ok {exists_ : String} (h : t.addRow exists_ max p rows = .ok rows') :
    ∃ id, t.newId exists_ max p rows = .ok id ∧ rows' = rows ++ [t.setId p id] := by
  obtain ⟨id, hid, h⟩ := bind_eq_ok.1 h
  cases h
  exact ⟨id, hid, rfl⟩

/-- Adding a row keeps the keys. -/
theorem Table.Holds.addRow {exists_ : String} (hT : t.Holds (Below max) rows)
    (h : t.addRow exists_ max p rows = .ok rows') : t.Holds (Below max) rows' := by
  obtain ⟨id, hid, rfl⟩ := Table.addRow_ok h
  obtain ⟨hname, hleast, hbelow⟩ := Table.newId_ok hT hid
  apply hT.snoc
  · rw [t.id_setId]
    exact hleast.2.1
  · intro r' hr'
    rw [t.name_setId]
    exact hname r' hr'
  · rwa [t.id_setId]

/-- The rows that are left. -/
theorem Table.mem_delRows {ids : List Id} {r : α} :
    r ∈ t.delRows ids rows ↔ r ∈ rows ∧ t.id r ∉ inPart ids := by
  simp only [delRows, List.mem_filter, decide_eq_true_eq]

/-- The ids of a table stay in it through an update. -/
theorem Table.exists_setRow [DecidableEq α] {invalid : String} {i : ℤ}
    (h : t.setRow invalid p rows = .ok rows') :
    (∃ r ∈ rows', t.id r = i) ↔ ∃ r ∈ rows, t.id r = i := by
  obtain ⟨_, _, _, _, rfl⟩ := Table.setRow_ok h
  exact exists_key_rewrite fun r _ _ => t.id_fill r p

/-- What holds of every row and of the row that an update writes. -/
theorem Table.forall_setRow [DecidableEq α] {invalid : String} {P : α → Prop}
    (hrows : ∀ r ∈ rows, P r) (hp : ∀ r, P (t.fill r p)) (h : t.setRow invalid p rows = .ok rows') :
    ∀ r ∈ rows', P r := by
  obtain ⟨_, _, _, _, rfl⟩ := Table.setRow_ok h
  intro r hr
  rcases mem_rewrite.1 hr with ⟨hr, _⟩ | ⟨r₀, _, _, rfl⟩
  · exact hrows r hr
  · exact hp r₀

/-- Deleting rows keeps the keys. -/
theorem Table.Holds.delRows (ids : List Id) (hT : t.Holds inRange rows) :
    t.Holds inRange (t.delRows ids rows) :=
  ⟨nodup_filter _ hT.ids, nodup_filter _ hT.names, fun r hr => hT.range r (mem_delRows.1 hr).1⟩

end

/-! ## Priorities -/

section

variable {α : Type} {t : RankTable α} {inRange : ℤ → Prop} {max : ℕ} {rows rows' : List α} {p : α}

/-- A rule that is added stands last, in the table and by its rank. -/
theorem RankTable.addLast_ok {exists_ : String} (h : t.addLast exists_ max p rows = .ok rows') :
    ∃ id, t.newId exists_ max p rows = .ok id ∧
      rows' = rows ++ [t.setRank (t.setId p id) (nextPriority (rows.map t.rank))] := by
  obtain ⟨id, hid, h⟩ := bind_eq_ok.1 h
  cases h
  exact ⟨id, hid, rfl⟩

/-- Adding a rule keeps the keys. -/
theorem RankTable.holds_addLast {exists_ : String} (hT : t.Holds (Below max) rows)
    (h : t.addLast exists_ max p rows = .ok rows') : t.Holds (Below max) rows' := by
  obtain ⟨id, hid, rfl⟩ := RankTable.addLast_ok h
  obtain ⟨hname, hleast, hbelow⟩ := Table.newId_ok hT hid
  apply hT.snoc
  · rw [t.id_setRank, t.id_setId]
    exact hleast.2.1
  · intro r' hr'
    rw [t.name_setRank, t.name_setId]
    exact hname r' hr'
  · rwa [t.id_setRank, t.id_setId]

/-- What holds of every row and of the new one, whatever its id and priority. -/
theorem RankTable.forall_addLast {exists_ : String} {P : α → Prop} (hrows : ∀ r ∈ rows, P r)
    (hp : ∀ i n, P (t.setRank (t.setId p i) n)) (h : t.addLast exists_ max p rows = .ok rows') :
    ∀ r ∈ rows', P r := by
  obtain ⟨id, _, rfl⟩ := RankTable.addLast_ok h
  intro r hr
  rcases List.mem_append.1 hr with hr | hr
  · exact hrows r hr
  · rw [List.mem_singleton.1 hr]
    exact hp _ _

/-- A new priority in a row with the id `k`. -/
def RankTable.moveTo (t : RankTable α) (k n : ℤ) (rows : List α) : List α :=
  rewrite t.id k (fun r => t.setRank r n) rows

/-- Moving a rule keeps the keys. -/
theorem RankTable.holds_moveTo (k n : ℤ) (hT : t.Holds inRange rows) :
    t.Holds inRange (t.moveTo k n rows) := by
  constructor
  · rw [moveTo, map_rewrite fun r _ _ => t.id_setRank r n]
    exact hT.ids
  · rw [moveTo, map_rewrite fun r _ _ => t.name_setRank r n]
    exact hT.names
  · intro r hr
    rcases mem_rewrite.1 hr with ⟨hr, _⟩ | ⟨r₀, hr₀, _, rfl⟩
    · exact hT.range r hr
    · rw [t.id_setRank]
      exact hT.range r₀ hr₀

/-- What holds of any rank holds of a rule that is moved. -/
theorem RankTable.forall_moveTo {P : α → Prop} (k n : ℤ) (hrows : ∀ r ∈ rows, P r)
    (hP : ∀ r, P r → P (t.setRank r n)) : ∀ r ∈ t.moveTo k n rows, P r := by
  intro r hr
  rcases mem_rewrite.1 hr with ⟨hr, _⟩ | ⟨r₀, hr₀, _, rfl⟩
  · exact hrows r hr
  · exact hP r₀ (hrows r₀ hr₀)

/-- An accepted adjustment is about two rows of the table. -/
theorem RankTable.adjust_ok {invalid : String} {ids : List Id}
    (h : t.adjust invalid ids rows = .ok rows') :
    ∃ r₁ r₂, (rows.filter fun r => t.id r ∈ inPart ids) = [r₁, r₂] ∧
      rows' = t.moveTo (t.id r₂) (t.rank r₁) (t.moveTo (t.id r₁) (t.rank r₂) rows) := by
  unfold adjust at h
  split at h
  · rename_i r₁ r₂ hf
    cases h
    exact ⟨r₁, r₂, hf, rfl⟩
  · cases h

/-- Exchanging two rules keeps the keys. -/
theorem RankTable.holds_adjust {invalid : String} {ids : List Id} (hT : t.Holds inRange rows)
    (h : t.adjust invalid ids rows = .ok rows') : t.Holds inRange rows' := by
  obtain ⟨r₁, r₂, _, rfl⟩ := RankTable.adjust_ok h
  exact holds_moveTo _ _ (holds_moveTo _ _ hT)

/-- What holds of every row, whatever its priority. -/
theorem RankTable.forall_adjust {invalid : String} {ids : List Id} {P : α → Prop}
    (hrows : ∀ r ∈ rows, P r) (hP : ∀ r n, P r → P (t.setRank r n))
    (h : t.adjust invalid ids rows = .ok rows') : ∀ r ∈ rows', P r := by
  obtain ⟨r₁, r₂, _, rfl⟩ := RankTable.adjust_ok h
  exact forall_moveTo _ _ (forall_moveTo _ _ hrows fun r => hP r _) fun r => hP r _

end

end CfgMgr
