/-
# The mirror of the configuration database

Triggers of the sqlite tables write a row for each insertion, deletion and update;
`sync.lua` goes through these rows, brings the mirror tables up to date and says what has
changed.
-/
import Mathlib.Data.Fintype.Defs
import OpenwrtAc.Outcome
import OpenwrtAc.SqlTable

open SqlTable

namespace DbSync

variable {Name Column V : Type}

/-- What a trigger is for. -/
inductive Act where
  | del
  | set
  | add
deriving DecidableEq, Repr

/-- A row of the table `trigger`. -/
structure Trigger (Name Column V : Type) where
  tb : Name
  act : Act
  key : Column
  val : V
deriving DecidableEq, Repr

/-- The tables that have triggers, and the table `trigger` by rowid. -/
structure Db (Name Column V : Type) where
  tables : Name → List (Row Column V)
  trigger : List (Trigger Name Column V)

section

variable [DecidableEq Name]

/-- `actions.del`, and `actions.set` with `actions.add` behind it. -/
def dels (tb : Name) (trigger : List (Trigger Name Column V)) : List (Trigger Name Column V) :=
  trigger.filter fun t => t.tb = tb ∧ t.act = .del

def sets (tb : Name) (trigger : List (Trigger Name Column V)) : List (Trigger Name Column V) :=
  (trigger.filter fun t => t.tb = tb ∧ t.act = .set)
    ++ trigger.filter fun t => t.tb = tb ∧ t.act = .add

/-- The deletions recorded for a table. -/
theorem mem_dels {tb : Name} {trigger : List (Trigger Name Column V)} {t : Trigger Name Column V} :
    t ∈ dels tb trigger ↔ t ∈ trigger ∧ t.tb = tb ∧ t.act = .del := by
  simp [dels]

/-- The other changes recorded for a table. -/
theorem mem_sets {tb : Name} {trigger : List (Trigger Name Column V)} {t : Trigger Name Column V} :
    t ∈ sets tb trigger ↔ t ∈ trigger ∧ t.tb = tb ∧ t.act ≠ .del := by
  rw [sets, List.mem_append, List.mem_filter, List.mem_filter, ← and_or_left]
  cases t.act <;> simp

end

/-! ## `format_replace` -/

/-- Why `sync` does not return: the script ends because a statement fails, `rs[1]` is nil, or a
    value is nil that has to be escaped. -/
inductive SyncError where
  | statement
  | noRow
  | nullValue
deriving DecidableEq, Repr

/-- A row as `format_replace` writes it: with the fields that the first row has. -/
def written (sch : Schema Column V) (first r : Row Column V) : Row Column V :=
  fun c => if (first c).isSome then r c else sch.default c

/-- The rows that the statement of `format_replace` writes. -/
def formatReplace (sch : Schema Column V) : List (Row Column V) →
    Except SyncError (List (Row Column V))
  | [] => .error .noRow
  | first :: rs =>
    if (first :: rs).all fun r => sch.columns.all fun c => !(first c).isSome || (r c).isSome then
      .ok ((first :: rs).map (written sch first))
    else .error .nullValue

/-- When the rows can be written into one statement, and which rows it writes. -/
theorem formatReplace_ok {sch : Schema Column V} {rs rows : List (Row Column V)} :
    formatReplace sch rs = .ok rows ↔ ∃ first, rs.head? = some first
      ∧ (∀ r ∈ rs, ∀ c ∈ sch.columns, (first c).isSome → (r c).isSome)
      ∧ rs.map (written sch first) = rows := by
  cases rs with
  | nil => simp [formatReplace]
  | cons first rs =>
    rw [formatReplace]
    split
    next h =>
      simp only [List.all_eq_true, Bool.or_eq_true, Bool.not_eq_true'] at h
      constructor
      · intro hrows
        refine ⟨first, rfl, fun r hr c hc hsome => ?_, Except.ok.inj hrows⟩
        exact (h r hr c hc).resolve_left (by simp [hsome])
      · rintro ⟨_, hfirst, -, hrows⟩
        cases hfirst
        rw [hrows]
    next h =>
      refine ⟨nofun, ?_⟩
      rintro ⟨_, hfirst, hall, -⟩
      cases hfirst
      refine absurd ?_ h
      simp only [List.all_eq_true, Bool.or_eq_true, Bool.not_eq_true']
      intro r hr c hc
      cases hsome : (first c).isSome with
      | false => exact .inl rfl
      | true => exact .inr (hall r hr c hc hsome)

/-- What is written has the unique columns of the row. -/
theorem written_apart {sch : Schema Column V} {first : Row Column V} (h : sch.Valid first)
    (r : Row Column V) : ∀ c ∈ sch.apart, written sch first r c = r c := by
  intro c hc
  obtain ⟨v, hv⟩ := h.unique c hc
  simp [written, hv]

/-- A row is written as it is if the columns left out have their defaults. -/
theorem written_eq_iff {sch : Schema Column V} {first r : Row Column V} (hr : sch.Valid r) :
    written sch first r = r ↔ ∀ c ∈ sch.columns, first c = none → r c = sch.default c := by
  constructor
  · intro h c _ hnone
    rw [← congrFun h c]
    simp [written, hnone]
  · intro h
    funext c
    unfold written
    split
    next => rfl
    next hnone =>
      by_cases hc : c ∈ sch.columns
      · exact (h c hc (Option.not_isSome_iff_eq_none.1 hnone)).symm
      · rw [sch.default_outside c hc, hr.outside c hc]

variable [DecidableEq V]

/-- What the mirror holds after the rows are written. -/
theorem mem_written {sch : Schema Column V} {cur sel : List (Row Column V)} {first : Row Column V}
    (hcur : sch.Ok cur) (hsel : ∀ r ∈ sel, r ∈ cur) (hfirst : sch.Valid first)
    (t : List (Row Column V)) (s : Row Column V) :
    s ∈ sch.replaceAll (sel.map (written sch first)) t ↔
      (∃ r ∈ sel, written sch first r = s) ∨ (s ∈ t ∧ ∀ r ∈ sel, sch.clash r s = false) := by
  have hclash : ∀ r s, sch.clash (written sch first r) s = sch.clash r s := fun r s =>
    clash_congr (written_apart hfirst r) s
  rw [mem_replaceAll, List.mem_map, List.forall_mem_map]
  · simp only [hclash]
  · intro a ha b hb hab
    obtain ⟨r, hr, rfl⟩ := List.mem_map.1 ha
    obtain ⟨r', hr', rfl⟩ := List.mem_map.1 hb
    rw [hclash] at hab
    have hba : sch.clash r' r = true := (hclash r' r).symm.trans (clash_symm hab)
    rw [hcur.apart r' (hsel r' hr') r (hsel r hr) hba]

/-! ## One table -/

section

variable [DecidableEq Column]

/-- The deletion that `format_delete` makes the statement of. -/
def execDelete (sch : Schema Column V) (m : List (Row Column V)) :
    List (Trigger Name Column V) → Except SyncError (List (Row Column V))
  | [] => .ok m
  | first :: rs =>
    if first.key ∈ sch.columns then
      .ok (deleteWhere first.key ((first :: rs).map Trigger.val) m)
    else .error .statement

/-- One table of `sync_trigger`, with the key column `key` of the first trigger row of all. -/
def syncTable (sch : Schema Column V) (key : Column) (current : List (Row Column V))
    (del set : List (Trigger Name Column V)) (m : List (Row Column V)) :
    Except SyncError (List (Row Column V)) := do
  let m ← execDelete sch m del
  if set = [] then return m
  else if key ∈ sch.columns then do
    let rows ← formatReplace sch (select key (set.map Trigger.val) current)
    return sch.replaceAll rows m
  else throw .statement

/-- A deletion by the key of the table. -/
theorem execDelete_eq {sch : Schema Column V} {del : List (Trigger Name Column V)}
    (h : ∀ t ∈ del, t.key = sch.key) (m : List (Row Column V)) :
    execDelete sch m del = .ok (deleteWhere sch.key (del.map Trigger.val) m) := by
  cases del with
  | nil => simp [execDelete, deleteWhere, within]
  | cons first rs =>
    rw [execDelete, h first (List.mem_cons_self ..), if_pos (sch.apart_mem _ (List.mem_cons_self ..))]

/-- When and how `sync_trigger` gets over a table. -/
theorem syncTable_ok {sch : Schema Column V} {key : Column} {cur m m' : List (Row Column V)}
    {del set : List (Trigger Name Column V)} (h : ∀ t ∈ del, t.key = sch.key) :
    syncTable sch key cur del set m = .ok m' ↔
      (set = [] ∧ deleteWhere sch.key (del.map Trigger.val) m = m')
      ∨ (set ≠ [] ∧ key ∈ sch.columns
        ∧ ∃ first, (select key (set.map Trigger.val) cur).head? = some first
          ∧ (∀ r ∈ select key (set.map Trigger.val) cur, ∀ c ∈ sch.columns,
              (first c).isSome → (r c).isSome)
          ∧ sch.replaceAll ((select key (set.map Trigger.val) cur).map (written sch first))
              (deleteWhere sch.key (del.map Trigger.val) m) = m') := by
  unfold syncTable
  rw [execDelete_eq h, Outcome.bind_eq_ok]
  simp only [Except.ok.injEq, exists_eq_left']
  by_cases hset : set = []
  · simp [hset]
  · rw [if_neg hset]
    by_cases hkey : key ∈ sch.columns
    · rw [if_pos hkey, Outcome.bind_eq_ok]
      constructor
      · rintro ⟨rows, hrows, hm'⟩
        obtain ⟨first, hfirst, hall, rfl⟩ := formatReplace_ok.1 hrows
        exact .inr ⟨hset, hkey, first, hfirst, hall, Outcome.pure_eq_ok.1 hm'⟩
      · rintro (⟨hnil, -⟩ | ⟨-, -, first, hfirst, hall, hm'⟩)
        · exact absurd hnil hset
        · exact ⟨_, formatReplace_ok.2 ⟨first, hfirst, hall, rfl⟩, Outcome.pure_eq_ok.2 hm'⟩
    · rw [if_neg hkey]
      refine ⟨nofun, ?_⟩
      rintro (⟨hnil, -⟩ | ⟨-, hin, -⟩)
      · exact absurd hnil hset
      · exact absurd hin hkey

/-- What the trigger rows of a table, `del` and `set`, have to do with its rows before, `old`, and
    now, `cur`, when `key` is the key column of the first trigger row of all.  Of the rows that
    are selected by that column: - there is one, if anything was set or added; - a column that the
    first has, all have, and a column that it has not, has its default in all; - a row that is
    new, or has a key that was deleted, is among them. A key that is gone was deleted. -/
structure Fits (sch : Schema Column V) (key : Column) (old cur : List (Row Column V))
    (del set : List (Trigger Name Column V)) : Prop where
  column : set ≠ [] → key ∈ sch.columns
  found : set ≠ [] → select key (set.map Trigger.val) cur ≠ []
  nulls : ∀ first ∈ (select key (set.map Trigger.val) cur).head?,
    ∀ r ∈ select key (set.map Trigger.val) cur, ∀ c ∈ sch.columns,
      ((first c).isSome → (r c).isSome) ∧ (first c = none → r c = sch.default c)
  covered : ∀ r ∈ cur, r ∉ old ∨ (∃ v ∈ del.map Trigger.val, r sch.key = some v) →
    r ∈ select key (set.map Trigger.val) cur
  deleted : ∀ r ∈ old, (∀ s ∈ cur, s sch.key ≠ r sch.key) →
    ∃ v ∈ del.map Trigger.val, r sch.key = some v

/-- A table that is brought up to date, the keys that are gone being deleted. -/
theorem syncTable_iff {sch : Schema Column V} {key : Column} {old cur m : List (Row Column V)}
    {del set : List (Trigger Name Column V)} (hkey : ∀ t ∈ del, t.key = sch.key)
    (hold : sch.Ok old) (hcur : sch.Ok cur) (hm : Same m old)
    (hdel : ∀ r ∈ old, (∀ s ∈ cur, s sch.key ≠ r sch.key) →
      ∃ v ∈ del.map Trigger.val, r sch.key = some v) :
    (∃ m', syncTable sch key cur del set m = .ok m' ∧ Same m' cur) ↔ Fits sch key old cur del set := by
  have hsel : ∀ r ∈ select key (set.map Trigger.val) cur, r ∈ cur := fun r hr => (mem_select.1 hr).1
  have hbase : ∀ s, s ∈ deleteWhere sch.key (del.map Trigger.val) m ↔
      s ∈ old ∧ ¬ ∃ v ∈ del.map Trigger.val, s sch.key = some v := by
    intro s
    rw [mem_deleteWhere, hm s]
  by_cases hset : set = []
  · -- without a row set or added nothing is selected
    have hempty : select key (set.map Trigger.val) cur = [] := by
      simp [hset, select, within]
    have hiff := same_iff (W := id) (D := fun r => ∃ v ∈ del.map Trigger.val, r sch.key = some v)
      hold hcur hsel (fun _ _ => rfl) (fun s => (hbase s).trans (by simp [hempty])) hdel
    constructor
    · rintro ⟨m', hm', hsame⟩
      rcases (syncTable_ok hkey).1 hm' with ⟨-, rfl⟩ | ⟨hne, -⟩
      · refine ⟨fun hne => absurd hset hne, fun hne => absurd hset hne, ?_, (hiff.1 hsame).2, hdel⟩
        simp [hempty]
      · exact absurd hset hne
    · intro h
      refine ⟨_, (syncTable_ok hkey).2 (.inl ⟨hset, rfl⟩), hiff.2 ⟨fun _ _ => rfl, h.covered⟩⟩
  · have hiff : ∀ first, (select key (set.map Trigger.val) cur).head? = some first →
        (Same (sch.replaceAll ((select key (set.map Trigger.val) cur).map (written sch first))
            (deleteWhere sch.key (del.map Trigger.val) m)) cur
          ↔ (∀ r ∈ select key (set.map Trigger.val) cur, written sch first r = r)
            ∧ ∀ r ∈ cur, r ∉ old ∨ (∃ v ∈ del.map Trigger.val, r sch.key = some v) →
              r ∈ select key (set.map Trigger.val) cur) := by
      intro first hfirst
      have hvalid := hcur.valid first (hsel first (List.mem_of_mem_head? hfirst))
      refine same_iff hold hcur hsel (fun r _ => written_apart hvalid r _ (List.mem_cons_self ..))
        (fun s => ?_) hdel
      rw [mem_written hcur hsel hvalid, hbase]
    constructor
    · rintro ⟨m', hm', hsame⟩
      rcases (syncTable_ok hkey).1 hm' with ⟨hnil, -⟩ | ⟨-, hcolumn, first, hfirst, hall, rfl⟩
      · exact absurd hnil hset
      · have hvalid := hcur.valid first (hsel first (List.mem_of_mem_head? hfirst))
        obtain ⟨hwrite, hcover⟩ := (hiff first hfirst).1 hsame
        refine ⟨fun _ => hcolumn, fun _ hnil => ?_, fun first' hfirst' r hr c hc => ?_, hcover, hdel⟩
        · rw [hnil] at hfirst
          cases hfirst
        · cases hfirst.symm.trans hfirst'
          exact ⟨hall r hr c hc, (written_eq_iff (hcur.valid r (hsel r hr))).1 (hwrite r hr) c hc⟩
    · intro h
      obtain ⟨first, rest, hcons⟩ := List.exists_cons_of_ne_nil (h.found hset)
      have hfirst : (select key (set.map Trigger.val) cur).head? = some first := by
        rw [hcons, List.head?_cons]
      have hvalid := hcur.valid first (hsel first (List.mem_of_mem_head? hfirst))
      refine ⟨_, (syncTable_ok hkey).2 (.inr ⟨hset, h.column hset, first, hfirst, ?_, rfl⟩),
        (hiff first hfirst).2 ⟨fun r hr => ?_, h.covered⟩⟩
      · exact fun r hr c hc => (h.nulls first hfirst r hr c hc).1
      · exact (written_eq_iff (hcur.valid r (hsel r hr))).2 fun c hc =>
          (h.nulls first hfirst r hr c hc).2

end

variable [DecidableEq Name]

/-! ## Changes of the database -/

/-- The change of a row by a statement, or by the action of a foreign key. -/
inductive Change (Name Column V : Type) where
  | insert (tb : Name) (r : Row Column V) (k : V)
  | update (tb : Name) (old r : Row Column V) (k : V)
  | delete (tb : Name) (r : Row Column V) (k : V)

/-- The rows but the one with the key of `r`. -/
def others (sch : Schema Column V) (r : Row Column V) (t : List (Row Column V)) : List (Row Column V) :=
  t.filter fun s => s sch.key ≠ r sch.key

/-- The rows of other keys. -/
theorem mem_others {sch : Schema Column V} {r s : Row Column V} {t : List (Row Column V)} :
    s ∈ others sch r t ↔ s ∈ t ∧ s sch.key ≠ r sch.key := by
  simp [others]

/-- A change that the constraints of the table admit; `k` is the key that its trigger writes,
    new.key or, for a deletion, old.key. -/
def Possible (sch : Name → Schema Column V) (db : Db Name Column V) : Change Name Column V → Prop
  | .insert tb r k => (sch tb).Valid r ∧ r (sch tb).key = some k
      ∧ ∀ s ∈ db.tables tb, (sch tb).clash r s = false
  | .update tb old r k => old ∈ db.tables tb ∧ (sch tb).Valid r ∧ r (sch tb).key = some k
      ∧ ∀ s ∈ others (sch tb) old (db.tables tb), (sch tb).clash r s = false
  | .delete tb r k => r ∈ db.tables tb ∧ r (sch tb).key = some k

/-- A new content of a table, and the row that its trigger writes. -/
def Db.put (sch : Name → Schema Column V) (db : Db Name Column V) (tb : Name)
    (t : List (Row Column V)) (act : Act) (k : V) : Db Name Column V :=
  ⟨Function.update db.tables tb t, db.trigger ++ [⟨tb, act, (sch tb).key, k⟩]⟩

def Db.apply (sch : Name → Schema Column V) (db : Db Name Column V) :
    Change Name Column V → Db Name Column V
  | .insert tb r k => db.put sch tb (db.tables tb ++ [r]) .add k
  | .update tb old r k => db.put sch tb (others (sch tb) old (db.tables tb) ++ [r]) .set k
  | .delete tb r k => db.put sch tb (others (sch tb) r (db.tables tb)) .del k

/-- Changes one after the other. -/
inductive Run (sch : Name → Schema Column V) : Db Name Column V → Db Name Column V → Prop
  | refl (db : Db Name Column V) : Run sch db db
  | step {db db' : Db Name Column V} {ch : Change Name Column V} (h : Run sch db db')
      (hch : Possible sch db' ch) : Run sch db (db'.apply sch ch)

/-! ## What the trigger rows say of the tables -/

/-- What holds of the tables and the trigger rows behind changes of `db`. -/
structure Traced (sch : Name → Schema Column V) (db db' : Db Name Column V) : Prop where
  ok : ∀ tb, (sch tb).Ok (db'.tables tb)
  keys : ∀ t ∈ db'.trigger, t.key = (sch t.tb).key
  quiet : ∀ tb, (∀ t ∈ db'.trigger, t.tb ≠ tb) → db'.tables tb = db.tables tb
  fresh : ∀ tb, ∀ r ∈ db'.tables tb, r ∉ db.tables tb →
    ∃ t ∈ sets tb db'.trigger, r (sch tb).key = some t.val
  again : ∀ tb, ∀ r ∈ db'.tables tb, (∃ t ∈ dels tb db'.trigger, r (sch tb).key = some t.val) →
    ∃ t ∈ sets tb db'.trigger, r (sch tb).key = some t.val

/-- A new content of which each row was there or has the key that is written. -/
theorem Traced.put {sch : Name → Schema Column V} {db db' : Db Name Column V} (h : Traced sch db db')
    {tb : Name} {t : List (Row Column V)} {act : Act} {k : V} (hok : (sch tb).Ok t)
    (hrows : ∀ r ∈ t, r ∈ db'.tables tb ∨ (act ≠ .del ∧ r (sch tb).key = some k))
    (hgone : act = .del → ∀ r ∈ t, r (sch tb).key ≠ some k) :
    Traced sch db (db'.put sch tb t act k) := by
  have hmore : ∀ tb', ∀ e ∈ sets tb' db'.trigger,
      e ∈ sets tb' (db'.put sch tb t act k).trigger := fun tb' e he =>
    mem_sets.2 ⟨List.mem_append_left _ (mem_sets.1 he).1, (mem_sets.1 he).2⟩
  have hnew : act ≠ .del →
      ⟨tb, act, (sch tb).key, k⟩ ∈ sets tb (db'.put sch tb t act k).trigger := fun hact =>
    mem_sets.2 ⟨List.mem_append_right _ (List.mem_singleton_self _), rfl, hact⟩
  have hother : ∀ tb', tb' ≠ tb → (db'.put sch tb t act k).tables tb' = db'.tables tb' :=
    fun tb' hne => Function.update_of_ne hne _ _
  have hself : (db'.put sch tb t act k).tables tb = t := Function.update_self ..
  refine ⟨fun tb' => ?_, fun e he => ?_, fun tb' hquiet => ?_, fun tb' r hr hfresh => ?_,
    fun tb' r hr hdel => ?_⟩
  · by_cases htb : tb' = tb
    · subst htb
      rw [hself]
      exact hok
    · rw [hother tb' htb]
      exact h.ok tb'
  · rcases List.mem_append.1 he with he | he
    · exact h.keys e he
    · rw [List.mem_singleton.1 he]
  · have hne : tb' ≠ tb := (hquiet _ (List.mem_append_right _ (List.mem_singleton_self _))).symm
    rw [hother tb' hne]
    exact h.quiet tb' fun e he => hquiet e (List.mem_append_left _ he)
  · by_cases htb : tb' = tb
    · subst htb
      rw [hself] at hr
      rcases hrows r hr with hin | ⟨hact, hkey⟩
      · obtain ⟨e, he, hval⟩ := h.fresh tb' r hin hfresh
        exact ⟨e, hmore tb' e he, hval⟩
      · exact ⟨_, hnew hact, hkey⟩
    · rw [hother tb' htb] at hr
      obtain ⟨e, he, hval⟩ := h.fresh tb' r hr hfresh
      exact ⟨e, hmore tb' e he, hval⟩
  · obtain ⟨d, hd, hval⟩ := hdel
    obtain ⟨hd, hdtb, hdact⟩ := mem_dels.1 hd
    by_cases htb : tb' = tb
    · subst htb
      rw [hself] at hr
      rcases hrows r hr with hin | ⟨hact, hkey⟩
      · rcases List.mem_append.1 hd with hd | hd
        · obtain ⟨e, he, hval⟩ := h.again tb' r hin ⟨d, mem_dels.2 ⟨hd, hdtb, hdact⟩, hval⟩
          exact ⟨e, hmore tb' e he, hval⟩
        · -- the key just deleted is not in the table
          rw [List.mem_singleton.1 hd] at hval hdact
          exact absurd hval (hgone hdact r hr)
      · exact ⟨_, hnew hact, hkey⟩
    · rw [hother tb' htb] at hr
      rcases List.mem_append.1 hd with hd | hd
      · obtain ⟨e, he, hval⟩ := h.again tb' r hr ⟨d, mem_dels.2 ⟨hd, hdtb, hdact⟩, hval⟩
        exact ⟨e, hmore tb' e he, hval⟩
      · rw [List.mem_singleton.1 hd] at hdtb
        exact absurd hdtb.symm htb

/-- Every change of the database is recorded. -/
theorem Traced.apply {sch : Name → Schema Column V} {db db' : Db Name Column V}
    (h : Traced sch db db') {ch : Change Name Column V} (hch : Possible sch db' ch) :
    Traced sch db (db'.apply sch ch) := by
  have hsnoc : ∀ (tb : Name) (t : List (Row Column V)) (r : Row Column V) (k : V) (act : Act),
      act ≠ .del → (∀ s ∈ t, s ∈ db'.tables tb) → r (sch tb).key = some k →
      ∀ s ∈ t ++ [r], s ∈ db'.tables tb ∨ (act ≠ .del ∧ s (sch tb).key = some k) := by
    intro tb t r k act hact hsub hkey s hs
    rcases List.mem_append.1 hs with hs | hs
    · exact .inl (hsub s hs)
    · exact .inr ⟨hact, List.mem_singleton.1 hs ▸ hkey⟩
  cases ch with
  | insert tb r k =>
    obtain ⟨hr, hkey, hfree⟩ := hch
    exact h.put ((h.ok tb).snoc hr hfree) (hsnoc tb _ r k _ nofun (fun _ hs => hs) hkey) nofun
  | update tb old r k =>
    obtain ⟨-, hr, hkey, hfree⟩ := hch
    refine h.put (((h.ok tb).filter _).snoc hr hfree) (hsnoc tb _ r k _ nofun (fun s hs => ?_) hkey) nofun
    exact (mem_others.1 hs).1
  | delete tb r k =>
    obtain ⟨-, hkey⟩ := hch
    refine h.put ((h.ok tb).filter _) (fun s hs => .inl (mem_others.1 hs).1) fun _ s hs => ?_
    exact fun hs' => (mem_others.1 hs).2 (hs'.trans hkey.symm)

/-- In every run the records tell what changed. -/
theorem traced_of_run {sch : Name → Schema Column V} {db db' : Db Name Column V}
    (h : Run sch db db') (hok : ∀ tb, (sch tb).Ok (db.tables tb)) (htrigger : db.trigger = []) :
    Traced sch db db' := by
  induction h with
  | refl =>
    refine ⟨hok, ?_, fun _ _ => rfl, fun _ r hr hfresh => absurd hr hfresh, ?_⟩
    · simp [htrigger]
    · simp [htrigger, dels]
  | step _ hch ih => exact ih.apply hch

/-- With the key column of the table itself no row is missed that was changed. -/
theorem Traced.fits_iff {sch : Name → Schema Column V} {db db' : Db Name Column V}
    (h : Traced sch db db') (tb : Name) :
    Fits (sch tb) (sch tb).key (db.tables tb) (db'.tables tb) (dels tb db'.trigger) (sets tb db'.trigger) ↔
      (sets tb db'.trigger ≠ [] →
        select (sch tb).key ((sets tb db'.trigger).map Trigger.val) (db'.tables tb) ≠ [])
      ∧ (∀ first ∈ (select (sch tb).key ((sets tb db'.trigger).map Trigger.val) (db'.tables tb)).head?,
          ∀ r ∈ select (sch tb).key ((sets tb db'.trigger).map Trigger.val) (db'.tables tb),
          ∀ c ∈ (sch tb).columns,
            ((first c).isSome → (r c).isSome) ∧ (first c = none → r c = (sch tb).default c))
      ∧ ∀ r ∈ db.tables tb, (∀ s ∈ db'.tables tb, s (sch tb).key ≠ r (sch tb).key) →
          ∃ v ∈ (dels tb db'.trigger).map Trigger.val, r (sch tb).key = some v := by
  refine ⟨fun hfits => ⟨hfits.found, hfits.nulls, hfits.deleted⟩, ?_⟩
  rintro ⟨hfound, hnulls, hdeleted⟩
  refine ⟨fun _ => (sch tb).apart_mem _ (List.mem_cons_self ..), hfound, hnulls, fun r hr hmiss => ?_,
    hdeleted⟩
  have hset : ∃ t ∈ sets tb db'.trigger, r (sch tb).key = some t.val := by
    rcases hmiss with hmiss | ⟨v, hv, hval⟩
    · exact h.fresh tb r hr hmiss
    · obtain ⟨t, ht, rfl⟩ := List.mem_map.1 hv
      exact h.again tb r hr ⟨t, ht, hval⟩
  obtain ⟨t, ht, hval⟩ := hset
  exact mem_select.2 ⟨hr, t.val, List.mem_map.2 ⟨t, ht, rfl⟩, hval⟩

/-- The names that `pairs(tbmap)` gives, each once. -/
structure Walks (pairs : List Name) (trigger : List (Trigger Name Column V)) : Prop where
  nodup : pairs.Nodup
  mem_iff : ∀ tb, tb ∈ pairs ↔ ∃ t ∈ trigger, t.tb = tb

/-- A table without a trigger row is as it was. -/
theorem Traced.same {sch : Name → Schema Column V} {db db' : Db Name Column V}
    (h : Traced sch db db') {pairs : List Name} (hpairs : Walks pairs db'.trigger) {tb : Name}
    (htb : tb ∉ pairs) : db'.tables tb = db.tables tb := by
  refine h.quiet tb fun t ht heq => htb ?_
  exact (hpairs.mem_iff tb).2 ⟨t, ht, heq⟩

/-! ## `sync_trigger` -/

variable [DecidableEq Column]

/-- What is said of a table: the keys deleted, and the keys set or added. -/
structure Item (V : Type) where
  del : List V
  set : List V
deriving DecidableEq, Repr

def item (tb : Name) (trigger : List (Trigger Name Column V)) : Item V :=
  ⟨(dels tb trigger).map Trigger.val, (sets tb trigger).map Trigger.val⟩

/-- The loop over `tbmap`, with its tables in the order of `pairs`. -/
def syncTables (sch : Name → Schema Column V) (key : Column) (db : Db Name Column V) :
    List Name → (Name → List (Row Column V)) → Except SyncError (Name → List (Row Column V))
  | [], mirror => .ok mirror
  | tb :: pairs, mirror => do
    let m ← syncTable (sch tb) key (db.tables tb) (dels tb db.trigger) (sets tb db.trigger) (mirror tb)
    syncTables sch key db pairs (Function.update mirror tb m)

/-- The loop gets over tables, each of which is brought up to date on its own. -/
theorem syncTables_ok {sch : Name → Schema Column V} {key : Column} {db : Db Name Column V}
    {pairs : List Name} (hpairs : pairs.Nodup) {mirror mirror' : Name → List (Row Column V)} :
    syncTables sch key db pairs mirror = .ok mirror' ↔
      (∀ tb ∈ pairs, syncTable (sch tb) key (db.tables tb) (dels tb db.trigger) (sets tb db.trigger)
        (mirror tb) = .ok (mirror' tb))
      ∧ ∀ tb, tb ∉ pairs → mirror' tb = mirror tb := by
  induction pairs generalizing mirror with
  | nil =>
    rw [syncTables, Except.ok.injEq]
    constructor
    · rintro rfl
      exact ⟨nofun, fun _ _ => rfl⟩
    · rintro ⟨-, h⟩
      funext tb
      exact (h tb List.not_mem_nil).symm
  | cons tb pairs ih =>
    obtain ⟨htb, hpairs⟩ := List.nodup_cons.1 hpairs
    rw [syncTables, Outcome.bind_eq_ok]
    constructor
    · rintro ⟨m, hm, hrest⟩
      obtain ⟨hall, hother⟩ := (ih hpairs).1 hrest
      have hself : mirror' tb = m := (hother tb htb).trans (Function.update_self ..)
      refine ⟨List.forall_mem_cons.2 ⟨hself ▸ hm, fun tb' htb' => ?_⟩, fun tb' htb' => ?_⟩
      · have hne : tb' ≠ tb := fun heq => htb (heq ▸ htb')
        have := hall tb' htb'
        rwa [Function.update_of_ne hne] at this
      · rw [List.mem_cons, not_or] at htb'
        exact (hother tb' htb'.2).trans (Function.update_of_ne htb'.1 ..)
    · rintro ⟨hall, hother⟩
      obtain ⟨hself, hall⟩ := List.forall_mem_cons.1 hall
      refine ⟨mirror' tb, hself, (ih hpairs).2 ⟨fun tb' htb' => ?_, fun tb' htb' => ?_⟩⟩
      · have hne : tb' ≠ tb := fun heq => htb (heq ▸ htb')
        rw [Function.update_of_ne hne]
        exact hall tb' htb'
      · by_cases heq : tb' = tb
        · rw [heq, Function.update_self]
        · rw [Function.update_of_ne heq]
          exact hother tb' fun hmem => htb' ((List.mem_cons.1 hmem).resolve_left heq)

/-- What `sync` makes of the mirror and of the table `trigger`, and what it says. -/
structure Synced (Name Column V : Type) where
  mirror : Name → List (Row Column V)
  db : Db Name Column V
  broad : List (Name × Item V)

/-- `sync_trigger`. -/
def syncTrigger (sch : Name → Schema Column V) (pairs : List Name) (db : Db Name Column V)
    (mirror : Name → List (Row Column V)) : Except SyncError (Synced Name Column V) :=
  match db.trigger with
  | [] => .ok ⟨mirror, db, []⟩
  | first :: _ => do
    let mirror ← syncTables sch first.key db pairs mirror
    return ⟨mirror, { db with trigger := [] }, pairs.map fun tb => (tb, item tb db.trigger)⟩

/-- Without records nothing is synchronised. -/
theorem syncTrigger_nil {sch : Name → Schema Column V} {pairs : List Name} {db : Db Name Column V}
    (h : db.trigger.head? = none) (mirror : Name → List (Row Column V)) :
    syncTrigger sch pairs db mirror = .ok ⟨mirror, db, []⟩ := by
  unfold syncTrigger
  rw [List.head?_eq_none_iff.1 h]

/-- What a call of `sync` with trigger rows comes to. -/
theorem syncTrigger_ok {sch : Name → Schema Column V} {pairs : List Name} {db : Db Name Column V}
    {first : Trigger Name Column V} (h : db.trigger.head? = some first)
    {mirror : Name → List (Row Column V)} {s : Synced Name Column V} :
    syncTrigger sch pairs db mirror = .ok s ↔
      syncTables sch first.key db pairs mirror = .ok s.mirror ∧ s.db = { db with trigger := [] }
        ∧ s.broad = pairs.map fun tb => (tb, item tb db.trigger) := by
  obtain ⟨rest, hrows⟩ := List.head?_eq_some_iff.1 h
  unfold syncTrigger
  rw [hrows, Outcome.bind_eq_ok]
  constructor
  · rintro ⟨mirror', hm, hs⟩
    cases Outcome.pure_eq_ok.1 hs
    exact ⟨hm, rfl, rfl⟩
  · rintro ⟨hm, hdb, hbroad⟩
    refine ⟨s.mirror, hm, Outcome.pure_eq_ok.2 ?_⟩
    rw [← hdb, ← hbroad]

/-- A call of `sync` leaves no trigger rows. -/
theorem syncTrigger_trigger {sch : Name → Schema Column V} {pairs : List Name}
    {db : Db Name Column V} {mirror : Name → List (Row Column V)} {s : Synced Name Column V}
    (h : syncTrigger sch pairs db mirror = .ok s) : s.db.trigger = [] := by
  cases hhead : db.trigger.head? with
  | none =>
    rw [syncTrigger_nil hhead] at h
    cases h
    exact List.head?_eq_none_iff.1 hhead
  | some first => rw [((syncTrigger_ok hhead).1 h).2.1]

/-! ## The mirror -/

/-- What `sync` says names each table whose content changed, with the keys that are gone and those
    of the rows that are new. -/
def Named (sch : Name → Schema Column V) (db db' : Db Name Column V) (broad : List (Name × Item V)) :
    Prop :=
  ∀ tb, ¬ Same (db.tables tb) (db'.tables tb) → ∃ it, (tb, it) ∈ broad
    ∧ (∀ r ∈ db.tables tb, (∀ s ∈ db'.tables tb, s (sch tb).key ≠ r (sch tb).key) →
        ∃ k ∈ it.del, r (sch tb).key = some k)
    ∧ ∀ r ∈ db'.tables tb, r ∉ db.tables tb → ∃ k ∈ it.set, r (sch tb).key = some k

/-- `sync` returns, the mirror has the rows of the tables, and the changes are named. -/
def Mirrored (sch : Name → Schema Column V) (db db' : Db Name Column V) :
    Except SyncError (Synced Name Column V) → Prop
  | .error _ => False
  | .ok s => (∀ tb, Same (s.mirror tb) (db'.tables tb)) ∧ Named sch db db' s.broad

omit [DecidableEq Column] in
/-- A recorded deletion is by the key of its table. -/
theorem Traced.delKeys {sch : Name → Schema Column V} {db db' : Db Name Column V}
    (h : Traced sch db db') {tb : Name} : ∀ t ∈ dels tb db'.trigger, t.key = (sch tb).key := by
  intro t ht
  obtain ⟨ht', rfl, -⟩ := mem_dels.1 ht
  exact h.keys t ht'

/-- A mirror that has become the database was made by tables that fit. -/
theorem fits_of_mirrored {sch : Name → Schema Column V} {db db' : Db Name Column V}
    {mirror : Name → List (Row Column V)} {pairs : List Name} {first : Trigger Name Column V}
    (hok : ∀ tb, (sch tb).Ok (db.tables tb)) (htraced : Traced sch db db')
    (hmirror : ∀ tb, Same (mirror tb) (db.tables tb)) (hnodup : pairs.Nodup)
    (hhead : db'.trigger.head? = some first)
    (h : Mirrored sch db db' (syncTrigger sch pairs db' mirror)) {tb : Name} (htb : tb ∈ pairs) :
    Fits (sch tb) first.key (db.tables tb) (db'.tables tb) (dels tb db'.trigger)
      (sets tb db'.trigger) := by
  cases hs : syncTrigger sch pairs db' mirror with
  | error e =>
    rw [hs] at h
    exact h.elim
  | ok s =>
    rw [hs] at h
    obtain ⟨hsame, hnamed⟩ := h
    obtain ⟨hm, -, hbroad⟩ := (syncTrigger_ok hhead).1 hs
    have htable := ((syncTables_ok hnodup).1 hm).1 tb htb
    refine (syncTable_iff htraced.delKeys (hok tb) (htraced.ok tb) (hmirror tb) ?_).1
      ⟨s.mirror tb, htable, hsame tb⟩
    -- a row that is gone is named in the broadcast, which the triggers give
    intro r hr hgone
    obtain ⟨it, hit, hdel, -⟩ := hnamed tb (not_same_of_gone hr hgone)
    rw [hbroad] at hit
    obtain ⟨tb', -, htb'⟩ := List.mem_map.1 hit
    cases htb'
    exact hdel r hr hgone

/-- Tables that fit make the mirror the database again. -/
theorem mirrored_of_fits {sch : Name → Schema Column V} {db db' : Db Name Column V}
    {mirror : Name → List (Row Column V)} {pairs : List Name} {first : Trigger Name Column V}
    (hok : ∀ tb, (sch tb).Ok (db.tables tb)) (htraced : Traced sch db db')
    (hmirror : ∀ tb, Same (mirror tb) (db.tables tb)) (hpairs : Walks pairs db'.trigger)
    (hhead : db'.trigger.head? = some first)
    (hfits : ∀ tb ∈ pairs, Fits (sch tb) first.key (db.tables tb) (db'.tables tb)
      (dels tb db'.trigger) (sets tb db'.trigger)) :
    Mirrored sch db db' (syncTrigger sch pairs db' mirror) := by
  have htable : ∀ tb, ∃ m, (tb ∈ pairs → syncTable (sch tb) first.key (db'.tables tb)
      (dels tb db'.trigger) (sets tb db'.trigger) (mirror tb) = .ok m
      ∧ Same m (db'.tables tb)) ∧ (tb ∉ pairs → m = mirror tb) := by
    intro tb
    by_cases htb : tb ∈ pairs
    · obtain ⟨m, hm⟩ := (syncTable_iff htraced.delKeys (hok tb) (htraced.ok tb) (hmirror tb)
        (hfits tb htb).deleted).2 (hfits tb htb)
      exact ⟨m, fun _ => hm, fun hnot => absurd htb hnot⟩
    · exact ⟨mirror tb, fun hin => absurd hin htb, fun _ => rfl⟩
  choose m hm hother using htable
  have hs : syncTrigger sch pairs db' mirror = .ok ⟨m, { db' with trigger := [] },
      pairs.map fun tb => (tb, item tb db'.trigger)⟩ :=
    (syncTrigger_ok hhead).2
      ⟨(syncTables_ok hpairs.nodup).2 ⟨fun tb htb => (hm tb htb).1, hother⟩, rfl, rfl⟩
  rw [hs]
  refine ⟨fun tb => ?_, fun tb hchanged => ?_⟩
  · by_cases htb : tb ∈ pairs
    · exact (hm tb htb).2
    · -- a table without a trigger has not changed
      change Same (m tb) (db'.tables tb)
      rw [hother tb htb, htraced.same hpairs htb]
      exact hmirror tb
  · have htb : tb ∈ pairs := by
      by_contra htb
      rw [htraced.same hpairs htb] at hchanged
      exact hchanged fun _ => Iff.rfl
    refine ⟨_, List.mem_map.2 ⟨tb, htb, rfl⟩, (hfits tb htb).deleted, fun r hr hfresh => ?_⟩
    obtain ⟨t, ht, hval⟩ := htraced.fresh tb r hr hfresh
    exact ⟨t.val, List.mem_map.2 ⟨t, ht, rfl⟩, hval⟩

/-- **The mirror.**  Whatever was changed between two calls of `sync`, the second brings the
    mirror up to date and names the changes exactly if the trigger rows fit each table that has
    some. -/
theorem mirrored_iff {sch : Name → Schema Column V} {db db' : Db Name Column V}
    {mirror : Name → List (Row Column V)} {pairs : List Name}
    (hok : ∀ tb, (sch tb).Ok (db.tables tb)) (htrigger : db.trigger = [])
    (hmirror : ∀ tb, Same (mirror tb) (db.tables tb)) (hrun : Run sch db db')
    (hpairs : Walks pairs db'.trigger) :
    Mirrored sch db db' (syncTrigger sch pairs db' mirror) ↔
      ∀ first ∈ db'.trigger.head?, ∀ tb ∈ pairs,
        Fits (sch tb) first.key (db.tables tb) (db'.tables tb) (dels tb db'.trigger)
          (sets tb db'.trigger) := by
  have htraced := traced_of_run hrun hok htrigger
  cases hhead : db'.trigger.head? with
  | none =>
    have hnot : ∀ tb, tb ∉ pairs := by
      intro tb htb
      obtain ⟨t, ht, -⟩ := (hpairs.mem_iff tb).1 htb
      rw [List.head?_eq_none_iff.1 hhead] at ht
      cases ht
    rw [syncTrigger_nil hhead]
    refine ⟨nofun, fun _ => ⟨fun tb => ?_, fun tb hchanged => absurd ?_ hchanged⟩⟩
    · rw [htraced.same hpairs (hnot tb)]
      exact hmirror tb
    · rw [htraced.same hpairs (hnot tb)]
      exact fun _ => Iff.rfl
  | some first =>
    refine ⟨fun h first' hfirst' tb htb => ?_, fun h => ?_⟩
    · cases hfirst'
      exact fits_of_mirrored hok htraced hmirror hpairs.nodup hhead h htb
    · exact mirrored_of_fits hok htraced hmirror hpairs hhead (h first rfl)

/-- Tables with a key and a value. -/
def keyed : Bool → Schema Bool ℕ := fun _ =>
  { columns := [false, true], key := false, uniques := [], default := fun _ => none,
    apart_mem := by decide, default_outside := fun _ _ => rfl }

def keyedRow (key val : ℕ) : Row Bool ℕ
  | false => some key
  | true => some val

/-- Two rows in each of two tables. -/
def twoTables : Db Bool Bool ℕ where
  tables
    | false => [keyedRow 1 10, keyedRow 2 20]
    | true => [keyedRow 1 50, keyedRow 3 60]
  trigger := []

/-- A row of the first table gets another value, and one of the second is gone. -/
def twoChanges : Db Bool Bool ℕ :=
  (twoTables.apply keyed (.update false (keyedRow 1 10) (keyedRow 1 11) 1)).apply keyed
    (.delete true (keyedRow 3 60) 3)

theorem valid_keyedRow (tb : Bool) (key val : ℕ) : (keyed tb).Valid (keyedRow key val) := by
  refine ⟨fun c hc => ?_, fun c hc => ?_⟩
  · cases c with
    | false => exact absurd (List.mem_cons_self ..) hc
    | true => exact absurd (List.mem_cons_of_mem _ (List.mem_singleton_self _)) hc
  · obtain rfl : c = false := List.mem_singleton.1 hc
    exact ⟨key, rfl⟩

theorem ok_twoTables (tb : Bool) : (keyed tb).Ok (twoTables.tables tb) := by
  have hvalid : ∀ k₁ v₁ k₂ v₂, ∀ r ∈ [keyedRow k₁ v₁, keyedRow k₂ v₂], (keyed tb).Valid r := by
    intro k₁ v₁ k₂ v₂ r hr
    rcases List.mem_pair.1 hr with rfl | rfl
    · exact valid_keyedRow _ _ _
    · exact valid_keyedRow _ _ _
  cases tb with
  | false => exact ⟨hvalid _ _ _ _, by decide⟩
  | true => exact ⟨hvalid _ _ _ _, by decide⟩

/-- The sample's changes are a run. -/
theorem run_twoChanges : Run keyed twoTables twoChanges :=
  .step (.step (.refl _) ⟨by decide, valid_keyedRow _ _ _, rfl, by decide⟩) ⟨by decide, rfl⟩

/-- An update in one table and a deletion in another are brought to the mirror. -/
theorem mirrored_iff_twoChanges :
    Mirrored keyed twoTables twoChanges
      (syncTrigger keyed [false, true] twoChanges twoTables.tables) := by
  have hwalks : Walks [false, true] twoChanges.trigger := ⟨by decide, by decide⟩
  refine (mirrored_iff ok_twoTables rfl (fun _ _ => Iff.rfl) run_twoChanges hwalks).2
    fun first hfirst tb _ => ?_
  cases hfirst
  cases tb with
  | false => exact ⟨by decide, by decide, by decide, by decide, by decide⟩
  | true => exact ⟨by decide, by decide, by decide, by decide, by decide⟩

/-- One table with one column, and that is the key. -/
def oneColumn : Unit → Schema Unit ℕ := fun _ =>
  { columns := [()], key := (), uniques := [], default := fun _ => none,
    apart_mem := fun _ _ => List.mem_singleton_self _, default_outside := fun _ _ => rfl }

/-- The empty table, and the row with the key 1. -/
def emptyDb : Db Unit Unit ℕ := ⟨fun _ => [], []⟩

def rowOne : Row Unit ℕ := fun _ => some 1

theorem possible_insert : Possible oneColumn emptyDb (.insert () rowOne 1) :=
  ⟨⟨fun _ hc => absurd (List.mem_singleton_self _) hc, fun _ _ => ⟨1, rfl⟩⟩, rfl, nofun⟩

/-- A row that was inserted and deleted between two calls: none is selected. -/
theorem deleted_not_mirrored :
    ¬ ∀ db', Run oneColumn emptyDb db' → ∀ pairs, Walks pairs db'.trigger →
      Mirrored oneColumn emptyDb db' (syncTrigger oneColumn pairs db' fun _ => []) := by
  intro h
  have hrun : Run oneColumn emptyDb _ := .step (.refl _) possible_insert
  have hdelete : Possible oneColumn (emptyDb.apply oneColumn (.insert () rowOne 1))
      (.delete () rowOne 1) := ⟨List.mem_singleton_self _, rfl⟩
  exact h _ (hrun.step hdelete) [()]
    ⟨by decide, fun _ => ⟨fun _ => ⟨_, List.mem_cons_self .., rfl⟩, fun _ => List.mem_singleton_self _⟩⟩

end DbSync
