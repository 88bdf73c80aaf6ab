/-
# Comparing tables (`same` of `lualib-ac/fp.lua`)

`same_aux` goes through a table and looks each key up in another one, also in the tables
inside; `same` does it in both directions.  `compare_config` of `acconfig.lua` compares the
rules of each category and the list of each set with it.
-/
import Mathlib.Tactic.Common
import OpenwrtAc.AcConfig

open AcConfig (ConfigCate MapKey)

namespace FpSame

variable {K V : Type} [DecidableEq K]

/-- The contents of a table that is a finite tree, one key after the other; a value is a table
with its identity or something else. -/
inductive Tree (K V : Type)
  | nil
  | prim (k : K) (v : V) (rest : Tree K V)
  | table (k : K) (id : ℕ) (t rest : Tree K V)
  deriving DecidableEq

inductive Val (K V : Type)
  | prim (v : V)
  | table (id : ℕ) (t : Tree K V)
  deriving DecidableEq

/-- `t[k]`. -/
def Tree.get : Tree K V → K → Option (Val K V)
  | .nil, _ => none
  | .prim k v rest, i => if k = i then some (.prim v) else rest.get i
  | .table k id t rest, i => if k = i then some (.table id t) else rest.get i

/-- Each key is there once, and a table inside has the contents that belong to its identity. -/
def Tree.Sound (heap : ℕ → Tree K V) : Tree K V → Prop
  | .nil => True
  | .prim k _ rest => rest.get k = none ∧ rest.Sound heap
  | .table k id t rest => rest.get k = none ∧ t = heap id ∧ t.Sound heap ∧ rest.Sound heap

/-- A table, where `heap` has the contents of the tables. -/
structure Table (heap : ℕ → Tree K V) where
  tree : Tree K V
  sound : tree.Sound heap

variable {heap : ℕ → Tree K V} [BEq V]

/-- `same_aux`; `==` is the equality of values that are no tables. -/
def sameAux : Tree K V → Tree K V → Bool
  | .nil, _ => true
  | .prim k v₁ rest, b =>
    match b.get k with
    | some (.prim v₂) => if v₁ == v₂ then sameAux rest b else false
    | _ => false
  | .table k id₁ t₁ rest, b =>
    match b.get k with
    | some (.table id₂ t₂) =>
      if id₁ = id₂ then sameAux rest b
      else if sameAux t₁ t₂ then sameAux rest b
      else false
    | _ => false

def same (t₁ t₂ : Table heap) : Bool := sameAux t₁.tree t₂.tree && sameAux t₂.tree t₁.tree

/-! ## Equal contents -/

mutual

/-- Equal contents: the same keys with equal values. -/
inductive Alike : Tree K V → Tree K V → Prop
  | intro {a b : Tree K V} (h : ∀ k, AlikeAt (a.get k) (b.get k)) : Alike a b

/-- What two tables have at a key: nothing, equal values that are no tables, one and the same
table, or tables with equal contents. -/
inductive AlikeAt : Option (Val K V) → Option (Val K V) → Prop
  | absent : AlikeAt none none
  | prim {v v' : V} (h : (v == v') = true) : AlikeAt (some (.prim v)) (some (.prim v'))
  | one (id : ℕ) (t : Tree K V) : AlikeAt (some (.table id t)) (some (.table id t))
  | table {id id' : ℕ} {t t' : Tree K V} (h : Alike t t') :
    AlikeAt (some (.table id t)) (some (.table id' t'))

end

/-- What `same_aux` wants of a value and what the other table has at its key. -/
def Fits : Val K V → Option (Val K V) → Prop
  | .prim v, some (.prim v') => (v == v') = true
  | .table id t, some (.table id' t') => id = id' ∨ sameAux t t' = true
  | _, _ => False

/-- A value is found and equal, and the rest is. -/
theorem sameAux_prim (k : K) (v : V) (rest b : Tree K V) :
    sameAux (.prim k v rest) b = true ↔ Fits (.prim v) (b.get k) ∧ sameAux rest b = true := by
  rw [sameAux]
  match b.get k with
  | none => simp [Fits]
  | some (.prim v') => simp [Fits]
  | some (.table id' t') => simp [Fits]

/-- A table is found and alike, and the rest is. -/
theorem sameAux_table (k : K) (id : ℕ) (t rest b : Tree K V) :
    sameAux (.table k id t rest) b = true ↔
      Fits (.table id t) (b.get k) ∧ sameAux rest b = true := by
  rw [sameAux]
  match b.get k with
  | none => simp [Fits]
  | some (.prim v') => simp [Fits]
  | some (.table id' t') =>
    by_cases h : id = id'
    · simp [Fits, h]
    · simp [Fits, h]

omit [BEq V] in
/-- What holds of the value at the first key and of those at the others. -/
theorem forall_get_cons {P : K → Val K V → Prop} {k : K} {v : Val K V} {get : K → Option (Val K V)}
    (hnone : get k = none) :
    (∀ i u, (if k = i then some v else get i) = some u → P i u) ↔
      P k v ∧ ∀ i u, get i = some u → P i u := by
  constructor
  · intro h
    refine ⟨h k v (if_pos rfl), fun i u hu => h i u ?_⟩
    rw [if_neg]
    · exact hu
    · rintro rfl
      rw [hnone] at hu
      cases hu
  · rintro ⟨hk, h⟩ i u hu
    split_ifs at hu with hi
    · subst hi
      cases hu
      exact hk
    · exact h i u hu

/-- One direction: everything that is in the first table fits. -/
theorem sameAux_iff {a : Tree K V} (ha : a.Sound heap) (b : Tree K V) :
    sameAux a b = true ↔ ∀ k v, a.get k = some v → Fits v (b.get k) := by
  induction a with
  | nil => exact iff_of_true rfl nofun
  | prim k v rest ih =>
    rw [sameAux_prim, ih ha.2]
    exact (forall_get_cons (P := fun i u => Fits u (b.get i)) ha.1).symm
  | table k id t rest _ ih =>
    rw [sameAux_table, ih ha.2.2.2]
    exact (forall_get_cons (P := fun i u => Fits u (b.get i)) ha.1).symm

omit [BEq V] in
/-- A table inside is the one of the heap. -/
theorem Tree.Sound.inside {a : Tree K V} (ha : a.Sound heap) {k : K} {id : ℕ} {t : Tree K V}
    (h : a.get k = some (.table id t)) : t = heap id ∧ t.Sound heap := by
  induction a with
  | nil => cases h
  | prim i v rest ih =>
    rw [Tree.get] at h
    split_ifs at h
    · cases h
    · exact ih ha.2 h
  | table i id' t' rest _ ih =>
    rw [Tree.get] at h
    split_ifs at h
    · cases h
      exact ⟨ha.2.1, ha.2.2.1⟩
    · exact ih ha.2.2.2 h

omit [BEq V] in
/-- Induction over the tables inside. -/
theorem Tree.induct_inside {P : Tree K V → Prop}
    (h : ∀ a : Tree K V, (∀ k id t, a.get k = some (.table id t) → P t) → P a)
    (a : Tree K V) : P a := by
  suffices hboth : P a ∧ ∀ k id t, a.get k = some (.table id t) → P t from hboth.1
  induction a with
  | nil => exact ⟨h _ nofun, nofun⟩
  | prim k v rest ih =>
    have hget : ∀ i id t, (Tree.prim k v rest).get i = some (.table id t) → P t := by
      intro i id t hi
      rw [Tree.get] at hi
      split_ifs at hi
      · cases hi
      · exact ih.2 i id t hi
    exact ⟨h _ hget, hget⟩
  | table k id t rest iht ih =>
    have hget : ∀ i id' t', (Tree.table k id t rest).get i = some (.table id' t') → P t' := by
      intro i id' t' hi
      rw [Tree.get] at hi
      split_ifs at hi
      · cases hi
        exact iht.1
      · exact ih.2 i id' t' hi
    exact ⟨h _ hget, hget⟩

/-- What is missing fits nothing. -/
theorem not_fits_none : ∀ v : Val K V, ¬ Fits v none
  | .prim _, h => h
  | .table _ _, h => h

/-- What two tables have at a key, where both directions agree. -/
theorem alikeAt_of_fits {x y : Option (Val K V)} (hxy : ∀ v, x = some v → Fits v y)
    (hyx : ∀ v, y = some v → Fits v x)
    (hone : ∀ id t t', x = some (.table id t) → y = some (.table id t') → t' = t)
    (hinside : ∀ id t id' t', x = some (.table id t) → y = some (.table id' t') →
      sameAux t t' = true ∧ sameAux t' t = true → Alike t t') : AlikeAt x y := by
  match x, y with
  | none, none => exact .absent
  | none, some v => exact absurd (hyx v rfl) (not_fits_none v)
  | some v, none => exact absurd (hxy v rfl) (not_fits_none v)
  | some (.prim v), some (.prim v') => exact .prim (hxy _ rfl)
  | some (.prim v), some (.table id' t') => exact (hxy _ rfl).elim
  | some (.table id t), some (.prim v') => exact (hxy _ rfl).elim
  | some (.table id t), some (.table id' t') =>
    by_cases hid : id' = id
    · subst hid
      rw [hone id' t t' rfl rfl]
      exact .one id' t
    · have hto : sameAux t t' = true := (hxy _ rfl).resolve_left (Ne.symm hid)
      have hback : sameAux t' t = true := (hyx _ rfl).resolve_left hid
      exact .table (hinside id t id' t' rfl rfl ⟨hto, hback⟩)

/-- What is alike fits. -/
theorem fits_of_alikeAt [PartialEquivBEq V] {x y : Option (Val K V)} (h : AlikeAt x y)
    (hinside : ∀ id t id' t', x = some (.table id t) → y = some (.table id' t') →
      Alike t t' → sameAux t t' = true ∧ sameAux t' t = true) :
    (∀ v, x = some v → Fits v y) ∧ ∀ v, y = some v → Fits v x := by
  cases h with
  | absent => exact ⟨nofun, nofun⟩
  | prim h =>
    constructor
    · rintro _ ⟨⟩
      exact h
    · rintro _ ⟨⟩
      exact PartialEquivBEq.symm h
  | one id t =>
    constructor
    · rintro _ ⟨⟩
      exact .inl rfl
    · rintro _ ⟨⟩
      exact .inl rfl
  | table h =>
    obtain ⟨hto, hback⟩ := hinside _ _ _ _ rfl rfl h
    constructor
    · rintro _ ⟨⟩
      exact .inr hto
    · rintro _ ⟨⟩
      exact .inr hback

/-- Inclusion in both directions is that the contents are equal. -/
theorem sameAux_both [PartialEquivBEq V] {a b : Tree K V} (ha : a.Sound heap)
    (hb : b.Sound heap) : (sameAux a b = true ∧ sameAux b a = true) ↔ Alike a b := by
  induction a using Tree.induct_inside generalizing b with
  | h a ih =>
    rw [sameAux_iff ha, sameAux_iff hb]
    constructor
    · rintro ⟨hab, hba⟩
      refine .intro fun k => alikeAt_of_fits (hab k) (hba k) ?_ ?_
      · intro id t t' ht ht'
        rw [(ha.inside ht).1, (hb.inside ht').1]
      · intro id t id' t' ht ht' hboth
        exact (ih k id t ht (ha.inside ht).2 (hb.inside ht').2).mp hboth
    · rintro ⟨h⟩
      have hfits := fun k => fits_of_alikeAt (h k) fun id t id' t' ht ht' halike =>
        (ih k id t ht (ha.inside ht).2 (hb.inside ht').2).mpr halike
      exact ⟨fun k => (hfits k).1, fun k => (hfits k).2⟩

/-- `same` decides whether two tables have equal contents. -/
theorem same_iff [PartialEquivBEq V] (t₁ t₂ : Table heap) :
    same t₁ t₂ = true ↔ Alike t₁.tree t₂.tree := by
  rw [same, Bool.and_eq_true, sameAux_both t₁.sound t₂.sound]

/-! ## What `compare_config` finds to be changed -/

/-- A loop that lists what is found to be changed; `none` is an error that ends the process. -/
def listChanged {α β : Type} (unchanged : α → Option Bool) (item : α → β) :
    List α → Option (List β)
  | [] => some []
  | a :: as => do
    let isSame ← unchanged a
    let rest ← listChanged unchanged item as
    return if isSame then rest else item a :: rest

/-- The rules of a category; `none` is the error of `string.format`, which gets two values
for four places. -/
def sameRules (old new : ConfigCate → Option (Table heap)) (cate : ConfigCate) : Option Bool := do
  return same (← old cate) (← new cate)

/-- `compare_config.Rule`. -/
def compareRule (old : Option (ConfigCate → Option (Table heap)))
    (new : ConfigCate → Option (Table heap)) : Option (List ConfigCate) :=
  match old with
  | none => some [.control, .audit]
  | some old => listChanged (sameRules old new) id [.control, .audit]

/-- `{map_key = .., set_list = ..}`. -/
structure SetInfo (heap : ℕ → Tree K V) where
  mapKey : MapKey
  setList : Option (Table heap)

/-- The sets of a category by their names, in the order in which `pairs` gives them. -/
abbrev Sets (heap : ℕ → Tree K V) := LuaTable.Table String (SetInfo heap)

/-- The lists of a set; `none` is the error of a set that the old configuration has not, or
of a list that is missing. -/
def sameLists (old : Option (Sets heap)) (e : String × SetInfo heap) : Option Bool := do
  let oldInfo ← LuaTable.get (← old) e.1
  return same (← oldInfo.setList) (← e.2.setList)

/-- `compare_config.Set`. -/
def compareSet (old : Option (ConfigCate → Option (Sets heap)))
    (new : ConfigCate → Option (Sets heap)) : Option (List (ConfigCate × String)) := do
  let control ← new .control
  let audit ← new .audit
  match old with
  | none => return control.map (.control, ·.1) ++ audit.map (.audit, ·.1)
  | some old =>
    return (← listChanged (sameLists (old .control)) (.control, ·.1) control) ++
      (← listChanged (sameLists (old .audit)) (.audit, ·.1) audit)

/-- Which items the comparison lists. -/
theorem mem_listChanged {α β : Type} {unchanged : α → Option Bool} {item : α → β} {as : List α} :
    ∀ {res : List β}, listChanged unchanged item as = some res →
      ∀ b, b ∈ res ↔ ∃ a ∈ as, unchanged a = some false ∧ item a = b := by
  induction as with
  | nil =>
    intro res h b
    rw [← Option.some.inj h]
    simp
  | cons a as ih =>
    intro res h b
    simp only [listChanged, Option.bind_eq_bind, Option.pure_def, Option.bind_eq_some_iff] at h
    obtain ⟨isSame, ha, rest, hrest, h⟩ := h
    have hmem := ih hrest b
    rw [← Option.some.inj h]
    cases isSame with
    | true => simp [ha, hmem]
    | false => simp [ha, hmem, eq_comm]

/-- The loop ends without an error where each value can be compared. -/
theorem isSome_listChanged {α β : Type} (unchanged : α → Option Bool) (item : α → β)
    (as : List α) :
    (listChanged unchanged item as).isSome ↔ ∀ a ∈ as, (unchanged a).isSome := by
  induction as with
  | nil => simp [listChanged]
  | cons a as ih =>
    rw [List.forall_mem_cons, ← ih]
    cases ha : unchanged a with
    | none => simp [listChanged, ha]
    | some isSame =>
      cases hrest : listChanged unchanged item as with
      | none => simp [listChanged, ha, hrest]
      | some rest => simp [listChanged, ha, hrest]

/-- The remembered rules of a category have not contents equal to the new ones; where the
performer remembers nothing, that counts as changed. -/
def RulesChanged (old : Option (ConfigCate → Option (Table heap)))
    (new : ConfigCate → Option (Table heap)) (cate : ConfigCate) : Prop :=
  ∀ cfg, old = some cfg → ∃ oldRules newRules, cfg cate = some oldRules ∧
    new cate = some newRules ∧ ¬ Alike oldRules.tree newRules.tree

/-- The same for the list of a set. -/
def ListChanged (old : Option (ConfigCate → Option (Sets heap))) (cate : ConfigCate)
    (name : String) (info : SetInfo heap) : Prop :=
  ∀ cfg, old = some cfg → ∃ sets oldInfo oldList newList, cfg cate = some sets ∧
    LuaTable.get sets name = some oldInfo ∧ oldInfo.setList = some oldList ∧
    info.setList = some newList ∧ ¬ Alike oldList.tree newList.tree

/-- Rules are listed where they changed. -/
theorem sameRules_eq_false [PartialEquivBEq V] {old new : ConfigCate → Option (Table heap)}
    {cate : ConfigCate} :
    sameRules old new cate = some false ↔ RulesChanged (some old) new cate := by
  simp only [RulesChanged, Option.some.injEq, forall_eq', sameRules, Option.bind_eq_bind,
    Option.pure_def, Option.bind_eq_some_iff, ← same_iff, Bool.not_eq_true]
  constructor
  · rintro ⟨oldRules, hold, newRules, hnew, h⟩
    exact ⟨oldRules, newRules, hold, hnew, h⟩
  · rintro ⟨oldRules, newRules, hold, hnew, h⟩
    exact ⟨oldRules, hold, newRules, hnew, h⟩

/-- Sets are listed where their list changed. -/
theorem sameLists_eq_false [PartialEquivBEq V] {old : ConfigCate → Option (Sets heap)}
    {cate : ConfigCate} {e : String × SetInfo heap} :
    sameLists (old cate) e = some false ↔ ListChanged (some old) cate e.1 e.2 := by
  simp only [ListChanged, Option.some.injEq, forall_eq', sameLists, Option.bind_eq_bind,
    Option.pure_def, Option.bind_eq_some_iff, ← same_iff, Bool.not_eq_true]
  constructor
  · rintro ⟨sets, hold, oldInfo, hget, oldList, hol, newList, hnl, h⟩
    exact ⟨sets, oldInfo, oldList, newList, hold, hget, hol, hnl, h⟩
  · rintro ⟨sets, oldInfo, oldList, newList, hold, hget, hol, hnl, h⟩
    exact ⟨sets, hold, oldInfo, hget, oldList, hol, newList, hnl, h⟩

/-- `compare_config.Rule` lists the categories whose rules have changed. -/
theorem mem_compareRule [PartialEquivBEq V] {old : Option (ConfigCate → Option (Table heap))}
    {new : ConfigCate → Option (Table heap)} {res : List ConfigCate}
    (h : compareRule old new = some res) (cate : ConfigCate) :
    cate ∈ res ↔ RulesChanged old new cate := by
  have hcate : cate ∈ [ConfigCate.control, .audit] := by cases cate <;> simp
  cases old with
  | none =>
    rw [← Option.some.inj h]
    exact iff_of_true hcate nofun
  | some old =>
    rw [mem_listChanged h]
    constructor
    · rintro ⟨c, -, hc, rfl⟩
      exact sameRules_eq_false.mp hc
    · intro hc
      exact ⟨cate, hcate, sameRules_eq_false.mpr hc, rfl⟩

/-- It ends without an error where the rules of each category are there. -/
theorem isSome_compareRule (old new : ConfigCate → Option (Table heap)) :
    (compareRule (some old) new).isSome ↔ ∀ cate, (old cate).isSome ∧ (new cate).isSome := by
  have hsome : ∀ cate, (sameRules old new cate).isSome ↔
      (old cate).isSome ∧ (new cate).isSome := by
    intro cate
    cases hold : old cate with
    | none => simp [sameRules, hold]
    | some o =>
      cases hnew : new cate with
      | none => simp [sameRules, hnew]
      | some n => simp [sameRules, hold, hnew]
  rw [compareRule, isSome_listChanged]
  constructor
  · exact fun h cate => (hsome cate).mp (h cate (by cases cate <;> simp))
  · exact fun h cate _ => (hsome cate).mpr (h cate)

/-- `compare_config.Set` lists the sets whose lists have changed. -/
theorem mem_compareSet [PartialEquivBEq V] {old : Option (ConfigCate → Option (Sets heap))}
    {new : ConfigCate → Option (Sets heap)} {res : List (ConfigCate × String)}
    (h : compareSet old new = some res) (cate : ConfigCate) (name : String) :
    (cate, name) ∈ res ↔
      ∃ sets info, new cate = some sets ∧ (name, info) ∈ sets ∧ ListChanged old cate name info := by
  simp only [compareSet, Option.bind_eq_bind, Option.bind_eq_some_iff] at h
  obtain ⟨control, hcontrol, audit, haudit, h⟩ := h
  cases old with
  | none =>
    rw [← Option.some.inj h]
    cases cate <;> simp [hcontrol, haudit, ListChanged]
  | some old =>
    simp only [Option.pure_def, Option.bind_eq_some_iff] at h
    obtain ⟨resC, hresC, resA, hresA, h⟩ := h
    rw [← Option.some.inj h, List.mem_append, mem_listChanged hresC, mem_listChanged hresA]
    simp only [sameLists_eq_false, Prod.mk.injEq]
    cases cate <;> simp [hcontrol, haudit]

/-- When the comparison of two lists returns. -/
theorem isSome_sameLists (old : Option (Sets heap)) (e : String × SetInfo heap) :
    (sameLists old e).isSome ↔ ∃ oldSets oldInfo, old = some oldSets ∧
      LuaTable.get oldSets e.1 = some oldInfo ∧ oldInfo.setList.isSome ∧ e.2.setList.isSome := by
  simp only [Option.isSome_iff_exists]
  simp only [sameLists, Option.bind_eq_bind, Option.pure_def, Option.bind_eq_some_iff]
  constructor
  · rintro ⟨-, oldSets, hold, oldInfo, hget, oldList, hol, newList, hnl, -⟩
    exact ⟨oldSets, oldInfo, hold, hget, ⟨oldList, hol⟩, ⟨newList, hnl⟩⟩
  · rintro ⟨oldSets, oldInfo, hold, hget, ⟨oldList, hol⟩, ⟨newList, hnl⟩⟩
    exact ⟨_, oldSets, hold, oldInfo, hget, oldList, hol, newList, hnl, rfl⟩

/-- The comparison of the sets ends without an error where the lists are all there. -/
theorem isSome_compareSet (old new : ConfigCate → Option (Sets heap)) :
    (compareSet (some old) new).isSome ↔
      ∀ cate, ∃ sets, new cate = some sets ∧ ∀ e ∈ sets, ∃ oldSets oldInfo,
        old cate = some oldSets ∧ LuaTable.get oldSets e.1 = some oldInfo ∧
          oldInfo.setList.isSome ∧ e.2.setList.isSome := by
  simp only [← isSome_sameLists]
  have hlist : ∀ cate sets, (listChanged (sameLists (old cate)) (cate, ·.1) sets).isSome ↔
      ∀ e ∈ sets, (sameLists (old cate) e).isSome := fun cate sets => isSome_listChanged _ _ sets
  simp only [← hlist]
  simp only [Option.isSome_iff_exists, compareSet, Option.bind_eq_bind, Option.pure_def,
    Option.bind_eq_some_iff]
  constructor
  · rintro ⟨-, control, hcontrol, audit, haudit, resC, hresC, resA, hresA, -⟩ cate
    cases cate with
    | control => exact ⟨control, hcontrol, resC, hresC⟩
    | audit => exact ⟨audit, haudit, resA, hresA⟩
  · intro h
    obtain ⟨control, hcontrol, resC, hresC⟩ := h .control
    obtain ⟨audit, haudit, resA, hresA⟩ := h .audit
    exact ⟨_, control, hcontrol, audit, haudit, resC, hresC, resA, hresA, rfl⟩

/-- With nothing remembered the comparison needs the sets of both categories. -/
theorem isSome_compareSet_none (new : ConfigCate → Option (Sets heap)) :
    (compareSet none new).isSome ↔ ∀ cate, (new cate).isSome := by
  cases hcontrol : new .control with
  | none =>
    refine iff_of_false (by simp [compareSet, hcontrol]) fun h => ?_
    have hsome := h .control
    rw [hcontrol] at hsome
    cases hsome
  | some control =>
    cases haudit : new .audit with
    | none =>
      refine iff_of_false (by simp [compareSet, hcontrol, haudit]) fun h => ?_
      have hsome := h .audit
      rw [haudit] at hsome
      cases hsome
    | some audit =>
      refine iff_of_true (by simp [compareSet, hcontrol, haudit]) fun cate => ?_
      cases cate with
      | control => rw [hcontrol]; rfl
      | audit => rw [haudit]; rfl

/-- `same` decides whether contents are equal, and the comparisons of the performer, where
they end, list the categories and the sets that have changed. -/
theorem compare_iff_changed [PartialEquivBEq V] (heap : ℕ → Tree K V) :
    (∀ t₁ t₂ : Table heap, same t₁ t₂ = true ↔ Alike t₁.tree t₂.tree) ∧
    (∀ (old : Option (ConfigCate → Option (Table heap))) (new : ConfigCate → Option (Table heap)),
      ((compareRule old new).isSome ↔
        ∀ cfg, old = some cfg → ∀ cate, (cfg cate).isSome ∧ (new cate).isSome) ∧
      ∀ res, compareRule old new = some res → ∀ cate, cate ∈ res ↔ RulesChanged old new cate) ∧
    ∀ (old : Option (ConfigCate → Option (Sets heap))) (new : ConfigCate → Option (Sets heap)),
      ((compareSet old new).isSome ↔
        ∀ cate, ∃ sets, new cate = some sets ∧ ∀ cfg, old = some cfg →
          ∀ e ∈ sets, ∃ oldSets oldInfo,
            cfg cate = some oldSets ∧ LuaTable.get oldSets e.1 = some oldInfo ∧
              oldInfo.setList.isSome ∧ e.2.setList.isSome) ∧
      ∀ res, compareSet old new = some res → ∀ cate name, (cate, name) ∈ res ↔
        ∃ sets info, new cate = some sets ∧ (name, info) ∈ sets ∧
          ListChanged old cate name info := by
  refine ⟨same_iff, fun old new => ⟨?_, fun res h => mem_compareRule h⟩, fun old new => ⟨?_, ?_⟩⟩
  · cases old with
    | none => exact iff_of_true rfl nofun
    | some old =>
      rw [isSome_compareRule]
      simp
  · cases old with
    | none =>
      rw [isSome_compareSet_none]
      simp [Option.isSome_iff_exists]
    | some cfg =>
      rw [isSome_compareSet]
      simp
  · exact fun res h => mem_compareSet h

/-- Two rules with their keys in another order. -/
theorem compare_iff_changed_reordered :
    Alike (.prim "Id" "1" (.table "Action" 1 (.prim "1" "ACCEPT" .nil) .nil))
      (.table "Action" 2 (.prim "1" "ACCEPT" .nil) (.prim "Id" "1" .nil)) := by
  have hsame := (compare_iff_changed fun _ => Tree.prim "1" "ACCEPT" .nil).1
    ⟨.prim "Id" "1" (.table "Action" 1 (.prim "1" "ACCEPT" .nil) .nil),
      rfl, rfl, rfl, ⟨rfl, trivial⟩, trivial⟩
    ⟨.table "Action" 2 (.prim "1" "ACCEPT" .nil) (.prim "Id" "1" .nil),
      rfl, rfl, ⟨rfl, trivial⟩, rfl, trivial⟩
  exact hsame.mp (by decide +kernel)

/-! ## A set that becomes one of another kind -/

/-- The sets of a new device; `kind` is that of the white list of addresses. -/
def defaultSets (kind : MapKey) : ConfigCate → Option (Sets fun _ => (.nil : Tree String String))
  | .control => some [
      ("access_white_mac", ⟨.macWhiteList, some ⟨.nil, trivial⟩⟩),
      ("access_black_mac", ⟨.macBlackList, some ⟨.nil, trivial⟩⟩),
      ("access_white_ip", ⟨kind, some ⟨.nil, trivial⟩⟩),
      ("access_black_ip", ⟨.ipBlackList, some ⟨.nil, trivial⟩⟩)]
  | .audit => some [
      ("audit_white_mac", ⟨.macWhiteList, some ⟨.nil, trivial⟩⟩),
      ("audit_white_ip", ⟨.ipWhiteList, some ⟨.nil, trivial⟩⟩)]

/-- A set that is a white list before and a black list after is not committed: the comparison
looks at the lists. -/
theorem set_kind_not_compared :
    compareSet (some (defaultSets .ipWhiteList)) (defaultSets .ipBlackList) = some [] ∧
      ((defaultSets .ipWhiteList .control).bind (LuaTable.get · "access_white_ip")).map
        SetInfo.mapKey = some .ipWhiteList ∧
      ((defaultSets .ipBlackList .control).bind (LuaTable.get · "access_white_ip")).map
        SetInfo.mapKey = some .ipBlackList := by
  decide +kernel

end FpSame
