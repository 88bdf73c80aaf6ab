/-
# What a commit leaves in the kernel

The commands of `performer/acconfig.lua` as functions of what the kernel holds: the rules of
each category, the references of its lists of addresses and the sets of `ipset`.  A commit
whose commands all succeed leaves the kernel with the configuration it is made of, where
the sets it passes over are there already.
-/
import OpenwrtAc.AcConfig
import Mathlib.Data.List.Nodup
import Mathlib.Tactic.Common

namespace AcConfig

open LuaTable

variable {J : Type}

/-! ## The kernel -/

/-- What `ruletable` and `ipset` have set up. -/
structure Kernel (J : Type) where
  rules : ConfigCate → Option (List (RuleItem J))
  refs : ConfigCate → String → String
  ipsets : String → Option (String × List J)

/-- The kernel before the first command. -/
def Kernel.empty : Kernel J where
  rules := fun _ => none
  refs := fun _ _ => ""
  ipsets := fun _ => none

/-- The references of a category after the settings of a command. -/
def setRefs (refs : String → String) (itemMap : List (String × String)) : String → String :=
  itemMap.foldl (fun f e => Function.update f e.1 e.2) refs

/-- A command that succeeds. -/
def Kernel.exec (k : Kernel J) : Cmd J → Kernel J
  | .ruleset cate rules => { k with rules := Function.update k.rules cate (some rules) }
  | .reference cate itemMap =>
    { k with refs := Function.update k.refs cate (setRefs (k.refs cate) itemMap) }
  | .destroy n => { k with ipsets := Function.update k.ipsets n none }
  | .create n type => { k with ipsets := Function.update k.ipsets n (some (type, [])) }
  | .add n item =>
    let set := (k.ipsets n).map fun e => (e.1, e.2 ++ [item])
    { k with ipsets := Function.update k.ipsets n set }

/-- Commands that succeed, one after the other. -/
def Kernel.run (k : Kernel J) (cmds : List (Cmd J)) : Kernel J := cmds.foldl Kernel.exec k

@[simp] theorem Kernel.run_nil (k : Kernel J) : k.run [] = k := rfl

@[simp] theorem Kernel.run_cons (k : Kernel J) (c : Cmd J) (cmds : List (Cmd J)) :
    k.run (c :: cmds) = (k.exec c).run cmds := rfl

@[simp] theorem Kernel.run_append (k : Kernel J) (cmds cmds' : List (Cmd J)) :
    k.run (cmds ++ cmds') = (k.run cmds).run cmds' := List.foldl_append

@[simp] theorem Kernel.exec_add (k : Kernel J) (n : String) (item : J) :
    (k.exec (.add n item)).ipsets n = (k.ipsets n).map fun e => (e.1, e.2 ++ [item]) :=
  Function.update_self ..

@[simp] theorem Kernel.exec_reference (k : Kernel J) (cate : ConfigCate)
    (itemMap : List (String × String)) :
    (k.exec (.reference cate itemMap)).refs cate = setRefs (k.refs cate) itemMap :=
  Function.update_self ..

/-! ## What a command leaves alone -/

/-- The category whose rules a command sets. -/
def Cmd.ruleCate : Cmd J → Option ConfigCate
  | .ruleset cate _ => some cate
  | _ => none

/-- The category whose references a command sets. -/
def Cmd.refCate : Cmd J → Option ConfigCate
  | .reference cate _ => some cate
  | _ => none

/-- The set that a command is about. -/
def Cmd.ipset : Cmd J → Option String
  | .destroy n | .create n _ | .add n _ => some n
  | _ => none

/-- Commands that load no rules of a category leave them. -/
theorem Kernel.run_rules (k : Kernel J) {cmds : List (Cmd J)} {cate : ConfigCate}
    (h : ∀ c ∈ cmds, c.ruleCate ≠ some cate) : (k.run cmds).rules cate = k.rules cate := by
  induction cmds generalizing k with
  | nil => rfl
  | cons c cmds ih =>
    rw [run_cons, ih _ fun c hc => h c (List.mem_cons_of_mem _ hc)]
    have hc := h c List.mem_cons_self
    cases c with
    | ruleset cate' rules =>
      have hne : cate ≠ cate' := fun he => hc (congrArg some he.symm)
      exact Function.update_of_ne hne _ _
    | _ => rfl

/-- Commands that name no sets of a category leave its references. -/
theorem Kernel.run_refs (k : Kernel J) {cmds : List (Cmd J)} {cate : ConfigCate}
    (h : ∀ c ∈ cmds, c.refCate ≠ some cate) : (k.run cmds).refs cate = k.refs cate := by
  induction cmds generalizing k with
  | nil => rfl
  | cons c cmds ih =>
    rw [run_cons, ih _ fun c hc => h c (List.mem_cons_of_mem _ hc)]
    have hc := h c List.mem_cons_self
    cases c with
    | reference cate' itemMap =>
      have hne : cate ≠ cate' := fun he => hc (congrArg some he.symm)
      exact Function.update_of_ne hne _ _
    | _ => rfl

/-- Commands that name another ipset leave this one. -/
theorem Kernel.run_ipsets (k : Kernel J) {cmds : List (Cmd J)} {n : String}
    (h : ∀ c ∈ cmds, c.ipset ≠ some n) : (k.run cmds).ipsets n = k.ipsets n := by
  induction cmds generalizing k with
  | nil => rfl
  | cons c cmds ih =>
    rw [run_cons, ih _ fun c hc => h c (List.mem_cons_of_mem _ hc)]
    have hc := h c List.mem_cons_self
    cases c with
    | ruleset | reference => rfl
    | destroy n' | create n' _ | add n' _ =>
      have hne : n ≠ n' := fun he => hc (congrArg some he.symm)
      exact Function.update_of_ne hne _ _

/-! ## The rules -/

/-- The kernel has the rules of a configuration. -/
def HoldsRule (k : Kernel J) (cfg : RuleConfig J) : Prop :=
  ∀ cate, k.rules cate = some (cfg cate)

/-- The new rules of a changed category are loaded. -/
theorem run_commitRule_of_mem (k : Kernel J) {cates : List ConfigCate} (new : RuleConfig J)
    {cate : ConfigCate} (h : cate ∈ cates) :
    (k.run (commitRule cates new)).rules cate = some (new cate) := by
  induction cates generalizing k with
  | nil => cases h
  | cons c cates ih =>
    rw [commitRule, List.map_cons, Kernel.run_cons]
    by_cases hc : cate ∈ cates
    · exact ih _ hc
    · obtain rfl : cate = c := (List.mem_cons.1 h).resolve_right hc
      rw [Kernel.run_rules]
      · exact Function.update_self ..
      · simp only [List.mem_map, forall_exists_index, and_imp, forall_apply_eq_imp_iff₂,
          Cmd.ruleCate, ne_eq, Option.some.injEq]
        rintro a ha rfl
        exact hc ha

/-- The rules of an unchanged category stay. -/
theorem run_commitRule_of_notMem (k : Kernel J) {cates : List ConfigCate}
    (new : RuleConfig J) {cate : ConfigCate} (h : cate ∉ cates) :
    (k.run (commitRule cates new)).rules cate = k.rules cate := by
  refine k.run_rules ?_
  simp only [commitRule, List.mem_map, forall_exists_index, and_imp,
    forall_apply_eq_imp_iff₂, Cmd.ruleCate, ne_eq, Option.some.injEq]
  rintro a ha rfl
  exact h ha

/-- Loading rules touches no ipset. -/
theorem run_commitRule_ipsets (k : Kernel J) (cates : List ConfigCate) (new : RuleConfig J) :
    (k.run (commitRule cates new)).ipsets = k.ipsets := by
  funext n
  exact k.run_ipsets (by simp [commitRule, Cmd.ipset])

/-- Loading rules touches no reference. -/
theorem run_commitRule_refs (k : Kernel J) (cates : List ConfigCate) (new : RuleConfig J) :
    (k.run (commitRule cates new)).refs = k.refs := by
  funext cate
  exact k.run_refs (by simp [commitRule, Cmd.refCate])

/-! ## The sets of one category -/

section Sets

variable (L : Lib J)

/-- A run of additions appends the items in order. -/
theorem run_updateIpset_add (k : Kernel J) (n : String) (items : List J) :
    (k.run (items.map (.add n))).ipsets n =
      (k.ipsets n).map fun e => (e.1, e.2 ++ items) := by
  induction items generalizing k with
  | nil => simp
  | cons item items ih =>
    rw [List.map_cons, Kernel.run_cons, ih, Kernel.exec_add, Option.map_map]
    congr 1
    funext e
    simp

/-- Every listed ipset is there, empty and of its type, after the creation. -/
theorem run_createIpset (k : Kernel J) {config : List (CommitItem J)} {info : CommitItem J}
    (hnd : (config.map CommitItem.ipsetName).Nodup) (hi : info ∈ config) :
    (k.run (createIpset config)).ipsets info.ipsetName = some (info.ipsetType, []) := by
  induction config generalizing k with
  | nil => cases hi
  | cons i config ih =>
    rw [List.map_cons, List.nodup_cons] at hnd
    rw [createIpset, List.map_cons, Kernel.run_cons]
    rcases List.mem_cons.1 hi with rfl | hi
    · rw [Kernel.run_ipsets]
      · exact Function.update_self ..
      · simp only [List.mem_map, forall_exists_index, and_imp, forall_apply_eq_imp_iff₂,
          Cmd.ipset, ne_eq, Option.some.injEq]
        intro i hi he
        exact hnd.1 (List.mem_map.2 ⟨i, hi, he⟩)
    · exact ih _ hnd.2 hi

/-- Every listed ipset that is there and empty holds its items after the update. -/
theorem run_updateIpset (k : Kernel J) {config : List (CommitItem J)} {info : CommitItem J}
    (hnd : (config.map CommitItem.ipsetName).Nodup) (hi : info ∈ config)
    (hk : k.ipsets info.ipsetName = some (info.ipsetType, [])) :
    (k.run (updateIpset config)).ipsets info.ipsetName =
      some (info.ipsetType, info.ipsetList) := by
  induction config generalizing k with
  | nil => cases hi
  | cons i config ih =>
    rw [List.map_cons, List.nodup_cons] at hnd
    rw [updateIpset, List.flatMap_cons, Kernel.run_append]
    rcases List.mem_cons.1 hi with rfl | hi
    · rw [Kernel.run_ipsets, run_updateIpset_add, hk]
      · simp
      · simp only [List.mem_flatMap, List.mem_map, forall_exists_index, and_imp]
        rintro c i hi x - rfl he
        exact hnd.1 (List.mem_map.2 ⟨i, hi, Option.some.inj he⟩)
    · refine ih _ hnd.2 hi ?_
      rw [Kernel.run_ipsets, hk]
      simp only [List.mem_map, forall_exists_index, and_imp]
      rintro c x - rfl he
      exact hnd.1 (List.mem_map.2 ⟨info, hi, (Option.some.inj he).symm⟩)

/-- The commands of a category: its references twice, and for each of its sets the clearing,
the creation and the items. -/
theorem mem_commitCate {cate : ConfigCate} {config : List (CommitItem J)}
    {new : Table String (SetInfo J)} {c : Cmd J} (h : c ∈ commitCate L cate config new) :
    (∃ refer, c = referenceIpset L cate new refer) ∨
      ∃ i ∈ config, c = .destroy i.ipsetName ∨ c = .create i.ipsetName i.ipsetType ∨
        ∃ x, c = .add i.ipsetName x := by
  simp only [commitCate, destroyIpset, createIpset, updateIpset, List.mem_cons,
    List.mem_append, List.mem_map, List.mem_flatMap, List.not_mem_nil, or_false] at h
  obtain rfl | (((⟨i, hi, rfl⟩ | ⟨i, hi, rfl⟩) | ⟨i, hi, x, -, rfl⟩) | rfl) := h
  · exact .inl ⟨false, rfl⟩
  · exact .inr ⟨i, hi, .inl rfl⟩
  · exact .inr ⟨i, hi, .inr (.inl rfl)⟩
  · exact .inr ⟨i, hi, .inr (.inr ⟨x, rfl⟩)⟩
  · exact .inl ⟨true, rfl⟩

/-- The commands of a category are about its own sets. -/
theorem ipset_of_mem_commitCate {cate : ConfigCate} {config : List (CommitItem J)}
    {new : Table String (SetInfo J)} {c : Cmd J} {n : String}
    (h : c ∈ commitCate L cate config new) (hn : c.ipset = some n) :
    n ∈ config.map CommitItem.ipsetName := by
  obtain ⟨refer, rfl⟩ | ⟨i, hi, hc⟩ := mem_commitCate L h
  · cases hn
  · refine List.mem_map.2 ⟨i, hi, ?_⟩
    obtain rfl | rfl | ⟨x, rfl⟩ := hc <;> exact Option.some.inj hn

/-- After a category's commands every listed ipset holds its items. -/
theorem run_commitCate_ipsets (k : Kernel J) (cate : ConfigCate)
    {config : List (CommitItem J)} (new : Table String (SetInfo J)) {info : CommitItem J}
    (hnd : (config.map CommitItem.ipsetName).Nodup) (hi : info ∈ config) :
    (k.run (commitCate L cate config new)).ipsets info.ipsetName =
      some (info.ipsetType, info.ipsetList) := by
  have hlast (k' : Kernel J) : (k'.run [referenceIpset L cate new true]).ipsets = k'.ipsets := rfl
  rw [commitCate, Kernel.run_cons, Kernel.run_append, Kernel.run_append, Kernel.run_append,
    hlast]
  exact run_updateIpset _ hnd hi (run_createIpset _ hnd hi)

/-- The category of the references that a commit of sets makes. -/
theorem refCate_of_mem_commitCate {cate : ConfigCate} {config : List (CommitItem J)}
    {new : Table String (SetInfo J)} {c : Cmd J} {cate' : ConfigCate}
    (h : c ∈ commitCate L cate config new) (hc : c.refCate = some cate') : cate' = cate := by
  obtain ⟨refer, rfl⟩ | ⟨i, -, rfl | rfl | ⟨x, rfl⟩⟩ := mem_commitCate L h
  · exact (Option.some.inj hc).symm
  all_goals cases hc

/-- A key that is not assigned keeps its set. -/
theorem setRefs_of_notMem {l : List (String × String)} {key : String}
    (h : ∀ e ∈ l, e.1 ≠ key) (refs : String → String) : setRefs refs l key = refs key := by
  induction l generalizing refs with
  | nil => rfl
  | cons e l ih =>
    rw [setRefs, List.foldl_cons, ← setRefs, ih fun e he => h e (List.mem_cons_of_mem _ he)]
    exact Function.update_of_ne (h e List.mem_cons_self).symm _ _

/-- A key that is assigned once has the assigned set. -/
theorem setRefs_of_mem {l : List (String × String)} {e : String × String}
    (hl : ∀ e₁ ∈ l, ∀ e₂ ∈ l, e₁.1 = e₂.1 → e₁ = e₂) (he : e ∈ l) (refs : String → String) :
    setRefs refs l e.1 = e.2 := by
  induction l generalizing refs with
  | nil => cases he
  | cons a l ih =>
    rw [setRefs, List.foldl_cons, ← setRefs]
    by_cases hel : e ∈ l
    · exact ih (fun e₁ h₁ e₂ h₂ => hl e₁ (List.mem_cons_of_mem _ h₁) e₂
        (List.mem_cons_of_mem _ h₂)) hel _
    · obtain rfl := (List.mem_cons.1 he).resolve_right hel
      rw [setRefs_of_notMem]
      · exact Function.update_self ..
      · intro e' he' hk
        exact hel (hl e' (List.mem_cons_of_mem _ he') e List.mem_cons_self hk ▸ he')

/-- No two sets of a table have one key of `ipset_map`. -/
def OneEach (new : Table String (SetInfo J)) : Prop :=
  ∀ e₁ ∈ new, ∀ e₂ ∈ new, e₁.2.mapKey = e₂.2.mapKey → e₁.1 = e₂.1

/-- After a category's commands every key refers to its set. -/
theorem run_commitCate_refs (hL : L.Lawful) (k : Kernel J) {cate : ConfigCate}
    (config : List (CommitItem J)) {new : Table String (SetInfo J)} (hone : OneEach new)
    {e : String × SetInfo J} (he : e ∈ new) :
    (k.run (commitCate L cate config new)).refs cate e.2.mapKey.setKey = e.1 := by
  rw [commitCate, Kernel.run_cons, Kernel.run_append, Kernel.run_cons, Kernel.run_nil,
    referenceIpset, referenceIpset, Kernel.exec_reference]
  refine setRefs_of_mem (e := (e.2.mapKey.setKey, e.1)) ?_
    (List.mem_map.2 ⟨e, (hL new).mem_iff.2 he, by simp⟩) _
  intro e₁ h₁ e₂ h₂ hk
  obtain ⟨a, ha, rfl⟩ := List.mem_map.1 h₁
  obtain ⟨b, hb, rfl⟩ := List.mem_map.1 h₂
  rw [if_pos rfl, if_pos rfl] at *
  exact Prod.ext hk (hone a ((hL new).mem_iff.1 ha) b ((hL new).mem_iff.1 hb)
    (MapKey.setKey_injective hk))

/-! ## The sets of both categories -/

/-- What the kernel has of a set. -/
def held (info : SetInfo J) : String × List J :=
  (info.mapKey.setType, (L.items info.setList).getD [])

/-- The kernel has the sets of a configuration, and refers to them by their keys. -/
def HoldsSet (k : Kernel J) (sets : SetConfig J) : Prop :=
  ∀ cate, ∀ e ∈ sets cate,
    k.ipsets e.1 = some (held L e.2) ∧ k.refs cate e.2.mapKey.setKey = e.1

/-- A name stands for one set, and a key of a category for one name. -/
structure Tidy (sets : SetConfig J) : Prop where
  nodup : ∀ cate, ((sets cate).map Prod.fst).Nodup
  oneEach : ∀ cate, OneEach (sets cate)
  apart : ∀ e ∈ sets .control, ∀ e' ∈ sets .audit, e.1 ≠ e'.1

/-- A set name belongs to one category. -/
theorem Tidy.cate_eq {sets : SetConfig J} (h : Tidy sets) {cate cate' : ConfigCate}
    {e e' : String × SetInfo J} (he : e ∈ sets cate) (he' : e' ∈ sets cate')
    (hn : e.1 = e'.1) : cate = cate' := by
  cases cate <;> cases cate'
  · rfl
  · exact absurd hn (h.apart e he e' he')
  · exact absurd hn.symm (h.apart e' he' e he)
  · rfl

/-- The items to commit of a category. -/
def commitItems (names : List (ConfigCate × String)) (new : SetConfig J)
    (cate : ConfigCate) : List (CommitItem J) :=
  (names.filter fun x => x.1 = cate).filterMap fun x => (get (new cate) x.2).map fun info =>
    { ipsetName := x.2
      ipsetType := info.mapKey.setType
      ipsetList := (L.items info.setList).getD [] }

/-- Which categories are committed, and with which items. -/
theorem mem_cateConfig {names : List (ConfigCate × String)} {new : SetConfig J}
    {cate : ConfigCate} {config : List (CommitItem J)} :
    (cate, config) ∈ cateConfig L names new ↔
      config = commitItems L names new cate ∧ ∃ x ∈ names, x.1 = cate := by
  have hf : (∃ x ∈ names, x.1 = cate) ↔ (names.filter fun x => x.1 = cate) ≠ [] := by
    simp [List.filter_eq_nil_iff]
  rw [hf, cateConfig, List.mem_filterMap]
  constructor
  · rintro ⟨cate', -, h⟩
    split at h
    · cases h
    next hne =>
      cases h
      exact ⟨rfl, hne⟩
  · rintro ⟨rfl, hne⟩
    refine ⟨cate, by cases cate <;> simp, ?_⟩
    split
    next h => exact absurd h hne
    next => rfl

/-- No category is committed twice. -/
theorem nodup_cateConfig (names : List (ConfigCate × String)) (new : SetConfig J) :
    (cateConfig L names new).Nodup := by
  refine List.Nodup.filterMap ?_ (by decide)
  intro a a' b hb hb'
  split at hb
  · cases hb
  split at hb'
  · cases hb'
  cases hb
  cases hb'
  rfl

/-- An item to commit is a changed set with the type and the entries it shall hold. -/
theorem mem_commitItems {names : List (ConfigCate × String)} {new : SetConfig J}
    {cate : ConfigCate} {i : CommitItem J} (h : i ∈ commitItems L names new cate) :
    (cate, i.ipsetName) ∈ names ∧
      ∃ info, (i.ipsetName, info) ∈ new cate ∧ (i.ipsetType, i.ipsetList) = held L info := by
  obtain ⟨x, hx, hi⟩ := List.mem_filterMap.1 h
  obtain ⟨info, hget, rfl⟩ := Option.map_eq_some_iff.1 hi
  obtain ⟨hmem, hc⟩ := List.mem_filter.1 hx
  simp only [decide_eq_true_eq] at hc
  subst hc
  exact ⟨hmem, info, mem_of_get hget, rfl⟩

/-- A changed set is an item to commit. -/
theorem commitItem_of_mem {names : List (ConfigCate × String)} {new : SetConfig J}
    {cate : ConfigCate} {e : String × SetInfo J}
    (hnd : ((new cate).map Prod.fst).Nodup) (he : e ∈ new cate) (hx : (cate, e.1) ∈ names) :
    { ipsetName := e.1
      ipsetType := (held L e.2).1
      ipsetList := (held L e.2).2 } ∈ commitItems L names new cate := by
  refine List.mem_filterMap.2 ⟨(cate, e.1), List.mem_filter.2 ⟨hx, by simp⟩, ?_⟩
  rw [get_of_mem hnd he]
  rfl

/-- No ipset is listed twice in a category. -/
theorem nodup_commitItems {names : List (ConfigCate × String)} (hnd : names.Nodup)
    (new : SetConfig J) (cate : ConfigCate) :
    ((commitItems L names new cate).map CommitItem.ipsetName).Nodup := by
  have hfst {x : ConfigCate × String} (hx : x ∈ names.filter fun x => x.1 = cate) :
      x.1 = cate := by simpa using (List.mem_filter.1 hx).2
  have hsnd : ((names.filter fun x => x.1 = cate).map Prod.snd).Nodup :=
    (hnd.filter _).map_on fun x hx y hy hxy =>
      Prod.ext ((hfst hx).trans (hfst hy).symm) hxy
  rw [commitItems, List.map_filterMap]
  refine hsnd.sublist ?_
  generalize (names.filter fun x => x.1 = cate) = l
  induction l with
  | nil => exact List.Sublist.refl _
  | cons x l ih =>
    cases hg : get (new cate) x.2 with
    | none =>
      rw [List.filterMap_cons_none (by simp [hg])]
      exact ih.cons _
    | some info =>
      rw [List.filterMap_cons_some (b := x.2) (by simp [hg])]
      exact ih.cons_cons _

/-- The commands for the sets of the categories `es`, one category after the other. -/
def commitCates (new : SetConfig J) (es : List (ConfigCate × List (CommitItem J))) :
    List (Cmd J) :=
  es.flatMap fun e => commitCate L e.1 e.2 (new e.1)

/-- An ipset that no category lists stays as it is. -/
theorem run_commitCates_ipsets_of_notMem (k : Kernel J) (new : SetConfig J)
    {es : List (ConfigCate × List (CommitItem J))} {n : String}
    (h : ∀ e ∈ es, n ∉ e.2.map CommitItem.ipsetName) :
    (k.run (commitCates L new es)).ipsets n = k.ipsets n := by
  refine k.run_ipsets fun c hc hn => ?_
  obtain ⟨e, he, hc⟩ := List.mem_flatMap.1 hc
  exact h e he (ipset_of_mem_commitCate L hc hn)

/-- Every ipset that a category lists holds its items, as no other category lists it. -/
theorem run_commitCates_ipsets (k : Kernel J) (new : SetConfig J)
    {es : List (ConfigCate × List (CommitItem J))} (hes : es.Nodup)
    (hnd : ∀ e ∈ es, (e.2.map CommitItem.ipsetName).Nodup)
    (hsep : ∀ e ∈ es, ∀ e' ∈ es, ∀ i ∈ e.2, ∀ i' ∈ e'.2, i.ipsetName = i'.ipsetName → e = e')
    {e : ConfigCate × List (CommitItem J)} (he : e ∈ es) {i : CommitItem J} (hi : i ∈ e.2) :
    (k.run (commitCates L new es)).ipsets i.ipsetName = some (i.ipsetType, i.ipsetList) := by
  induction es generalizing k with
  | nil => cases he
  | cons a es ih =>
    rw [List.nodup_cons] at hes
    rw [commitCates, List.flatMap_cons, Kernel.run_append, ← commitCates]
    rcases List.mem_cons.1 he with rfl | he'
    · -- the categories that follow are about other sets
      rw [run_commitCates_ipsets_of_notMem]
      · exact run_commitCate_ipsets L k e.1 (new e.1) (hnd e he) hi
      · intro e' he' hn
        obtain ⟨i', hi', hn⟩ := List.mem_map.1 hn
        have hee := hsep e List.mem_cons_self e' (List.mem_cons_of_mem _ he') i hi i' hi' hn.symm
        exact hes.1 (hee ▸ he')
    · exact ih _ hes.2 (fun e he => hnd e (List.mem_cons_of_mem _ he))
        (fun e he e' he' => hsep e (List.mem_cons_of_mem _ he) e' (List.mem_cons_of_mem _ he')) he'

/-- A category that is not committed keeps its references. -/
theorem run_commitCates_refs_of_notMem (k : Kernel J) (new : SetConfig J)
    {es : List (ConfigCate × List (CommitItem J))} {cate : ConfigCate}
    (h : ∀ e ∈ es, e.1 ≠ cate) : (k.run (commitCates L new es)).refs cate = k.refs cate := by
  refine k.run_refs fun c hc hr => ?_
  obtain ⟨e, he, hc⟩ := List.mem_flatMap.1 hc
  exact h e he (refCate_of_mem_commitCate L hc hr).symm

/-- A category that is committed refers to its sets. -/
theorem run_commitCates_refs (hL : L.Lawful) (k : Kernel J) {new : SetConfig J}
    (htidy : Tidy new) {es : List (ConfigCate × List (CommitItem J))} {cate : ConfigCate}
    (h : ∃ e ∈ es, e.1 = cate) {e : String × SetInfo J} (he : e ∈ new cate) :
    (k.run (commitCates L new es)).refs cate e.2.mapKey.setKey = e.1 := by
  induction es generalizing k with
  | nil => simp at h
  | cons a es ih =>
    rw [commitCates, List.flatMap_cons, Kernel.run_append, ← commitCates]
    by_cases hes : ∃ e ∈ es, e.1 = cate
    · exact ih _ hes
    · obtain ⟨e', he', hc⟩ := h
      obtain rfl : e' = a := by
        refine (List.mem_cons.1 he').resolve_right fun he' => hes ⟨e', he', hc⟩
      subst hc
      rw [run_commitCates_refs_of_notMem L _ new fun e he hc => hes ⟨e, he, hc⟩]
      exact run_commitCate_refs L hL k e'.2 (htidy.oneEach e'.1) he

/-- The order of `pairs` changes nothing about which categories are committed. -/
theorem mem_pairs_cateConfig (hL : L.Lawful) {new : SetConfig J}
    {names : List (ConfigCate × String)} {c : ConfigCate} {config : List (CommitItem J)} :
    (c, config) ∈ L.pairs (cateConfig L names new) ↔
      config = commitItems L names new c ∧ ∃ x ∈ names, x.1 = c :=
  ((hL _).mem_iff).trans (mem_cateConfig L)

/-- A set that a commit names is in the kernel as the new configuration has it. -/
theorem run_commitSet_ipsets (hL : L.Lawful) (k : Kernel J) {new : SetConfig J}
    (htidy : Tidy new) {names : List (ConfigCate × String)} (hnd : names.Nodup)
    {cate : ConfigCate} {e : String × SetInfo J} (he : e ∈ new cate)
    (hx : (cate, e.1) ∈ names) :
    (k.run (commitSet L names new)).ipsets e.1 = some (held L e.2) := by
  refine run_commitCates_ipsets L k new ((hL _).nodup_iff.2 (nodup_cateConfig L names new))
    ?_ ?_ ((mem_pairs_cateConfig L hL).2 ⟨rfl, (cate, e.1), hx, rfl⟩)
    (commitItem_of_mem L (htidy.nodup cate) he hx)
  · rintro ⟨c, config⟩ hc
    obtain rfl := ((mem_pairs_cateConfig L hL).1 hc).1
    exact nodup_commitItems L hnd new c
  · rintro ⟨c, config⟩ hc ⟨c', config'⟩ hc' i hi i' hi' hn
    obtain rfl := ((mem_pairs_cateConfig L hL).1 hc).1
    obtain rfl := ((mem_pairs_cateConfig L hL).1 hc').1
    obtain ⟨-, info, hinfo, -⟩ := mem_commitItems L hi
    obtain ⟨-, info', hinfo', -⟩ := mem_commitItems L hi'
    obtain rfl := htidy.cate_eq hinfo hinfo' hn
    rfl

/-- A commit leaves a set that it does not name as it is. -/
theorem run_commitSet_ipsets_of_notMem (hL : L.Lawful) (k : Kernel J) {new : SetConfig J}
    (htidy : Tidy new) {names : List (ConfigCate × String)} {cate : ConfigCate}
    {e : String × SetInfo J} (he : e ∈ new cate) (hx : (cate, e.1) ∉ names) :
    (k.run (commitSet L names new)).ipsets e.1 = k.ipsets e.1 := by
  rw [commitSet, ← commitCates, run_commitCates_ipsets_of_notMem]
  rintro ⟨c, config⟩ hc hn
  obtain rfl := ((mem_pairs_cateConfig L hL).1 hc).1
  obtain ⟨i, hi, hin⟩ := List.mem_map.1 hn
  obtain ⟨hx', info, hinfo, -⟩ := mem_commitItems L hi
  -- a name stands in one category only
  obtain rfl := htidy.cate_eq he hinfo hin.symm
  exact hx (hin ▸ hx')

/-- A commit of sets leaves the kernel with the new ones, where it has those that the commit
passes over. -/
theorem holdsSet_commitSet (hL : L.Lawful) {k : Kernel J} {new : SetConfig J}
    (htidy : Tidy new) {names : List (ConfigCate × String)} (hnd : names.Nodup)
    (hsets : ∀ cate, ∀ e ∈ new cate, (cate, e.1) ∉ names → k.ipsets e.1 = some (held L e.2))
    (hrefs : ∀ cate, (∀ x ∈ names, x.1 ≠ cate) →
      ∀ e ∈ new cate, k.refs cate e.2.mapKey.setKey = e.1) :
    HoldsSet L (k.run (commitSet L names new)) new := by
  intro cate e he
  constructor
  · by_cases hx : (cate, e.1) ∈ names
    · exact run_commitSet_ipsets L hL k htidy hnd he hx
    · rw [run_commitSet_ipsets_of_notMem L hL k htidy he hx]
      exact hsets cate e he hx
  · rw [commitSet, ← commitCates]
    by_cases hx : ∃ x ∈ names, x.1 = cate
    · exact run_commitCates_refs L hL k htidy
        ⟨(cate, _), (mem_pairs_cateConfig L hL).2 ⟨rfl, hx⟩, rfl⟩ he
    · rw [run_commitCates_refs_of_notMem]
      · exact hrefs cate (fun x hx' hc => hx ⟨x, hx', hc⟩) e he
      · rintro ⟨c, config⟩ hc rfl
        exact hx ((mem_pairs_cateConfig L hL).1 hc).2

/-- Committing sets loads no rules. -/
theorem run_commitSet_rules (k : Kernel J) (names : List (ConfigCate × String))
    (new : SetConfig J) : (k.run (commitSet L names new)).rules = k.rules := by
  funext cate
  refine k.run_rules fun c hc => ?_
  obtain ⟨e, -, hc⟩ := List.mem_flatMap.1 hc
  obtain ⟨refer, rfl⟩ | ⟨i, -, rfl | rfl | ⟨x, rfl⟩⟩ := mem_commitCate L hc <;>
    simp [Cmd.ruleCate, referenceIpset]

/-! ## Sets that keep their kinds -/

/-- The sets that there are, with their keys in `ipset_map`. -/
structure Kinds where
  of : ConfigCate → String → Option MapKey
  inj : ∀ {cate n n' key}, of cate n = some key → of cate n' = some key → n = n'
  apart : ∀ {n key}, of .control n = some key → of .audit n = none

/-- The rows of the database are those of these sets. -/
def Fits (K : Kinds) (raw : ConfigCate → List SetRow) : Prop :=
  ∀ cate name key,
    (∃ row ∈ raw cate, row.setname = name ∧ row.mapKey = some key) ↔ K.of cate name = some key

/-- A configuration has these sets, each once. -/
structure OfKinds (K : Kinds) (sets : SetConfig J) : Prop where
  nodup : ∀ cate, ((sets cate).map Prod.fst).Nodup
  kind : ∀ cate, ∀ e ∈ sets cate, K.of cate e.1 = some e.2.mapKey
  all : ∀ cate name, K.of cate name ≠ none → ∃ info, (name, info) ∈ sets cate

/-- Sets of separate kinds are tidy. -/
theorem OfKinds.tidy {K : Kinds} {sets : SetConfig J} (h : OfKinds K sets) : Tidy sets where
  nodup := h.nodup
  oneEach cate e₁ h₁ e₂ h₂ hk := K.inj (h.kind cate e₁ h₁) (hk ▸ h.kind cate e₂ h₂)
  apart e he e' he' hn := by
    have hnone := K.apart (h.kind _ e he)
    rw [hn, h.kind _ e' he'] at hnone
    cases hnone

/-- What the table of the sets holds after a list of rows. -/
theorem generateSet_spec {t t' : Table String (SetInfo J)} {rows : List SetRow}
    (h : generateSet L t rows = some (.ok t')) (hnd : (t.map Prod.fst).Nodup) :
    (t'.map Prod.fst).Nodup ∧
      (∀ e ∈ t', e ∈ t ∨ ∃ row ∈ rows, row.setname = e.1 ∧ row.mapKey = some e.2.mapKey) ∧
      (∀ e ∈ t, ∃ info, (e.1, info) ∈ t') ∧
      ∀ row ∈ rows, ∃ info, (row.setname, info) ∈ t' := by
  induction rows generalizing t with
  | nil =>
    cases h
    exact ⟨hnd, fun e he => .inl he, fun e he => ⟨e.2, he⟩, fun _ h => by cases h⟩
  | cons row rows ih =>
    rw [generateSet] at h
    cases hk : row.mapKey with
    | none => simp [hk] at h
    | some mapKey =>
      -- the row is put into the table, and the other rows are read into that
      obtain ⟨setList, hset⟩ : ∃ setList,
          generateSet L (LuaTable.set t row.setname { mapKey, setList }) rows =
            some (.ok t') := by
        rw [hk] at h
        split at h
        · cases h
        next key he =>
          cases he
          split at h
          · cases h
          · cases h
          next setList hc => exact ⟨setList, h⟩
      obtain ⟨hnd', hfrom, hkeep, hall⟩ := ih hset (nodup_set hnd ..)
      refine ⟨hnd', fun e he => ?_, fun e he => ?_, fun r hr => ?_⟩
      · rcases hfrom e he with hin | ⟨r, hr, hrow⟩
        · rcases List.mem_cons.1 hin with rfl | hin
          · exact .inr ⟨row, List.mem_cons_self, rfl, hk⟩
          · exact .inl (List.mem_of_mem_filter hin)
        · exact .inr ⟨r, List.mem_cons_of_mem _ hr, hrow⟩
      · -- an entry under the name of the row gives way to it and keeps the name
        by_cases hn : e.1 = row.setname
        · rw [hn]
          exact hkeep (row.setname, _) List.mem_cons_self
        · exact hkeep e (List.mem_cons_of_mem _ (List.mem_filter.2 ⟨he, by simpa using hn⟩))
      · rcases List.mem_cons.1 hr with rfl | hr
        · exact hkeep (r.setname, _) List.mem_cons_self
        · exact hall r hr

/-- The translation makes each category's table from its own rows. -/
theorem generateSet_of_translateSet {raw : ConfigCate → List SetRow} {sets : SetConfig J}
    (h : translateSet L raw = some (.ok sets)) (cate : ConfigCate) :
    generateSet L [] (raw cate) = some (.ok (sets cate)) := by
  unfold translateSet at h
  split at h
  · cases h
  · cases h
  next control hc =>
    split at h
    · cases h
    · cases h
    next audit ha =>
      cases h
      cases cate with
      | control => exact hc
      | audit => exact ha

/-- Rows that fit the kinds are translated to sets of these kinds. -/
theorem ofKinds_translateSet {K : Kinds} {raw : ConfigCate → List SetRow}
    {sets : SetConfig J} (hfits : Fits K raw) (h : translateSet L raw = some (.ok sets)) :
    OfKinds K sets := by
  have hspec (cate : ConfigCate) :=
    generateSet_spec L (generateSet_of_translateSet L h cate) List.nodup_nil
  have hkind (cate : ConfigCate) (e : String × SetInfo J) (he : e ∈ sets cate) :
      K.of cate e.1 = some e.2.mapKey := by
    obtain ⟨-, hfrom, -, -⟩ := hspec cate
    obtain ⟨row, hrow, hr⟩ := (hfrom e he).resolve_left List.not_mem_nil
    exact (hfits cate _ _).1 ⟨row, hrow, hr⟩
  refine ⟨fun cate => (hspec cate).1, hkind, fun cate name hname => ?_⟩
  obtain ⟨key, hkey⟩ := Option.ne_none_iff_exists'.1 hname
  obtain ⟨row, hrow, rfl, -⟩ := (hfits cate name key).2 hkey
  exact (hspec cate).2.2.2 row hrow

/-- No set name comes twice, over both categories and in any order of `pairs`. -/
theorem nodup_pairs (hL : L.Lawful) {new : SetConfig J} (htidy : Tidy new) :
    ([ConfigCate.control, .audit].flatMap fun cate =>
      (L.pairs (new cate)).map fun e => (cate, e.1)).Nodup := by
  have hcate (cate : ConfigCate) : ((L.pairs (new cate)).map fun e => (cate, e.1)).Nodup := by
    have hkeys : ((L.pairs (new cate)).map Prod.fst).Nodup :=
      ((hL (new cate)).map _).nodup_iff.2 (htidy.nodup cate)
    have hmap : (L.pairs (new cate)).map (fun e => (cate, e.1)) =
        ((L.pairs (new cate)).map Prod.fst).map (Prod.mk cate) := by rw [List.map_map]; rfl
    rw [hmap]
    exact hkeys.map fun _ _ h => congrArg Prod.snd h
  simp only [List.flatMap_cons, List.flatMap_nil, List.append_nil]
  refine List.nodup_append.2 ⟨hcate _, hcate _, ?_⟩
  rintro _ h _ h' rfl
  obtain ⟨e, -, rfl⟩ := List.mem_map.1 h
  obtain ⟨e', -, he⟩ := List.mem_map.1 h'
  cases he

end Sets

variable [DecidableEq J]

/-- The categories found are those whose rules differ. -/
theorem mem_compareRule {old new : RuleConfig J} {cate : ConfigCate} :
    cate ∈ compareRule (some old) new ↔ old cate ≠ new cate := by
  cases cate <;> simp [compareRule]

/-- No category is found exactly where the rules are the same. -/
theorem compareRule_eq_nil {old new : RuleConfig J} :
    compareRule (some old) new = [] ↔ old = new := by
  constructor
  · intro h
    funext cate
    by_contra hne
    exact List.not_mem_nil (h ▸ mem_compareRule.2 hne)
  · rintro rfl
    simp [compareRule]

/-- A commit of what differs from the rules of the kernel leaves it with the new ones. -/
theorem holdsRule_commit {k : Kernel J} {old : Option (RuleConfig J)} (new : RuleConfig J)
    (h : ∀ cfg, old = some cfg → HoldsRule k cfg) :
    HoldsRule (k.run (commitRule (compareRule old new) new)) new := by
  intro cate
  cases old with
  | none => exact run_commitRule_of_mem k new (by cases cate <;> simp [compareRule])
  | some cfg =>
    by_cases hc : cate ∈ compareRule (some cfg) new
    · exact run_commitRule_of_mem k new hc
    · rw [run_commitRule_of_notMem k new hc, h cfg rfl cate]
      rw [mem_compareRule, not_not] at hc
      rw [hc]

/-! ## A commit of what differs -/

/-- A set that the comparison passes over has the list it had. -/
theorem compareCate_spec {cate : ConfigCate} {old new : Table String (SetInfo J)}
    {names : List (ConfigCate × String)} (h : compareCate cate old new = some names) :
    names.Sublist (new.map fun e => (cate, e.1)) ∧
      ∀ e ∈ new, ∃ info, (e.1, info) ∈ old ∧
        ((cate, e.1) ∉ names → info.setList = e.2.setList) := by
  induction new generalizing names with
  | nil =>
    cases h
    exact ⟨List.Sublist.refl _, fun _ h => by cases h⟩
  | cons e new ih =>
    obtain ⟨name, info⟩ := e
    simp only [compareCate, Option.bind_eq_bind, Option.pure_def, Option.bind_eq_some_iff] at h
    obtain ⟨oldInfo, hget, rest, hrest, h⟩ := h
    obtain ⟨hsub, hall⟩ := ih hrest
    by_cases hsame : oldInfo.setList = info.setList
    · rw [if_pos hsame] at h
      cases h
      refine ⟨hsub.cons _, fun e he => ?_⟩
      rcases List.mem_cons.1 he with rfl | he
      · exact ⟨oldInfo, mem_of_get hget, fun _ => hsame⟩
      · exact hall e he
    · rw [if_neg hsame] at h
      cases h
      refine ⟨hsub.cons_cons _, fun e he => ?_⟩
      rcases List.mem_cons.1 he with rfl | he
      · exact ⟨oldInfo, mem_of_get hget, fun hn => absurd List.mem_cons_self hn⟩
      · obtain ⟨info', hin, hlist⟩ := hall e he
        exact ⟨info', hin, fun hn => hlist fun hmem => hn (List.mem_cons_of_mem _ hmem)⟩

variable (L : Lib J)

/-- Over both categories, a set that the comparison passes over has the list it had. -/
theorem compareSet_spec (hL : L.Lawful) {old new : SetConfig J} (htidy : Tidy new)
    {names : List (ConfigCate × String)} (h : compareSet L (some old) new = some names) :
    names.Nodup ∧ ∀ cate, ∀ e ∈ new cate, ∃ info, (e.1, info) ∈ old cate ∧
      ((cate, e.1) ∉ names → info.setList = e.2.setList) := by
  simp only [compareSet, Option.bind_eq_bind, Option.pure_def, Option.bind_eq_some_iff] at h
  obtain ⟨control, hc, audit, ha, h⟩ := h
  cases h
  obtain ⟨hsubc, hallc⟩ := compareCate_spec hc
  obtain ⟨hsuba, halla⟩ := compareCate_spec ha
  constructor
  · refine List.Nodup.sublist ?_ (nodup_pairs L hL htidy)
    simp only [List.flatMap_cons, List.flatMap_nil, List.append_nil]
    exact hsubc.append hsuba
  · intro cate e he
    cases cate with
    | control =>
      obtain ⟨info, hin, hlist⟩ := hallc e ((hL _).mem_iff.2 he)
      exact ⟨info, hin, fun hn => hlist fun hmem => hn (List.mem_append_left _ hmem)⟩
    | audit =>
      obtain ⟨info, hin, hlist⟩ := halla e ((hL _).mem_iff.2 he)
      exact ⟨info, hin, fun hn => hlist fun hmem => hn (List.mem_append_right _ hmem)⟩

/-- Without an old configuration every set is found. -/
theorem compareSet_none (hL : L.Lawful) {new : SetConfig J} (htidy : Tidy new)
    {names : List (ConfigCate × String)} (h : compareSet L none new = some names) :
    names.Nodup ∧ ∀ cate, ∀ e ∈ new cate, (cate, e.1) ∈ names := by
  cases h
  refine ⟨nodup_pairs L hL htidy, fun cate e he => List.mem_flatMap.2 ⟨cate, ?_, ?_⟩⟩
  · cases cate <;> simp
  · exact List.mem_map.2 ⟨e, (hL _).mem_iff.2 he, rfl⟩

/-- Where the old sets are of the same kinds, what the comparison finds to be the same is
the same. -/
theorem eq_of_notMem {K : Kinds} (hL : L.Lawful) {old new : SetConfig J}
    (hold : OfKinds K old) (hnew : OfKinds K new) {names : List (ConfigCate × String)}
    (h : compareSet L (some old) new = some names) {cate : ConfigCate}
    {e : String × SetInfo J} (he : e ∈ new cate) (hn : (cate, e.1) ∉ names) :
    e ∈ old cate := by
  obtain ⟨info, hin, hlist⟩ := (compareSet_spec L hL hnew.tidy h).2 cate e he
  have hk : info.mapKey = e.2.mapKey :=
    Option.some.inj ((hold.kind cate _ hin).symm.trans (hnew.kind cate e he))
  obtain ⟨name, info', setList⟩ := e
  obtain ⟨mapKey, setList'⟩ := info
  obtain rfl := hlist hn
  obtain rfl := hk
  exact hin

/-- A commit of what differs from the sets of the kernel leaves it with the new ones. -/
theorem holdsSet_commit {K : Kinds} (hL : L.Lawful) {k : Kernel J}
    {old : Option (SetConfig J)} {new : SetConfig J} (hnew : OfKinds K new)
    (hold : ∀ sets, old = some sets → OfKinds K sets ∧ HoldsSet L k sets)
    {names : List (ConfigCate × String)} (h : compareSet L old new = some names) :
    HoldsSet L (k.run (commitSet L names new)) new := by
  cases old with
  | none =>
    obtain ⟨hnd, hall⟩ := compareSet_none L hL hnew.tidy h
    refine holdsSet_commitSet L hL hnew.tidy hnd ?_ ?_
    · exact fun cate e he hn => absurd (hall cate e he) hn
    · exact fun cate hn e he => absurd rfl (hn _ (hall cate e he))
  | some sets =>
    obtain ⟨hkinds, hheld⟩ := hold sets rfl
    have hsame {cate : ConfigCate} {e : String × SetInfo J} (he : e ∈ new cate)
        (hn : (cate, e.1) ∉ names) : e ∈ sets cate :=
      eq_of_notMem L hL hkinds hnew h he hn
    refine holdsSet_commitSet L hL hnew.tidy (compareSet_spec L hL hnew.tidy h).1 ?_ ?_
    · exact fun cate e he hn => (hheld cate e (hsame he hn)).1
    · intro cate hn e he
      exact (hheld cate e (hsame he fun hmem => hn _ hmem rfl)).2

/-- Sets in which the comparison finds no difference are the old ones. -/
theorem mem_iff_of_compareSet {K : Kinds} (hL : L.Lawful) {old new : SetConfig J}
    (hold : OfKinds K old) (hnew : OfKinds K new) (h : compareSet L (some old) new = some [])
    (cate : ConfigCate) (e : String × SetInfo J) : e ∈ old cate ↔ e ∈ new cate := by
  have hsub {e : String × SetInfo J} (he : e ∈ new cate) : e ∈ old cate :=
    eq_of_notMem L hL hold hnew h he List.not_mem_nil
  refine ⟨fun he => ?_, hsub⟩
  obtain ⟨info, hin⟩ := hnew.all cate e.1 (by rw [hold.kind cate e he]; simp)
  have hget := get_of_mem (hold.nodup cate) (hsub hin)
  rw [get_of_mem (hold.nodup cate) he] at hget
  cases hget
  exact hin

end AcConfig
