/-
# The runs of `check_config_update` (`performer/acconfig.lua`)

Each run loads the configuration, translates the rules, commits what differs, and does the
same for the sets.  The runs of the routine and of the events of the database share
`all_raw_ac_config`, `new_ac_config` and `cur_ac_config`; one waits for the database while
it loads and inside the translation of the rules, and between two waits nothing else runs.
-/
import OpenwrtAc.AcCommit

namespace AcConfig

open LuaTable

/-! ## The shared state -/

/-- Where a run waits. -/
inductive Phase (J : Type) where
  /-- In `load_config`, whose queries touch nothing but locals. -/
  | loading
  /-- In the translation of the rules of the load with this number. -/
  | translating (n : ℕ) (t : Trans J)

structure State (J : Type) where
  /-- `all_raw_ac_config`. -/
  allRaw : Option (RawConfig J)
  /-- `new_ac_config.Rule`. -/
  newRule : Option (RuleConfig J)
  /-- `new_ac_config.Set`. -/
  newSet : Option (SetConfig J)
  /-- `cur_ac_config.Rule`. -/
  curRule : Option (RuleConfig J)
  /-- `cur_ac_config.Set`. -/
  curSet : Option (SetConfig J)
  runs : ℕ → Option (Phase J)
  /-- The commands executed, with their success, which nothing reads. -/
  log : List (Cmd J × Bool)
  /-- How many loads have succeeded, so that each has a number. -/
  loads : ℕ
  /-- The load whose rules were translated last. -/
  last : ℕ

def State.init (J : Type) : State J where
  allRaw := none
  newRule := none
  newSet := none
  curRule := none
  curSet := none
  runs := fun _ => none
  log := []
  loads := 0
  last := 0

/-- What happens between two waits. -/
inductive Event where
  /-- The routine, or an event of the database, starts a run. -/
  | start (i : ℕ)
  /-- The last query of a load is answered, at the time `tm`. -/
  | loaded (i : ℕ) (answers : Answers) (tm : ℤ)
  /-- A query of `fetch_leaf_protoids` is answered. -/
  | answered (i : ℕ) (rows : Option (List ProtoRow))

section Step

variable {J : Type} [DecidableEq J] (L : Lib J) (ok : ℕ → Bool)

/-- `os.execute` of each of the commands; the command number `n` of all succeeds if `ok n`,
and the result is dropped. -/
def execute (log : List (Cmd J × Bool)) (cmds : List (Cmd J)) : List (Cmd J × Bool) :=
  log ++ (cmds.zipIdx log.length).map fun c => (c.1, ok c.2)

/-- The comparison and the commit of `check_config_update`, for the rules. -/
def checkRule (s : State J) (cfg : RuleConfig J) : State J :=
  let s := { s with newRule := some cfg }
  match compareRule s.curRule cfg with
  | [] => s
  | res => { s with
      log := execute ok s.log (commitRule res cfg)
      curRule := some cfg }

/-- The same for the translated sets; `none` is an error that ends the process. -/
def checkSets (s : State J) (sets : SetConfig J) : Option (State J) :=
  let s := { s with newSet := some sets }
  match compareSet L s.curSet sets with
  | none => none
  | some [] => some s
  | some res => some { s with
      log := execute ok s.log (commitSet L res sets)
      curSet := some sets }

/-- The part of `check_config_update` for the sets, of what is loaded by now. -/
def checkSet (s : State J) : Option (State J) :=
  match s.allRaw.map fun raw => translateSet L raw.set with
  | some (some (.ok sets)) => checkSets L ok s sets
  | some (some (.error _)) => some s
  | _ => none

/-- A run that has gone on with its translation of the load number `n`. -/
def turn (i n : ℕ) (s : State J) : Turn J → Option (State J)
  | .asks t => some { s with runs := Function.update s.runs i (some (.translating n t)) }
  | .done cfg =>
    let s := { s with runs := Function.update s.runs i none, last := n }
    checkSet L ok (checkRule ok s cfg)
  | .crash => none

/-- One event; `none` where it cannot happen or ends the process. -/
def step (s : State J) : Event → Option (State J)
  | .start i =>
    match s.runs i with
    | none => some { s with runs := Function.update s.runs i (some .loading) }
    | some _ => none
  | .loaded i answers tm =>
    match s.runs i with
    | some .loading =>
      match loadConfig L answers with
      | none => some { s with runs := Function.update s.runs i none }
      | some raw =>
        let s := { s with allRaw := some raw, loads := s.loads + 1 }
        turn L ok i s.loads s (translateRule L tm raw.rule)
    | _ => none
  | .answered i rows =>
    match s.runs i with
    | some (.translating n t) => turn L ok i n s (t.answer L rows)
    | _ => none

/-- The states of the runs whose steps are all `Good`. -/
inductive Reached (Good : State J → Event → State J → Prop) : State J → Prop
  | init : Reached Good (State.init J)
  | step {s s' : State J} {e : Event} (h : Reached Good s) (hs : step L ok s e = some s')
      (hg : Good s e s') : Reached Good s'

end Step

/-! ## What a translation comes from -/

section Turns

variable {J : Type} (L : Lib J)

/-- How far a translation of the rules can come, whatever the database answers. -/
inductive Turns (raw : ConfigCate → List (RawRule J)) : Turn J → Prop
  | start (tm : ℤ) : Turns raw (translateRule L tm raw)
  | answer {t : Trans J} (h : Turns raw (.asks t)) (rows : Option (List ProtoRow)) :
      Turns raw (t.answer L rows)

/-- The rules are a translation of the loaded ones. -/
def Translated (raw : ConfigCate → List (RawRule J)) (cfg : RuleConfig J) : Prop :=
  Turns L raw (.done cfg)

/-- Of no rules there is one translation. -/
theorem translated_nil {raw : ConfigCate → List (RawRule J)} {cfg : RuleConfig J}
    (hraw : ∀ cate, raw cate = []) (h : Translated L raw cfg) (cate : ConfigCate) :
    cfg cate = [] := by
  have hdone (u : Turn J) (hu : Turns L raw u) : u = .done fun _ => [] := by
    induction hu with
    | start tm => simp [translateRule, hraw, translateRest]
    | answer _ _ ih => cases ih
  cases hdone _ h
  rfl

end Turns

/-! ## What a step does -/

section Cases

variable {J : Type} [DecidableEq J] {L : Lib J} {ok : ℕ → Bool}

/-- What each event does. -/
theorem step_cases {s s' : State J} {e : Event} (h : step L ok s e = some s') :
    (∃ i, e = .start i ∧ s.runs i = none ∧
      s' = { s with runs := Function.update s.runs i (some .loading) }) ∨
    (∃ i answers tm, e = .loaded i answers tm ∧ s.runs i = some .loading ∧
      s' = { s with runs := Function.update s.runs i none }) ∨
    (∃ i answers tm raw, e = .loaded i answers tm ∧ loadConfig L answers = some raw ∧
      s.runs i = some .loading ∧
      turn L ok i (s.loads + 1) { s with allRaw := some raw, loads := s.loads + 1 }
        (translateRule L tm raw.rule) = some s') ∨
    ∃ i rows n t, e = .answered i rows ∧ s.runs i = some (.translating n t) ∧
      turn L ok i n s (t.answer L rows) = some s' := by
  cases e with
  | start i =>
    simp only [step] at h
    split at h
    next hr =>
      cases h
      exact .inl ⟨i, rfl, hr, rfl⟩
    · cases h
  | loaded i answers tm =>
    simp only [step] at h
    split at h
    next hr =>
      split at h
      next hload =>
        cases h
        exact .inr (.inl ⟨i, answers, tm, rfl, hr, rfl⟩)
      next raw hload => exact .inr (.inr (.inl ⟨i, answers, tm, raw, rfl, hload, hr, h⟩))
    · cases h
  | answered i rows =>
    simp only [step] at h
    split at h
    next n t hr => exact .inr (.inr (.inr ⟨i, rows, n, t, rfl, hr, h⟩))
    · cases h

/-- What the coroutine of a run does in one turn. -/
theorem turn_cases {i n : ℕ} {s s' : State J} {u : Turn J} (h : turn L ok i n s u = some s') :
    (∃ t, u = .asks t ∧
      s' = { s with runs := Function.update s.runs i (some (.translating n t)) }) ∨
    ∃ cfg, u = .done cfg ∧ checkSet L ok (checkRule ok
      { s with runs := Function.update s.runs i none, last := n } cfg) = some s' := by
  cases u with
  | asks t =>
    cases h
    exact .inl ⟨t, rfl, rfl⟩
  | done cfg => exact .inr ⟨cfg, rfl, h⟩
  | crash => cases h

/-- What the comparison of the sets does. -/
theorem checkSet_cases {s s' : State J} (h : checkSet L ok s = some s') :
    ∃ raw, s.allRaw = some raw ∧
      ((∃ err, translateSet L raw.set = some (.error err) ∧ s' = s) ∨
      ∃ sets res, translateSet L raw.set = some (.ok sets) ∧
        compareSet L s.curSet sets = some res ∧
        ((res = [] ∧ s' = { s with newSet := some sets }) ∨
        res ≠ [] ∧ s' = { s with
          newSet := some sets
          log := execute ok s.log (commitSet L res sets)
          curSet := some sets })) := by
  unfold checkSet at h
  split at h
  next sets hsets =>
    obtain ⟨raw, hraw, htr⟩ := Option.map_eq_some_iff.1 hsets
    refine ⟨raw, hraw, .inr ⟨sets, ?_⟩⟩
    simp only [checkSets] at h
    split at h
    · cases h
    next hres =>
      cases h
      exact ⟨[], htr, hres, .inl ⟨rfl, rfl⟩⟩
    next res hne hres =>
      cases h
      exact ⟨res, htr, hres, .inr ⟨hne, rfl⟩⟩
  next err hsets =>
    cases h
    obtain ⟨raw, hraw, htr⟩ := Option.map_eq_some_iff.1 hsets
    exact ⟨raw, hraw, .inl ⟨err, htr, rfl⟩⟩
  · cases h

/-- The rules remembered after the comparison are the new ones, committed or not. -/
theorem checkRule_curRule (s : State J) (cfg : RuleConfig J) :
    (checkRule ok s cfg).curRule = some cfg := by
  simp only [checkRule]
  split
  next hres =>
    cases hc : s.curRule with
    | none => simp [hc, compareRule] at hres
    | some old =>
      simp only [hc, compareRule_eq_nil] at hres
      exact congrArg some hres
  · rfl

/-- The comparison of the rules leaves the sets and the runs. -/
theorem checkRule_frame (s : State J) (cfg : RuleConfig J) :
    (checkRule ok s cfg).allRaw = s.allRaw ∧ (checkRule ok s cfg).curSet = s.curSet ∧
      (checkRule ok s cfg).runs = s.runs ∧ (checkRule ok s cfg).loads = s.loads ∧
      (checkRule ok s cfg).last = s.last := by
  simp only [checkRule]
  split <;> exact ⟨rfl, rfl, rfl, rfl, rfl⟩

/-- The comparison of the sets leaves the rules and the runs. -/
theorem checkSet_frame {s s' : State J} (h : checkSet L ok s = some s') :
    s'.allRaw = s.allRaw ∧ s'.curRule = s.curRule ∧ s'.runs = s.runs ∧
      s'.loads = s.loads ∧ s'.last = s.last := by
  obtain ⟨raw, -, ⟨err, -, rfl⟩ | ⟨sets, res, -, -, ⟨-, rfl⟩ | ⟨-, rfl⟩⟩⟩ := checkSet_cases h <;>
    exact ⟨rfl, rfl, rfl, rfl, rfl⟩

end Cases

/-! ## What is remembered was committed -/

section Commit

variable {J : Type} (L : Lib J)

/-- The kernel after the commands of a log, if all of them succeed. -/
def issued (log : List (Cmd J × Bool)) : Kernel J := Kernel.empty.run (log.map Prod.fst)

/-- What the commands that were issued make of the kernel. -/
theorem issued_execute (ok : ℕ → Bool) (log : List (Cmd J × Bool)) (cmds : List (Cmd J)) :
    issued (execute ok log cmds) = (issued log).run cmds := by
  have hz : ((cmds.zipIdx log.length).map fun c => (c.1, ok c.2)).map Prod.fst = cmds := by
    rw [List.map_map]
    exact List.zipIdx_map_fst ..
  rw [issued, execute, List.map_append, Kernel.run_append, hz, ← issued]

/-- The kernel has what is remembered, as far as the commands go, and the sets are those
there are. -/
structure CommitInv (K : Kinds) (s : State J) : Prop where
  rule : ∀ cfg, s.curRule = some cfg → HoldsRule (issued s.log) cfg
  set : ∀ sets, s.curSet = some sets → OfKinds K sets ∧ HoldsSet L (issued s.log) sets
  raw : ∀ raw, s.allRaw = some raw → Fits K raw.set ∧ raw.set .control ≠ []

/-- What is loaded are the rows of these sets. -/
def LoadsFit (K : Kinds) (e : Event) : Prop :=
  ∀ i answers tm raw, e = .loaded i answers tm → loadConfig L answers = some raw →
    Fits K raw.set

theorem loadConfig_set_ne_nil {answers : Answers} {raw : RawConfig J}
    (h : loadConfig L answers = some raw) : raw.set .control ≠ [] := by
  simp only [loadConfig, Option.bind_eq_bind, Option.pure_def, Option.bind_eq_some_iff] at h
  obtain ⟨_, -, _, -, _, -, _, -, setC, hset, _, -, h⟩ := h
  cases h
  simp only [fetchSet, Option.bind_eq_bind, Option.bind_eq_some_iff] at hset
  obtain ⟨res, -, hset⟩ := hset
  split at hset
  next hlen =>
    cases hset
    rintro hnil
    simp [show setC = [] from hnil, checkNumber] at hlen
  · cases hset

variable {L} {K : Kinds}

/-- The invariant at the start. -/
theorem CommitInv.init : CommitInv L K (State.init J) where
  rule := by rintro _ ⟨⟩
  set := by rintro _ ⟨⟩
  raw := by rintro _ ⟨⟩

variable [DecidableEq J] {ok : ℕ → Bool}

/-- Committing rules keeps the invariant. -/
theorem CommitInv.checkRule {s : State J} (hs : CommitInv L K s) (cfg : RuleConfig J) :
    CommitInv L K (checkRule ok s cfg) := by
  simp only [AcConfig.checkRule]
  split
  · exact ⟨hs.rule, hs.set, hs.raw⟩
  next res hne =>
    refine ⟨?_, fun sets hsets => ⟨(hs.set sets hsets).1, ?_⟩, hs.raw⟩
    · rintro _ ⟨⟩
      rw [issued_execute]
      exact holdsRule_commit cfg hs.rule
    · intro cate e he
      rw [issued_execute, run_commitRule_ipsets, run_commitRule_refs]
      exact (hs.set sets hsets).2 cate e he

/-- Committing sets keeps the invariant. -/
theorem CommitInv.checkSet (hL : L.Lawful) {s s' : State J} (hs : CommitInv L K s)
    (h : checkSet L ok s = some s') : CommitInv L K s' := by
  obtain ⟨raw, hraw, ⟨err, -, rfl⟩ | ⟨sets, res, htr, hres, ⟨-, rfl⟩ | ⟨-, rfl⟩⟩⟩ :=
    checkSet_cases h
  · exact hs
  · exact ⟨hs.rule, hs.set, hs.raw⟩
  · have hkinds : OfKinds K sets := ofKinds_translateSet L (hs.raw raw hraw).1 htr
    refine ⟨fun cfg hcfg cate => ?_, ?_, hs.raw⟩
    · rw [issued_execute, run_commitSet_rules]
      exact hs.rule cfg hcfg cate
    · rintro _ ⟨⟩
      rw [issued_execute]
      exact ⟨hkinds, holdsSet_commit L hL hkinds hs.set hres⟩

/-- A turn of a run keeps the invariant. -/
theorem CommitInv.turn (hL : L.Lawful) {i n : ℕ} {s s' : State J} {u : Turn J}
    (hs : CommitInv L K s) (h : turn L ok i n s u = some s') : CommitInv L K s' := by
  obtain ⟨t, -, rfl⟩ | ⟨cfg, -, h⟩ := turn_cases h
  · exact ⟨hs.rule, hs.set, hs.raw⟩
  · have hs' : CommitInv L K { s with runs := Function.update s.runs i none, last := n } :=
      ⟨hs.rule, hs.set, hs.raw⟩
    exact (hs'.checkRule cfg).checkSet hL h

/-- Every event keeps the invariant, where the loads fit the kinds. -/
theorem CommitInv.step (hL : L.Lawful) {s s' : State J} {e : Event} (hs : CommitInv L K s)
    (h : step L ok s e = some s') (hfit : LoadsFit L K e) : CommitInv L K s' := by
  obtain ⟨i, -, -, rfl⟩ | ⟨i, answers, tm, -, -, rfl⟩ | ⟨i, answers, tm, raw, he, hload, -, h⟩ |
    ⟨i, rows, n, t, -, -, h⟩ := step_cases h
  · exact ⟨hs.rule, hs.set, hs.raw⟩
  · exact ⟨hs.rule, hs.set, hs.raw⟩
  · have hs' : CommitInv L K { s with allRaw := some raw, loads := s.loads + 1 } := by
      refine ⟨hs.rule, hs.set, ?_⟩
      rintro _ ⟨⟩
      exact ⟨hfit i answers tm raw he hload, loadConfig_set_ne_nil L hload⟩
    exact hs'.turn hL h
  · exact hs.turn hL h

/-- The invariant of every state reached so. -/
theorem Reached.commitInv (hL : L.Lawful) {Good : State J → Event → State J → Prop}
    (hfit : ∀ s e s', Good s e s' → LoadsFit L K e) {s : State J}
    (h : Reached L ok Good s) : CommitInv L K s := by
  induction h with
  | init => exact CommitInv.init
  | step _ hs hg ih => exact ih.step hL hs (hfit _ _ _ hg)

/-- After a check of the sets, those remembered are the loaded ones. -/
theorem CommitInv.curSet (hL : L.Lawful) {s s' : State J} (hs : CommitInv L K s)
    (h : AcConfig.checkSet L ok s = some s') {raw : RawConfig J} (hraw : s.allRaw = some raw)
    {sets : SetConfig J} (hsets : translateSet L raw.set = some (.ok sets)) :
    ∃ cur, s'.curSet = some cur ∧ ∀ cate e, e ∈ cur cate ↔ e ∈ sets cate := by
  obtain ⟨hfits, hrows⟩ := hs.raw raw hraw
  have hkinds := ofKinds_translateSet L hfits hsets
  obtain ⟨raw', hraw', hcase⟩ := checkSet_cases h
  rw [hraw] at hraw'
  cases hraw'
  obtain ⟨err, htr, -⟩ | ⟨sets', res, htr, hres, hcase⟩ := hcase
  · rw [hsets] at htr
    cases htr
  rw [hsets] at htr
  cases htr
  obtain ⟨rfl, rfl⟩ | ⟨-, rfl⟩ := hcase
  · cases hcur : s.curSet with
    | none =>
      -- the first comparison names every set, and there are some
      rw [hcur] at hres
      obtain ⟨row, hrow⟩ := List.exists_mem_of_ne_nil _ hrows
      obtain ⟨info, hinfo⟩ := (generateSet_spec L
        (generateSet_of_translateSet L hsets .control) List.nodup_nil).2.2.2 row hrow
      exact absurd ((compareSet_none L hL hkinds.tidy hres).2 .control _ hinfo)
        List.not_mem_nil
    | some old =>
      rw [hcur] at hres
      exact ⟨old, rfl, mem_iff_of_compareSet L hL (hs.set old hcur).1 hkinds hres⟩
  · exact ⟨sets, rfl, fun _ _ => Iff.rfl⟩

end Commit

end AcConfig
