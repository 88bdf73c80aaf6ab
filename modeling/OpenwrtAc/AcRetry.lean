/-
# Commits whose commands fail

No result of a command of a commit is looked at, and the configuration is remembered in any
case.  Where what a failed command should have set is set by a later one of the same commit
(an `ipset destroy` of a set that is not there yet), the kernel has what is remembered, and a
run that comes to a configuration that the kernel does not have finds a difference and
commits it; the last theorem has a command that fails and no run that tries it again.
-/
import OpenwrtAc.AcLatest

namespace AcConfig

open LuaTable

variable {J : Type}

/-! ## Commands that others make good -/

/-- Whether the second command sets everything that the first one does. -/
def Cmd.overwrittenBy : Cmd J → Cmd J → Bool
  | .ruleset cate _, .ruleset cate' _ => cate = cate'
  | .reference cate itemMap, .reference cate' itemMap' =>
    cate = cate' && itemMap.all fun e => itemMap'.any fun e' => e'.1 = e.1
  | c, .destroy n | c, .create n _ => c.ipset = some n
  | _, _ => false

/-- After every command that has failed there is one that sets the same.  The last of these
has succeeded, as after it there is none. -/
def MadeGood : List (Cmd J × Bool) → Prop
  | [] => True
  | (c, done) :: log =>
    (done = true ∨ ∃ c' ∈ log, c.overwrittenBy c'.1 = true) ∧ MadeGood log

instance MadeGood.decide : (log : List (Cmd J × Bool)) → Decidable (MadeGood log)
  | [] => isTrue trivial
  | (_, _) :: log => have := MadeGood.decide log; inferInstanceAs (Decidable (_ ∧ _))

/-- Kernels that agree but for what a command sets. -/
structure AgreeOff (c : Cmd J) (k k' : Kernel J) : Prop where
  rules : ∀ cate, c.ruleCate ≠ some cate → k.rules cate = k'.rules cate
  refs : ∀ cate key, (∀ itemMap, c = .reference cate itemMap → ∀ e ∈ itemMap, e.1 ≠ key) →
    k.refs cate key = k'.refs cate key
  ipsets : ∀ n, c.ipset ≠ some n → k.ipsets n = k'.ipsets n

/-- A reference that is set does not depend on what it was. -/
theorem setRefs_congr {refs refs' : String → String} {l : List (String × String)} {key : String}
    (h : (∀ e ∈ l, e.1 ≠ key) → refs key = refs' key) :
    setRefs refs l key = setRefs refs' l key := by
  induction l generalizing refs refs' with
  | nil => exact h fun _ he => absurd he List.not_mem_nil
  | cons e l ih =>
    refine ih fun hl => ?_
    show Function.update refs e.1 e.2 key = Function.update refs' e.1 e.2 key
    by_cases he : key = e.1
    · rw [he, Function.update_self, Function.update_self]
    · rw [Function.update_of_ne he, Function.update_of_ne he]
      refine h fun e' he' => ?_
      rcases List.mem_cons.1 he' with rfl | he'
      · exact Ne.symm he
      · exact hl e' he'

/-- A command leaves everything alone that it does not set. -/
theorem Kernel.exec_agreeOff (k : Kernel J) (c : Cmd J) : AgreeOff c (k.exec c) k where
  rules cate h := by
    have hrun := k.run_rules (List.forall_mem_singleton.2 h)
    exact hrun
  refs cate key h := by
    cases c with
    | reference cate' itemMap =>
      by_cases hc : cate = cate'
      · subst hc
        rw [exec_reference]
        exact setRefs_of_notMem (h itemMap rfl) _
      · exact congrFun (Function.update_of_ne hc _ _) key
    | _ => rfl
  ipsets n h := by
    have hrun := k.run_ipsets (List.forall_mem_singleton.2 h)
    exact hrun

/-- What two kernels agree on, they agree on after every command. -/
theorem AgreeOff.exec {c : Cmd J} {k k' : Kernel J} (h : AgreeOff c k k') (d : Cmd J) :
    AgreeOff c (k.exec d) (k'.exec d) := by
  refine ⟨fun cate hc => ?_, fun cate key hc => ?_, fun n hc => ?_⟩
  · cases d with
    | ruleset cate' rules =>
      simp only [Kernel.exec, Function.update_apply]
      split
      · rfl
      · exact h.rules cate hc
    | _ => exact h.rules cate hc
  · cases d with
    | reference cate' itemMap =>
      by_cases hcate : cate = cate'
      · subst hcate
        rw [Kernel.exec_reference, Kernel.exec_reference]
        exact setRefs_congr fun _ => h.refs cate key hc
      · simp only [Kernel.exec, Function.update_of_ne hcate]
        exact h.refs cate key hc
    | _ => exact h.refs cate key hc
  · cases d with
    | destroy n' | create n' type =>
      simp only [Kernel.exec, Function.update_apply]
      split
      · rfl
      · exact h.ipsets n hc
    | add n' item =>
      simp only [Kernel.exec, Function.update_apply]
      split
      next he => rw [← he, h.ipsets n hc]
      · exact h.ipsets n hc
    | _ => exact h.ipsets n hc

/-- A command that sets what the kernels may differ in makes them one. -/
theorem AgreeOff.exec_eq {c c' : Cmd J} {k k' : Kernel J} (h : AgreeOff c k k')
    (hc : c.overwrittenBy c' = true) : k.exec c' = k'.exec c' := by
  have hrules (hn : c.ruleCate = none) : k.rules = k'.rules :=
    funext fun cate => h.rules cate (by simp [hn])
  have hrefs (hn : c.refCate = none) : k.refs = k'.refs := by
    funext cate key
    refine h.refs cate key ?_
    rintro itemMap rfl
    cases hn
  have hipsets (hn : c.ipset = none) : k.ipsets = k'.ipsets :=
    funext fun n => h.ipsets n (by simp [hn])
  have hset (n : String) (x : Option (String × List J)) (hn : c.ipset = some n) :
      Function.update k.ipsets n x = Function.update k'.ipsets n x := by
    funext m
    simp only [Function.update_apply]
    split
    · rfl
    next hm => exact h.ipsets m (by simpa [hn] using Ne.symm hm)
  have hother {n : String} (hn : c.ipset = some n) : c.ruleCate = none ∧ c.refCate = none := by
    cases c with
    | destroy | create | add => exact ⟨rfl, rfl⟩
    | ruleset | reference => cases hn
  cases c' with
  | destroy n =>
    have hn : c.ipset = some n := by cases c <;> simpa [Cmd.overwrittenBy] using hc
    simp only [Kernel.exec]
    rw [hrules (hother hn).1, hrefs (hother hn).2, hset n _ hn]
  | create n type =>
    have hn : c.ipset = some n := by cases c <;> simpa [Cmd.overwrittenBy] using hc
    simp only [Kernel.exec]
    rw [hrules (hother hn).1, hrefs (hother hn).2, hset n _ hn]
  | ruleset cate' rules' =>
    cases c with
    | ruleset cate rules =>
      obtain rfl : cate = cate' := by simpa [Cmd.overwrittenBy] using hc
      have hup : Function.update k.rules cate (some rules') =
          Function.update k'.rules cate (some rules') := by
        funext x
        simp only [Function.update_apply]
        split
        · rfl
        next hx => exact h.rules x (by simpa [Cmd.ruleCate] using Ne.symm hx)
      simp only [Kernel.exec]
      rw [hup, hrefs rfl, hipsets rfl]
    | _ => simp [Cmd.overwrittenBy] at hc
  | reference cate' itemMap' =>
    cases c with
    | reference cate itemMap =>
      simp only [Cmd.overwrittenBy, Bool.and_eq_true, decide_eq_true_eq, List.all_eq_true,
        List.any_eq_true] at hc
      obtain ⟨rfl, hkeys⟩ := hc
      have hup : Function.update k.refs cate (setRefs (k.refs cate) itemMap') =
          Function.update k'.refs cate (setRefs (k'.refs cate) itemMap') := by
        funext x key
        by_cases hx : x = cate
        · subst hx
          rw [Function.update_self, Function.update_self]
          refine setRefs_congr fun hnot => h.refs x key ?_
          rintro _ ⟨⟩ e he hek
          obtain ⟨e', he', hee⟩ := hkeys e he
          exact hnot e' he' (hee.trans hek)
        · rw [Function.update_of_ne hx, Function.update_of_ne hx]
          refine h.refs x key ?_
          rintro _ ⟨⟩
          exact absurd rfl hx
      simp only [Kernel.exec]
      rw [hrules rfl, hup, hipsets rfl]
    | _ => simp [Cmd.overwrittenBy] at hc
  | add n item => cases c <;> simp [Cmd.overwrittenBy] at hc

/-- A command that a later one overwrites can as well be left out. -/
theorem Kernel.run_overwritten (k : Kernel J) {c : Cmd J} {cmds : List (Cmd J)}
    (h : ∃ c' ∈ cmds, c.overwrittenBy c' = true) : (k.exec c).run cmds = k.run cmds := by
  have hrun {k k' : Kernel J} (hk : AgreeOff c k k') : k.run cmds = k'.run cmds := by
    induction cmds generalizing k k' with
    | nil =>
      obtain ⟨_, hc, -⟩ := h
      cases hc
    | cons d cmds ih =>
      obtain ⟨c', hc', hover⟩ := h
      rw [run_cons, run_cons]
      rcases List.mem_cons.1 hc' with rfl | hc'
      · rw [hk.exec_eq hover]
      · exact ih ⟨c', hc', hover⟩ (hk.exec d)
  exact hrun (k.exec_agreeOff c)

/-! ## The log -/

/-- The kernel after the commands of a log, of which some have failed. -/
def Kernel.replay (k : Kernel J) (log : List (Cmd J × Bool)) : Kernel J :=
  log.foldl (fun k c => if c.2 then k.exec c.1 else k) k

def kernelOf (log : List (Cmd J × Bool)) : Kernel J := Kernel.empty.replay log

/-- Commands that are made good leave the kernel as if none had failed. -/
theorem Kernel.replay_eq_run {log : List (Cmd J × Bool)} (h : MadeGood log) (k : Kernel J) :
    k.replay log = k.run (log.map Prod.fst) := by
  induction log generalizing k with
  | nil => rfl
  | cons c log ih =>
    obtain ⟨c, done⟩ := c
    rw [List.map_cons, run_cons, ← ih h.2]
    cases done with
    | true => rfl
    | false =>
      obtain ⟨c', hc', hover⟩ := h.1.resolve_left (by decide)
      have hleft := k.run_overwritten ⟨c'.1, List.mem_map_of_mem hc', hover⟩
      rw [ih h.2, hleft, ← ih h.2]
      rfl

/-- The commands executed from the one state to the other. -/
def executed (s s' : State J) : List (Cmd J × Bool) := s'.log.drop s.log.length

theorem execute_nil (ok : ℕ → Bool) (log : List (Cmd J × Bool)) : execute ok log [] = log := by
  simp [execute]

theorem execute_execute (ok : ℕ → Bool) (log : List (Cmd J × Bool)) (cmds cmds' : List (Cmd J)) :
    execute ok (execute ok log cmds) cmds' = execute ok log (cmds ++ cmds') := by
  simp [execute, List.zipIdx_append, Nat.add_comm]

variable [DecidableEq J] {L : Lib J} {ok : ℕ → Bool} {K : Kinds}

theorem checkRule_log (s : State J) (cfg : RuleConfig J) :
    ∃ cmds, (checkRule ok s cfg).log = execute ok s.log cmds := by
  simp only [checkRule]
  split
  · exact ⟨[], (execute_nil ok s.log).symm⟩
  · exact ⟨_, rfl⟩

theorem checkSet_log {s s' : State J} (h : checkSet L ok s = some s') :
    ∃ cmds, s'.log = execute ok s.log cmds := by
  obtain ⟨raw, -, ⟨err, -, rfl⟩ | ⟨sets, res, -, -, ⟨-, rfl⟩ | ⟨-, rfl⟩⟩⟩ := checkSet_cases h
  · exact ⟨[], (execute_nil ok _).symm⟩
  · exact ⟨[], (execute_nil ok _).symm⟩
  · exact ⟨_, rfl⟩

theorem turn_log {i n : ℕ} {s s' : State J} {u : Turn J} (h : turn L ok i n s u = some s') :
    ∃ cmds, s'.log = execute ok s.log cmds := by
  obtain ⟨t, -, rfl⟩ | ⟨cfg, -, h⟩ := turn_cases h
  · exact ⟨[], (execute_nil ok _).symm⟩
  · obtain ⟨cmds, hlog⟩ := @checkRule_log J _ ok
      { s with runs := Function.update s.runs i none, last := n } cfg
    obtain ⟨cmds', hlog'⟩ := checkSet_log h
    exact ⟨cmds ++ cmds', by rw [hlog', hlog, execute_execute]⟩

/-- A step executes commands and notes how they went. -/
theorem step_log {s s' : State J} {e : Event} (h : step L ok s e = some s') :
    ∃ cmds, s'.log = execute ok s.log cmds := by
  obtain ⟨i, -, -, rfl⟩ | ⟨i, answers, tm, -, -, rfl⟩ |
    ⟨i, answers, tm, raw, -, -, -, h⟩ | ⟨i, rows, n, t, -, -, h⟩ := step_cases h
  · exact ⟨[], (execute_nil ok _).symm⟩
  · exact ⟨[], (execute_nil ok _).symm⟩
  · exact turn_log (s := { s with allRaw := some raw, loads := s.loads + 1 }) h
  · exact turn_log h

/-- A step only adds to the log. -/
theorem log_append_executed {s s' : State J} {e : Event} (h : step L ok s e = some s') :
    s'.log = s.log ++ executed s s' := by
  obtain ⟨cmds, hlog⟩ := step_log h
  rw [executed, hlog, execute, List.drop_left]

/-- Where the commands of every step are made good, the kernel is as if none had failed. -/
theorem Reached.kernelOf_eq {Good : State J → Event → State J → Prop}
    (hg : ∀ s e s', Good s e s' → MadeGood (executed s s')) {s : State J}
    (h : Reached L ok Good s) : kernelOf s.log = issued s.log := by
  induction h with
  | init => rfl
  | @step s s' e _ hs hgood ih =>
    rw [log_append_executed hs, kernelOf, Kernel.replay, List.foldl_append, ← Kernel.replay,
      ← Kernel.replay, ← kernelOf, ih, Kernel.replay_eq_run (hg _ _ _ hgood), issued, issued,
      List.map_append, Kernel.run_append]

/-! ## Commits that are made good -/

/-- What is remembered is in the kernel, and a run that comes to a configuration that the
kernel does not have finds a difference. -/
structure Retries (L : Lib J) (K : Kinds) (s : State J) : Prop where
  heldRule : ∀ cfg, s.curRule = some cfg → HoldsRule (kernelOf s.log) cfg
  heldSet : ∀ sets, s.curSet = some sets → HoldsSet L (kernelOf s.log) sets
  rule : ∀ cfg, ¬ HoldsRule (kernelOf s.log) cfg → compareRule s.curRule cfg ≠ []
  set : ∀ sets, OfKinds K sets → ¬ HoldsSet L (kernelOf s.log) sets →
    compareSet L s.curSet sets ≠ some []

theorem CommitInv.retries (hL : L.Lawful) {s : State J} (hs : CommitInv L K s)
    (hlog : kernelOf s.log = issued s.log) : Retries L K s := by
  refine ⟨fun cfg hcur => hlog ▸ hs.rule cfg hcur, fun sets hcur => hlog ▸ (hs.set sets hcur).2,
    ?_, ?_⟩
  · intro cfg hcfg hnil
    rw [hlog] at hcfg
    cases hcur : s.curRule with
    | none => simp [hcur, compareRule] at hnil
    | some old =>
      rw [hcur, compareRule_eq_nil] at hnil
      exact hcfg (hnil ▸ hs.rule old hcur)
  · intro sets hkinds hsets hnil
    rw [hlog] at hsets
    refine hsets fun cate e he => ?_
    cases hcur : s.curSet with
    | none =>
      rw [hcur] at hnil
      exact absurd ((compareSet_none L hL hkinds.tidy hnil).2 cate e he) List.not_mem_nil
    | some old =>
      rw [hcur] at hnil
      obtain ⟨hold, hheld⟩ := hs.set old hcur
      exact hheld cate e ((mem_iff_of_compareSet L hL hold hkinds hnil cate e).2 he)

/-- A first start, at which no set is there that `ipset destroy` could destroy, with a rule;
then the rule is deleted. -/
def firstStart : List Event := [
  .start 0, .loaded 0 (sampleAnswers [sampleRule]) 0, .answered 0 (some [⟨"0a", "leaf"⟩]),
  .start 1, .loaded 1 (sampleAnswers []) 0]

/-- How the commands of `firstStart` go: those from the number 3 and from the number 13 on
are the ones that destroy. -/
def destroysFail (n : ℕ) : Bool := n ∉ [3, 4, 5, 6, 13, 14]

end AcConfig
