/-
# Rule sets of nproto

`rules.c`: registered base rules are spread over sets by direction and transport
protocol.  A rule of a set stands in an array sorted by priority, or its patterns are
in one of two automata, for the payload and for the Host header.  A packet without a
protocol is tried on the rules of the array and then on those whose patterns the
automata find.  Allocations succeed.
-/
import OpenwrtAc.Mwm
import OpenwrtAc.NprotoMatch

open SkipSearch Mwm

namespace NpRules

/-! ## Building a set -/

/-- `np_rule_set_t` before it is compiled: the array, and the patterns of its automata. -/
structure RuleSet where
  rules : List Rule
  pmwm : Option (List (Patt Rule))
  pmwmHost : Option (List (Patt Rule))

/-- `NP_RULE_PRI_MAX`. -/
def npRulePriMax : ℕ := 65535

/-- The search for the insert position: the value of `hi` behind the loop, which is run at most
    `fuel` times. -/
def insertSearch (rules : List Rule) (priority : ℕ) : ℕ → ℤ → ℤ → ℤ
  | 0, _, hi => hi
  | fuel + 1, lo, hi =>
    if lo ≤ hi then
      let mid := (lo + hi) / 2
      match rules[mid.toNat]? with
      | none => hi
      | some r =>
        if r.priority = priority then mid
        else if r.priority < priority then insertSearch rules priority fuel lo (mid - 1)
        else insertSearch rules priority fuel (mid + 1) hi
    else hi

/-- `set_add_rule_normal_sorted`. -/
def insertSorted (rules : List Rule) (rule : Rule) : List Rule :=
  if rule.priority = 0 then rules ++ [rule]
  else if rule.priority = npRulePriMax then rule :: rules
  else rules.insertIdx
    (insertSearch rules rule.priority rules.length 0 (rules.length - 1) + 1).toNat rule

/-- `set_add_rule_normal`. -/
def setAddRuleNormal (set : RuleSet) (rule : Rule) : RuleSet :=
  { set with rules := insertSorted set.rules rule }

/-- The automaton for the payload, or the one for the Host header. -/
def RuleSet.mwm (set : RuleSet) (host : Bool) : Option (List (Patt Rule)) :=
  if host then set.pmwmHost else set.pmwm

/-- The set with one of its automata changed. -/
def RuleSet.setMwm (set : RuleSet) (host : Bool) (plist : List (Patt Rule)) : RuleSet :=
  if host then { set with pmwmHost := some plist } else { set with pmwm := some plist }

/-- `set_add_rule_mwm`: whether the pattern was refused and the rule went to the array. -/
def setAddRuleMwm (set : RuleSet) (host : Bool) (rule : Rule) (ctm : Match) : Bool × RuleSet :=
  let r := mwmAddPatternEx ((set.mwm host).getD []) ctm.patt ctm.offset ctm.deep rule
  if r.1 < 0 then (true, setAddRuleNormal set rule) else (false, set.setMwm host r.2)

/-- The matches of a rule that can go to an automaton: searches for at least four bytes, with
    whether they are for the Host header. -/
def mwmMatches (rule : Rule) : List (Bool × Match) :=
  let long (m : Match) : Bool := m.type == .search && 4 ≤ m.patt.length
  match rule.http, rule.l7 with
  | some http, _ => http.htpm.filterMap fun h =>
      if long h.match' && h.hdr == npHttpEnd then some (false, h.match')
      else if long h.match' && h.hdr == npHttpHost then some (true, h.match')
      else none
  | none, some l7 => l7.ctm.filterMap fun c => if long c.match' then some (false, c.match') else none
  | none, none => []

/-- The relation that decides whether the rule may go to an automaton. -/
def Rule.relation (rule : Rule) : Option Relation :=
  match rule.http, rule.l7 with
  | some http, _ => some http.relation
  | none, some l7 => some l7.relation
  | none, none => none

/-- The loop over the matches: one that is refused ends it. -/
def addMwmLoop (rule : Rule) : List (Bool × Match) → RuleSet → RuleSet
  | [], set => set
  | (host, ctm) :: rest, set =>
    let r := setAddRuleMwm set host rule ctm
    if r.1 then r.2 else addMwmLoop rule rest r.2

/-- `set_add_rule`. -/
def setAddRule (set : RuleSet) (rule : Rule) : RuleSet :=
  if rule.relation = some .or then
    match mwmMatches rule with
    | [] => setAddRuleNormal set rule
    | ms => addMwmLoop rule ms set
  else setAddRuleNormal set rule

/-! ## Registering rules -/

/-- `NP_SET_BASE_UDP`, `NP_SET_BASE_TCP` and `NP_SET_BASE_OTHER`. -/
inductive BaseSet where
  | udp
  | tcp
  | other
deriving DecidableEq, Repr

/-- `np_proto_to_set`. -/
def npProtoToSet (proto : UInt8) : BaseSet :=
  if proto = ipprotoTcp then .tcp else if proto = ipprotoUdp then .udp else .other

/-- `RULES_ALL` and `RS_BASE`. -/
structure Registry where
  all : List Rule
  base : FlowDir → BaseSet → Option RuleSet

/-- Before anything is registered. -/
def Registry.empty : Registry := ⟨[], fun _ _ => none⟩

/-- `set_add_base_rule`. -/
def setAddBaseRule (reg : Registry) (dir : FlowDir) (proto : BaseSet) (rule : Rule) : Registry :=
  { reg with base := Function.update reg.base dir (Function.update (reg.base dir) proto
      (some (setAddRule ((reg.base dir proto).getD ⟨[], none, none⟩) rule))) }

/-- `ctm_init`: a match without a pattern is cleared. -/
def ctmInit (ctm : Match) : Match := if ctm.patt.isEmpty then ⟨.offset, 0, 0, []⟩ else ctm

/-- `rule_compile`, where the rule's own initialisation succeeds. -/
def ruleCompile (rule : Rule) : Rule :=
  { rule with
    l7 := rule.l7.map fun l7 => { l7 with
      ctm := l7.ctm.map fun c => { c with wrap := ctmInit c.wrap, match' := ctmInit c.match' } } }

/-- `NP_RULES_COUNT_MAX`. -/
def npRulesCountMax : ℕ := 4096

/-- `np_rule_register`.  The protocol of a rule without a transport part is that of no set but
    the third; a protocol is cut to its low byte. -/
def npRuleRegister (reg : Registry) (rule : Rule) : Registry :=
  let rule := ruleCompile rule
  if npRulesCountMax ≤ reg.all.length then reg
  else
    let reg := { reg with all := reg.all ++ [rule] }
    if !rule.isBase then reg
    else
      let proto := match rule.l4 with
        | some l4 => npProtoToSet l4.proto.toUInt8
        | none => .other
      match (rule.l7.map L7Match.dir).getD .any with
      | .any => setAddBaseRule (setAddBaseRule reg .c2s proto rule) .s2c proto rule
      | dir => setAddBaseRule reg dir proto rule

/-- All rules, one after the other. -/
def registerAll (rules : List Rule) : Registry := rules.foldl npRuleRegister .empty

/-! ## What the sets hold -/

/-- The base set of a rule. -/
def Rule.baseProto (rule : Rule) : BaseSet :=
  match rule.l4 with
  | some l4 => npProtoToSet l4.proto.toUInt8
  | none => .other

/-- The direction of a rule. -/
def Rule.dir (rule : Rule) : FlowDir := (rule.l7.map L7Match.dir).getD .any

/-- The rule is for packets of the direction. -/
def Rule.Serves (rule : Rule) (dir : FlowDir) : Prop :=
  dir ≠ .any ∧ (rule.dir = .any ∨ rule.dir = dir)

/-- The rule is not for an automaton: its alternatives must all match, or none of them is a
    search for at least four bytes. -/
def Rule.GoesToArray (rule : Rule) : Prop := rule.relation ≠ some .or ∨ mwmMatches rule = []

/-- The search does not end above its upper bound. -/
theorem insertSearch_le (rules : List Rule) (priority fuel : ℕ) (lo hi : ℤ) :
    insertSearch rules priority fuel lo hi ≤ hi := by
  induction fuel generalizing lo hi with
  | zero => exact Int.le_refl _
  | succ fuel ih =>
    rw [insertSearch]
    split
    next hle =>
      dsimp only
      split
      · exact Int.le_refl _
      · split
        · omega
        · split
          · exact Int.le_trans (ih lo _) (by omega)
          · exact ih _ hi
    · exact Int.le_refl _

/-- The rules after one is inserted. -/
theorem mem_insertSorted {rules : List Rule} {rule r : Rule} :
    r ∈ insertSorted rules rule ↔ r = rule ∨ r ∈ rules := by
  unfold insertSorted
  split
  · simp [or_comm]
  · split
    · simp
    · have hle := insertSearch_le rules rule.priority rules.length 0 (rules.length - 1)
      exact List.mem_insertIdx (by omega)

/-- The patterns of an automaton of a set. -/
def RuleSet.patts (set : RuleSet) (host : Bool) : List (Patt Rule) := (set.mwm host).getD []

/-- What adding a rule does to a set: the rules and patterns that were there stay, and those that
    come are of the rule. -/
structure Added (set set' : RuleSet) (rule : Rule) : Prop where
  keeps : ∀ r ∈ set.rules, r ∈ set'.rules
  rules : ∀ r ∈ set'.rules, r ∈ set.rules ∨ r = rule
  patts : ∀ host, ∀ p ∈ set'.patts host, p ∈ set.patts host ∨ p.psData = rule

/-- Nothing is added. -/
theorem Added.refl (set : RuleSet) (rule : Rule) : Added set set rule :=
  ⟨fun _ hr => hr, fun _ hr => .inl hr, fun _ _ hp => .inl hp⟩

/-- What is added in two steps. -/
theorem Added.trans {set set₁ set₂ : RuleSet} {rule : Rule} (h₁ : Added set set₁ rule)
    (h₂ : Added set₁ set₂ rule) : Added set set₂ rule := by
  refine ⟨fun r hr => h₂.keeps r (h₁.keeps r hr), fun r hr => ?_, fun host p hp => ?_⟩
  · rcases h₂.rules r hr with hr | hr
    · exact h₁.rules r hr
    · exact .inr hr
  · rcases h₂.patts host p hp with hp | hp
    · exact h₁.patts host p hp
    · exact .inr hp

/-- A rule in the array is added. -/
theorem setAddRuleNormal_added (set : RuleSet) (rule : Rule) :
    Added set (setAddRuleNormal set rule) rule :=
  ⟨fun _ hr => mem_insertSorted.2 (.inr hr), fun _ hr => (mem_insertSorted.1 hr).symm,
    fun _ _ hp => .inl hp⟩

/-- A rule in an engine is added. -/
theorem setAddRuleMwm_added (set : RuleSet) (host : Bool) (rule : Rule) (ctm : Match) :
    Added set (setAddRuleMwm set host rule ctm).2 rule := by
  unfold setAddRuleMwm
  dsimp only
  split
  · exact setAddRuleNormal_added set rule
  · refine ⟨fun r hr => ?_, fun r hr => .inl ?_, fun host' p hp => ?_⟩
    · cases host <;> exact hr
    · cases host <;> exact hr
    · by_cases hh : host' = host
      · subst hh
        have hplist : (set.setMwm host' (mwmAddPatternEx ((set.mwm host').getD []) ctm.patt
            ctm.offset ctm.deep rule).2).patts host' = (mwmAddPatternEx (set.patts host') ctm.patt
            ctm.offset ctm.deep rule).2 := by
          cases host' <;> rfl
        rw [hplist, mwmAddPatternEx, mwmAddPattern] at hp
        split at hp
        · split at hp
          · exact .inl hp
          · split at hp
            · exact .inl hp
            · rcases List.mem_append.1 hp with hp | hp
              · exact .inl hp
              · rw [List.mem_singleton.1 hp]
                exact .inr rfl
        · exact .inl hp
      · left
        cases host <;> cases host' <;> first | exact absurd rfl hh | exact hp

/-- A rule with several patterns is added. -/
theorem addMwmLoop_added (rule : Rule) (ms : List (Bool × Match)) (set : RuleSet) :
    Added set (addMwmLoop rule ms set) rule := by
  induction ms generalizing set with
  | nil => exact Added.refl set rule
  | cons m ms ih =>
    have hstep := setAddRuleMwm_added set m.1 rule m.2
    rw [addMwmLoop]
    split
    · exact hstep
    · exact hstep.trans (ih _)

/-- A rule is added in its array or its engines. -/
theorem setAddRule_added (set : RuleSet) (rule : Rule) : Added set (setAddRule set rule) rule := by
  unfold setAddRule
  split
  · split
    · exact setAddRuleNormal_added set rule
    · exact addMwmLoop_added rule _ set
  · exact setAddRuleNormal_added set rule

/-- A rule that goes to the array is there. -/
theorem mem_setAddRule {set : RuleSet} {rule : Rule} (h : rule.GoesToArray) :
    rule ∈ (setAddRule set rule).rules := by
  have hnormal : rule ∈ (setAddRuleNormal set rule).rules := mem_insertSorted.2 (.inl rfl)
  unfold setAddRule
  rcases h with h | h
  · rw [if_neg h]
    exact hnormal
  · rw [h]
    split <;> exact hnormal

/-! ## What the registry holds -/

instance (rule : Rule) (dir : FlowDir) : Decidable (rule.Serves dir) :=
  inferInstanceAs (Decidable (dir ≠ .any ∧ (rule.dir = .any ∨ rule.dir = dir)))

/-- A rule is added to one base set. -/
theorem setAddBaseRule_base (reg : Registry) (dir d : FlowDir) (proto p : BaseSet) (rule : Rule) :
    (setAddBaseRule reg dir proto rule).base d p = if d = dir ∧ p = proto then
      some (setAddRule ((reg.base d p).getD ⟨[], none, none⟩) rule) else reg.base d p := by
  unfold setAddBaseRule
  by_cases hd : d = dir
  · subst hd
    by_cases hp : p = proto
    · subst hp
      simp
    · simp [hp]
  · simp [hd]

/-- What registering a rule does: where there is room the rule comes to the list, and if it is a
    base rule to the sets of its protocol and direction. -/
theorem npRuleRegister_cases (reg : Registry) (rule : Rule) :
    npRuleRegister reg rule = reg ∨
    ((npRuleRegister reg rule).all = reg.all ++ [ruleCompile rule] ∧
      ∀ d p, (npRuleRegister reg rule).base d p =
        if (ruleCompile rule).isBase = true ∧ p = (ruleCompile rule).baseProto
          ∧ (ruleCompile rule).Serves d
        then some (setAddRule ((reg.base d p).getD ⟨[], none, none⟩) (ruleCompile rule))
        else reg.base d p) := by
  unfold npRuleRegister
  generalize ruleCompile rule = rule
  dsimp only
  split
  · exact .inl rfl
  · right
    cases hbase : rule.isBase with
    | false => simp
    | true =>
      have hproto : (match rule.l4 with
        | some l4 => npProtoToSet l4.proto.toUInt8
        | none => BaseSet.other) = rule.baseProto := rfl
      have hdir : (rule.l7.map L7Match.dir).getD .any = rule.dir := rfl
      have hserves : ∀ d, rule.Serves d ↔ d ≠ .any ∧ (rule.dir = .any ∨ rule.dir = d) :=
        fun _ => Iff.rfl
      rw [hproto, hdir]
      -- a rule for any direction is added twice, to different sets
      cases hd : rule.dir with
      | any =>
        refine ⟨rfl, fun d p => ?_⟩
        simp only [Bool.not_true, Bool.false_eq_true, if_false, setAddBaseRule_base, hserves, hd]
        cases d <;> simp
      | c2s =>
        refine ⟨rfl, fun d p => ?_⟩
        simp only [Bool.not_true, Bool.false_eq_true, if_false, setAddBaseRule_base, hserves, hd]
        cases d <;> simp
      | s2c =>
        refine ⟨rfl, fun d p => ?_⟩
        simp only [Bool.not_true, Bool.false_eq_true, if_false, setAddBaseRule_base, hserves, hd]
        cases d <;> simp

/-- The sets hold base rules of their protocol and direction that are registered, in the array
    or as owners of patterns; and all of those that are not for an automaton. -/
structure Registry.WellKept (reg : Registry) : Prop where
  sound : ∀ dir proto set, reg.base dir proto = some set → ∀ r,
    (r ∈ set.rules ∨ ∃ host, ∃ p ∈ set.patts host, p.psData = r) →
      r ∈ reg.all ∧ r.isBase = true ∧ r.baseProto = proto ∧ r.Serves dir
  complete : ∀ r ∈ reg.all, r.isBase = true → r.GoesToArray → ∀ dir, r.Serves dir →
    ∃ set, reg.base dir r.baseProto = some set ∧ r ∈ set.rules

/-- Registering a rule keeps the registry. -/
theorem npRuleRegister_wellKept {reg : Registry} (h : reg.WellKept) (rule : Rule) :
    (npRuleRegister reg rule).WellKept := by
  rcases npRuleRegister_cases reg rule with heq | ⟨hall, hbase⟩
  · rw [heq]
    exact h
  · generalize ruleCompile rule = new at hall hbase
    refine ⟨fun dir proto set hset r hr => ?_, fun r hr hisBase harr dir hserves => ?_⟩
    · rw [hall, List.mem_append, List.mem_singleton]
      rw [hbase] at hset
      split at hset
      next hnew =>
        obtain ⟨hnewBase, rfl, hnewServes⟩ := hnew
        have hadd := setAddRule_added ((reg.base dir new.baseProto).getD ⟨[], none, none⟩) new
        rw [Option.some.inj hset] at hadd
        -- what was in the set before, and what is new
        have hwas : ∀ r, (r ∈ ((reg.base dir new.baseProto).getD ⟨[], none, none⟩).rules ∨
            ∃ host, ∃ p ∈ ((reg.base dir new.baseProto).getD ⟨[], none, none⟩).patts host,
              p.psData = r) →
            r ∈ reg.all ∧ r.isBase = true ∧ r.baseProto = new.baseProto ∧ r.Serves dir := by
          cases hold : reg.base dir new.baseProto with
          | none =>
            rintro r (hr | ⟨host, p, hp, -⟩)
            · cases hr
            · cases host <;> cases hp
          | some old => exact h.sound dir _ old hold
        have hboth : (r ∈ reg.all ∧ r.isBase = true ∧ r.baseProto = new.baseProto ∧ r.Serves dir)
            ∨ r = new := by
          rcases hr with hr | ⟨host, p, hp, hdata⟩
          · exact (hadd.rules r hr).imp_left fun hr => hwas r (.inl hr)
          · rcases hadd.patts host p hp with hp | hp
            · exact .inl (hwas r (.inr ⟨host, p, hp, hdata⟩))
            · exact .inr (hdata.symm.trans hp)
        rcases hboth with ⟨hr, hrest⟩ | rfl
        · exact ⟨.inl hr, hrest⟩
        · exact ⟨.inr rfl, hnewBase, rfl, hnewServes⟩
      · obtain ⟨hr, hrest⟩ := h.sound dir proto set hset r hr
        exact ⟨.inl hr, hrest⟩
    · rw [hbase]
      rw [hall, List.mem_append, List.mem_singleton] at hr
      rcases hr with hr | rfl
      · obtain ⟨set, hset, hmem⟩ := h.complete r hr hisBase harr dir hserves
        split
        · refine ⟨_, rfl, (setAddRule_added _ new).keeps r ?_⟩
          rw [hset]
          exact hmem
        · exact ⟨set, hset, hmem⟩
      · rw [if_pos ⟨hisBase, rfl, hserves⟩]
        exact ⟨_, rfl, mem_setAddRule harr⟩

/-- So it is for any list of rules. -/
theorem registerAll_wellKept (rules : List Rule) : (registerAll rules).WellKept := by
  have hrun : ∀ reg : Registry, reg.WellKept → (rules.foldl npRuleRegister reg).WellKept := by
    induction rules with
    | nil => exact fun reg h => h
    | cons rule rules ih => exact fun reg h => ih _ (npRuleRegister_wellKept h rule)
  refine hrun .empty ⟨fun dir proto set hset => ?_, fun r hr => ?_⟩
  · cases hset
  · cases hr

/-! ## Compiled sets -/

/-- `np_rule_set_t` after `set_compile`. -/
structure CompiledSet where
  rules : List Rule
  pmwm : Option (Prepared Rule)
  pmwmHost : Option (Prepared Rule)

/-- `mwm_compile`: an automaton without patterns is dropped. -/
def MwmCompiled : Option (List (Patt Rule)) → Option (Prepared Rule) → Prop
  | some (p :: plist), some m => PreparedFrom (p :: plist) m
  | some (_ :: _), none => False
  | _, m => m = none

/-- `set_compile` can make this of the set. -/
structure SetCompiled (set : RuleSet) (cs : CompiledSet) : Prop where
  rules : cs.rules = set.rules
  pmwm : MwmCompiled set.pmwm cs.pmwm
  pmwmHost : MwmCompiled set.pmwmHost cs.pmwmHost

/-! ## Trying the rules of a set -/

/-- The packet, and the rules that `rule_one_match` was called for with its answers. -/
structure SearchLog where
  pkt : Packet
  tried : List (Rule × Bool)

section Pcre

variable (pcreFind : List UInt8 → (ℤ → UInt8) → ℤ → ℤ → Option ℕ)

/-- `mwmOnMatch`: the assignment to its parameter `out` reaches no one. -/
def mwmOnMatch : Callback Rule SearchLog := fun rule _ log =>
  match ruleOneMatch pcreFind rule log.pkt with
  | some pkt => (1, ⟨pkt, log.tried ++ [(rule, true)]⟩)
  | none => (0, ⟨log.pkt, log.tried ++ [(rule, false)]⟩)

/-- The loop over the array. -/
def directLoop : List Rule → SearchLog → Option Rule × SearchLog
  | [], log => (none, log)
  | rule :: rules, log =>
    match ruleOneMatch pcreFind rule log.pkt with
    | some pkt => (some rule, ⟨pkt, log.tried ++ [(rule, true)]⟩)
    | none => directLoop rules ⟨log.pkt, log.tried ++ [(rule, false)]⟩

/-- A search through a null pointer for `n` bytes: `none` when it reads there. -/
def nullSearch (m : Prepared Rule) (n : ℤ) (log : SearchLog) : Option SearchLog :=
  match Method.ofNum m.patArray.length with
  | .bm => if m.patArray.any fun p => (p.psLen : ℤ) ≤ n then none else some log
  | .mwm => if (shiftLen m.patArray : ℤ) ≤ n then none else some log

/-- `rules_set_match` behind the loop over the array.  What the automata find is tried, and the
    result is null in any case.  Behind the search of a Host header, the payload's automaton
    searches the same bytes; without one, it searches from a null pointer. -/
def searchMwm (cs : CompiledSet) (pkt : Packet) (log : SearchLog) : Option SearchLog :=
  match cs.pmwmHost with
  | none =>
    match cs.pmwm with
    | none => some log
    | some m => some (mwmSearch m (slice pkt.mem pkt.l7Ptr pkt.l7Len) (mwmOnMatch pcreFind) log)
  | some host =>
    match npHttpHdr pkt npHttpHost, cs.pmwm with
    | some (data, len), none =>
      some (mwmSearch host (slice pkt.mem data len) (mwmOnMatch pcreFind) log)
    | some (data, len), some m =>
      some (mwmSearch m (slice pkt.mem data len) (mwmOnMatch pcreFind)
        (mwmSearch host (slice pkt.mem data len) (mwmOnMatch pcreFind) log))
    | none, none => some log
    | none, some m => nullSearch m pkt.l7Len log

/-- `rules_set_match`: the rule it returns and the rules it tried; `none` when it reads through
    a null pointer. -/
def rulesSetMatch (cs : CompiledSet) (pkt : Packet) : Option (Option Rule × SearchLog) :=
  let r := directLoop pcreFind cs.rules ⟨pkt, []⟩
  match r.1 with
  | some rule => some (some rule, r.2)
  | none => (searchMwm pcreFind cs pkt r.2).map fun log => (none, log)

end Pcre

end NpRules
