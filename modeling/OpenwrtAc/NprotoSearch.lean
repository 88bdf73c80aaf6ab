/-
# What the search of a rule set reports and reaches

Two questions about `rules_set_match`: whether it returns a rule when it has found
one, and whether it tries a rule that matches when there is one.  Both come down to
what the automata find, which is said without their tables.
-/
import OpenwrtAc.NprotoSets

open SkipSearch Mwm

namespace NpRules

section Pcre

variable (pcreFind : List UInt8 → (ℤ → UInt8) → ℤ → ℤ → Option ℕ)

/-! ## What is found -/

/-- The rules whose patterns an automaton finds in a text, one after the other. -/
def rulesFound (m : Option (Prepared Rule)) (text : List UInt8) : List Rule :=
  match m with
  | none => []
  | some m => (hits m text).map Prod.fst

/-- A rule is found where the engine of its set sees it. -/
theorem mem_rulesFound {m : Option (Prepared Rule)} {text : List UInt8} {r : Rule} :
    r ∈ rulesFound m text ↔ ∃ m', m = some m' ∧ m'.Sees text r := by
  cases m with
  | none => simp [rulesFound]
  | some m => simp only [rulesFound, mem_hits_iff_sees, Option.some.injEq, exists_eq_left']

/-- The rules found by patterns in the bytes that the patterns are for: those for the Host header
    there, those for the payload in the payload, which is searched only in a set without
    patterns for the Host header. -/
def ownFound (cs : CompiledSet) (pkt : Packet) : List Rule :=
  match cs.pmwmHost with
  | none => rulesFound cs.pmwm (slice pkt.mem pkt.l7Ptr pkt.l7Len)
  | some _ =>
    match npHttpHdr pkt npHttpHost with
    | some (data, len) => rulesFound cs.pmwmHost (slice pkt.mem data len)
    | none => []

/-- The rules found by patterns for the payload in a Host header. -/
def strayFound (cs : CompiledSet) (pkt : Packet) : List Rule :=
  match cs.pmwmHost with
  | none => []
  | some _ =>
    match npHttpHdr pkt npHttpHost with
    | some (data, len) => rulesFound cs.pmwm (slice pkt.mem data len)
    | none => []

/-- The rules that the automata of a set find for a packet. -/
def autoFound (cs : CompiledSet) (pkt : Packet) : List Rule := ownFound cs pkt ++ strayFound cs pkt

/-! ## The log of a search -/

/-- `rule_one_match` answered yes for a rule. -/
def SearchLog.HasAccepted (log : SearchLog) : Prop := ∃ r, (r, true) ∈ log.tried

/-- A rule that accepts answers what its callback does. -/
theorem ruleOneMatch_of_accepts {rule : Rule} {pkt : Packet}
    (h : ruleAccepts pcreFind rule pkt = true) :
    ruleOneMatch pcreFind rule pkt = some (rule.protoCb pkt) := if_pos h

/-- A rule that does not accept does not answer. -/
theorem ruleOneMatch_of_not_accepts {rule : Rule} {pkt : Packet}
    (h : ¬ ruleAccepts pcreFind rule pkt = true) : ruleOneMatch pcreFind rule pkt = none := if_neg h

/-- One call of the callback. -/
theorem mwmOnMatch_spec (rule : Rule) (out : Option ℕ) (log : SearchLog) :
    (ruleAccepts pcreFind rule log.pkt = true ∧
      mwmOnMatch pcreFind rule out log = (1, ⟨rule.protoCb log.pkt, log.tried ++ [(rule, true)]⟩)) ∨
    (ruleAccepts pcreFind rule log.pkt = false ∧
      mwmOnMatch pcreFind rule out log = (0, ⟨log.pkt, log.tried ++ [(rule, false)]⟩)) := by
  unfold mwmOnMatch
  by_cases h : ruleAccepts pcreFind rule log.pkt = true
  · rw [ruleOneMatch_of_accepts pcreFind h]
    exact .inl ⟨h, rfl⟩
  · rw [ruleOneMatch_of_not_accepts pcreFind h]
    exact .inr ⟨by simpa using h, rfl⟩

/-- Each method logs the rules it tries. -/
theorem visitor_log (v : Method) (hit : Rule × Option ℕ) (log : SearchLog) :
    (((mwmOnMatch pcreFind).visitor v) hit log).2 = (mwmOnMatch pcreFind hit.1 hit.2 log).2 := by
  cases v <;> rfl

/-- A rule that does not accept is tried and the search goes on. -/
theorem visitor_miss (v : Method) {hit : Rule × Option ℕ} {log : SearchLog}
    (h : ruleAccepts pcreFind hit.1 log.pkt = false) :
    ((mwmOnMatch pcreFind).visitor v) hit log =
      (false, ⟨log.pkt, log.tried ++ [(hit.1, false)]⟩) := by
  have hcall : mwmOnMatch pcreFind hit.1 hit.2 log =
      (0, ⟨log.pkt, log.tried ++ [(hit.1, false)]⟩) := by
    rcases mwmOnMatch_spec pcreFind hit.1 hit.2 log with ⟨hacc, -⟩ | ⟨-, hcall⟩
    · rw [h] at hacc
      cases hacc
    · exact hcall
  cases v <;> simp [Callback.visitor, Callback.single, Callback.common, hcall]

/-- What a search makes of a log: what was tried stays and what comes to it was found; finds
    that do not match change nothing else; and if a find matches the packet, one that does is
    answered with yes. -/
structure Searched (found : List Rule) (log log' : SearchLog) : Prop where
  tried : ∃ more, log'.tried = log.tried ++ more ∧ ∀ x ∈ more, x.1 ∈ found
  miss : (∀ r ∈ found, ruleAccepts pcreFind r log.pkt = false) →
    log'.pkt = log.pkt ∧ ∀ x ∈ log'.tried, x ∈ log.tried ∨ x.2 = false
  hit : (∃ r ∈ found, ruleAccepts pcreFind r log.pkt = true) →
    ∃ r ∈ found, (r, true) ∈ log'.tried ∧ ruleAccepts pcreFind r log.pkt = true

/-- Searching on keeps what was tried. -/
theorem Searched.keeps {found : List Rule} {log log' : SearchLog}
    (h : Searched pcreFind found log log') {x : Rule × Bool} (hx : x ∈ log.tried) :
    x ∈ log'.tried := by
  obtain ⟨more, hmore, -⟩ := h.tried
  rw [hmore]
  exact List.mem_append_left more hx

/-- Nothing has been searched yet. -/
theorem Searched.refl (log : SearchLog) : Searched pcreFind [] log log where
  tried := ⟨[], by simp, by simp⟩
  miss _ := ⟨rfl, fun _ hx => .inl hx⟩
  hit h := by simp at h

/-- Two searches, one after the other. -/
theorem Searched.trans {found₁ found₂ : List Rule} {log log₁ log₂ : SearchLog}
    (h₁ : Searched pcreFind found₁ log log₁) (h₂ : Searched pcreFind found₂ log₁ log₂) :
    Searched pcreFind (found₁ ++ found₂) log log₂ := by
  obtain ⟨more₁, hmore₁, hall₁⟩ := h₁.tried
  obtain ⟨more₂, hmore₂, hall₂⟩ := h₂.tried
  refine ⟨⟨more₁ ++ more₂, by rw [hmore₂, hmore₁, List.append_assoc], fun x hx => ?_⟩,
    fun hno => ?_, ?_⟩
  · rcases List.mem_append.1 hx with hx | hx
    · exact List.mem_append_left _ (hall₁ x hx)
    · exact List.mem_append_right _ (hall₂ x hx)
  · obtain ⟨hpkt₁, htried₁⟩ := h₁.miss fun r hr => hno r (List.mem_append_left _ hr)
    obtain ⟨hpkt₂, htried₂⟩ := h₂.miss fun r hr => by
      rw [hpkt₁]
      exact hno r (List.mem_append_right _ hr)
    refine ⟨hpkt₂.trans hpkt₁, fun x hx => ?_⟩
    rcases htried₂ x hx with hx | hx
    · exact htried₁ x hx
    · exact .inr hx
  · rintro ⟨r, hr, hacc⟩
    by_cases hfirst : ∃ r ∈ found₁, ruleAccepts pcreFind r log.pkt = true
    · obtain ⟨r', hr', htried, hacc'⟩ := h₁.hit hfirst
      exact ⟨r', List.mem_append_left _ hr', h₂.keeps pcreFind htried, hacc'⟩
    · -- the first search left the packet alone
      push Not at hfirst
      have hpkt := (h₁.miss fun r hr => by simpa using hfirst r hr).1
      rw [← hpkt] at hacc ⊢
      have hr₂ := (List.mem_append.1 hr).resolve_left fun hr => hfirst r hr (by rwa [← hpkt])
      obtain ⟨r', hr', hrest⟩ := h₂.hit ⟨r, hr₂, hacc⟩
      exact ⟨r', List.mem_append_right _ hr', hrest⟩

/-- One find, which does not end the search if it does not match. -/
theorem Searched.step (hit : Rule × Option ℕ) (log : SearchLog) (v : Method) :
    Searched pcreFind [hit.1] log (((mwmOnMatch pcreFind).visitor v) hit log).2 := by
  rw [visitor_log]
  rcases mwmOnMatch_spec pcreFind hit.1 hit.2 log with ⟨hacc, hcall⟩ | ⟨hacc, hcall⟩
  · rw [hcall]
    exact ⟨⟨_, rfl, by simp⟩, fun hno => by simp [hacc] at hno,
      fun _ => ⟨hit.1, by simp, by simp, hacc⟩⟩
  · rw [hcall]
    refine ⟨⟨_, rfl, by simp⟩, fun _ => ⟨rfl, fun x hx => ?_⟩, fun hyes => by simp [hacc] at hyes⟩
    rcases List.mem_append.1 hx with hx | hx
    · exact .inl hx
    · rw [List.mem_singleton.1 hx]
      exact .inr rfl

/-- Finds behind the end of a search do not matter once one has matched. -/
theorem Searched.of_accepted {found : List Rule} {hit : Rule} {log log' : SearchLog}
    (h : Searched pcreFind [hit] log log') (hacc : ruleAccepts pcreFind hit log.pkt = true) :
    Searched pcreFind (hit :: found) log log' := by
  obtain ⟨more, hmore, hall⟩ := h.tried
  refine ⟨⟨more, hmore, fun x hx => ?_⟩, fun hno => ?_, fun _ => ?_⟩
  · rw [List.mem_singleton.1 (hall x hx)]
    exact List.mem_cons_self
  · rw [hno hit List.mem_cons_self] at hacc
    cases hacc
  · obtain ⟨r, hr, hrest⟩ := h.hit ⟨hit, by simp, hacc⟩
    exact ⟨r, List.mem_singleton.1 hr ▸ List.mem_cons_self, hrest⟩

/-- Visiting the hits tries the rules found. -/
theorem visit_searched (v : Method) (found : List (Rule × Option ℕ)) (log : SearchLog) :
    Searched pcreFind (found.map Prod.fst) log
      (visit ((mwmOnMatch pcreFind).visitor v) found log) := by
  induction found generalizing log with
  | nil => exact Searched.refl pcreFind log
  | cons hit found ih =>
    have hstep := Searched.step pcreFind hit log v
    rw [visit_cons, List.map_cons]
    by_cases hacc : ruleAccepts pcreFind hit.1 log.pkt = true
    · split
      · exact Searched.of_accepted pcreFind hstep hacc
      · exact Searched.trans pcreFind hstep (ih _)
    · rw [visitor_miss pcreFind v (by simpa using hacc)] at hstep ⊢
      exact Searched.trans pcreFind hstep (ih _)

/-! ## The automata of a set -/

/-- The engine tries the rules found. -/
theorem mwmSearch_searched (m : Prepared Rule) (text : List UInt8) (log : SearchLog) :
    Searched pcreFind (rulesFound (some m) text) log
      (mwmSearch m text (mwmOnMatch pcreFind) log) := by
  rw [mwmSearch_eq]
  exact visit_searched pcreFind _ _ log

/-- The automata try what they find, first in the bytes that the patterns are for; where they
    read through a null pointer, there is nothing for them to find. -/
theorem searchMwm_spec (cs : CompiledSet) (pkt : Packet) (log : SearchLog) :
    (∃ log₁ log₂, searchMwm pcreFind cs pkt log = some log₂
      ∧ Searched pcreFind (ownFound cs pkt) log log₁
      ∧ Searched pcreFind (strayFound cs pkt) log₁ log₂) ∨
    (searchMwm pcreFind cs pkt log = none ∧ autoFound cs pkt = []) := by
  unfold searchMwm autoFound ownFound strayFound
  have hrefl := Searched.refl pcreFind
  cases cs.pmwmHost with
  | none =>
    cases cs.pmwm with
    | none => exact .inl ⟨log, log, rfl, hrefl log, hrefl log⟩
    | some m => exact .inl ⟨_, _, rfl, mwmSearch_searched pcreFind m _ log, hrefl _⟩
  | some host =>
    cases npHttpHdr pkt npHttpHost with
    | none =>
      cases cs.pmwm with
      | none => exact .inl ⟨log, log, rfl, hrefl log, hrefl log⟩
      | some m =>
        have hnull : nullSearch m pkt.l7Len log = none ∨ nullSearch m pkt.l7Len log = some log := by
          unfold nullSearch
          cases Method.ofNum m.patArray.length <;> simp only <;> split <;> simp
        rcases hnull with h | h
        · exact .inr ⟨h, rfl⟩
        · exact .inl ⟨log, log, h, hrefl log, hrefl log⟩
    | some range =>
      obtain ⟨data, len⟩ := range
      have hhost := mwmSearch_searched pcreFind host (slice pkt.mem data len) log
      cases cs.pmwm with
      | none => exact .inl ⟨_, _, rfl, hhost, hrefl _⟩
      | some m => exact .inl ⟨_, _, rfl, hhost, mwmSearch_searched pcreFind m _ _⟩

/-! ## The array of a set -/

/-- The loop over the array ends at the first rule that matches. -/
theorem directLoop_spec (rules : List Rule) (log : SearchLog) :
    (∃ r ∈ rules, ruleAccepts pcreFind r log.pkt = true ∧ ∃ log',
      directLoop pcreFind rules log = (some r, log') ∧ (r, true) ∈ log'.tried) ∨
    ((∀ r ∈ rules, ruleAccepts pcreFind r log.pkt = false) ∧
      directLoop pcreFind rules log = (none, ⟨log.pkt, log.tried ++ rules.map fun r => (r, false)⟩)) := by
  induction rules generalizing log with
  | nil => exact .inr ⟨by simp, by simp [directLoop]⟩
  | cons rule rules ih =>
    rw [directLoop]
    by_cases hacc : ruleAccepts pcreFind rule log.pkt = true
    · rw [ruleOneMatch_of_accepts pcreFind hacc]
      exact .inl ⟨rule, List.mem_cons_self, hacc, _, rfl, by simp⟩
    · rw [ruleOneMatch_of_not_accepts pcreFind hacc]
      rcases ih ⟨log.pkt, log.tried ++ [(rule, false)]⟩ with ⟨r, hr, hracc, hrest⟩ | ⟨hno, hrest⟩
      · exact .inl ⟨r, List.mem_cons_of_mem rule hr, hracc, hrest⟩
      · refine .inr ⟨fun r hr => ?_, by simp [hrest]⟩
        rcases List.mem_cons.1 hr with rfl | hr
        · simpa using hacc
        · exact hno r hr

/-- What `rules_set_match` does: it returns the first rule of the array that matches; otherwise
    it tries what the automata find and returns null, if it returns. -/
theorem rulesSetMatch_spec (cs : CompiledSet) (pkt : Packet) :
    (∃ r ∈ cs.rules, ruleAccepts pcreFind r pkt = true ∧ ∃ log,
      rulesSetMatch pcreFind cs pkt = some (some r, log) ∧ (r, true) ∈ log.tried) ∨
    ((∀ r ∈ cs.rules, ruleAccepts pcreFind r pkt = false) ∧
      ((∃ log₁ log₂, rulesSetMatch pcreFind cs pkt = some (none, log₂)
        ∧ Searched pcreFind (ownFound cs pkt) ⟨pkt, cs.rules.map fun r => (r, false)⟩ log₁
        ∧ Searched pcreFind (strayFound cs pkt) log₁ log₂) ∨
      (rulesSetMatch pcreFind cs pkt = none ∧ autoFound cs pkt = []))) := by
  unfold rulesSetMatch
  rcases directLoop_spec pcreFind cs.rules ⟨pkt, []⟩ with ⟨r, hr, hacc, log, hloop, hmem⟩ | ⟨hno, hloop⟩
  · refine .inl ⟨r, hr, hacc, log, ?_, hmem⟩
    rw [hloop]
  · refine .inr ⟨hno, ?_⟩
    rw [hloop]
    simp only [List.nil_append]
    rcases searchMwm_spec pcreFind cs pkt ⟨pkt, cs.rules.map fun r => (r, false)⟩ with
      ⟨log₁, log₂, hsearch, hspec⟩ | ⟨hsearch, hnil⟩
    · exact .inl ⟨log₁, log₂, by rw [hsearch]; rfl, hspec⟩
    · exact .inr ⟨by rw [hsearch]; rfl, hnil⟩

/-! ## A rule with two alternatives -/

/-- "abcd". -/
def abcd : List UInt8 := [97, 98, 99, 100]

/-- A base rule for TCP with two alternatives: "abcd" anywhere, which goes to an automaton, or
    "xy" at the start, which does not. -/
def mixedRule : Rule where
  id := 1
  priority := 1
  isBase := true
  l4 := some ⟨[], [], 6⟩
  l7 := some ⟨.any, .none, .or, [⟨0, ⟨.offset, 0, 0, []⟩, ⟨.search, 0, 0, abcd⟩⟩,
    ⟨0, ⟨.offset, 0, 0, []⟩, ⟨.offset, 0, 0, [120, 121]⟩⟩]⟩
  http := none
  protoCb := id

/-- The compiled set of this rule. -/
def mixedSet : CompiledSet where
  rules := []
  pmwm := some ⟨[⟨abcd, 0, 32767, mixedRule, by decide⟩], by simp⟩
  pmwmHost := none

/-- A TCP packet to a server with some payload. -/
def packetOf (payload : List UInt8) : Packet where
  mem i := payload.getD i.toNat 0
  l7Ptr := 0
  l7Len := payload.length
  dir := .c2s
  l4Proto := ipprotoTcp
  saddr := 0
  daddr := 0
  source := 0
  dest := 0
  duType := .other
  headersRange _ := (0, 0)

/-- The set of the sample is compiled. -/
theorem mixedSet_compiled : SetCompiled (setAddRule ⟨[], none, none⟩ mixedRule) mixedSet where
  rules := rfl
  pmwm := ⟨List.Perm.refl _, fun _ => rfl⟩
  pmwmHost := rfl

/-- No regular expression matches. -/
def noPcre : List UInt8 → (ℤ → UInt8) → ℤ → ℤ → Option ℕ := fun _ _ _ _ => none

/-! ## Reporting -/

/-- If a rule was answered with yes, the call returns a rule that matches the packet, and it
    returns null only if none was. -/
def Reports (cs : CompiledSet) (pkt : Packet) : Prop :=
  ∀ res log, rulesSetMatch pcreFind cs pkt = some (res, log) →
    (log.HasAccepted → ∃ r, res = some r ∧ ruleAccepts pcreFind r pkt = true)
      ∧ (res = none → ¬ log.HasAccepted)

/-- The call reports what it finds exactly when the rule that matches stands in the array, or
    the automata find none that matches: the result of their callback is lost. -/
theorem reports_iff (cs : CompiledSet) (pkt : Packet) :
    Reports pcreFind cs pkt ↔ (∃ r ∈ cs.rules, ruleAccepts pcreFind r pkt = true)
      ∨ ∀ r ∈ autoFound cs pkt, ruleAccepts pcreFind r pkt = false := by
  unfold Reports
  rcases rulesSetMatch_spec pcreFind cs pkt with ⟨r, hr, hacc, log, hset, hmem⟩ |
    ⟨hno, ⟨log₁, log, hset, hown, hstray⟩ | ⟨hset, hnil⟩⟩
  · refine iff_of_true (fun res log' h => ?_) (.inl ⟨r, hr, hacc⟩)
    rw [hset] at h
    cases h
    exact ⟨fun _ => ⟨r, rfl, hacc⟩, fun h => by cases h⟩
  · have hdirect : ¬ ∃ r ∈ cs.rules, ruleAccepts pcreFind r pkt = true := by
      rintro ⟨r, hr, hacc⟩
      rw [hno r hr] at hacc
      cases hacc
    have hspec := hown.trans pcreFind hstray
    rw [or_iff_right hdirect]
    constructor
    · intro h r hr
      by_contra hacc
      obtain ⟨r', -, hmem, -⟩ := hspec.hit ⟨r, hr, by simpa using hacc⟩
      exact (h none log hset).2 rfl ⟨r', hmem⟩
    · intro h res log' hres
      rw [hset] at hres
      cases hres
      have hnone : ¬ log.HasAccepted := by
        rintro ⟨r, hr⟩
        rcases (hspec.miss h).2 _ hr with hr | hr
        · obtain ⟨r', -, heq⟩ := List.mem_map.1 hr
          cases heq
        · cases hr
      exact ⟨fun hacc => absurd hacc hnone, fun _ => hnone⟩
  · refine iff_of_true (fun res log h => ?_) (.inr fun r hr => by simp [hnil] at hr)
    rw [hset] at h
    cases h

/-- A rule that an automaton has found is lost. -/
theorem automaton_match_lost : SetCompiled (setAddRule ⟨[], none, none⟩ mixedRule) mixedSet
    ∧ ¬ Reports noPcre mixedSet (packetOf abcd) := by
  refine ⟨mixedSet_compiled, fun h => ?_⟩
  have hrun : rulesSetMatch noPcre mixedSet (packetOf abcd) =
    some (none, ⟨packetOf abcd, [(mixedRule, true)]⟩) := rfl
  exact (h none _ hrun).2 rfl ⟨mixedRule, List.mem_cons_self⟩

/-! ## Reaching -/

/-- `RS_BASE` after `rules_build`. -/
def BaseCompiled (reg : Registry) (base : FlowDir → BaseSet → Option CompiledSet) : Prop :=
  ∀ dir proto, match reg.base dir proto, base dir proto with
    | some set, some cs => SetCompiled set cs
    | none, none => True
    | _, _ => False

/-- The search of `nproto_rules_match` in a flow without a protocol; `none` also for the
    `BUG_ON` where there is no base set. -/
def baseSearch (base : FlowDir → BaseSet → Option CompiledSet) (pkt : Packet) :
    Option (Option Rule × SearchLog) :=
  (base pkt.dir (npProtoToSet pkt.l4Proto)).bind fun cs => rulesSetMatch pcreFind cs pkt

/-- One of the registered base rules matches the packet. -/
def SomeMatch (reg : Registry) (pkt : Packet) : Prop :=
  ∃ r ∈ reg.all, r.isBase = true ∧ ruleAccepts pcreFind r pkt = true

/-- A rule is in sight of the search of a set: it stands in the array, or an automaton sees one
    of its patterns in the bytes that the pattern is for. -/
def InSight (cs : CompiledSet) (pkt : Packet) (r : Rule) : Prop :=
  r ∈ cs.rules ∨
    match cs.pmwmHost with
    | none => ∃ m, cs.pmwm = some m ∧ m.Sees (slice pkt.mem pkt.l7Ptr pkt.l7Len) r
    | some host => ∃ data len, npHttpHdr pkt npHttpHost = some (data, len)
        ∧ host.Sees (slice pkt.mem data len) r

/-- If one of the base rules matches the packet, the search tries one that does, and that it
    has in sight in the base set for the packet's direction and protocol. -/
def ReachesMatch (reg : Registry) (base : FlowDir → BaseSet → Option CompiledSet) (pkt : Packet) :
    Prop :=
  SomeMatch pcreFind reg pkt →
    ∃ cs res log, base pkt.dir (npProtoToSet pkt.l4Proto) = some cs
      ∧ baseSearch pcreFind base pkt = some (res, log)
      ∧ ∃ r b, (r, b) ∈ log.tried ∧ ruleAccepts pcreFind r pkt = true ∧ InSight cs pkt r

/-- The rules a set brings into sight. -/
theorem inSight_iff {cs : CompiledSet} {pkt : Packet} {r : Rule} :
    InSight cs pkt r ↔ r ∈ cs.rules ∨ r ∈ ownFound cs pkt := by
  unfold InSight ownFound
  cases cs.pmwmHost with
  | none => rw [mem_rulesFound]
  | some host =>
    cases npHttpHdr pkt npHttpHost with
    | none => simp
    | some range =>
      obtain ⟨data, len⟩ := range
      simp [mem_rulesFound]

/-- The search of a set tries a rule that matches and is in sight when there is one. -/
theorem rulesSetMatch_tries {cs : CompiledSet} {pkt : Packet} {r : Rule}
    (hacc : ruleAccepts pcreFind r pkt = true) (hsight : InSight cs pkt r) :
    ∃ res log, rulesSetMatch pcreFind cs pkt = some (res, log) ∧ ∃ r b, (r, b) ∈ log.tried
      ∧ ruleAccepts pcreFind r pkt = true ∧ InSight cs pkt r := by
  rw [inSight_iff] at hsight
  rcases rulesSetMatch_spec pcreFind cs pkt with ⟨r', hr', hacc', log, hset, hmem⟩ |
    ⟨hno, ⟨log₁, log₂, hset, hown, hstray⟩ | ⟨hset, hnil⟩⟩
  · exact ⟨_, log, hset, r', true, hmem, hacc', .inl hr'⟩
  · have hr : r ∈ ownFound cs pkt := by
      refine hsight.resolve_left fun hr => ?_
      rw [hno r hr] at hacc
      cases hacc
    obtain ⟨r', hr', hmem, hacc'⟩ := hown.hit ⟨r, hr, hacc⟩
    exact ⟨_, log₂, hset, r', true, hstray.keeps pcreFind hmem, hacc', inSight_iff.2 (.inr hr')⟩
  · -- there is nothing to find where it reads through a null pointer
    rcases hsight with hr | hr
    · rw [hno r hr] at hacc
      cases hacc
    · rw [autoFound, List.append_eq_nil_iff] at hnil
      rw [hnil.1] at hr
      cases hr

/-- A pattern of a compiled automaton was added to it. -/
theorem MwmCompiled.mem {plist : Option (List (Patt Rule))} {m : Prepared Rule}
    (h : MwmCompiled plist (some m)) {p : Patt Rule} (hp : p ∈ m.patArray) :
    p ∈ plist.getD [] := by
  match plist, h with
  | some (q :: plist), h => exact h.perm.mem_iff.1 hp

/-- What a compiled set has in sight is a rule of its array or the owner of one of its
    patterns. -/
theorem InSight.held {set : RuleSet} {cs : CompiledSet} (hcs : SetCompiled set cs) {pkt : Packet}
    {r : Rule} (h : InSight cs pkt r) :
    r ∈ set.rules ∨ ∃ host, ∃ p ∈ set.patts host, p.psData = r := by
  have hmwm := hcs.pmwm
  have hmwmHost := hcs.pmwmHost
  unfold InSight at h
  rcases h with h | h
  · rw [hcs.rules] at h
    exact .inl h
  · right
    cases hhost : cs.pmwmHost with
    | none =>
      rw [hhost] at h
      obtain ⟨m, hm, p, hp, hdata, -⟩ := h
      rw [hm] at hmwm
      exact ⟨false, p, hmwm.mem hp, hdata⟩
    | some host =>
      rw [hhost] at h hmwmHost
      obtain ⟨-, -, -, p, hp, hdata, -⟩ := h
      exact ⟨true, p, hmwmHost.mem hp, hdata⟩

/-- A base set of the registry is compiled. -/
theorem BaseCompiled.of_reg {reg : Registry} {base : FlowDir → BaseSet → Option CompiledSet}
    (h : BaseCompiled reg base) {dir : FlowDir} {proto : BaseSet} {set : RuleSet}
    (hset : reg.base dir proto = some set) :
    ∃ cs, base dir proto = some cs ∧ SetCompiled set cs := by
  have hboth := h dir proto
  rw [hset] at hboth
  cases hcs : base dir proto with
  | none => simp [hcs] at hboth
  | some cs =>
    rw [hcs] at hboth
    exact ⟨cs, rfl, hboth⟩

/-- A compiled base set is one of the registry. -/
theorem BaseCompiled.of_base {reg : Registry} {base : FlowDir → BaseSet → Option CompiledSet}
    (h : BaseCompiled reg base) {dir : FlowDir} {proto : BaseSet} {cs : CompiledSet}
    (hcs : base dir proto = some cs) :
    ∃ set, reg.base dir proto = some set ∧ SetCompiled set cs := by
  have hboth := h dir proto
  rw [hcs] at hboth
  cases hset : reg.base dir proto with
  | none => simp [hset] at hboth
  | some set =>
    rw [hset] at hboth
    exact ⟨set, rfl, hboth⟩

/-- A rule that matches is tried exactly when one that matches belongs to the base set for the
    packet's protocol and direction, and is either not for an automaton or in sight there. -/
theorem reachesMatch_iff (rules : List Rule) (base : FlowDir → BaseSet → Option CompiledSet)
    (hbase : BaseCompiled (registerAll rules) base) (pkt : Packet) :
    ReachesMatch pcreFind (registerAll rules) base pkt ↔
      (SomeMatch pcreFind (registerAll rules) pkt → ∃ r ∈ (registerAll rules).all,
        r.isBase = true ∧ ruleAccepts pcreFind r pkt = true
          ∧ r.baseProto = npProtoToSet pkt.l4Proto ∧ r.Serves pkt.dir
          ∧ (r.GoesToArray ∨ ∃ cs, base pkt.dir (npProtoToSet pkt.l4Proto) = some cs
            ∧ InSight cs pkt r)) := by
  have hkept := registerAll_wellKept rules
  unfold ReachesMatch
  refine imp_congr_right fun _ => ?_
  constructor
  · rintro ⟨cs, res, log, hcs, -, r, -, -, hacc, hsight⟩
    obtain ⟨set, hreg, hset⟩ := hbase.of_base hcs
    obtain ⟨hr, hisBase, hproto, hserves⟩ := hkept.sound _ _ set hreg r (hsight.held hset)
    exact ⟨r, hr, hisBase, hacc, hproto, hserves, .inr ⟨cs, hcs, hsight⟩⟩
  · rintro ⟨r, hr, hisBase, hacc, hproto, hserves, hplace⟩
    have hsight : ∃ cs, base pkt.dir (npProtoToSet pkt.l4Proto) = some cs ∧ InSight cs pkt r := by
      refine hplace.elim (fun harr => ?_) id
      obtain ⟨set, hreg, hmem⟩ := hkept.complete r hr hisBase harr pkt.dir hserves
      rw [hproto] at hreg
      obtain ⟨cs, hcs, hset⟩ := hbase.of_reg hreg
      exact ⟨cs, hcs, .inl (by rwa [hset.rules])⟩
    obtain ⟨cs, hcs, hsight⟩ := hsight
    obtain ⟨res, log, hres, htried⟩ := rulesSetMatch_tries pcreFind hacc hsight
    refine ⟨cs, res, log, hcs, ?_, htried⟩
    rw [baseSearch, hcs]
    exact hres

/-- The compiled base sets with this rule alone. -/
def mixedBase : FlowDir → BaseSet → Option CompiledSet
  | .c2s, .tcp | .s2c, .tcp => some mixedSet
  | _, _ => none

/-- The base sets of the sample are compiled. -/
theorem mixedBase_compiled : BaseCompiled (registerAll [mixedRule]) mixedBase := by
  intro dir proto
  cases dir <;> cases proto <;> first | exact trivial | exact mixedSet_compiled

/-- The rule of the sample is reached. -/
theorem reachesMatch_mixedRule : SomeMatch noPcre (registerAll [mixedRule]) (packetOf abcd)
    ∧ ReachesMatch noPcre (registerAll [mixedRule]) mixedBase (packetOf abcd) := by
  have hacc : ruleAccepts noPcre mixedRule (packetOf abcd) = true := rfl
  refine ⟨⟨mixedRule, List.mem_cons_self, rfl, hacc⟩, (reachesMatch_iff noPcre [mixedRule]
    mixedBase mixedBase_compiled _).2 fun _ => ⟨mixedRule, List.mem_cons_self, rfl, hacc, rfl,
      ⟨by decide, .inl rfl⟩, .inr ⟨mixedSet, rfl, .inr ⟨_, rfl, _, List.mem_cons_self, rfl, ?_⟩⟩⟩⟩
  exact ⟨0, rfl, by decide, by decide⟩

/-- The alternative that is in no automaton is not reached. -/
theorem alternative_not_reached : BaseCompiled (registerAll [mixedRule]) mixedBase
    ∧ ¬ ReachesMatch noPcre (registerAll [mixedRule]) mixedBase (packetOf [120, 121]) := by
  refine ⟨mixedBase_compiled, fun h => ?_⟩
  have hrun : baseSearch noPcre mixedBase (packetOf [120, 121]) =
    some (none, ⟨packetOf [120, 121], []⟩) := rfl
  obtain ⟨cs, res, log, -, hres, r, b, hmem, -⟩ := h ⟨mixedRule, List.mem_cons_self, rfl, rfl⟩
  rw [hrun] at hres
  cases hres
  cases hmem

end Pcre

end NpRules
