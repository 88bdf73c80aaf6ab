/-
# The order of the commits of `check_config_update`

A run that waits in the translation of its rules goes on with the rules it has loaded, also
when another run has loaded newer ones and committed them meanwhile.  Where no run is
overtaken like that, the configuration that all the runs leave behind is the one loaded
last; the last theorem has a run that is overtaken.
-/
import OpenwrtAc.AcRuns

namespace AcConfig

open LuaTable

variable {J : Type} (L : Lib J)

/-! ## Runs that are not overtaken -/

/-- A run goes on with a translation only if no newer load has been translated. -/
def NotOvertaken (s : State J) (e : Event) : Prop :=
  ∀ i rows n t, e = .answered i rows → s.runs i = some (.translating n t) → s.last < n

/-- The configuration remembered is the one loaded last, and it is what the commands of the
commits set up. -/
structure Latest (s : State J) (raw : RawConfig J) : Prop where
  rule : ∃ cfg, s.curRule = some cfg ∧ Translated L raw.rule cfg ∧
    HoldsRule (issued s.log) cfg
  set : ∀ sets, translateSet L raw.set = some (.ok sets) →
    ∃ cur, s.curSet = some cur ∧ (∀ cate, (cur cate).Perm (sets cate)) ∧
      HoldsSet L (issued s.log) cur

/-- Runs that are not overtaken: the newest load is translated or a run is at it, from its
own rules. -/
structure OrderInv (s : State J) : Prop where
  last_le : s.last ≤ s.loads
  number_le : ∀ i n t, s.runs i = some (.translating n t) → n ≤ s.loads
  newest : ∀ i t raw, s.runs i = some (.translating s.loads t) → s.allRaw = some raw →
    Turns L raw.rule (.asks t)
  pending : s.last = s.loads ∨ ∃ i t, s.runs i = some (.translating s.loads t)
  rule : s.last = s.loads → ∀ raw, s.allRaw = some raw →
    ∃ cfg, s.curRule = some cfg ∧ Translated L raw.rule cfg
  set : s.last = s.loads → ∀ raw sets, s.allRaw = some raw →
    translateSet L raw.set = some (.ok sets) →
      ∃ cur, s.curSet = some cur ∧ ∀ cate e, e ∈ cur cate ↔ e ∈ sets cate

variable {L} {K : Kinds}

/-- The order at the start. -/
theorem OrderInv.init : OrderInv L (State.init J) where
  last_le := Nat.le_refl _
  number_le := by rintro _ _ _ ⟨⟩
  newest := by rintro _ _ _ ⟨⟩
  pending := .inl rfl
  rule := by rintro - _ ⟨⟩
  set := by rintro - _ _ ⟨⟩

/-- A run that starts or gives up was at no translation. -/
theorem OrderInv.idle {s : State J} (hi : OrderInv L s) {i : ℕ} {p : Option (Phase J)}
    (hp : ∀ n t, p ≠ some (.translating n t)) (hr : ∀ n t, s.runs i ≠ some (.translating n t)) :
    OrderInv L { s with runs := Function.update s.runs i p } := by
  have hof {j m : ℕ} {t : Trans J}
      (hj : Function.update s.runs i p j = some (.translating m t)) :
      s.runs j = some (.translating m t) := by
    by_cases hji : j = i
    · subst hji
      exact absurd (by simpa using hj) (hp m t)
    · rwa [Function.update_of_ne hji] at hj
  refine ⟨hi.last_le, fun j m t hj => hi.number_le j m t (hof hj),
    fun j t raw hj => hi.newest j t raw (hof hj), ?_, hi.rule, hi.set⟩
  obtain hl | ⟨j, t, hj⟩ := hi.pending
  · exact .inl hl
  · refine .inr ⟨j, t, ?_⟩
    rw [← hj]
    refine Function.update_of_ne (fun hji => ?_) _ _
    exact hr _ t (hji ▸ hj)

variable [DecidableEq J] {ok : ℕ → Bool}

/-- The step of a run that is at the load number `n`, newer than what has been translated:
the others are as the invariant says, and the newest load is this run's or one of theirs. -/
theorem OrderInv.turn (hL : L.Lawful) {i n : ℕ} {s s' : State J} {u : Turn J}
    (hs : CommitInv L K s) (h : turn L ok i n s u = some s')
    (hlast : s.last < n) (hn : n ≤ s.loads)
    (hother : ∀ j m t, j ≠ i → s.runs j = some (.translating m t) → m ≤ s.loads)
    (hturns : n = s.loads → ∀ raw, s.allRaw = some raw → Turns L raw.rule u)
    (hnewest : ∀ j t raw, j ≠ i → s.runs j = some (.translating s.loads t) →
      s.allRaw = some raw → Turns L raw.rule (.asks t))
    (hpending : n = s.loads ∨ ∃ j t, j ≠ i ∧ s.runs j = some (.translating s.loads t)) :
    OrderInv L s' := by
  have hof {p : Option (Phase J)} {j m : ℕ} {t : Trans J}
      (hj : Function.update s.runs i p j = some (.translating m t)) :
      j = i ∧ p = some (.translating m t) ∨ j ≠ i ∧ s.runs j = some (.translating m t) := by
    by_cases hji : j = i
    · subst hji
      exact .inl ⟨rfl, by simpa using hj⟩
    · exact .inr ⟨hji, by rwa [Function.update_of_ne hji] at hj⟩
  obtain ⟨t, rfl, rfl⟩ | ⟨cfg, rfl, h⟩ := turn_cases h
  · refine ⟨by simp only; omega, ?_, ?_, ?_, ?_, ?_⟩
    · intro j m t' hj
      obtain ⟨-, he⟩ | ⟨hji, hj⟩ := hof hj
      · cases he
        exact hn
      · exact hother j m t' hji hj
    · intro j t' raw hj hraw
      obtain ⟨-, he⟩ | ⟨hji, hj⟩ := hof hj
      · obtain ⟨hns, rfl⟩ : n = s.loads ∧ t = t' := by simpa using he
        exact hturns hns raw hraw
      · exact hnewest j t' raw hji hj hraw
    · obtain hn | ⟨j, t', hji, hj⟩ := hpending
      · exact .inr ⟨i, t, by simp [hn]⟩
      · exact .inr ⟨j, t', by rw [← hj]; exact Function.update_of_ne hji _ _⟩
    · intro he
      simp only at he
      omega
    · intro he
      simp only at he
      omega
  · -- the run is done with its rules, and is the last to be so
    obtain ⟨hraw₁, -, hruns₁, hloads₁, hlast₁⟩ := @checkRule_frame J _ ok
      { s with runs := Function.update s.runs i none, last := n } cfg
    obtain ⟨hraw₂, hcur₂, hruns₂, hloads₂, hlast₂⟩ := checkSet_frame h
    rw [checkRule_curRule] at hcur₂
    rw [hraw₁] at hraw₂
    rw [hruns₁] at hruns₂
    rw [hloads₁] at hloads₂
    rw [hlast₁] at hlast₂
    simp only at hraw₂ hruns₂ hloads₂ hlast₂
    have hs' : CommitInv L K { s with runs := Function.update s.runs i none, last := n } :=
      ⟨hs.rule, hs.set, hs.raw⟩
    refine ⟨by omega, ?_, ?_, ?_, ?_, ?_⟩
    · intro j m t' hj
      rw [hruns₂] at hj
      obtain ⟨-, ⟨⟩⟩ | ⟨hji, hj⟩ := hof hj
      exact hloads₂ ▸ hother j m t' hji hj
    · intro j t' raw hj hraw
      rw [hruns₂, hloads₂] at hj
      rw [hraw₂] at hraw
      obtain ⟨-, ⟨⟩⟩ | ⟨hji, hj⟩ := hof hj
      exact hnewest j t' raw hji hj hraw
    · obtain hn | ⟨j, t', hji, hj⟩ := hpending
      · exact .inl (by omega)
      · refine .inr ⟨j, t', ?_⟩
        rw [hruns₂, hloads₂, ← hj]
        exact Function.update_of_ne hji _ _
    · intro he raw hraw
      exact ⟨cfg, hcur₂, hturns (by omega) raw (hraw₂ ▸ hraw)⟩
    · intro he raw sets hraw hsets
      refine (hs'.checkRule cfg).curSet hL h ?_ hsets
      rw [hraw₁, ← hraw₂]
      exact hraw

/-- Every event keeps the order, where no run is overtaken. -/
theorem OrderInv.step (hL : L.Lawful) {s s' : State J} {e : Event} (hi : OrderInv L s)
    (hs : CommitInv L K s) (h : step L ok s e = some s') (hfit : LoadsFit L K e)
    (he : NotOvertaken s e) : OrderInv L s' := by
  obtain ⟨i, -, hr, rfl⟩ | ⟨i, answers, tm, -, hr, rfl⟩ |
    ⟨i, answers, tm, raw, rfl, hload, hr, h⟩ | ⟨i, rows, n, t, rfl, hr, h⟩ := step_cases h
  · exact hi.idle (by simp) (by simp [hr])
  · exact hi.idle (by simp) (by simp [hr])
  · -- the new load is newer than everything that the others are at
    have hs' : CommitInv L K { s with allRaw := some raw, loads := s.loads + 1 } := by
      refine ⟨hs.rule, hs.set, ?_⟩
      rintro _ ⟨⟩
      exact ⟨hfit i answers tm raw rfl hload, loadConfig_set_ne_nil L hload⟩
    refine OrderInv.turn hL hs' h (Nat.lt_succ_of_le hi.last_le) (Nat.le_refl _) ?_ ?_ ?_
      (.inl rfl)
    · exact fun j m t _ hj => Nat.le_succ_of_le (hi.number_le j m t hj)
    · rintro - _ ⟨⟩
      exact .start tm
    · intro j t _ _ hj
      exact absurd (hi.number_le j _ t hj) (Nat.not_succ_le_self _)
  · refine OrderInv.turn hL hs h (he i rows n t rfl hr) (hi.number_le i n t hr) ?_ ?_ ?_ ?_
    · exact fun j m t _ hj => hi.number_le j m t hj
    · rintro rfl raw hraw
      exact .answer (hi.newest i t raw hr hraw) rows
    · exact fun j t raw _ hj hraw => hi.newest j t raw hj hraw
    · obtain hl | ⟨j, t', hj⟩ := hi.pending
      · have hn := hi.number_le i n t hr
        have hlt := he i rows n t rfl hr
        omega
      · by_cases hji : j = i
        · subst hji
          rw [hr] at hj
          cases hj
          exact .inl rfl
        · exact .inr ⟨j, t', hji, hj⟩

/-- The texts of the days and the times of a time group for all Thursdays. -/
def sampleDays : String := "\x7b\"thur\":1\x7d"

def sampleTime : String :=
  "\x7b\"hour_start\":0,\"min_start\":0,\"hour_end\":23,\"min_end\":59\x7d"

def sampleTmlist : String := "[" ++ sampleTime ++ "]"

/-- The calls as they are for a few texts, which stand for their values, and at the time
zero, which is on a Thursday. -/
def sampleLib : Lib String where
  decode s := if s ∈ ["[]", "[1]", "[\"0a\"]", sampleDays, sampleTmlist] then some s else none
  empty := "\x7b\x7d"
  isFalse _ := false
  items v :=
    if v = "[1]" then some ["1"]
    else if v = "[\"0a\"]" then some ["0a"]
    else if v = sampleTmlist then some [sampleTime]
    else if v ∈ ["[]", "\x7b\x7d", sampleDays, sampleTime] then some []
    else none
  field v k :=
    if v = sampleDays ∧ k = "thur" then some "1"
    else if v = sampleTime ∧ k = "hour_end" then some "23"
    else if v = sampleTime ∧ k = "min_end" then some "59"
    else if v = sampleTime ∧ (k = "hour_start" ∨ k = "min_start") then some "0"
    else none
  isOne v := v = "1"
  text v := some v
  hex s := if s = "0a" then some 10 else none
  dayKey _ := "thur"
  timeOf _ hour _ := if hour = some "23" then 23 * 3600 + 59 * 60 else 0
  ipRanges v := some v
  unique v := v
  pairs t := t

/-- The rows of `acset` that the database starts with. -/
def sampleSets : ConfigCate → List SetRow
  | .control => [
      ⟨"access_white_mac", "mac", some "[]", "bypass", 1⟩,
      ⟨"access_black_mac", "mac", some "[]", "check", 1⟩,
      ⟨"access_white_ip", "ip", some "[]", "bypass", 1⟩,
      ⟨"access_black_ip", "ip", some "[]", "check", 1⟩]
  | .audit => [
      ⟨"audit_white_mac", "mac", some "[]", "bypass", 0⟩,
      ⟨"audit_white_ip", "ip", some "[]", "bypass", 0⟩]

/-- A rule for the protocol `0a`. -/
def sampleRule : AcruleRow where
  ruleid := 1
  srcZids := some "[]"
  srcIpgids := some "[]"
  destZids := some "[]"
  destIpgids := some "[]"
  protoIds := some "[\"0a\"]"
  tmgrpIds := some "[1]"
  actions := "[]"

/-- What a load is answered when these are the rules of the category `Control`. -/
def sampleAnswers (rules : List AcruleRow) : Answers where
  acrule := fun | .control => some rules | .audit => some []
  timegroup _ _ := some [(sampleDays, sampleTmlist)]
  acset cate := some (sampleSets cate)

def steps (L : Lib J) (ok : ℕ → Bool) (s : State J) (es : List Event) : Option (State J) :=
  es.foldlM (step L ok) s

/-- The run 0 loads the rule; while it waits for its protocols, the rule is deleted, and the
run 1 loads and commits that there is none. -/
def overtaken : List Event := [
  .start 0, .loaded 0 (sampleAnswers [sampleRule]) 0,
  .start 1, .loaded 1 (sampleAnswers []) 0,
  .answered 0 (some [⟨"0a", "leaf"⟩])]

/-- The sample's library is lawful. -/
theorem sampleLib_lawful : sampleLib.Lawful := fun t => List.Perm.refl t

/-- The key of a set among the rows, by its name. -/
def kindOf (rows : List SetRow) (name : String) : Option MapKey :=
  (get (rows.map fun row => (row.setname, row.mapKey)) name).join

theorem kindOf_eq_some {rows : List SetRow} (hnd : (rows.map SetRow.setname).Nodup)
    {name : String} {key : MapKey} :
    kindOf rows name = some key ↔ ∃ row ∈ rows, row.setname = name ∧ row.mapKey = some key := by
  have hkeys : ((rows.map fun row => (row.setname, row.mapKey)).map Prod.fst).Nodup := by
    rwa [List.map_map]
  rw [kindOf, Option.join_eq_some_iff]
  constructor
  · intro h
    obtain ⟨row, hrow, he⟩ := List.mem_map.1 (mem_of_get h)
    exact ⟨row, hrow, congrArg Prod.fst he, congrArg Prod.snd he⟩
  · rintro ⟨row, hrow, rfl, hkey⟩
    rw [← hkey]
    exact get_of_mem hkeys (List.mem_map.2 ⟨row, hrow, rfl⟩)

theorem nodup_sampleSets (cate : ConfigCate) :
    ((sampleSets cate).map SetRow.setname).Nodup := by
  cases cate <;> decide

def sampleKinds : Kinds where
  of cate := kindOf (sampleSets cate)
  inj := by
    intro cate n n' key h h'
    obtain ⟨row, hrow, rfl, hk⟩ := (kindOf_eq_some (nodup_sampleSets cate)).1 h
    obtain ⟨row', hrow', rfl, hk'⟩ := (kindOf_eq_some (nodup_sampleSets cate)).1 h'
    have hone : ∀ r ∈ sampleSets cate, ∀ r' ∈ sampleSets cate, r.mapKey = r'.mapKey →
        r.setname = r'.setname := by cases cate <;> decide
    exact hone row hrow row' hrow' (hk.trans hk'.symm)
  apart := by
    intro n key h
    obtain ⟨row, hrow, rfl, -⟩ := (kindOf_eq_some (nodup_sampleSets .control)).1 h
    have hnone : ∀ r ∈ sampleSets .control, kindOf (sampleSets .audit) r.setname = none := by
      decide
    exact hnone row hrow

theorem loadsFit_sample (i : ℕ) (rules : List AcruleRow) (tm : ℤ) :
    LoadsFit sampleLib sampleKinds (.loaded i (sampleAnswers rules) tm) := by
  rintro _ _ _ raw ⟨⟩ hload cate name key
  have hset : raw.set cate = sampleSets cate := by
    simp only [loadConfig, Option.bind_eq_bind, Option.pure_def, Option.bind_eq_some_iff] at hload
    obtain ⟨_, -, _, -, _, -, _, -, control, hc, audit, ha, h⟩ := hload
    cases h
    cases cate with
    | control => exact (Option.some.inj hc).symm
    | audit => exact (Option.some.inj ha).symm
  rw [hset]
  exact (kindOf_eq_some (nodup_sampleSets cate)).symm

/-- The run that an event is about. -/
def Event.run : Event → ℕ
  | .start i | .loaded i _ _ | .answered i _ => i

/-- A turn of one run leaves the others. -/
theorem turn_runs {L : Lib J} {i n j : ℕ} {s s' : State J} {u : Turn J}
    (h : turn L ok i n s u = some s') (hj : j ≠ i) : s'.runs j = s.runs j := by
  obtain ⟨t, -, rfl⟩ | ⟨cfg, -, h⟩ := turn_cases h
  · exact Function.update_of_ne hj _ _
  · rw [(checkSet_frame h).2.2.1, (checkRule_frame _ cfg).2.2.1]
    exact Function.update_of_ne hj _ _

/-- An event of one run leaves the others. -/
theorem step_runs {L : Lib J} {s s' : State J} {e : Event} {j : ℕ}
    (h : step L ok s e = some s') (hj : j ≠ e.run) : s'.runs j = s.runs j := by
  obtain ⟨i, rfl, -, rfl⟩ | ⟨i, answers, tm, rfl, -, rfl⟩ |
    ⟨i, answers, tm, raw, rfl, -, -, h⟩ | ⟨i, rows, n, t, rfl, -, h⟩ := step_cases h
  · exact Function.update_of_ne hj _ _
  · exact Function.update_of_ne hj _ _
  · have hr := turn_runs h hj
    exact hr
  · exact turn_runs h hj

/-- The state after the first of some events. -/
theorem steps_cons {L : Lib J} {s s' : State J} {e : Event} {es : List Event}
    (h : steps L ok s (e :: es) = some s') :
    ∃ s₁, step L ok s e = some s₁ ∧ steps L ok s₁ es = some s' := by
  rwa [steps, List.foldlM_cons, Option.bind_eq_bind, Option.bind_eq_some_iff] at h

/-- Events of other runs leave this one. -/
theorem steps_runs {L : Lib J} {s s' : State J} {es : List Event} {j : ℕ}
    (h : steps L ok s es = some s') (hj : ∀ e ∈ es, j ≠ e.run) : s'.runs j = s.runs j := by
  induction es generalizing s with
  | nil =>
    cases h
    rfl
  | cons e es ih =>
    obtain ⟨s₁, he, h⟩ := steps_cons h
    rw [ih h fun e he => hj e (List.mem_cons_of_mem _ he),
      step_runs he (hj e List.mem_cons_self)]

/-- Runs by their events, where these are all right. -/
theorem Reached.steps {L : Lib J} {Good : State J → Event → State J → Prop}
    {s s' : State J} {es : List Event} (h : Reached L ok Good s)
    (hs : steps L ok s es = some s') (hg : ∀ e ∈ es, ∀ s₁ s₂, Good s₁ e s₂) :
    Reached L ok Good s' := by
  induction es generalizing s with
  | nil =>
    cases hs
    exact h
  | cons e es ih =>
    obtain ⟨s₁, he, hs⟩ := steps_cons hs
    exact ih (h.step he (hg e List.mem_cons_self s s₁)) hs fun e' he' =>
      hg e' (List.mem_cons_of_mem _ he')

/-- Runs by their events, each step of which passes a test. -/
def tested (L : Lib J) (ok : ℕ → Bool) (test : State J → Event → State J → Bool)
    (s : State J) (es : List Event) : Option (State J) :=
  es.foldlM (fun s e => (step L ok s e).filter (test s e)) s

/-- The test stands for the condition, where the events fit. -/
theorem Reached.tested {L : Lib J} {Good : State J → Event → State J → Prop}
    {test : State J → Event → State J → Bool} {s s' : State J} {es : List Event}
    (h : Reached L ok Good s) (hs : tested L ok test s es = some s')
    (hg : ∀ e ∈ es, ∀ s₁ s₂, test s₁ e s₂ = true → Good s₁ e s₂) :
    Reached L ok Good s' ∧ AcConfig.steps L ok s es = some s' := by
  induction es generalizing s with
  | nil =>
    cases hs
    exact ⟨h, rfl⟩
  | cons e es ih =>
    rw [AcConfig.tested, List.foldlM_cons, Option.bind_eq_bind, Option.bind_eq_some_iff] at hs
    obtain ⟨s₁, he, hs⟩ := hs
    obtain ⟨he, ht⟩ := Option.filter_eq_some_iff.1 he
    obtain ⟨hr, hsteps⟩ := ih (h.step he (hg e List.mem_cons_self s s₁ ht)) hs
      fun e' he' => hg e' (List.mem_cons_of_mem _ he')
    refine ⟨hr, ?_⟩
    rw [AcConfig.steps, List.foldlM_cons, he]
    exact hsteps

/-- Whether the load of the run that is answered is newer than the last one translated. -/
def inTurn (s : State J) : Event → Bool
  | .answered i _ =>
    match s.runs i with
    | some (.translating n _) => s.last < n
    | _ => true
  | _ => true

omit [DecidableEq J] in
/-- The test on an event is the condition on it. -/
theorem notOvertaken_of_inTurn {s : State J} {e : Event} (h : inTurn s e = true) :
    NotOvertaken s e := by
  rintro i rows n t rfl hr
  simpa [inTurn, hr] using h

/-- Whether a run waits in the translation of its rules. -/
def waits (s : State J) (i : ℕ) : Bool :=
  match s.runs i with
  | some (.translating ..) => true
  | _ => false

/-- The run 0 loads the rule and waits for its protocols; the run 1 loads it with a second one
and waits as well, once for each, while the run 0 goes on and commits. -/
def interleaved : List Event := [
  .start 0, .loaded 0 (sampleAnswers [sampleRule]) 0,
  .start 1, .loaded 1 (sampleAnswers [sampleRule, { sampleRule with ruleid := 2 }]) 0,
  .answered 0 (some [⟨"0a", "leaf"⟩]),
  .answered 1 (some [⟨"0a", "leaf"⟩]),
  .answered 1 (some [⟨"0a", "leaf"⟩])]

end AcConfig
