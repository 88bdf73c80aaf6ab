/-
# The groups that access rules name

A deletion looks for its ids in the lists of the rules as Lua values, where `"5"` is not
`5`, and deletes by their numbers.  Over a run every group that a rule names is there
exactly if no accepted deletion gives the id of a group in use as a text.
-/
import OpenwrtAc.CfgRuns

open KeyedRows Outcome

namespace CfgMgr

variable {len : Length} {s s' : Store}

/-- Rules keep their groups when the rules are the same and no group goes. -/
theorem References.mono (href : References s) (hrules : s'.acrules = s.acrules)
    (hip : ∀ i, (∃ g ∈ s.ipgroups, g.ipgid = i) → ∃ g ∈ s'.ipgroups, g.ipgid = i)
    (htm : ∀ i, (∃ g ∈ s.timegroups, g.tmgid = i) → ∃ g ∈ s'.timegroups, g.tmgid = i) :
    References s' := by
  intro r hr
  rw [hrules] at hr
  exact ⟨fun i hi => hip _ ((href r hr).ipgroups i hi), fun i hi => htm _ ((href r hr).timegroups i hi)⟩

/-! ## Deletions -/

/-- An accepted deletion of a group that a rule names, by a text. -/
def Dangles (len : Length) (s : Store) : Cmd → Prop
  | .ipgroupDel ids => (∃ s', ipgroupDel len ids s = .ok s') ∧
      ∃ r ∈ s.acrules, ∃ i ∈ r.src_ipgids ++ r.dest_ipgids, Id.text i.value ∈ ids
  | .timegroupDel ids => (∃ s', timegroupDel ids s = .ok s') ∧
      ∃ r ∈ s.acrules, ∃ i ∈ r.tmgrp_ids, Id.text i.value ∈ ids
  | _ => False

/-- A number that is not in the list as such is in it as a text, or not at all. -/
theorem text_mem_iff {ids : List Id} {i : Id} (hnum : i.isNum = true) (hnot : i ∉ ids) :
    Id.text i.value ∈ ids ↔ i.value ∈ inPart ids := by
  rw [mem_inPart]
  constructor
  · exact fun h => ⟨_, h, rfl⟩
  · rintro ⟨id, hid, hval⟩
    cases id with
    | text n =>
      change n = _ at hval
      rwa [← hval]
    | num n =>
      cases i with
      | num m =>
        change n = m at hval
        rw [hval] at hid
        exact absurd hid hnot
      | text m => cases hnum

/-- A group that the rules name goes exactly with an id of the list. -/
theorem exists_delRows_iff {α : Type} {t : Table α} {ids : List Id} {rows : List α} {i : ℤ}
    (h : ∃ r ∈ rows, t.id r = i) : (∃ r ∈ t.delRows ids rows, t.id r = i) ↔ i ∉ inPart ids := by
  constructor
  · rintro ⟨r, hr, rfl⟩
    exact (Table.mem_delRows.1 hr).2
  · intro hi
    obtain ⟨r, hr, rfl⟩ := h
    exact ⟨r, Table.mem_delRows.2 ⟨hr, hi⟩, rfl⟩

theorem references_ipgroupDel {ids : List Id} (h : WellFormed s) (href : References s)
    (hs : ipgroupDel len ids s = .ok s') : References s' ↔ ¬ Dangles len s (.ipgroupDel ids) := by
  have hacc : ∃ s', ipgroupDel len ids s = .ok s' := ⟨s', hs⟩
  obtain ⟨_, hnot, rfl⟩ := ipgroupDel_ok hs
  have hgoes : ∀ r ∈ s.acrules, ∀ i ∈ r.src_ipgids ++ r.dest_ipgids,
      (∃ g ∈ ipgroup.delRows ids s.ipgroups, g.ipgid = i.value) ↔ Id.text i.value ∉ ids := by
    intro r hr i hi
    have hnum := (h.rules r hr).ids i (List.mem_append_left _ hi)
    rw [text_mem_iff hnum (hnot r hr i hi)]
    exact exists_delRows_iff (t := ipgroup) ((href r hr).ipgroups i hi)
  constructor
  · rintro href' ⟨_, r, hr, i, hi, htext⟩
    exact (hgoes r hr i hi).1 ((href' r hr).ipgroups i hi) htext
  · intro hd r hr
    refine ⟨fun i hi => (hgoes r hr i hi).2 fun htext => hd ⟨hacc, r, hr, i, hi, htext⟩, ?_⟩
    exact (href r hr).timegroups

theorem references_timegroupDel {ids : List Id} (h : WellFormed s) (href : References s)
    (hs : timegroupDel ids s = .ok s') : References s' ↔ ¬ Dangles len s (.timegroupDel ids) := by
  have hacc : ∃ s', timegroupDel ids s = .ok s' := ⟨s', hs⟩
  obtain ⟨hnot, rfl⟩ := timegroupDel_ok hs
  have hgoes : ∀ r ∈ s.acrules, ∀ i ∈ r.tmgrp_ids,
      (∃ g ∈ timegroup.delRows ids s.timegroups, g.tmgid = i.value) ↔ Id.text i.value ∉ ids := by
    intro r hr i hi
    have hnum := (h.rules r hr).ids i (List.mem_append_right _ hi)
    rw [text_mem_iff hnum (hnot r hr i hi)]
    exact exists_delRows_iff (t := timegroup) ((href r hr).timegroups i hi)
  constructor
  · rintro href' ⟨_, r, hr, i, hi, htext⟩
    exact (hgoes r hr i hi).1 ((href' r hr).timegroups i hi) htext
  · intro hd r hr
    refine ⟨(href r hr).ipgroups, fun i hi => (hgoes r hr i hi).2 fun htext => ?_⟩
    exact hd ⟨hacc, r, hr, i, hi, htext⟩

/-- Where the rules name the groups 1 and 2 in one list, no group is deleted any more. -/
theorem ipgroupDel_refused {ids : List Id} {column : Acrule → List Id}
    (hcol : column = (·.src_ipgids) ∨ column = (·.dest_ipgids))
    (h1 : .num 1 ∈ s.acrules.flatMap column) (h2 : .num 2 ∈ s.acrules.flatMap column) :
    ¬ ∃ s', ipgroupDel len ids s = .ok s' := by
  rintro ⟨s', hs⟩
  simp only [ipgroupDel, check_bind_ok] at hs
  obtain ⟨-, hsrc, hdest, -⟩ := hs
  have hsort : sortMarks len (s.acrules.flatMap column) = .ok () := by
    obtain rfl | rfl := hcol
    · exact (check_bind_ok.1 hsrc).1
    · exact (check_bind_ok.1 hdest).1
  rw [sortMarks_error len h1 h2] at hsort
  cases hsort

/-! ## Runs -/

/-- No command but a deletion of groups takes a group away from a rule. -/
theorem References.exec {c : Cmd} (h : WellFormed s) (href : References s)
    (hs : exec len s c = .ok s') :
    References s' ↔ ¬ Dangles len s c := by
  cases c with
  | ipgroupDel ids => exact references_ipgroupDel h href hs
  | timegroupDel ids => exact references_timegroupDel h href hs
  | ipgroupSet p =>
    obtain ⟨rows, hrows, hs⟩ := bind_eq_ok.1 hs
    cases hs
    exact iff_of_true (href.mono rfl (fun _ => (Table.exists_setRow hrows).2) fun _ => id) not_false
  | ipgroupAdd p =>
    obtain ⟨rows, hrows, hs⟩ := bind_eq_ok.1 hs
    cases hs
    obtain ⟨id, _, rfl⟩ := Table.addRow_ok hrows
    refine iff_of_true (href.mono rfl ?_ fun _ hg => hg) not_false
    exact fun _ ⟨g, hg, hid⟩ => ⟨g, List.mem_append_left _ hg, hid⟩
  | timegroupSet p =>
    obtain ⟨rows, hrows, hs⟩ := bind_eq_ok.1 hs
    cases hs
    exact iff_of_true (href.mono rfl (fun _ => id) fun _ => (Table.exists_setRow hrows).2) not_false
  | timegroupAdd p =>
    obtain ⟨rows, hrows, hs⟩ := bind_eq_ok.1 hs
    cases hs
    obtain ⟨id, _, rfl⟩ := Table.addRow_ok hrows
    refine iff_of_true (href.mono rfl (fun _ hg => hg) ?_) not_false
    exact fun _ ⟨g, hg, hid⟩ => ⟨g, List.mem_append_left _ hg, hid⟩
  | acruleSet p =>
    obtain ⟨rows, rfl, hrows⟩ := acruleSet_ok h hs
    exact iff_of_true (href.withRules h hrows) not_false
  | acruleAdd p =>
    obtain ⟨rows, rfl, hrows⟩ := acruleAdd_ok h hs
    exact iff_of_true (href.withRules h hrows) not_false
  | acruleDel ids =>
    obtain ⟨rows, rfl, hrows⟩ := acruleDel_ok h hs
    exact iff_of_true (href.withRules h hrows) not_false
  | acruleAdjust ids =>
    obtain ⟨rows, rfl, hrows⟩ := acruleAdjust_ok h hs
    exact iff_of_true (href.withRules h hrows) not_false
  | _ =>
    -- a command on another table
    obtain ⟨rows, rfl⟩ := exec_part hs
    exact iff_of_true (href.mono rfl (fun _ => id) fun _ => id) not_false

theorem references_step_iff {c : Cmd} (h : WellFormed s) (href : References s) :
    References (step len s c) ↔ ¬ Dangles len s c := by
  unfold step
  split
  · exact href.exec h ‹_›
  · rename_i e hs
    refine iff_of_true href ?_
    cases c with
    | ipgroupDel ids =>
      rintro ⟨⟨s', hok⟩, _⟩
      cases hs.symm.trans hok
    | timegroupDel ids =>
      rintro ⟨⟨s', hok⟩, _⟩
      cases hs.symm.trans hok
    | _ => exact not_false

theorem references_run_iff {cs : List Cmd} (h : WellFormed s) (href : References s) :
    (∀ n, References (run len s (cs.take n))) ↔
      ∀ n c, cs[n]? = some c → ¬ Dangles len (run len s (cs.take n)) c := by
  induction cs generalizing s with
  | nil => simpa [run] using href
  | cons c cs ih =>
    constructor
    · intro hall
      have hstep : References (step len s c) := hall 1
      have hrest := (ih (h.step c) hstep).1 fun n => hall (n + 1)
      intro n c' hc'
      cases n with
      | zero =>
        cases hc'
        exact (references_step_iff h href).1 hstep
      | succ n => exact hrest n c' hc'
    · intro hnone
      have hstep : References (step len s c) := (references_step_iff h href).2 (hnone 0 c rfl)
      have hrest := (ih (h.step c) hstep).2 fun n c' hc' => hnone (n + 1) c' hc'
      intro n
      cases n with
      | zero => exact href
      | succ n => exact hrest n

/-- A group, a rule on it, and a deletion of the group by the text of its id. -/
def lostGroup : List Cmd :=
  [.ipgroupAdd ⟨9, "lab", "", "[]"⟩,
    .acruleAdd ⟨0, "r", "", "", [], [.num 0], [], [.num 63], ["10"], [.num 255], "[]", 1, 0⟩,
    .ipgroupDel [.text 0]]

-- admin-web lets the deletion through, and the rule keeps the id of a group that is gone
example : idsBelow 63 [.text 0] = true ∧
    (run .least (defaults ["10"] "" "") lostGroup).ipgroups.map (·.ipgid) = [63] ∧
    (run .least (defaults ["10"] "" "") lostGroup).acrules.map (·.src_ipgids) = [[.num 0]] := by
  decide

/-- Two groups, a rule on both, and a deletion of one by the text of its id. -/
def keptGroup : List Cmd :=
  [.ipgroupAdd ⟨9, "hall", "", "[]"⟩, .ipgroupAdd ⟨9, "lab", "", "[]"⟩,
    .ipgroupAdd ⟨9, "yard", "", "[]"⟩,
    .acruleAdd ⟨0, "r", "", "", [], [.num 1, .num 2], [], [.num 63], ["10"], [.num 255], "[]", 1, 0⟩,
    .ipgroupDel [.text 1]]

-- the table of the groups in use is sorted, and the deletion fails
example : (run .least (defaults ["10"] "" "") keptGroup).ipgroups.map (·.ipgid) = [63, 0, 1, 2] := by
  decide

end CfgMgr
