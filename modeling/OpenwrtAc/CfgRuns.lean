/-
# The tables over a run

Whatever the commands and their order, ids and names are distinct and the references that
the tables themselves carry lead to rows.  The ids in the lists of an access rule are looked
up in Lua when a group is deleted; they lead to rows exactly as long as no group in use is
deleted by the text of its id.
-/
import OpenwrtAc.CfgTables

open KeyedRows Outcome

namespace CfgMgr

variable {len : Length} {s s' : Store}

/-! ## The invariant -/

/-- What the checks of a rule say of the rule alone. -/
structure Acrule.Sound (protos : List String) (r : Acrule) : Prop where
  zids : ∀ i ∈ r.src_zids ++ r.dest_zids, i.isNum = true
  ids : ∀ i ∈ r.src_ipgids ++ r.dest_ipgids ++ r.tmgrp_ids, i.isNum = true
  srcs : r.src_ipgids.Nodup
  dests : r.dest_ipgids.Nodup
  times : r.tmgrp_ids.Nodup
  protos_nodup : r.proto_ids.Nodup
  protos_mem : ∀ k ∈ r.proto_ids, k ∈ protos

/-- Every group that the rule names is there. -/
structure Acrule.Leads (s : Store) (r : Acrule) : Prop where
  ipgroups : ∀ i ∈ r.src_ipgids ++ r.dest_ipgids, ∃ g ∈ s.ipgroups, g.ipgid = i.value
  timegroups : ∀ i ∈ r.tmgrp_ids, ∃ g ∈ s.timegroups, g.tmgid = i.value

structure WellFormed (s : Store) : Prop where
  zones : s.zones.Nodup
  protos : s.protos.Nodup
  ipgroups : ipgroup.Holds (Below 64) s.ipgroups
  timegroups : timegroup.Holds (Below 256) s.timegroups
  acgroups : acgroup.Holds (Below 64) s.acgroups
  users : user.Holds (0 ≤ ·) s.users
  acrules : acrule.Holds (Below 64) s.acrules
  authrules : authrule.Holds (Below 16) s.authrules
  parents : ∀ r ∈ s.acgroups, r.pid = -1 ∨ ∃ g ∈ s.acgroups, g.gid = r.pid
  members : ∀ r ∈ s.users, ∃ g ∈ s.acgroups, g.gid = r.gid
  authZones : ∀ r ∈ s.authrules, r.zid ∈ s.zones
  authIpgroups : ∀ r ∈ s.authrules, ∃ g ∈ s.ipgroups, g.ipgid = r.ipgid
  rules : ∀ r ∈ s.acrules, r.Sound s.protos

/-- Every group that a rule names is there. -/
def References (s : Store) : Prop := ∀ r ∈ s.acrules, r.Leads s

/-- The defaults are well formed. -/
theorem wellFormed_defaults {protos : List String} (hp : protos.Nodup) (days tmlist : String) :
    WellFormed (defaults protos days tmlist) where
  zones := by simp [defaults]
  protos := hp
  ipgroups := ⟨List.nodup_singleton _, List.nodup_singleton _, by simp [defaults, ipgroup, Below]⟩
  timegroups := ⟨List.nodup_singleton _, List.nodup_singleton _, by simp [defaults, timegroup, Below]⟩
  acgroups := ⟨List.nodup_singleton _, List.nodup_singleton _, by simp [defaults, acgroup, Below]⟩
  users := ⟨List.nodup_nil, List.nodup_nil, by simp [defaults]⟩
  acrules := ⟨List.nodup_nil, List.nodup_nil, by simp [defaults]⟩
  authrules := ⟨List.nodup_nil, List.nodup_nil, by simp [defaults]⟩
  parents := by simp [defaults]
  members := by simp [defaults]
  authZones := by simp [defaults]
  authIpgroups := by simp [defaults]
  rules := by simp [defaults]

/-! ## Ip groups and time groups -/

/-- Changing an ip group keeps the configuration well formed. -/
theorem WellFormed.ipgroupSet {p : Ipgroup} (h : WellFormed s) (hs : ipgroupSet p s = .ok s') :
    WellFormed s' := by
  obtain ⟨rows, hrows, hs⟩ := bind_eq_ok.1 hs
  cases hs
  exact { h with
    ipgroups := h.ipgroups.setRow hrows
    authIpgroups := fun r hr => (Table.exists_setRow hrows).2 (h.authIpgroups r hr) }

/-- Adding an ip group keeps the configuration well formed. -/
theorem WellFormed.ipgroupAdd {p : Ipgroup} (h : WellFormed s) (hs : ipgroupAdd p s = .ok s') :
    WellFormed s' := by
  obtain ⟨rows, hrows, hs⟩ := bind_eq_ok.1 hs
  cases hs
  obtain ⟨id, _, rfl⟩ := Table.addRow_ok hrows
  refine { h with ipgroups := h.ipgroups.addRow hrows, authIpgroups := ?_ }
  intro r hr
  obtain ⟨g, hg, hid⟩ := h.authIpgroups r hr
  exact ⟨g, List.mem_append_left _ hg, hid⟩

/-- An accepted deletion: no authentication rule has an id of the list, and no rule has one in the
    form in which the list has it. -/
theorem ipgroupDel_ok {ids : List Id} (hs : ipgroupDel len ids s = .ok s') :
    (∀ r ∈ s.authrules, r.ipgid ∉ inPart ids) ∧
      (∀ r ∈ s.acrules, ∀ i ∈ r.src_ipgids ++ r.dest_ipgids, i ∉ ids) ∧
      s' = { s with ipgroups := ipgroup.delRows ids s.ipgroups } := by
  unfold ipgroupDel at hs
  simp only [check_bind_ok, require_ok] at hs
  obtain ⟨hcount, hsrc, hdest, hs⟩ := hs
  cases hs
  have hsrc := (check_bind_ok.1 hsrc).2
  have hdest := (check_bind_ok.1 hdest).2
  rw [require_ok] at hsrc hdest
  simp only [List.all_eq_true, decide_eq_true_eq, List.mem_flatMap, not_exists, not_and] at hsrc hdest
  refine ⟨?_, ?_, rfl⟩
  · intro r hr hid
    have hlen : (s.authrules.filter fun r => r.ipgid ∈ inPart ids).length = 0 := by
      have := of_decide_eq_true hcount
      omega
    rw [List.length_eq_zero_iff, List.filter_eq_nil_iff] at hlen
    exact hlen r hr (decide_eq_true hid)
  · intro r hr i hi hid
    rcases List.mem_append.1 hi with hi | hi
    · exact hsrc i hid r hr hi
    · exact hdest i hid r hr hi

/-- Deleting ip groups keeps the configuration well formed. -/
theorem WellFormed.ipgroupDel {ids : List Id} (h : WellFormed s)
    (hs : ipgroupDel len ids s = .ok s') :
    WellFormed s' := by
  obtain ⟨hauth, _, rfl⟩ := ipgroupDel_ok hs
  refine { h with ipgroups := h.ipgroups.delRows ids, authIpgroups := ?_ }
  intro r hr
  obtain ⟨g, hg, hid⟩ := h.authIpgroups r hr
  refine ⟨g, Table.mem_delRows.2 ⟨hg, ?_⟩, hid⟩
  change g.ipgid ∉ _
  rw [hid]
  exact hauth r hr

/-- Changing a time group keeps the configuration well formed. -/
theorem WellFormed.timegroupSet {p : Timegroup} (h : WellFormed s)
    (hs : timegroupSet p s = .ok s') :
    WellFormed s' := by
  obtain ⟨rows, hrows, hs⟩ := bind_eq_ok.1 hs
  cases hs
  exact { h with timegroups := h.timegroups.setRow hrows }

/-- Adding a time group keeps the configuration well formed. -/
theorem WellFormed.timegroupAdd {p : Timegroup} (h : WellFormed s)
    (hs : timegroupAdd p s = .ok s') :
    WellFormed s' := by
  obtain ⟨rows, hrows, hs⟩ := bind_eq_ok.1 hs
  cases hs
  exact { h with timegroups := h.timegroups.addRow hrows }

/-- Time groups are deleted only where no rule refers to them. -/
theorem timegroupDel_ok {ids : List Id} (hs : timegroupDel ids s = .ok s') :
    (∀ r ∈ s.acrules, ∀ i ∈ r.tmgrp_ids, i ∉ ids) ∧
      s' = { s with timegroups := timegroup.delRows ids s.timegroups } := by
  unfold timegroupDel at hs
  simp only [check_bind_ok, require_ok] at hs
  obtain ⟨hrules, hs⟩ := hs
  cases hs
  simp only [List.all_eq_true, decide_eq_true_eq, List.mem_flatMap, not_exists, not_and] at hrules
  exact ⟨fun r hr i hi hid => hrules i hid r hr hi, rfl⟩

/-- Deleting time groups keeps the configuration well formed. -/
theorem WellFormed.timegroupDel {ids : List Id} (h : WellFormed s)
    (hs : timegroupDel ids s = .ok s') : WellFormed s' := by
  obtain ⟨_, rfl⟩ := timegroupDel_ok hs
  exact { h with timegroups := h.timegroups.delRows ids }

/-! ## User groups and users -/

/-- The parent is the root or a group that exists. -/
theorem pidExists_iff {pid : ℤ} :
    pidExists pid s = true ↔ pid = -1 ∨ ∃ g ∈ s.acgroups, g.gid = pid := by
  simp [pidExists]

/-- The query for a group finds the groups that exist. -/
theorem gidExists_iff {gid : ℤ} : gidExists gid s = true ↔ ∃ g ∈ s.acgroups, g.gid = gid := by
  simp [gidExists]

/-- Changing a user group keeps the configuration well formed. -/
theorem WellFormed.acgroupSet {p : Acgroup} (h : WellFormed s) (hs : acgroupSet p s = .ok s') :
    WellFormed s' := by
  unfold CfgMgr.acgroupSet at hs
  rw [check_bind_ok, require_ok, pidExists_iff] at hs
  obtain ⟨hpid, hs⟩ := hs
  obtain ⟨rows, hrows, hs⟩ := bind_eq_ok.1 hs
  cases hs
  have hstay : ∀ i, (∃ g ∈ s.acgroups, g.gid = i) → ∃ g ∈ rows, g.gid = i :=
    fun i => (Table.exists_setRow hrows).2
  refine { h with
    acgroups := h.acgroups.setRow hrows
    parents := ?_
    members := fun r hr => hstay _ (h.members r hr) }
  apply Table.forall_setRow (P := fun r => r.pid = -1 ∨ ∃ g ∈ rows, g.gid = r.pid) _ _ hrows
  · exact fun r hr => (h.parents r hr).imp_right (hstay _)
  · exact fun _ => hpid.imp_right (hstay _)

/-- Adding a user group keeps the configuration well formed. -/
theorem WellFormed.acgroupAdd {p : Acgroup} (h : WellFormed s) (hs : acgroupAdd p s = .ok s') :
    WellFormed s' := by
  unfold CfgMgr.acgroupAdd at hs
  rw [check_bind_ok, require_ok, pidExists_iff] at hs
  obtain ⟨hpid, hs⟩ := hs
  obtain ⟨rows, hrows, hs⟩ := bind_eq_ok.1 hs
  cases hs
  obtain ⟨id, _, rfl⟩ := Table.addRow_ok hrows
  have hstay : ∀ i, (∃ g ∈ s.acgroups, g.gid = i) →
      ∃ g ∈ s.acgroups ++ [acgroup.setId p id], g.gid = i :=
    fun i ⟨g, hg, hid⟩ => ⟨g, List.mem_append_left _ hg, hid⟩
  refine { h with
    acgroups := h.acgroups.addRow hrows
    parents := ?_
    members := fun r hr => hstay _ (h.members r hr) }
  intro r hr
  rcases List.mem_append.1 hr with hr | hr
  · exact (h.parents r hr).imp_right (hstay _)
  · rw [List.mem_singleton.1 hr]
    exact hpid.imp_right (hstay _)

/-- An accepted deletion: no group of the list has members or is a parent. -/
theorem acgroupDel_ok {ids : List Id} (hs : acgroupDel ids s = .ok s') :
    (∀ r ∈ s.acgroups, r.pid ∉ inPart ids) ∧ (∀ r ∈ s.users, r.gid ∉ inPart ids) ∧
      s' = { s with acgroups := acgroup.delRows ids s.acgroups } := by
  unfold acgroupDel at hs
  simp only [check_bind_ok, require_ok, decide_eq_true_eq, Nat.add_eq_zero_iff, List.length_eq_zero_iff,
    List.filter_eq_nil_iff] at hs
  obtain ⟨⟨hpid, hgid⟩, hs⟩ := hs
  cases hs
  exact ⟨hpid, hgid, rfl⟩

/-- Deleting user groups keeps the configuration well formed. -/
theorem WellFormed.acgroupDel {ids : List Id} (h : WellFormed s) (hs : acgroupDel ids s = .ok s') :
    WellFormed s' := by
  obtain ⟨hpid, hgid, rfl⟩ := acgroupDel_ok hs
  have hstay : ∀ i, i ∉ inPart ids → (∃ g ∈ s.acgroups, g.gid = i) →
      ∃ g ∈ acgroup.delRows ids s.acgroups, g.gid = i := by
    rintro i hi ⟨g, hg, rfl⟩
    exact ⟨g, Table.mem_delRows.2 ⟨hg, hi⟩, rfl⟩
  refine { h with
    acgroups := h.acgroups.delRows ids
    parents := ?_
    members := fun r hr => hstay _ (hgid r hr) (h.members r hr) }
  intro r hr
  have hr := (Table.mem_delRows.1 hr).1
  exact (h.parents r hr).imp_right (hstay _ (hpid r hr))

/-- Changing a user keeps the configuration well formed. -/
theorem WellFormed.userSet {p : User} (h : WellFormed s) (hs : userSet p s = .ok s') :
    WellFormed s' := by
  unfold CfgMgr.userSet at hs
  rw [check_bind_ok, require_ok, gidExists_iff] at hs
  obtain ⟨hgid, hs⟩ := hs
  obtain ⟨rows, hrows, hs⟩ := bind_eq_ok.1 hs
  cases hs
  exact { h with
    users := h.users.setRow hrows
    members := Table.forall_setRow (P := fun r => ∃ g ∈ s.acgroups, g.gid = r.gid) h.members
      (fun _ => hgid) hrows }

/-- One more than the highest id is above every id. -/
theorem lt_maxUid {ids : List ℤ} (h0 : ∀ i ∈ ids, 0 ≤ i) :
    (∀ i ∈ ids, i < ids.max?.getD (-1) + 1) ∧ 0 ≤ ids.max?.getD (-1) + 1 := by
  cases hmax : ids.max? with
  | none =>
    rw [List.max?_eq_none_iff] at hmax
    subst hmax
    simp
  | some m =>
    obtain ⟨hm, hall⟩ := List.max?_eq_some_iff.1 hmax
    refine ⟨fun i hi => ?_, ?_⟩
    · exact Int.lt_add_one_of_le (hall i hi)
    · have := h0 m hm
      simp only [Option.getD_some]
      omega

/-- Adding a user keeps the configuration well formed. -/
theorem WellFormed.userAdd {p : User} {now : String} (h : WellFormed s)
    (hs : userAdd p now s = .ok s') : WellFormed s' := by
  unfold CfgMgr.userAdd at hs
  simp only [check_bind_ok, require_ok, gidExists_iff] at hs
  obtain ⟨hgid, hname, hs⟩ := hs
  cases hs
  have hnonneg : ∀ i ∈ s.users.map (·.uid), 0 ≤ i := by
    intro i hi
    obtain ⟨r, hr, rfl⟩ := List.mem_map.1 hi
    exact h.users.range r hr
  obtain ⟨habove, hnew⟩ := lt_maxUid hnonneg
  refine { h with users := h.users.snoc ?_ ?_ hnew, members := ?_ }
  · intro hid
    exact lt_irrefl _ (habove _ hid)
  · intro r hr hn
    exact of_decide_eq_true (List.all_eq_true.1 hname r hr) hn
  · intro r hr
    rcases List.mem_append.1 hr with hr | hr
    · exact h.members r hr
    · rw [List.mem_singleton.1 hr]
      exact hgid

/-- Deleting users keeps the configuration well formed. -/
theorem WellFormed.userDel {ids : List Id} (h : WellFormed s) (hs : userDel ids s = .ok s') :
    WellFormed s' := by
  cases hs
  exact { h with
    users := h.users.delRows ids
    members := fun r hr => h.members r (Table.mem_delRows.1 hr).1 }

/-! ## Access rules -/

/-- Ids that pass the check are numbers, are distinct, and name rows. -/
theorem checkIds_ok {invalid missing : String} {ids : List Id} {keys : List ℤ} (hkeys : keys.Nodup)
    (h : checkIds invalid missing ids keys = .ok ()) :
    (∀ i ∈ ids, i.isNum = true) ∧ ids.Nodup ∧ ∀ i ∈ ids, i.value ∈ keys := by
  unfold checkIds at h
  rw [check_bind_ok, require_ok, require_ok, List.all_eq_true, decide_eq_true_eq] at h
  obtain ⟨hnum, hlen⟩ := h
  have hcov := @covers _ _ _ (fun k : ℤ => k) _ (inPart ids) (by rwa [List.map_id'])
    (by simpa only [inPart, List.length_map] using hlen)
  refine ⟨hnum, hcov.1.of_map _, ?_⟩
  intro i hi
  obtain ⟨k, hk, hki⟩ := hcov.2 i.value (mem_inPart.2 ⟨i, hi, rfl⟩)
  rwa [← hki]

/-- A rule that passes the checks is sound and leads to rows that exist. -/
theorem checkRule_ok {p : Acrule} (h : WellFormed s) (hp : checkRule p s = .ok ()) :
    p.Sound s.protos ∧ p.Leads s := by
  unfold checkRule at hp
  simp only [check_bind_ok, require_ok, List.all_eq_true] at hp
  obtain ⟨hsz, hdz, hsrc, hdest, hproto, htime⟩ := hp
  obtain ⟨hsnum, hsnodup, hsmem⟩ := checkIds_ok h.ipgroups.ids hsrc
  obtain ⟨hdnum, hdnodup, hdmem⟩ := checkIds_ok h.ipgroups.ids hdest
  obtain ⟨htnum, htnodup, htmem⟩ := checkIds_ok h.timegroups.ids htime
  have hcov := @covers _ _ _ (fun k : String => k) _ _ (by rw [List.map_id']; exact h.protos)
    (of_decide_eq_true hproto)
  constructor
  · refine ⟨?_, ?_, hsnodup, hdnodup, htnodup, hcov.1, ?_⟩
    · intro i hi
      rcases List.mem_append.1 hi with hi | hi
      · exact hsz i hi
      · exact hdz i hi
    · intro i hi
      rcases List.mem_append.1 hi with hi | hi
      · rcases List.mem_append.1 hi with hi | hi
        · exact hsnum i hi
        · exact hdnum i hi
      · exact htnum i hi
    · intro k hk
      obtain ⟨k', hk', rfl⟩ := hcov.2 k hk
      exact hk'
  · constructor
    · intro i hi
      rcases List.mem_append.1 hi with hi | hi
      · exact List.mem_map.1 (hsmem i hi)
      · exact List.mem_map.1 (hdmem i hi)
    · intro i hi
      exact List.mem_map.1 (htmem i hi)

/-- What an accepted command makes of the rules: each has the lists of one that was there or of a
    request that passed its checks. -/
structure RulesFrom (s : Store) (rows : List Acrule) : Prop where
  holds : acrule.Holds (Below 64) rows
  lists : ∀ r ∈ rows, ∃ r₀ i t n, (r₀ ∈ s.acrules ∨ checkRule r₀ s = .ok ()) ∧
    r = { r₀ with ruleid := i, ruletype := t, priority := n }

/-- Changing a rule touches the rules only, and leaves them made of checked rows. -/
theorem acruleSet_ok {p : Acrule} (h : WellFormed s) (hs : acruleSet p s = .ok s') :
    ∃ rows, s' = { s with acrules := rows } ∧ RulesFrom s rows := by
  unfold acruleSet at hs
  rw [check_bind_ok] at hs
  obtain ⟨hp, hs⟩ := hs
  obtain ⟨rows, hrows, hs⟩ := bind_eq_ok.1 hs
  cases hs
  refine ⟨rows, rfl, h.acrules.setRow hrows, Table.forall_setRow ?_ ?_ hrows⟩
  · exact fun r hr => ⟨r, _, _, _, Or.inl hr, rfl⟩
  · exact fun r => ⟨p, _, _, _, Or.inr hp, rfl⟩

/-- Adding a rule touches the rules only, and leaves them made of checked rows. -/
theorem acruleAdd_ok {p : Acrule} (h : WellFormed s) (hs : acruleAdd p s = .ok s') :
    ∃ rows, s' = { s with acrules := rows } ∧ RulesFrom s rows := by
  unfold acruleAdd at hs
  rw [check_bind_ok] at hs
  obtain ⟨hp, hs⟩ := hs
  obtain ⟨rows, hrows, hs⟩ := bind_eq_ok.1 hs
  cases hs
  refine ⟨rows, rfl, RankTable.holds_addLast h.acrules hrows,
    RankTable.forall_addLast ?_ ?_ hrows⟩
  · exact fun r hr => ⟨r, _, _, _, Or.inl hr, rfl⟩
  · exact fun i n => ⟨p, _, _, _, Or.inr hp, rfl⟩

/-- Deleting rules touches the rules only, and leaves them made of checked rows. -/
theorem acruleDel_ok {ids : List Id} (h : WellFormed s) (hs : acruleDel ids s = .ok s') :
    ∃ rows, s' = { s with acrules := rows } ∧ RulesFrom s rows := by
  cases hs
  refine ⟨_, rfl, h.acrules.delRows ids, ?_⟩
  exact fun r hr => ⟨r, _, _, _, Or.inl (Table.mem_delRows.1 hr).1, rfl⟩

/-- Moving rules touches the rules only, and leaves them made of checked rows. -/
theorem acruleAdjust_ok {ids : List Id} (h : WellFormed s) (hs : acruleAdjust ids s = .ok s') :
    ∃ rows, s' = { s with acrules := rows } ∧ RulesFrom s rows := by
  obtain ⟨rows, hrows, hs⟩ := bind_eq_ok.1 hs
  cases hs
  refine ⟨rows, rfl, RankTable.holds_adjust h.acrules hrows, RankTable.forall_adjust ?_ ?_ hrows⟩
  · exact fun r hr => ⟨r, _, _, _, Or.inl hr, rfl⟩
  · rintro r n ⟨r₀, i, t, _, hr₀, rfl⟩
    exact ⟨r₀, i, t, n, hr₀, rfl⟩

/-- Rules made of checked rows keep the configuration well formed. -/
theorem WellFormed.withRules {rows : List Acrule} (h : WellFormed s) (hrows : RulesFrom s rows) :
    WellFormed { s with acrules := rows } := by
  refine { h with acrules := hrows.holds, rules := ?_ }
  intro r hr
  obtain ⟨r₀, i, t, n, hr₀, rfl⟩ := hrows.lists r hr
  have hsound : r₀.Sound s.protos :=
    hr₀.elim (h.rules r₀) fun hp => (checkRule_ok h hp).1
  exact { hsound with }

/-- Rules made of checked rows keep the references. -/
theorem References.withRules {rows : List Acrule} (h : WellFormed s) (href : References s)
    (hrows : RulesFrom s rows) : References { s with acrules := rows } := by
  intro r hr
  obtain ⟨r₀, i, t, n, hr₀, rfl⟩ := hrows.lists r hr
  have hleads : r₀.Leads s := hr₀.elim (href r₀) fun hp => (checkRule_ok h hp).2
  exact { hleads with }

/-! ## Authentication rules -/

/-- The zone and the ip group of a rule are there. -/
def Refers (s : Store) (r : Authrule) : Prop := r.zid ∈ s.zones ∧ ∃ g ∈ s.ipgroups, g.ipgid = r.ipgid

/-- Where no key repeats, a key finds one row at most. -/
theorem length_filter_le_one {α : Type}
    {f : α → ℤ} {rows : List α} (h : (rows.map f).Nodup) (i : ℤ) :
    (rows.filter fun r => f r = i).length ≤ 1 := by
  have hnodup := nodup_filter (fun r => decide (f r = i)) h
  have hsub : (rows.filter fun r => f r = i).map f ⊆ [i] := by
    intro k hk
    obtain ⟨r, hr, rfl⟩ := List.mem_map.1 hk
    exact List.mem_singleton.2 (of_decide_eq_true (List.mem_filter.1 hr).2)
  simpa using (List.subperm_of_subset hnodup hsub).length_le

/-- A count of two over the two tables is one row of each. -/
theorem checkReference_ok {p : Authrule} (h : WellFormed s) (hp : checkReference p s = .ok ()) :
    Refers s p := by
  unfold checkReference at hp
  rw [require_ok, decide_eq_true_eq] at hp
  have hgroups := length_filter_le_one h.ipgroups.ids p.ipgid
  have hzones := length_filter_le_one (f := fun z : ℤ => z) (by rw [List.map_id']; exact h.zones) p.zid
  change (s.ipgroups.filter fun r => r.ipgid = p.ipgid).length ≤ 1 at hgroups
  constructor
  · obtain ⟨z, hz⟩ := List.exists_mem_of_length_pos
      (show 0 < (s.zones.filter fun z => z = p.zid).length by omega)
    obtain ⟨hz, heq⟩ := List.mem_filter.1 hz
    rwa [← of_decide_eq_true heq]
  · obtain ⟨g, hg⟩ := List.exists_mem_of_length_pos
      (show 0 < (s.ipgroups.filter fun r => r.ipgid = p.ipgid).length by omega)
    obtain ⟨hg, heq⟩ := List.mem_filter.1 hg
    exact ⟨g, hg, of_decide_eq_true heq⟩

/-- The login rules of a well-formed configuration refer to rows that exist. -/
theorem WellFormed.refers (h : WellFormed s) : ∀ r ∈ s.authrules, Refers s r :=
  fun r hr => ⟨h.authZones r hr, h.authIpgroups r hr⟩

/-- Login rules whose references exist keep the configuration well formed. -/
theorem WellFormed.withAuthrules {rows : List Authrule} (h : WellFormed s)
    (hT : authrule.Holds (Below 16) rows) (hrows : ∀ r ∈ rows, Refers s r) :
    WellFormed { s with authrules := rows } :=
  { h with
    authrules := hT
    authZones := fun r hr => (hrows r hr).1
    authIpgroups := fun r hr => (hrows r hr).2 }

/-- Changing a login rule keeps the configuration well formed. -/
theorem WellFormed.authruleSet {p : Authrule} (h : WellFormed s) (hs : authruleSet p s = .ok s') :
    WellFormed s' := by
  unfold CfgMgr.authruleSet at hs
  rw [check_bind_ok] at hs
  obtain ⟨hp, hs⟩ := hs
  obtain ⟨rows, hrows, hs⟩ := bind_eq_ok.1 hs
  cases hs
  exact h.withAuthrules (h.authrules.setRow hrows)
    (Table.forall_setRow h.refers (fun _ => checkReference_ok h hp) hrows)

/-- Adding a login rule keeps the configuration well formed. -/
theorem WellFormed.authruleAdd {p : Authrule} (h : WellFormed s) (hs : authruleAdd p s = .ok s') :
    WellFormed s' := by
  unfold CfgMgr.authruleAdd at hs
  rw [check_bind_ok] at hs
  obtain ⟨hp, hs⟩ := hs
  obtain ⟨rows, hrows, hs⟩ := bind_eq_ok.1 hs
  cases hs
  exact h.withAuthrules (RankTable.holds_addLast h.authrules hrows)
    (RankTable.forall_addLast h.refers (fun _ _ => checkReference_ok h hp) hrows)

/-- Deleting login rules keeps the configuration well formed. -/
theorem WellFormed.authruleDel {ids : List Id} (h : WellFormed s)
    (hs : authruleDel ids s = .ok s') :
    WellFormed s' := by
  cases hs
  exact h.withAuthrules (h.authrules.delRows ids) fun r hr => h.refers r (Table.mem_delRows.1 hr).1

/-- Moving login rules keeps the configuration well formed. -/
theorem WellFormed.authruleAdjust {ids : List Id} (h : WellFormed s)
    (hs : authruleAdjust ids s = .ok s') : WellFormed s' := by
  obtain ⟨rows, hrows, hs⟩ := bind_eq_ok.1 hs
  cases hs
  exact h.withAuthrules (RankTable.holds_adjust h.authrules hrows)
    (RankTable.forall_adjust h.refers (fun _ _ hr => hr) hrows)

/-! ## Runs -/

/-- The table that a command is about. -/
inductive Part where
  | ipgroup
  | timegroup
  | acgroup
  | user
  | acrule
  | authrule

def Cmd.part : Cmd → Part
  | .ipgroupSet _ | .ipgroupAdd _ | .ipgroupDel _ => .ipgroup
  | .timegroupSet _ | .timegroupAdd _ | .timegroupDel _ => .timegroup
  | .acgroupSet _ | .acgroupAdd _ | .acgroupDel _ => .acgroup
  | .userSet _ | .userAdd _ _ | .userDel _ => .user
  | .acruleSet _ | .acruleAdd _ | .acruleDel _ | .acruleAdjust _ => .acrule
  | .authruleSet _ | .authruleAdd _ | .authruleDel _ | .authruleAdjust _ => .authrule

/-- The store with other rows in one table. -/
def OnlyPart (s s' : Store) : Part → Prop
  | .ipgroup => ∃ rows, s' = { s with ipgroups := rows }
  | .timegroup => ∃ rows, s' = { s with timegroups := rows }
  | .acgroup => ∃ rows, s' = { s with acgroups := rows }
  | .user => ∃ rows, s' = { s with users := rows }
  | .acrule => ∃ rows, s' = { s with acrules := rows }
  | .authrule => ∃ rows, s' = { s with authrules := rows }

/-- An accepted command writes its own table and no other. -/
theorem exec_part {c : Cmd} (hs : exec len s c = .ok s') : OnlyPart s s' c.part := by
  cases c with
  | ipgroupSet p | ipgroupAdd p | timegroupSet p | timegroupAdd p | acruleAdjust ids
  | authruleAdjust ids =>
    obtain ⟨rows, _, hs⟩ := bind_eq_ok.1 hs
    cases hs
    exact ⟨rows, rfl⟩
  | acgroupSet p | acgroupAdd p | userSet p | acruleSet p | acruleAdd p | authruleSet p
  | authruleAdd p =>
    obtain ⟨_, hs⟩ := check_bind_ok.1 hs
    obtain ⟨rows, _, hs⟩ := bind_eq_ok.1 hs
    cases hs
    exact ⟨rows, rfl⟩
  | userAdd p now =>
    obtain ⟨_, hs⟩ := check_bind_ok.1 hs
    obtain ⟨_, hs⟩ := check_bind_ok.1 hs
    cases hs
    exact ⟨_, rfl⟩
  | ipgroupDel ids => exact ⟨_, (ipgroupDel_ok hs).2.2⟩
  | timegroupDel ids => exact ⟨_, (timegroupDel_ok hs).2⟩
  | acgroupDel ids => exact ⟨_, (acgroupDel_ok hs).2.2⟩
  | userDel ids | acruleDel ids | authruleDel ids =>
    cases hs
    exact ⟨_, rfl⟩

/-- An accepted command keeps the tables well formed. -/
theorem WellFormed.exec {c : Cmd} (h : WellFormed s) (hs : exec len s c = .ok s') :
    WellFormed s' := by
  cases c with
  | ipgroupSet p => exact h.ipgroupSet hs
  | ipgroupAdd p => exact h.ipgroupAdd hs
  | ipgroupDel ids => exact h.ipgroupDel hs
  | timegroupSet p => exact h.timegroupSet hs
  | timegroupAdd p => exact h.timegroupAdd hs
  | timegroupDel ids => exact h.timegroupDel hs
  | acgroupSet p => exact h.acgroupSet hs
  | acgroupAdd p => exact h.acgroupAdd hs
  | acgroupDel ids => exact h.acgroupDel hs
  | userSet p => exact h.userSet hs
  | userAdd p now => exact h.userAdd hs
  | userDel ids => exact h.userDel hs
  | acruleSet p =>
    obtain ⟨rows, rfl, hrows⟩ := acruleSet_ok h hs
    exact h.withRules hrows
  | acruleAdd p =>
    obtain ⟨rows, rfl, hrows⟩ := acruleAdd_ok h hs
    exact h.withRules hrows
  | acruleDel ids =>
    obtain ⟨rows, rfl, hrows⟩ := acruleDel_ok h hs
    exact h.withRules hrows
  | acruleAdjust ids =>
    obtain ⟨rows, rfl, hrows⟩ := acruleAdjust_ok h hs
    exact h.withRules hrows
  | authruleSet p => exact h.authruleSet hs
  | authruleAdd p => exact h.authruleAdd hs
  | authruleDel ids => exact h.authruleDel hs
  | authruleAdjust ids => exact h.authruleAdjust hs

/-- Every command keeps the configuration well formed, refused or not. -/
theorem WellFormed.step (h : WellFormed s) (c : Cmd) : WellFormed (step len s c) := by
  unfold CfgMgr.step
  split
  · exact h.exec ‹_›
  · exact h

/-- Every list of commands keeps the configuration well formed. -/
theorem WellFormed.run (h : WellFormed s) (cs : List Cmd) : WellFormed (run len s cs) := by
  induction cs generalizing s with
  | nil => exact h
  | cons c cs ih => exact ih (h.step c)

/-- Whatever the commands: ids and names are distinct, ids are in the ranges of their tables, the
    groups of users and parents and the zones and groups of authentication rules are there, and the
    lists of access rules are distinct numbers. -/
theorem run_wellFormed {protos : List String} (hp : protos.Nodup) (days tmlist : String)
    (len : Length) (cs : List Cmd) : WellFormed (run len (defaults protos days tmlist) cs) :=
  (wellFormed_defaults hp days tmlist).run cs

theorem run_wellFormed_two :
    WellFormed (run .least (defaults ["10"] "" "")
      [.ipgroupAdd ⟨9, "lab", "", "[]"⟩, .authruleAdd ⟨0, "web", "", 0, 0, "web", 1, "[]", 0, 7, "", "", "", "", ""⟩]) :=
  run_wellFormed (by decide) "" "" _ _

end CfgMgr
