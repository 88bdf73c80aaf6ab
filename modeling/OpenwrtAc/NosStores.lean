/-
# The stores of the two drivers as lists

`NosIpgrp` matches packets against lists of groups and rules that carry their own bounds, and
`NosCtl` keeps the same entries in the slots of an array.  The commands on the slots are here
those on the lists, and in every run of writes the slots hold such a list.
-/
import OpenwrtAc.NosCtl

open SlotStore Nos

namespace NosCtl

/-! ## Slots and their list -/

section

variable {α : Type} {s : Slots α} {p : α → Bool}

/-- The slot that is found is the first in the list. -/
theorem findSlot_eq_findIdx? (s : Slots α) (p : α → Bool) :
    s.findSlot p = s.entries.findIdx? p := by
  cases h : s.findSlot p with
  | none =>
    symm
    rw [List.findIdx?_eq_none_iff]
    exact findSlot_eq_none h
  | some i =>
    symm
    unfold Slots.findSlot at h
    obtain ⟨hp, hi, hmin⟩ := List.find?_range_eq_some.1 h
    rw [List.findIdx?_eq_some_iff_getElem]
    refine ⟨by simpa using hi, by simpa using hp, fun j hj => ?_⟩
    simpa using hmin j hj

/-- Some slot is found exactly when an entry passes the test. -/
theorem findSlot_isSome {key : α → ℕ} {k : ℕ} :
    (s.findSlot fun a => key a == k).isSome = true ↔ k ∈ s.entries.map key := by
  rw [findSlot_eq_findIdx?, List.findIdx?_isSome, List.any_eq_true, List.mem_map]
  simp

/-- To move the later entries down is to take the first that passes out of the list. -/
theorem entries_removeAt_eq_eraseP {i : ℕ} (h : s.findSlot p = some i) :
    (s.removeAt i).entries = s.entries.eraseP p := by
  rw [entries_removeAt (findSlot_eq_some h).1, List.eraseP_eq_eraseIdx, ← findSlot_eq_findIdx?, h]

end

/-! ## Ip groups -/

/-- A group is put into the slots as it is put into the list. -/
theorem nosIpgrpSet_entries {conf : IpgrpConf} {s : Slots IpGrp} (h : s.entries = conf.ipgrp)
    (g : IpGrp) :
    (nosIpgrpSet s g).map Slots.entries = (Nos.nosIpgrpSet conf g).map IpgrpConf.ipgrp := by
  have hdup := @findSlot_isSome _ s IpGrp.id g.id
  have hnum := length_entries s
  rw [h] at hdup hnum
  unfold nosIpgrpSet Nos.nosIpgrpSet
  by_cases hid : maxIpgrp ≤ g.id
  · rw [if_pos hid, dif_pos hid]
    rfl
  rw [if_neg hid, dif_neg hid]
  by_cases hmem : g.id ∈ conf.ipgrp.map IpGrp.id
  · rw [if_pos (hdup.2 hmem), dif_pos hmem]
    rfl
  rw [if_neg (mt hdup.1 hmem), dif_neg hmem, hnum]
  by_cases hroom : s.num = maxIpgrp
  · rw [if_pos hroom, if_pos hroom]
    rfl
  rw [if_neg hroom, if_neg hroom]
  exact congrArg Except.ok ((entries_push s g).trans (by rw [h]))

/-- A group is taken out of the slots as it is taken out of the list. -/
theorem nosIpgrpDelete_entries {conf : IpgrpConf} {st : IpgrpCtl}
    (h : st.conf.entries = conf.ipgrp) (id : ℕ) :
    (nosIpgrpDelete st id).map (fun st => st.conf.entries)
      = (Nos.nosIpgrpDelete conf id).map IpgrpConf.ipgrp := by
  have hmem := @findSlot_isSome _ st.conf IpGrp.id id
  rw [h] at hmem
  unfold nosIpgrpDelete Nos.nosIpgrpDelete
  cases hfind : st.conf.findSlot fun e => e.id == id with
  | none =>
    have hnot : id ∉ conf.ipgrp.map IpGrp.id := by
      intro hin
      have hsome := hmem.2 hin
      rw [hfind] at hsome
      cases hsome
    rw [if_neg hnot]
    rfl
  | some i =>
    have hin : id ∈ conf.ipgrp.map IpGrp.id := hmem.1 (by rw [hfind]; rfl)
    rw [if_pos hin]
    exact congrArg Except.ok ((entries_removeAt_eq_eraseP hfind).trans (by rw [h]))

/-! ## Rules -/

/-- A rule is put into the slots as it is put into the list. -/
theorem nosAuthSet_entries {conf : AuthConf} {s : Slots AuthRule} (h : s.entries = conf.auth)
    (r : AuthRule) :
    (nosAuthSet s r).map Slots.entries = (Nos.nosAuthSet conf r).map AuthConf.auth := by
  have hdup := @findSlot_isSome _ s AuthRule.id r.id
  have hnum := length_entries s
  rw [h] at hdup hnum
  unfold nosAuthSet Nos.nosAuthSet
  by_cases hid : maxAuth ≤ r.id
  · rw [if_pos hid, dif_pos hid]
    rfl
  rw [if_neg hid, dif_neg hid]
  by_cases hzone : invalidZoneId ≤ r.srcZoneId
  · rw [if_pos hzone, dif_pos hzone]
    rfl
  rw [if_neg hzone, dif_neg hzone]
  by_cases hgrp : maxIpgrp ≤ r.srcIpgrpId
  · rw [if_pos hgrp, dif_pos hgrp]
    rfl
  rw [if_neg hgrp, dif_neg hgrp]
  by_cases hmem : r.id ∈ conf.auth.map AuthRule.id
  · rw [if_pos (hdup.2 hmem), if_pos hmem]
    rfl
  rw [if_neg (mt hdup.1 hmem), if_neg hmem, hnum]
  by_cases hroom : s.num = maxAuth
  · rw [if_pos hroom, if_pos hroom]
    rfl
  rw [if_neg hroom, if_neg hroom]
  exact congrArg Except.ok ((entries_push s r).trans (by rw [h]))

/-! ## Runs -/

/-- What the commands of groups keep holds behind every write. -/
theorem nosIpgrpWrite_keeps {P : Slots IpGrp → Prop} (hempty : ∀ slot, P ⟨0, slot⟩)
    (hset : ∀ s g s', P s → nosIpgrpSet s g = .ok s' → P s')
    (hremove : ∀ s i, P s → i < s.num → P (s.removeAt i)) {ipset : List UInt8 → Option ℕ}
    {st : IpgrpCtl} (h : P st.conf) (buf : List UInt8) : P (nosIpgrpWrite ipset st buf).2.conf := by
  have hcommand : ∀ (st : IpgrpCtl) id name, P st.conf → P (ipgrpCommand ipset st id name).2.conf := by
    intro st id name h
    unfold ipgrpCommand
    split
    · split
      next conf hok => exact hset _ _ _ h hok
      next => exact h
    · split
      next => exact h
      next k _ =>
        dsimp only
        split
        next conf hok => exact hset _ _ _ h hok
        next => exact h
  have hline : ∀ (st : IpgrpCtl) data, P st.conf → P (ipgrpLine ipset st data).2.conf := by
    intro st data h
    unfold ipgrpLine
    split
    · exact hempty _
    split
    · split
      · exact hcommand st _ _ h
      · exact h
    split
    · split
      · split
        next st' hdel =>
          unfold nosIpgrpDelete at hdel
          split at hdel
          · cases hdel
          next i hi =>
            cases hdel
            exact hremove _ i h (findSlot_eq_some hi).1
        next => exact h
      · exact h
    split
    · exact h
    · exact h
  unfold nosIpgrpWrite
  split
  · exact h
  · exact h
  · exact h
  next data l line _ => exact hline { st with line := line } data h

/-- What the commands of rules keep holds behind every write. -/
theorem nosAuthWrite_keeps {P : Slots AuthRule → Prop} (hempty : ∀ slot, P ⟨0, slot⟩)
    (hset : ∀ s r s', P s → nosAuthSet s r = .ok s' → P s')
    (hremove : ∀ s i, P s → i < s.num → P (s.removeAt i)) {ipset : List UInt8 → Option ℕ}
    {st : AuthCtl} (h : P st.conf) (buf : List UInt8) : P (nosAuthWrite ipset st buf).2.conf := by
  have hcommand : ∀ (st : AuthCtl) data id zone ipgrp, P st.conf →
      P (authCommand ipset st data id zone ipgrp).2.conf := by
    intro st data id zone ipgrp h
    unfold authCommand
    split
    next => exact h
    next =>
      split
      next conf hok => exact hset _ _ _ h hok
      next => exact h
  have hbypass : ∀ (st : AuthCtl) name, P st.conf → P (bypassCommand ipset st name).2.conf := by
    intro st name h
    unfold bypassCommand
    split <;> exact h
  have hline : ∀ (st : AuthCtl) data, P st.conf → P (authLine ipset st data).2.conf := by
    intro st data h
    unfold authLine
    split
    · exact hempty _
    split
    · split
      · exact hcommand st data _ _ _ h
      · exact h
    split
    · split
      · split
        next st' hdel =>
          unfold nosAuthDelete at hdel
          split at hdel
          · cases hdel
          next i hi =>
            cases hdel
            exact hremove _ i h (findSlot_eq_some hi).1
        next => exact h
      · exact h
    split
    · split
      · split <;> exact h
      · exact h
    split
    · split <;> exact h
    split
    · exact h
    split
    · split
      · split
        · exact h
        · exact hbypass st _ h
      · exact h
    · exact h
  unfold nosAuthWrite
  split
  · exact h
  · exact h
  · exact h
  next data l line _ => exact hline { st with line := line } data h

/-- The slots hold a list of groups that has its bounds. -/
def HoldsIpgrp (s : Slots IpGrp) : Prop := ∃ conf : IpgrpConf, s.entries = conf.ipgrp

/-- The slots hold a list of rules that has its bounds. -/
def HoldsAuth (s : Slots AuthRule) : Prop := ∃ conf : AuthConf, s.entries = conf.auth

theorem HoldsIpgrp.set {s s' : Slots IpGrp} {g : IpGrp} (h : HoldsIpgrp s)
    (hset : nosIpgrpSet s g = .ok s') : HoldsIpgrp s' := by
  obtain ⟨conf, hconf⟩ := h
  have hentries := nosIpgrpSet_entries hconf g
  rw [hset] at hentries
  cases hlist : Nos.nosIpgrpSet conf g with
  | error e =>
    rw [hlist] at hentries
    cases hentries
  | ok conf' =>
    rw [hlist] at hentries
    exact ⟨conf', Except.ok.inj hentries⟩

theorem HoldsAuth.set {s s' : Slots AuthRule} {r : AuthRule} (h : HoldsAuth s)
    (hset : nosAuthSet s r = .ok s') : HoldsAuth s' := by
  obtain ⟨conf, hconf⟩ := h
  have hentries := nosAuthSet_entries hconf r
  rw [hset] at hentries
  cases hlist : Nos.nosAuthSet conf r with
  | error e =>
    rw [hlist] at hentries
    cases hentries
  | ok conf' =>
    rw [hlist] at hentries
    exact ⟨conf', Except.ok.inj hentries⟩

/-- A group less is a list within the same bounds. -/
theorem HoldsIpgrp.removeAt {s : Slots IpGrp} (h : HoldsIpgrp s) {i : ℕ} (hi : i < s.num) :
    HoldsIpgrp (s.removeAt i) := by
  obtain ⟨conf, hconf⟩ := h
  have hsub : List.Sublist (s.removeAt i).entries conf.ipgrp := by
    rw [entries_removeAt hi, hconf]
    exact List.eraseIdx_sublist _ _
  exact ⟨⟨_, fun g hg => conf.id_lt g (hsub.subset hg), conf.nodup.sublist (hsub.map _)⟩, rfl⟩

theorem HoldsAuth.removeAt {s : Slots AuthRule} (h : HoldsAuth s) {i : ℕ} (hi : i < s.num) :
    HoldsAuth (s.removeAt i) := by
  obtain ⟨conf, hconf⟩ := h
  have hsub : List.Sublist (s.removeAt i).entries conf.auth := by
    rw [entries_removeAt hi, hconf]
    exact List.eraseIdx_sublist _ _
  exact ⟨⟨_, fun r hr => conf.ipgrp_lt r (hsub.subset hr), fun r hr => conf.zone_lt r (hsub.subset hr),
    fun r hr => conf.id_lt r (hsub.subset hr)⟩, rfl⟩

/-- In every run of writes to the two control files the slots hold lists that the matching of
packets and the authentication hook are about. -/
theorem run_holds (noFlowTimeout : UInt32) (events : List CtlEvent) :
    HoldsIpgrp (Ctl.run noFlowTimeout events).ipgrp.conf
      ∧ HoldsAuth (Ctl.run noFlowTimeout events).auth.conf := by
  have hgrp : ∀ slot, HoldsIpgrp ⟨0, slot⟩ := fun _ => ⟨Nos.nosIpgrpCleanup, rfl⟩
  have hauth : ∀ slot, HoldsAuth ⟨0, slot⟩ := fun _ => ⟨Nos.nosAuthCleanup, rfl⟩
  induction events using List.reverseRecOn with
  | nil => exact ⟨hgrp _, hauth _⟩
  | append_singleton events e ih =>
    unfold Ctl.run at ih ⊢
    rw [List.foldl_concat]
    cases e with
    | auth ipset buf =>
      exact ⟨ih.1, nosAuthWrite_keeps hauth (fun _ _ _ h => h.set) (fun _ _ h => h.removeAt) ih.2 buf⟩
    | ipgrp ipset buf =>
      exact ⟨nosIpgrpWrite_keeps hgrp (fun _ _ _ h => h.set) (fun _ _ h => h.removeAt) ih.1 buf, ih.2⟩
    | authFault data => exact ih
    | ipgrpFault data => exact ih

end NosCtl
