/-
# IP groups and the authentication rules over them

`nos_ipgrp.c` keeps up to 64 ip groups and computes, for a packet, the 64-bit
word of the groups its address belongs to.  `nos_auth.c` reads that word when it
looks for the first authentication rule of a user.  Both build their masks with
`1 << id` on an `int`, so the operand is 32 bits wide before it meets the
64-bit word.  The ipset lookups are an oracle.
-/
import Mathlib.Data.Int.Notation
import Mathlib.Data.List.Nodup
import Mathlib.Tactic.Common

namespace Nos

/-- `MAX_IPGRP`. -/
def maxIpgrp : ℕ := 64

/-- `MAX_AUTH`. -/
def maxAuth : ℕ := 16

/-- `INVALID_ZONE_ID`. -/
def invalidZoneId : ℕ := 255

/-- `INVALID_AUTH_RULE_ID`. -/
def invalidAuthRuleId : ℕ := 255

/-- The error codes of the two control files. -/
inductive Errno where
  | einval
  | eexist
  | enospc
  | enoent
deriving DecidableEq, Repr

/-! ## The group store -/

/-- `struct ip_grp_t`; `ipset = none` is the `ipset_set == NULL` of an `@all` group. -/
structure IpGrp where
  id : ℕ
  ipset : Option ℕ
deriving DecidableEq, Repr

/-- `struct ipgrp_conf`, with what `nos_ipgrp_set` checks before it appends. -/
structure IpgrpConf where
  ipgrp : List IpGrp
  id_lt : ∀ g ∈ ipgrp, g.id < maxIpgrp
  nodup : (ipgrp.map IpGrp.id).Nodup

/-- `nos_ipgrp_cleanup` and the state after `ipgrp_conf_init`. -/
def nosIpgrpCleanup : IpgrpConf where
  ipgrp := []
  id_lt := by simp
  nodup := by simp

/-- `nos_ipgrp_set`. -/
def nosIpgrpSet (conf : IpgrpConf) (g : IpGrp) : Except Errno IpgrpConf :=
  if hid : maxIpgrp ≤ g.id then .error .einval
  else if hdup : g.id ∈ conf.ipgrp.map IpGrp.id then .error .eexist
  else if conf.ipgrp.length = maxIpgrp then .error .enospc
  else .ok {
    ipgrp := conf.ipgrp ++ [g]
    id_lt := by
      intro x hx
      rcases List.mem_append.1 hx with h | h
      · exact conf.id_lt x h
      · rw [List.mem_singleton.1 h]
        omega
    nodup := by
      rw [List.map_append, List.map_singleton]
      refine conf.nodup.append (List.nodup_singleton _) ?_
      intro x hx hxg
      rw [List.mem_singleton.1 hxg] at hx
      exact hdup hx }

/-- `nos_ipgrp_delete`: the entry with the id goes and the later ones move down. -/
def nosIpgrpDelete (conf : IpgrpConf) (id : ℕ) : Except Errno IpgrpConf :=
  if id ∈ conf.ipgrp.map IpGrp.id then .ok {
    ipgrp := conf.ipgrp.eraseP fun g => g.id == id
    id_lt := fun g hg => conf.id_lt g (List.mem_of_mem_eraseP hg)
    nodup := conf.nodup.sublist (List.eraseP_sublist.map IpGrp.id) }
  else .error .enoent

/-! ## Matching a packet -/

/-- What the ipset module answers for one packet: `ip_set_test_src_ip` and its siblings, by set
    index. -/
structure IpSetOracle where
  testSrcIp : ℕ → ℤ
  testDstIp : ℕ → ℤ
  testSrcMac : ℕ → ℤ

/-- `1 << id` as it meets a `uint64_t`: the shift is done on an `int`, where the
    machine takes the low five bits of the amount, and the conversion repeats the
    sign bit. -/
def oneShl (id : ℕ) : BitVec 64 := (1#32 <<< (id % 32)).signExtend 64

/-- The packet's address belongs to the group. -/
def IpGrp.holds (test : ℕ → ℤ) (g : IpGrp) : Bool :=
  match g.ipset with
  | none => true
  | some ipset => 0 < test ipset

/-- The loop of `nos_ipgrp_match_src` and `nos_ipgrp_match_dst`. -/
def nosIpgrpMatch (test : ℕ → ℤ) (conf : IpgrpConf) : BitVec 64 :=
  conf.ipgrp.foldl (fun bits g => if g.holds test then bits ||| oneShl g.id else bits) 0#64

/-- `nos_ipgrp_match_src`. -/
def nosIpgrpMatchSrc (ipset : IpSetOracle) (conf : IpgrpConf) : BitVec 64 :=
  nosIpgrpMatch ipset.testSrcIp conf

/-- `nos_ipgrp_match_dst`. -/
def nosIpgrpMatchDst (ipset : IpSetOracle) (conf : IpgrpConf) : BitVec 64 :=
  nosIpgrpMatch ipset.testDstIp conf

/-- Group `id` is configured and the address belongs to its set. -/
def IpgrpConf.Member (conf : IpgrpConf) (test : ℕ → ℤ) (id : ℕ) : Prop :=
  ∃ g ∈ conf.ipgrp, g.id = id ∧ g.holds test = true

/-! ## The authentication hook -/

/-- `AUTH_TYPE_UNKNOWN`, `AUTH_TYPE_AUTO` and `AUTH_TYPE_WEB`. -/
inductive AuthType where
  | unknown
  | auto
  | web
deriving DecidableEq, Repr

/-- The values of `hdr.status`. -/
inductive AuthStatus where
  | none
  | ok
  | bypass
  | req
deriving DecidableEq, Repr

/-- `struct auth_rule_t`. -/
structure AuthRule where
  id : ℕ
  srcZoneId : ℕ
  srcIpgrpId : ℕ
  authType : AuthType
  ipWhiteList : Option ℕ
  macWhiteList : Option ℕ
deriving DecidableEq, Repr

/-- `struct auth_conf`, with what `nos_auth_set` checks before it appends. -/
structure AuthConf where
  auth : List AuthRule
  ipgrp_lt : ∀ r ∈ auth, r.srcIpgrpId < maxIpgrp
  zone_lt : ∀ r ∈ auth, r.srcZoneId < invalidZoneId
  id_lt : ∀ r ∈ auth, r.id < maxAuth

/-- The state after `auth_conf_init`. -/
def nosAuthCleanup : AuthConf where
  auth := []
  ipgrp_lt := by simp
  zone_lt := by simp
  id_lt := by simp

/-- `nos_auth_set`. -/
def nosAuthSet (conf : AuthConf) (r : AuthRule) : Except Errno AuthConf :=
  if hid : maxAuth ≤ r.id then .error .einval
  else if hz : invalidZoneId ≤ r.srcZoneId then .error .einval
  else if hg : maxIpgrp ≤ r.srcIpgrpId then .error .einval
  else if r.id ∈ conf.auth.map AuthRule.id then .error .eexist
  else if conf.auth.length = maxAuth then .error .enospc
  else .ok {
    auth := conf.auth ++ [r]
    ipgrp_lt := by
      intro x hx
      rcases List.mem_append.1 hx with h | h
      · exact conf.ipgrp_lt x h
      · rw [List.mem_singleton.1 h]
        omega
    zone_lt := by
      intro x hx
      rcases List.mem_append.1 hx with h | h
      · exact conf.zone_lt x h
      · rw [List.mem_singleton.1 h]
        omega
    id_lt := by
      intro x hx
      rcases List.mem_append.1 hx with h | h
      · exact conf.id_lt x h
      · rw [List.mem_singleton.1 h]
        omega }

/-- The fields of a user's header that the hook reads and writes. -/
structure UserHdr where
  zoneId : ℕ
  ipgrpBits : BitVec 64
  ruleMagic : ℕ
  type : AuthType
  status : AuthStatus
  ruleId : ℕ
deriving DecidableEq, Repr

/-- The test on one rule in the loop of `nos_auth_hook`. -/
def AuthRule.applies (r : AuthRule) (ui : UserHdr) : Bool :=
  ui.zoneId == r.srcZoneId && ui.ipgrpBits &&& oneShl r.srcIpgrpId != 0#64

/-- The status a web user gets from the white lists of the rule. -/
def AuthRule.webStatus (ipset : IpSetOracle) (r : AuthRule) : AuthStatus :=
  if r.ipWhiteList.any fun s => 0 < ipset.testSrcIp s then .bypass
  else if r.macWhiteList.any fun s => 0 < ipset.testSrcMac s then .bypass
  else .req

/-- The first half of `nos_auth_hook`: the user is looked up again when the
    configuration changed, and the first rule that applies decides. -/
def nosAuthHook (ipset : IpSetOracle) (conf : AuthConf) (gAuthConfMagic : ℕ) (ui : UserHdr) :
    UserHdr :=
  if (ui.ruleMagic ≠ gAuthConfMagic ∧ ui.status ≠ .ok) ∨ ui.status = .none then
    let ui' := { ui with
      ruleMagic := gAuthConfMagic, type := .unknown, status := .bypass,
      ruleId := invalidAuthRuleId }
    match conf.auth.find? fun r => r.applies ui' with
    | none => ui'
    | some r =>
      match r.authType with
      | .auto => { ui' with ruleId := r.id, type := .auto, status := .ok }
      | _ => { ui' with ruleId := r.id, type := .web, status := r.webStatus ipset }
  else ui

/-! ## Which bits the masks hold -/

theorem oneShl_getLsbD {id i : ℕ} (hi : i < 64) :
    (oneShl id).getLsbD i = true ↔ i = id % 32 ∨ (id % 32 = 31 ∧ 31 ≤ i) := by
  have hlt : id % 32 < 32 := Nat.mod_lt _ (by omega)
  unfold oneShl
  rw [BitVec.getLsbD_signExtend, BitVec.getLsbD_shiftLeft, BitVec.msb_eq_getLsbD_last,
    BitVec.getLsbD_shiftLeft]
  simp only [BitVec.getLsbD_one]
  split
  · simp
    omega
  · simp
    omega

theorem foldl_or_getLsbD (test : ℕ → ℤ) (l : List IpGrp) (b : BitVec 64) (i : ℕ) :
    (l.foldl (fun bits g => if g.holds test then bits ||| oneShl g.id else bits) b).getLsbD i = true
      ↔ b.getLsbD i = true ∨ ∃ g ∈ l, g.holds test = true ∧ (oneShl g.id).getLsbD i = true := by
  induction l generalizing b with
  | nil => simp
  | cons g l ih =>
    rw [List.foldl_cons, ih]
    by_cases hg : g.holds test
    · simp [hg, or_assoc]
    · simp [hg]

/-- A bit of the word is set exactly when a group that holds the address puts it there. -/
theorem nosIpgrpMatch_getLsbD (test : ℕ → ℤ) (conf : IpgrpConf) {i : ℕ} (hi : i < 64) :
    (nosIpgrpMatch test conf).getLsbD i = true ↔
      ∃ id, conf.Member test id ∧ (i = id % 32 ∨ (id % 32 = 31 ∧ 31 ≤ i)) := by
  unfold nosIpgrpMatch IpgrpConf.Member
  rw [foldl_or_getLsbD]
  constructor
  · rintro (h | ⟨g, hg, hh, hb⟩)
    · simp at h
    · exact ⟨g.id, ⟨g, hg, rfl, hh⟩, (oneShl_getLsbD hi).1 hb⟩
  · rintro ⟨id, ⟨g, hg, rfl, hh⟩, hb⟩
    exact Or.inr ⟨g, hg, hh, (oneShl_getLsbD hi).2 hb⟩

theorem IpgrpConf.Member.lt {conf : IpgrpConf} {test : ℕ → ℤ} {id : ℕ} (h : conf.Member test id) :
    id < 64 := by
  obtain ⟨g, hg, rfl, -⟩ := h
  exact conf.id_lt g hg

/-! ## When the word is right -/

/-- Bit `g` of the word tells whether the address belongs to group `g`. -/
def Exact (test : ℕ → ℤ) (conf : IpgrpConf) : Prop :=
  ∀ g < 64, (nosIpgrpMatch test conf).getLsbD g = true ↔ conf.Member test g

/-- The address is in no group from 31 on. -/
def Low (test : ℕ → ℤ) (conf : IpgrpConf) : Prop :=
  ∀ g, conf.Member test g → g < 31

/-- All 64 groups are configured and hold the address. -/
def Full (test : ℕ → ℤ) (conf : IpgrpConf) : Prop :=
  ∀ g < 64, conf.Member test g

theorem exact_of_low {test : ℕ → ℤ} {conf : IpgrpConf} (h : Low test conf) : Exact test conf := by
  intro g hg
  rw [nosIpgrpMatch_getLsbD test conf hg]
  constructor
  · rintro ⟨id, hm, hbit⟩
    have hlow := h id hm
    have hid : id = g := by omega
    rwa [← hid]
  · intro hm
    have hlow := h g hm
    exact ⟨g, hm, Or.inl (by omega)⟩

theorem exact_of_full {test : ℕ → ℤ} {conf : IpgrpConf} (h : Full test conf) : Exact test conf := by
  intro g hg
  rw [nosIpgrpMatch_getLsbD test conf hg]
  refine iff_of_true ?_ (h g hg)
  by_cases hlow : g < 31
  · exact ⟨g, h g hg, Or.inl (by omega)⟩
  · exact ⟨31, h 31 (by omega), Or.inr ⟨by omega, by omega⟩⟩

/-- A group from 31 on drags all 64 in: its mask has bits of other groups, and one of
    these has the sign bit. -/
theorem full_of_exact {test : ℕ → ℤ} {conf : IpgrpConf} (h : Exact test conf) {g : ℕ}
    (hm : conf.Member test g) (hg : 31 ≤ g) : Full test conf := by
  have hlt := hm.lt
  have spread : ∀ {id i : ℕ}, conf.Member test id → i < 64 →
      (i = id % 32 ∨ (id % 32 = 31 ∧ 31 ≤ i)) → conf.Member test i := by
    intro id i hid hi hbit
    exact (h i hi).1 ((nosIpgrpMatch_getLsbD test conf hi).2 ⟨id, hid, hbit⟩)
  -- some member has its low five bits all set, since bit `g` itself is in the word
  obtain ⟨id, hid, hbit⟩ := (nosIpgrpMatch_getLsbD test conf hlt).1 ((h g hlt).2 hm)
  have hsign : id % 32 = 31 := by
    have := Nat.mod_lt id (show 0 < 32 by omega)
    omega
  have high : ∀ i, 31 ≤ i → i < 64 → conf.Member test i :=
    fun i hi hi' => spread hid hi' (Or.inr ⟨hsign, hi⟩)
  intro i hi
  by_cases hlow : i < 31
  · exact spread (high (i + 32) (by omega) (by omega)) hi (Or.inl (by omega))
  · exact high i (by omega) hi

theorem exact_iff (test : ℕ → ℤ) (conf : IpgrpConf) :
    Exact test conf ↔ Low test conf ∨ Full test conf := by
  constructor
  · intro h
    by_cases hlow : Low test conf
    · exact Or.inl hlow
    · unfold Low at hlow
      push Not at hlow
      obtain ⟨g, hm, hg⟩ := hlow
      exact Or.inr (full_of_exact h hm (by omega))
  · rintro (h | h)
    · exact exact_of_low h
    · exact exact_of_full h

/-! ## When the rules read the word right -/

/-- The loop's test looks for any bit of the rule's mask in the user's word. -/
theorem applies_iff (r : AuthRule) (ui : UserHdr) :
    r.applies ui = true ↔ ui.zoneId = r.srcZoneId ∧
      ∃ i < 64, ui.ipgrpBits.getLsbD i = true
        ∧ (i = r.srcIpgrpId % 32 ∨ (r.srcIpgrpId % 32 = 31 ∧ 31 ≤ i)) := by
  unfold AuthRule.applies
  rw [Bool.and_eq_true, beq_iff_eq, bne_iff_ne, ne_eq]
  refine and_congr_right fun _ => ?_
  constructor
  · intro hne
    by_contra hnone
    push Not at hnone
    refine hne (BitVec.eq_of_getLsbD_eq fun i hi => ?_)
    rw [BitVec.getLsbD_and, BitVec.getLsbD_zero, Bool.and_eq_false_iff]
    by_cases hbit : ui.ipgrpBits.getLsbD i = true
    · refine Or.inr (Bool.eq_false_iff.2 fun hmask => ?_)
      have hor := (oneShl_getLsbD hi).1 hmask
      have hnot := hnone i hi hbit
      omega
    · exact Or.inl (Bool.eq_false_iff.2 hbit)
  · rintro ⟨i, hi, hbit, hmask⟩ hzero
    have hand := congrArg (fun w => BitVec.getLsbD w i) hzero
    simp [hbit, (oneShl_getLsbD hi).2 hmask] at hand

/-- The user's header as `nos_fw_hook` hands it to the authentication hook. -/
def UserHdr.classified (ui : UserHdr) (ipset : IpSetOracle) (conf : IpgrpConf) : UserHdr :=
  { ui with ipgrpBits := nosIpgrpMatchSrc ipset conf }

/-- The loop takes a rule for applicable exactly when the user is in its zone and the
    bit of its group is set. -/
def Reads (r : AuthRule) (ui : UserHdr) : Prop :=
  r.applies ui = true ↔ ui.zoneId = r.srcZoneId ∧ ui.ipgrpBits.getLsbD r.srcIpgrpId = true

theorem reads_of_full {ipset : IpSetOracle} {conf : IpgrpConf} (h : Full ipset.testSrcIp conf)
    {r : AuthRule} (hr : r.srcIpgrpId < 64) (ui : UserHdr) :
    Reads r (ui.classified ipset conf) := by
  have hbit : ∀ i < 64, (nosIpgrpMatchSrc ipset conf).getLsbD i = true :=
    fun i hi => (exact_of_full h i hi).2 (h i hi)
  unfold Reads
  rw [applies_iff]
  refine and_congr_right fun _ => iff_of_true ?_ (hbit _ hr)
  exact ⟨r.srcIpgrpId % 32, by omega, hbit _ (by omega), Or.inl rfl⟩

/-- With only low groups in the word, a rule is misread exactly when it names a group
    whose number is 32 above one of them. -/
theorem reads_iff_of_low {ipset : IpSetOracle} {conf : IpgrpConf} (h : Low ipset.testSrcIp conf)
    {r : AuthRule} (hr : r.srcIpgrpId < 64) (ui : UserHdr) :
    Reads r (ui.classified ipset conf) ↔ (ui.zoneId = r.srcZoneId → 32 ≤ r.srcIpgrpId →
      ¬ conf.Member ipset.testSrcIp (r.srcIpgrpId - 32)) := by
  have hword : ∀ i < 64, (nosIpgrpMatchSrc ipset conf).getLsbD i = true ↔
      conf.Member ipset.testSrcIp i := exact_of_low h
  unfold Reads
  rw [applies_iff]
  change (ui.zoneId = r.srcZoneId ∧ (∃ i < 64, (nosIpgrpMatchSrc ipset conf).getLsbD i = true ∧ _) ↔
    ui.zoneId = r.srcZoneId ∧ (nosIpgrpMatchSrc ipset conf).getLsbD r.srcIpgrpId = true) ↔ _
  constructor
  · intro hread hz hge hm
    have hlow := h _ hm
    have hset := (hread.1 ⟨hz, r.srcIpgrpId - 32, by omega, (hword _ (by omega)).2 hm,
      Or.inl (by omega)⟩).2
    have := h _ ((hword _ hr).1 hset)
    omega
  · intro hnot
    refine and_congr_right fun hz => ⟨?_, ?_⟩
    · rintro ⟨i, hi, hset, hmask⟩
      have hm := (hword i hi).1 hset
      have hlow := h i hm
      by_cases hge : 32 ≤ r.srcIpgrpId
      · exact absurd (by rwa [show r.srcIpgrpId - 32 = i by omega]) (hnot hz hge)
      · rwa [show r.srcIpgrpId = i by omega]
    · intro hset
      have hlow := h _ ((hword _ hr).1 hset)
      exact ⟨r.srcIpgrpId, hr, hset, Or.inl (by omega)⟩

/-- The two words tell the membership in every group and every rule reads the source
    word right, exactly when the groups the addresses belong to are below 31 (or are all
    64) and no rule of the user's zone names the group 32 above one of them. -/
theorem ipgrp_bits_exact_iff (ipset : IpSetOracle) (conf : IpgrpConf) (auth : AuthConf)
    (ui : UserHdr) :
    ((∀ g < 64, (nosIpgrpMatchSrc ipset conf).getLsbD g = true ↔ conf.Member ipset.testSrcIp g)
      ∧ (∀ g < 64, (nosIpgrpMatchDst ipset conf).getLsbD g = true
          ↔ conf.Member ipset.testDstIp g)
      ∧ ∀ r ∈ auth.auth, Reads r (ui.classified ipset conf)) ↔
    (Full ipset.testSrcIp conf ∨ (Low ipset.testSrcIp conf ∧
        ∀ r ∈ auth.auth, ui.zoneId = r.srcZoneId → 32 ≤ r.srcIpgrpId →
          ¬ conf.Member ipset.testSrcIp (r.srcIpgrpId - 32)))
      ∧ (Low ipset.testDstIp conf ∨ Full ipset.testDstIp conf) := by
  change Exact ipset.testSrcIp conf ∧ Exact ipset.testDstIp conf ∧ _ ↔ _
  rw [exact_iff ipset.testDstIp conf]
  constructor
  · rintro ⟨hsrc, hdst, hrules⟩
    refine ⟨?_, hdst⟩
    rcases (exact_iff _ _).1 hsrc with hlow | hfull
    · exact Or.inr ⟨hlow, fun r hr =>
        (reads_iff_of_low hlow (auth.ipgrp_lt r hr) ui).1 (hrules r hr)⟩
    · exact Or.inl hfull
  · rintro ⟨hfull | ⟨hlow, hrules⟩, hdst⟩
    · exact ⟨exact_of_full hfull, hdst, fun r hr => reads_of_full hfull (auth.ipgrp_lt r hr) ui⟩
    · exact ⟨exact_of_low hlow, hdst, fun r hr =>
        (reads_iff_of_low hlow (auth.ipgrp_lt r hr) ui).2 (hrules r hr)⟩

/-- One `@all` group with the highest id whose shift the language still defines up to the sign. -/
def groupThirtyOne : IpgrpConf where
  ipgrp := [⟨31, none⟩]
  id_lt := by decide
  nodup := by decide

/-- With group 31 alone the word also says that the address is in group 63. -/
theorem group_thirtyOne_spreads :
    ¬ ∀ g < 64, (nosIpgrpMatchSrc ⟨fun _ => 0, fun _ => 0, fun _ => 0⟩ groupThirtyOne).getLsbD g = true
      ↔ groupThirtyOne.Member (fun _ => 0) g := by
  intro h
  have hbit : (nosIpgrpMatchSrc ⟨fun _ => 0, fun _ => 0, fun _ => 0⟩ groupThirtyOne).getLsbD 63
      = true := by decide
  obtain ⟨g, hg, hid, -⟩ := (h 63 (by omega)).1 hbit
  rw [show g = ⟨31, none⟩ by simpa [groupThirtyOne] using hg] at hid
  exact absurd hid (by decide)

end Nos
