/-
# Rule tables as the kernel reads them

The table half of `nacs_table.c`: `translate_table` checks a block of user space,
`__do_table` walks its entries and returns the target of the first one that
matches.  A pointer into the block is the list of the bytes from there to its
end; an access behind the end is a failure of the model.
-/
import OpenwrtAc.ByteCodec
import OpenwrtAc.RuleTable

open ByteCodec RuleTable

namespace Nacs

/-! ## Requests -/

/-- `struct nac_table_req`: the zones, the group masks and the protocol of a flow. -/
structure TableReq where
  srcZone : UInt8
  dstZone : UInt8
  srcIpgrpBits : BitVec 64
  dstIpgrpBits : BitVec 64
  protoId : ℕ
  protoId_lt : protoId < 2 ^ 32
deriving DecidableEq

/-! ## Matching one entry -/

/-- `ac_zone_check`: the first `number` bytes hold the zone or the wildcard. -/
def acZoneCheck (zoneId : UInt8) : ℕ → List UInt8 → Option Bool
  | 0, _ => some false
  | _ + 1, [] => none
  | number + 1, z :: zone =>
    if z = zoneId ∨ acZoneMaxid ≤ z.toNat then some true else acZoneCheck zoneId number zone

/-- `ac_ipgrp_check`: the first `number` bytes hold a group of the mask or the wildcard. -/
def acIpgrpCheck (bits : BitVec 64) : ℕ → List UInt8 → Option Bool
  | 0, _ => some false
  | _ + 1, [] => none
  | number + 1, g :: ipgrp =>
    if g.toNat < 64 ∧ bits.getLsbD g.toNat = true then some true
    else if acIpgrpMaxid ≤ g.toNat then some true
    else acIpgrpCheck bits number ipgrp

/-- `flow_match_check`: the four lists behind the header, one after the other, until one
    does not match; the number of a list is read when it is come to. -/
def flowMatchCheck (req : TableReq) (m : List UInt8) : Option Bool := do
  let base := m.drop sizeofFlowMatch
  let n0 ← rd16 m
  if ← acZoneCheck req.srcZone n0 base then
    let n1 ← rd16 (m.drop 2)
    if ← acIpgrpCheck req.srcIpgrpBits n1 (base.drop n0) then
      let n2 ← rd16 (m.drop 4)
      if ← acZoneCheck req.dstZone n2 (base.drop (n0 + n1)) then
        let n3 ← rd16 (m.drop 6)
        acIpgrpCheck req.dstIpgrpBits n3 (base.drop (n0 + n1 + n2))
      else return false
    else return false
  else return false

/-- The loop of `binary_search` with its bounds; it is run at most `fuel` times. -/
def binarySearchLoop (protoId : ℕ → Option ℕ) (value : ℕ) : ℕ → ℤ → ℤ → Option ℤ
  | 0, left, right => if left ≤ right then none else some (-1)
  | fuel + 1, left, right =>
    if left ≤ right then
      let middle := left + (right - left) / 2
      match protoId middle.toNat with
      | none => none
      | some p =>
        if value < p then binarySearchLoop protoId value fuel left (middle - 1)
        else if p < value then binarySearchLoop protoId value fuel (middle + 1) right
        else some middle
    else some (-1)

/-- `binary_search`: an index, or `-1`. -/
def binarySearch (protoId : ℕ → Option ℕ) (number value : ℕ) : Option ℤ :=
  binarySearchLoop protoId value number 0 (number - 1)

/-- `proto_match_check`. -/
def protoMatchCheck (protoId : ℕ) (m : List UInt8) : Option Bool := do
  let number ← rd16 m
  let elems := m.drop sizeofProtoMatch
  let idx ← binarySearch (fun i => rd32 (elems.drop (4 * i))) number protoId
  return !(idx < 0)

/-! ## Walking a table -/

/-- What a matching entry gives: the flags of its target and its id. -/
structure Hit where
  flags : ℕ
  entryId : ℕ
deriving DecidableEq, Repr

/-- The body of the loop of `__do_table` at one entry. -/
def entryCheck (req : TableReq) (entry : List UInt8) : Option (Option Hit) := do
  let entryId ← rd16 entry
  let protoMatchOffset ← rd16 (entry.drop 2)
  let targetOffset ← rd16 (entry.drop 4)
  if ← flowMatchCheck req (entry.drop sizeofEntry) then
    if ← protoMatchCheck req.protoId (entry.drop protoMatchOffset) then
      let flags ← rd32 ((entry.drop targetOffset).drop 4)
      return some ⟨flags, entryId⟩
    else return none
  else return none

/-- `ac_entry_foreach` in `__do_table`; it is run at most `fuel` times.  The inner `none` is
    the `-1` of a table without a match. -/
def doTableLoop (req : TableReq) : ℕ → List UInt8 → Option (Option Hit)
  | _, [] => some none
  | 0, _ :: _ => none
  | fuel + 1, b :: bs =>
    let entry := b :: bs
    match entryCheck req entry, rd16 (entry.drop 6) with
    -- `ret` is an `int`, and flags of all ones read as the `-1` of no match
    | some (some hit), _ => some (if hit.flags = 2 ^ 32 - 1 then none else some hit)
    | some none, some nextOffset => doTableLoop req fuel (entry.drop nextOffset)
    | _, _ => none

/-- `__do_table` on the entries of a table. -/
def doTable (req : TableReq) (entries : List UInt8) : Option (Option Hit) :=
  doTableLoop req entries.length entries

/-! ## Accepting a table -/

/-- The walk of `translate_table` with `check_entry_size`: the number of entries, `none` when
    one of them reaches behind the limit or does not stand at a multiple of 8. -/
def checkEntries : ℕ → ℕ → List UInt8 → Option ℕ
  | _, _, [] => some 0
  | 0, _, _ :: _ => none
  | fuel + 1, off, b :: bs =>
    let entry := b :: bs
    match rd16 (entry.drop 6) with
    | none => none
    | some nextOffset =>
      if entry.length < nextOffset ∨ off % 8 ≠ 0 then none
      else (checkEntries fuel (off + nextOffset) (entry.drop nextOffset)).map (· + 1)

/-- `translate_table`: whether the `size` bytes that were copied are accepted as a table.
    The first entry stands at a cache line. -/
def translateTable (t : ReplTable) : Bool :=
  t.category < 2 && checkEntries t.size 0 (t.entries.take t.size) == some t.number

/-! ## What a table means -/

/-- The list has the id or the wildcard. -/
def hasZone (l : List ℕ) (zone : UInt8) : Bool := zone.toNat ∈ l || acZoneMaxid ∈ l

/-- The list has a group of the mask or the wildcard. -/
def hasIpgrp (l : List ℕ) (bits : BitVec 64) : Bool :=
  l.any (fun g => bits.getLsbD g) || acIpgrpMaxid ∈ l

/-- The rule is for the flow. -/
def isFor (r : RuleItem) (req : TableReq) : Bool :=
  hasZone r.srcZoneIds.ids req.srcZone && hasIpgrp r.srcIpgrpIds.ids req.srcIpgrpBits
    && hasZone r.dstZoneIds.ids req.dstZone && hasIpgrp r.dstIpgrpIds.ids req.dstIpgrpBits
    && req.protoId ∈ r.protoIds.ids

/-- The target of the first rule that is for the flow. -/
def firstMatch (rules : List RuleItem) (req : TableReq) : Option Hit :=
  (rules.find? fun r => isFor r req).map fun r => ⟨actionFlags r.action, r.id⟩

/-! ## The checks on the parts -/

/-- The loop over the zone ids computes membership. -/
theorem acZoneCheck_ids (zone : UInt8) {l : List ℕ} (hl : ∀ x ∈ l, x ≤ acZoneMaxid)
    (rest : List UInt8) :
    acZoneCheck zone l.length (l.map UInt8.ofNat ++ rest) = some (hasZone l zone) := by
  induction l with
  | nil => rfl
  | cons x l ih =>
    have hx : (UInt8.ofNat x).toNat = x := by
      rw [UInt8.toNat_ofNat']
      exact Nat.mod_eq_of_lt (Nat.lt_succ_of_le (hl x List.mem_cons_self))
    have hle := hl x List.mem_cons_self
    have hzone : UInt8.ofNat x = zone ↔ x = zone.toNat := by
      rw [← UInt8.toNat_inj, hx]
    rw [List.length_cons, List.map_cons, List.cons_append, acZoneCheck,
      ih fun y hy => hl y (List.mem_cons_of_mem x hy), hx]
    unfold hasZone acZoneMaxid at *
    by_cases h : UInt8.ofNat x = zone ∨ 255 ≤ x
    · rw [if_pos h]
      rcases h with h | h
      · simp [← hzone.1 h]
      · simp [show x = 255 by omega]
    · rw [if_neg h]
      simp only [hzone] at h
      simp [show ¬ zone.toNat = x by omega, show ¬ 255 = x by omega]

/-- The loop over the group ids computes that one of the bits is set. -/
theorem acIpgrpCheck_ids (bits : BitVec 64) {l : List ℕ} (hl : ∀ x ∈ l, x ≤ acIpgrpMaxid)
    (rest : List UInt8) :
    acIpgrpCheck bits l.length (l.map UInt8.ofNat ++ rest) = some (hasIpgrp l bits) := by
  induction l with
  | nil => rfl
  | cons x l ih =>
    have hle : x ≤ 63 := hl x List.mem_cons_self
    have hx : (UInt8.ofNat x).toNat = x := by
      rw [UInt8.toNat_ofNat']
      exact Nat.mod_eq_of_lt (by omega)
    rw [List.length_cons, List.map_cons, List.cons_append, acIpgrpCheck,
      ih fun y hy => hl y (List.mem_cons_of_mem x hy), hx]
    by_cases hbit : bits.getLsbD x = true
    · rw [if_pos ⟨by omega, hbit⟩]
      simp [hasIpgrp, hbit]
    · rw [if_neg fun h => hbit h.2]
      by_cases hwild : acIpgrpMaxid ≤ x
      · rw [if_pos hwild]
        have hx63 : acIpgrpMaxid = x := le_antisymm hwild hle
        simp [hasIpgrp, hx63]
      · rw [if_neg hwild]
        have hne : ¬ acIpgrpMaxid = x := fun h => hwild (le_of_eq h)
        simp [hasIpgrp, hbit, hne]

/-- On a sorted array the loop ends within its bounds and tells whether the value lies
    between them. -/
theorem binarySearchLoop_spec {get : ℕ → Option ℕ} {l : List ℕ} (hsort : l.Pairwise (· ≤ ·))
    (hget : ∀ i (h : i < l.length), get i = some l[i]) (value : ℕ) (fuel : ℕ) (left right : ℤ)
    (h0 : 0 ≤ left) (hr : right < l.length) (hfuel : right - left + 1 ≤ fuel) :
    ∃ k, binarySearchLoop get value fuel left right = some k ∧
      (k < 0 ↔ ∀ i (h : i < l.length), left ≤ i → i ≤ right → l[i] ≠ value) := by
  have hmono : ∀ {i j} (hi : i < l.length) (hj : j < l.length), i ≤ j → l[i] ≤ l[j] := by
    intro i j hi hj hij
    rcases Nat.lt_or_eq_of_le hij with hlt | rfl
    · exact List.pairwise_iff_getElem.1 hsort i j hi hj hlt
    · exact le_refl _
  induction fuel generalizing left right with
  | zero =>
    refine ⟨-1, by rw [binarySearchLoop, if_neg (by omega)], iff_of_true (by omega) ?_⟩
    intro i _ hl hle
    omega
  | succ fuel ih =>
    by_cases hle : left ≤ right
    · have hdiv : (right - left) / 2 ≤ right - left := by omega
      obtain ⟨m, hm⟩ : ∃ m : ℕ, left + (right - left) / 2 = m :=
        ⟨(left + (right - left) / 2).toNat, by omega⟩
      have hml : m < l.length := by omega
      rw [binarySearchLoop, if_pos hle]
      simp only [hm, Int.toNat_natCast, hget m hml]
      by_cases hgt : value < l[m]
      · -- everything from the middle on is too large
        rw [if_pos hgt]
        obtain ⟨k, hk, hiff⟩ := ih left (m - 1) h0 (by omega) (by omega)
        refine ⟨k, hk, hiff.trans ⟨fun h i hi hli hir => ?_, fun h i hi hli hir => ?_⟩⟩
        · by_cases him : i < m
          · exact h i hi hli (by omega)
          · have := hmono hml hi (by omega)
            omega
        · exact h i hi hli (by omega)
      · rw [if_neg hgt]
        by_cases hlt : l[m] < value
        · -- everything up to the middle is too small
          rw [if_pos hlt]
          obtain ⟨k, hk, hiff⟩ := ih (m + 1) right (by omega) hr (by omega)
          refine ⟨k, hk, hiff.trans ⟨fun h i hi hli hir => ?_, fun h i hi hli hir => ?_⟩⟩
          · by_cases him : m < i
            · exact h i hi (by omega) hir
            · have := hmono hi hml (by omega)
              omega
          · exact h i hi (by omega) hir
        · rw [if_neg hlt]
          refine ⟨m, rfl, iff_of_false (by omega) fun h => ?_⟩
          exact h m hml (by omega) (by omega) (by omega)
    · refine ⟨-1, by rw [binarySearchLoop, if_neg hle], iff_of_true (by omega) ?_⟩
      intro i _ hl hlr
      omega

/-- The search of a sorted list answers a nonnegative index exactly for its members. -/
theorem binarySearch_spec {get : ℕ → Option ℕ} {l : List ℕ} (hsort : l.Pairwise (· ≤ ·))
    (hget : ∀ i (h : i < l.length), get i = some l[i]) (value : ℕ) :
    ∃ k, binarySearch get l.length value = some k ∧ (0 ≤ k ↔ value ∈ l) := by
  obtain ⟨k, hk, hiff⟩ := binarySearchLoop_spec hsort hget value l.length 0 (l.length - 1)
    (by omega) (by omega) (by omega)
  refine ⟨k, hk, ?_⟩
  rw [← Int.not_lt, hiff, List.mem_iff_getElem]
  push Not
  constructor
  · rintro ⟨i, hi, -, -, he⟩
    exact ⟨i, hi, he⟩
  · rintro ⟨i, hi, he⟩
    exact ⟨i, hi, by omega, by omega, he⟩

/-! ## The parts as they are written -/

/-- Aligning does not shorten. -/
theorem acAlign_ge (n : ℕ) : n ≤ acAlign n := by
  unfold acAlign
  omega

/-- Aligning adds seven bytes at most. -/
theorem acAlign_le (n : ℕ) : acAlign n ≤ n + 7 := by
  unfold acAlign
  omega

/-- An aligned size is a multiple of eight. -/
theorem acAlign_mod (n : ℕ) : acAlign n % 8 = 0 := by
  unfold acAlign
  omega

/-- All five lists have an element and there is an action. -/
def Complete (r : RuleItem) : Prop :=
  r.srcZoneIds.ids ≠ [] ∧ r.srcIpgrpIds.ids ≠ [] ∧ r.dstZoneIds.ids ≠ [] ∧ r.dstIpgrpIds.ids ≠ []
    ∧ r.protoIds.ids ≠ [] ∧ r.action ≠ []

/-- The ids of a flow match, list after list. -/
def flowIds (r : RuleItem) : List ℕ :=
  r.srcZoneIds.ids ++ r.srcIpgrpIds.ids ++ r.dstZoneIds.ids ++ r.dstIpgrpIds.ids

/-- The bytes of a flow match, field by field. -/
def flowMatchBytes (r : RuleItem) : List UInt8 :=
  le16 r.srcZoneIds.ids.length ++ (le16 r.srcIpgrpIds.ids.length ++ (le16 r.dstZoneIds.ids.length
    ++ (le16 r.dstIpgrpIds.ids.length ++ (le16 r.flowMatchSize ++ ([0, 0, 0, 0, 0, 0]
    ++ ((flowIds r).map UInt8.ofNat
    ++ List.replicate (r.flowMatchSize - (sizeofFlowMatch + r.flowElems)) 0))))))

/-- The bytes of a protocol match, field by field. -/
def protoMatchBytes (r : RuleItem) : List UInt8 :=
  le16 r.protoIds.ids.length ++ (le16 r.protoMatchSize ++ (le16 acProtoidSortAsc ++ ([0, 0]
    ++ (r.protoIds.ids.flatMap le32
    ++ List.replicate (r.protoMatchSize - (sizeofProtoMatch + 4 * r.protoIds.ids.length)) 0))))

/-- The bytes of an entry, field by field. -/
def entryBytes (r : RuleItem) : List UInt8 :=
  le16 r.id ++ (le16 r.protoMatchOffset ++ (le16 r.targetOffset ++ (le16 r.nextOffset
    ++ (flowMatchBytes r ++ (protoMatchBytes r
    ++ (le32 sizeofTarget ++ le32 (actionFlags r.action)))))))

/-- The flow match has as many ids as its counts say. -/
theorem flowIds_length (r : RuleItem) : (flowIds r).length = r.flowElems := by
  simp only [flowIds, RuleItem.flowElems, List.length_append]

/-- The flow match of a rule that is complete. -/
theorem generateFlowMatch_eq {r : RuleItem} (h : Complete r) :
    generateFlowMatch r = some (flowMatchBytes r) := by
  obtain ⟨h1, h2, h3, h4, -, -⟩ := h
  unfold generateFlowMatch
  rw [if_neg (by simp [h1, h2, h3, h4])]
  simp only [pad, List.length_append, le16_length, List.length_map, List.length_replicate,
    Option.some.injEq, List.append_assoc]
  have hsize : 2 + (2 + (2 + (2 + (2 + (sizeofFlowMatch - (2 + (2 + (2 + (2 + 2))))
      + (r.srcZoneIds.ids.length + (r.srcIpgrpIds.ids.length + (r.dstZoneIds.ids.length
      + r.dstIpgrpIds.ids.length)))))))) = sizeofFlowMatch + r.flowElems := by
    unfold RuleItem.flowElems sizeofFlowMatch
    omega
  rw [hsize, ← List.append_assoc r.srcZoneIds.ids, ← List.append_assoc (r.srcZoneIds.ids ++ _)]
  rfl

/-- The protocol match of a rule that is complete. -/
theorem generateProtoMatch_eq {r : RuleItem} (h : Complete r) :
    generateProtoMatch r = some (protoMatchBytes r) := by
  unfold generateProtoMatch
  rw [if_neg h.2.2.2.2.1]
  simp only [pad, protoMatchBytes, List.length_append, le16_length, flatMap_le32_length,
    List.length_replicate, Option.some.injEq, List.append_assoc]
  have hsize : 2 + (2 + (2 + (sizeofProtoMatch - (2 + (2 + 2)) + 4 * r.protoIds.ids.length)))
      = sizeofProtoMatch + 4 * r.protoIds.ids.length := by
    unfold sizeofProtoMatch
    omega
  rw [hsize]
  rfl

/-- The entry of a rule that is complete. -/
theorem generateAcEntry_eq {r : RuleItem} (h : Complete r) :
    generateAcEntry r = some (entryBytes r) := by
  unfold generateAcEntry generateTarget
  rw [generateFlowMatch_eq h, generateProtoMatch_eq h, if_neg h.2.2.2.2.2]
  simp only [entryBytes, List.append_assoc]

/-- No entry is made of an incomplete rule. -/
theorem generateAcEntry_eq_none {r : RuleItem} (h : ¬ Complete r) : generateAcEntry r = none := by
  unfold generateAcEntry generateFlowMatch generateProtoMatch generateTarget
  by_cases h1 : r.srcZoneIds.ids = [] ∨ r.srcIpgrpIds.ids = [] ∨ r.dstZoneIds.ids = []
    ∨ r.dstIpgrpIds.ids = []
  · rw [if_pos h1]
  rw [if_neg h1]
  by_cases h2 : r.protoIds.ids = []
  · rw [if_pos h2]
  rw [if_neg h2]
  by_cases h3 : r.action = []
  · rw [if_pos h3]
  push Not at h1
  exact absurd ⟨h1.1, h1.2.1, h1.2.2.1, h1.2.2.2, h2, h3⟩ h

/-! ## Sizes and offsets -/

/-- The ids of a flow match fit their four lists. -/
theorem flowElems_le (r : RuleItem) : r.flowElems ≤ 4 * acIdMaxnumPermatch := by
  have h1 := r.srcZoneIds.len_le
  have h2 := r.srcIpgrpIds.len_le
  have h3 := r.dstZoneIds.len_le
  have h4 := r.dstIpgrpIds.len_le
  unfold RuleItem.flowElems
  omega

/-- The size field of a flow match is its length. -/
theorem flowMatchBytes_length (r : RuleItem) : (flowMatchBytes r).length = r.flowMatchSize := by
  have hge := acAlign_ge (r.flowElems + sizeofFlowMatch)
  have hids := flowIds_length r
  simp only [flowMatchBytes, List.length_append, le16_length, List.length_map,
    List.length_replicate, List.length_cons, List.length_nil, hids]
  unfold RuleItem.flowMatchSize sizeofFlowMatch at *
  omega

/-- The size field of a protocol match is its length. -/
theorem protoMatchBytes_length (r : RuleItem) : (protoMatchBytes r).length = r.protoMatchSize := by
  have hge := acAlign_ge (r.protoIds.ids.length * 4 + sizeofProtoMatch)
  simp only [protoMatchBytes, List.length_append, le16_length, flatMap_le32_length,
    List.length_replicate, List.length_cons, List.length_nil]
  unfold RuleItem.protoMatchSize sizeofProtoMatch at *
  omega

/-- An entry ends where its next one begins. -/
theorem entryBytes_length (r : RuleItem) : (entryBytes r).length = r.nextOffset := by
  simp only [entryBytes, List.length_append, le16_length, le32_length, flowMatchBytes_length,
    protoMatchBytes_length]
  unfold RuleItem.nextOffset RuleItem.targetOffset RuleItem.protoMatchOffset sizeofEntry sizeofTarget
  omega

/-- The largest offset of an entry leaves half of the 16 bits unused. -/
theorem nextOffset_lt (r : RuleItem) : r.nextOffset < 2 ^ 16 := by
  have h1 := flowElems_le r
  have h2 := r.protoIds.len_le
  have h3 := acAlign_le (r.flowElems + sizeofFlowMatch)
  have h4 := acAlign_le (r.protoIds.ids.length * 4 + sizeofProtoMatch)
  unfold RuleItem.nextOffset RuleItem.targetOffset RuleItem.protoMatchOffset RuleItem.flowMatchSize
    RuleItem.protoMatchSize
  unfold acIdMaxnumPermatch sizeofFlowMatch sizeofProtoMatch at *
  unfold sizeofEntry sizeofTarget
  omega

/-- The offset of the target fits its sixteen bits. -/
theorem targetOffset_lt (r : RuleItem) : r.targetOffset < 2 ^ 16 := by
  have := nextOffset_lt r
  unfold RuleItem.nextOffset at this
  omega

/-- The offset of the protocol match fits its sixteen bits. -/
theorem protoMatchOffset_lt (r : RuleItem) : r.protoMatchOffset < 2 ^ 16 := by
  have := targetOffset_lt r
  unfold RuleItem.targetOffset at this
  omega

/-- Entries are aligned. -/
theorem nextOffset_mod (r : RuleItem) : r.nextOffset % 8 = 0 := by
  have h1 := acAlign_mod (r.flowElems + sizeofFlowMatch)
  have h2 := acAlign_mod (r.protoIds.ids.length * 4 + sizeofProtoMatch)
  unfold RuleItem.nextOffset RuleItem.targetOffset RuleItem.protoMatchOffset RuleItem.flowMatchSize
    RuleItem.protoMatchSize sizeofEntry sizeofTarget
  omega

/-- The length of a list of ids fits sixteen bits. -/
theorem idList_length_lt {maxid : ℕ} (l : IdList maxid) : l.ids.length < 2 ^ 16 := by
  have := l.len_le
  unfold acIdMaxnumPermatch at this
  omega

/-! ## Reading an entry back -/

/-- The four lists of a flow match are read as they were written. -/
theorem flowMatchCheck_bytes (r : RuleItem) (req : TableReq) (rest : List UInt8) :
    flowMatchCheck req (flowMatchBytes r ++ rest) =
      some (hasZone r.srcZoneIds.ids req.srcZone && hasIpgrp r.srcIpgrpIds.ids req.srcIpgrpBits
        && hasZone r.dstZoneIds.ids req.dstZone && hasIpgrp r.dstIpgrpIds.ids req.dstIpgrpBits) := by
  obtain ⟨tail, htail⟩ : ∃ tail, tail =
    List.replicate (r.flowMatchSize - (sizeofFlowMatch + r.flowElems)) (0 : UInt8) ++ rest := ⟨_, rfl⟩
  have hbase : (flowMatchBytes r ++ rest).drop sizeofFlowMatch =
      r.srcZoneIds.ids.map UInt8.ofNat ++ (r.srcIpgrpIds.ids.map UInt8.ofNat
        ++ (r.dstZoneIds.ids.map UInt8.ofNat ++ (r.dstIpgrpIds.ids.map UInt8.ofNat ++ tail))) := by
    have hdrop : (flowMatchBytes r ++ rest).drop sizeofFlowMatch =
      (flowIds r).map UInt8.ofNat
        ++ List.replicate (r.flowMatchSize - (sizeofFlowMatch + r.flowElems)) 0 ++ rest := rfl
    rw [hdrop, htail, flowIds]
    simp only [List.map_append, List.append_assoc]
  have h0 : rd16 (flowMatchBytes r ++ rest) = some r.srcZoneIds.ids.length :=
    rd16_of_lt (idList_length_lt _) _
  have h1 : rd16 ((flowMatchBytes r ++ rest).drop 2) = some r.srcIpgrpIds.ids.length :=
    rd16_of_lt (idList_length_lt _) _
  have h2 : rd16 ((flowMatchBytes r ++ rest).drop 4) = some r.dstZoneIds.ids.length :=
    rd16_of_lt (idList_length_lt _) _
  have h3 : rd16 ((flowMatchBytes r ++ rest).drop 6) = some r.dstIpgrpIds.ids.length :=
    rd16_of_lt (idList_length_lt _) _
  have hd1 : ∀ {a : List ℕ} {b : List UInt8}, (a.map UInt8.ofNat ++ b).drop a.length = b := by
    intro a b
    exact List.drop_left' (List.length_map _)
  unfold flowMatchCheck
  simp only [h0, h1, h2, h3, Option.bind_eq_bind, Option.bind_some, hbase, ← List.drop_drop, hd1,
    acZoneCheck_ids _ r.srcZoneIds.le, acIpgrpCheck_ids _ r.srcIpgrpIds.le,
    acZoneCheck_ids _ r.dstZoneIds.le, acIpgrpCheck_ids _ r.dstIpgrpIds.le]
  cases hasZone r.srcZoneIds.ids req.srcZone <;> cases hasIpgrp r.srcIpgrpIds.ids req.srcIpgrpBits <;>
    cases hasZone r.dstZoneIds.ids req.dstZone <;> rfl

/-- The search finds a protocol exactly when the list has it. -/
theorem protoMatchCheck_bytes {r : RuleItem} (hsort : r.protoIds.ids.Pairwise (· ≤ ·)) (protoId : ℕ)
    (rest : List UInt8) :
    protoMatchCheck protoId (protoMatchBytes r ++ rest) = some (decide (protoId ∈ r.protoIds.ids)) := by
  obtain ⟨tail, htail⟩ : ∃ tail, tail = List.replicate
    (r.protoMatchSize - (sizeofProtoMatch + 4 * r.protoIds.ids.length)) (0 : UInt8) ++ rest := ⟨_, rfl⟩
  have helems : (protoMatchBytes r ++ rest).drop sizeofProtoMatch =
      r.protoIds.ids.flatMap le32 ++ tail := by
    have hdrop : (protoMatchBytes r ++ rest).drop sizeofProtoMatch = r.protoIds.ids.flatMap le32
      ++ List.replicate (r.protoMatchSize - (sizeofProtoMatch + 4 * r.protoIds.ids.length)) 0
      ++ rest := rfl
    rw [hdrop, htail, List.append_assoc]
  have hnum : rd16 (protoMatchBytes r ++ rest) = some r.protoIds.ids.length :=
    rd16_of_lt (idList_length_lt _) _
  have hlt : ∀ n ∈ r.protoIds.ids, n < 2 ^ 32 := by
    intro n hn
    have := r.protoIds.le n hn
    unfold acProtoMaxid at this
    omega
  obtain ⟨k, hk, hiff⟩ := binarySearch_spec hsort
    (fun i hi => rd32_drop r.protoIds.ids hlt tail hi) protoId
  unfold protoMatchCheck
  rw [hnum]
  simp only [Option.bind_eq_bind, Option.bind_some, helems, hk]
  by_cases hmem : protoId ∈ r.protoIds.ids
  · have := hiff.2 hmem
    simp [hmem, this]
  · have := mt hiff.1 hmem
    simp [hmem]
    omega

/-- The flags of the actions fit three bits. -/
theorem actionFlags_lt (action : List (List Char)) : actionFlags action < 2 ^ 3 := by
  have hmap : ∀ (a : List Char) (flags : ℕ), flags < 2 ^ 3 →
      targetMap.foldl (fun flags t => if strcaseeq a t.1 then flags ||| t.2 else flags) flags
        < 2 ^ 3 := by
    intro a flags hflags
    have hstep : ∀ (b : Bool) (n : ℕ) {m : ℕ}, m < 2 ^ 3 → n < 2 ^ 3 →
        (if b = true then m ||| n else m) < 2 ^ 3 := by
      intro b n m hm hn
      cases b
      · simpa using hm
      · simpa using Nat.or_lt_two_pow hm hn
    simp only [targetMap, List.foldl_cons, List.foldl_nil]
    exact hstep _ _ (hstep _ _ (hstep _ _ hflags (by decide)) (by decide)) (by decide)
  unfold actionFlags
  suffices h : ∀ flags < 2 ^ 3, action.foldl (fun flags a => targetMap.foldl
      (fun flags t => if strcaseeq a t.1 then flags ||| t.2 else flags) flags) flags < 2 ^ 3 from
    h 0 (by decide)
  induction action with
  | nil => exact fun flags h => h
  | cons a action ih => exact fun flags h => ih _ (hmap a flags h)

/-- An entry is read as the rule it was written for. -/
theorem entryCheck_bytes {r : RuleItem} (hsort : r.protoIds.ids.Pairwise (· ≤ ·)) (req : TableReq)
    (rest : List UInt8) :
    entryCheck req (entryBytes r ++ rest) =
      some (if isFor r req then some ⟨actionFlags r.action, r.id⟩ else none) := by
  have hid : rd16 (entryBytes r ++ rest) = some r.id :=
    rd16_of_lt (Nat.lt_succ_of_le r.id_le) _
  have hpm : rd16 ((entryBytes r ++ rest).drop 2) = some r.protoMatchOffset :=
    rd16_of_lt (protoMatchOffset_lt r) _
  have htg : rd16 ((entryBytes r ++ rest).drop 4) = some r.targetOffset :=
    rd16_of_lt (targetOffset_lt r) _
  obtain ⟨tail, htail⟩ : ∃ tail, tail = le32 sizeofTarget ++ le32 (actionFlags r.action) ++ rest :=
    ⟨_, rfl⟩
  have hflow : (entryBytes r ++ rest).drop sizeofEntry =
      flowMatchBytes r ++ (protoMatchBytes r ++ tail) := by
    have hdrop : (entryBytes r ++ rest).drop sizeofEntry = flowMatchBytes r ++ (protoMatchBytes r
      ++ (le32 sizeofTarget ++ le32 (actionFlags r.action))) ++ rest := rfl
    rw [hdrop, htail]
    simp only [List.append_assoc]
  have hproto : (entryBytes r ++ rest).drop r.protoMatchOffset = protoMatchBytes r ++ tail := by
    rw [RuleItem.protoMatchOffset, ← List.drop_drop, hflow]
    exact List.drop_left' (flowMatchBytes_length r)
  have htarget : (entryBytes r ++ rest).drop r.targetOffset = tail := by
    rw [RuleItem.targetOffset, ← List.drop_drop, hproto]
    exact List.drop_left' (protoMatchBytes_length r)
  have hflags : rd32 (tail.drop 4) = some (actionFlags r.action) := by
    rw [htail]
    exact rd32_of_lt (lt_trans (actionFlags_lt r.action) (by decide)) rest
  unfold entryCheck
  rw [hid, hpm, htg]
  simp only [Option.bind_eq_bind, Option.bind_some, hflow, hproto, htarget,
    flowMatchCheck_bytes, protoMatchCheck_bytes hsort, hflags]
  unfold isFor
  cases hasZone r.srcZoneIds.ids req.srcZone && hasIpgrp r.srcIpgrpIds.ids req.srcIpgrpBits
    && hasZone r.dstZoneIds.ids req.dstZone && hasIpgrp r.dstIpgrpIds.ids req.dstIpgrpBits with
  | false => rfl
  | true =>
    by_cases hmem : req.protoId ∈ r.protoIds.ids
    · simp [hmem]
    · simp [hmem]

/-! ## Walking the entries -/

/-- The entries of a list of rules. -/
def tableBytes (rules : List RuleItem) : List UInt8 := (rules.map entryBytes).flatten

/-- Every entry takes a step forward. -/
theorem nextOffset_pos (r : RuleItem) : 0 < r.nextOffset := by
  unfold RuleItem.nextOffset sizeofTarget
  omega

/-- The kernel reads the size that the entry was made with. -/
theorem rd16_nextOffset (r : RuleItem) (rest : List UInt8) :
    rd16 ((entryBytes r ++ rest).drop 6) = some r.nextOffset :=
  rd16_of_lt (nextOffset_lt r) _

/-- Behind an entry stands the next one. -/
theorem drop_entryBytes (r : RuleItem) (rest : List UInt8) :
    (entryBytes r ++ rest).drop r.nextOffset = rest :=
  List.drop_left' (entryBytes_length r)

/-- A table is its first entry and the table of the others. -/
theorem tableBytes_cons (r : RuleItem) (rules : List RuleItem) :
    tableBytes (r :: rules) = entryBytes r ++ tableBytes rules := rfl

/-- A table has a byte for every rule at least. -/
theorem length_le_tableBytes (rules : List RuleItem) :
    rules.length ≤ (tableBytes rules).length := by
  induction rules with
  | nil => exact le_refl _
  | cons r rules ih =>
    rw [tableBytes_cons, List.length_append, entryBytes_length, List.length_cons]
    have := nextOffset_pos r
    omega

/-- The walk over the entries of a list of rules finds the first that is for the flow. -/
theorem doTableLoop_tableBytes {rules : List RuleItem}
    (hsort : ∀ r ∈ rules, r.protoIds.ids.Pairwise (· ≤ ·)) (req : TableReq) {fuel : ℕ}
    (hfuel : rules.length ≤ fuel) :
    doTableLoop req fuel (tableBytes rules) = some (firstMatch rules req) := by
  induction rules generalizing fuel with
  | nil => cases fuel <;> rfl
  | cons r rules ih =>
    obtain ⟨fuel, rfl⟩ : ∃ n, fuel = n + 1 := ⟨fuel - 1, by rw [List.length_cons] at hfuel; omega⟩
    rw [List.length_cons] at hfuel
    have hr := hsort r List.mem_cons_self
    have hrest := ih (fun x hx => hsort x (List.mem_cons_of_mem r hx)) (Nat.le_of_succ_le_succ hfuel)
    have hcons : ∃ b bs, entryBytes r ++ tableBytes rules = b :: bs := ⟨_, _, rfl⟩
    obtain ⟨b, bs, hb⟩ := hcons
    rw [tableBytes_cons, hb, doTableLoop, ← hb]
    simp only [entryCheck_bytes hr, rd16_nextOffset]
    unfold firstMatch at hrest ⊢
    by_cases hfor : isFor r req = true
    · have hne : actionFlags r.action ≠ 2 ^ 32 - 1 := by
        have := actionFlags_lt r.action
        omega
      simp only [hfor, if_true, if_neg hne, List.find?_cons, Option.map_some]
    · simp only [hfor, Bool.false_eq_true, if_false, drop_entryBytes, hrest, List.find?_cons]

/-- The check of the kernel counts the rules of the table. -/
theorem checkEntries_tableBytes (rules : List RuleItem) {fuel off : ℕ}
    (hfuel : rules.length ≤ fuel) (hoff : off % 8 = 0) :
    checkEntries fuel off (tableBytes rules) = some rules.length := by
  induction rules generalizing fuel off with
  | nil => cases fuel <;> rfl
  | cons r rules ih =>
    obtain ⟨fuel, rfl⟩ : ∃ n, fuel = n + 1 := ⟨fuel - 1, by rw [List.length_cons] at hfuel; omega⟩
    rw [List.length_cons] at hfuel
    have hmod : (off + r.nextOffset) % 8 = 0 := by
      have := nextOffset_mod r
      omega
    have hrest := ih (Nat.le_of_succ_le_succ hfuel) hmod
    have hcons : ∃ b bs, entryBytes r ++ tableBytes rules = b :: bs := ⟨_, _, rfl⟩
    obtain ⟨b, bs, hb⟩ := hcons
    rw [tableBytes_cons, hb, checkEntries, ← hb]
    have hlen : ¬ ((entryBytes r ++ tableBytes rules).length < r.nextOffset ∨ off % 8 ≠ 0) := by
      rw [List.length_append, entryBytes_length]
      omega
    simp only [rd16_nextOffset, if_neg hlen, drop_entryBytes, hrest]
    rfl

/-! ## From the list to the verdict -/

/-- The entries of complete rules. -/
theorem mapM_generateAcEntry {rules : List RuleItem} (h : ∀ r ∈ rules, Complete r) :
    rules.mapM generateAcEntry = some (rules.map entryBytes) := by
  induction rules with
  | nil => rfl
  | cons r rules ih =>
    rw [List.mapM_cons, generateAcEntry_eq (h r List.mem_cons_self),
      ih fun x hx => h x (List.mem_cons_of_mem r hx)]
    rfl

/-- One incomplete rule spoils the entries. -/
theorem mapM_generateAcEntry_eq_none {rules : List RuleItem} {r : RuleItem} (hr : r ∈ rules)
    (h : ¬ Complete r) : rules.mapM generateAcEntry = none := by
  induction rules with
  | nil => exact absurd hr (by simp)
  | cons x rules ih =>
    rw [List.mapM_cons]
    rcases List.mem_cons.1 hr with rfl | hr
    · rw [generateAcEntry_eq_none h]
      rfl
    · rw [ih hr]
      cases generateAcEntry x <;> rfl

/-- The size field as the generator of the table reads it. -/
theorem entryNextOffset_bytes (r : RuleItem) : entryNextOffset (entryBytes r) = r.nextOffset := by
  have h := rd16_nextOffset r []
  rw [List.append_nil] at h
  rw [entryNextOffset, h]
  rfl

/-- The sizes of the entries add up to the table. -/
theorem sum_nextOffset (rules : List RuleItem) :
    (rules.map RuleItem.nextOffset).sum = (tableBytes rules).length := by
  induction rules with
  | nil => rfl
  | cons r rules ih =>
    rw [List.map_cons, List.sum_cons, ih, tableBytes_cons, List.length_append, entryBytes_length]

/-- A list whose rules are all complete becomes one block of their entries. -/
theorem generateAcTable_eq {rules : List RuleItem} (h : ∀ r ∈ rules, Complete r) (category : ℕ) :
    generateAcTable ⟨true, rules⟩ category = some ⟨category,
      (rules.map RuleItem.nextOffset).sum % 2 ^ 32, rules.length, tableBytes rules⟩ := by
  have hnext : (rules.map entryBytes).map entryNextOffset = rules.map RuleItem.nextOffset := by
    rw [List.map_map]
    exact List.map_congr_left fun r _ => entryNextOffset_bytes r
  have htake : (rules.map entryBytes).map (fun e => e.take (entryNextOffset e))
      = rules.map entryBytes := by
    rw [List.map_map]
    refine List.map_congr_left fun r _ => ?_
    rw [Function.comp_apply, entryNextOffset_bytes, ← entryBytes_length, List.take_length]
  unfold generateAcTable
  rw [if_pos rfl, mapM_generateAcEntry h]
  simp only [glueEntriesToTable, hnext, htake, List.length_map, tableBytes]

/-- One incomplete rule and no table is made. -/
theorem generateAcTable_eq_none {rules : List RuleItem} {r : RuleItem} (hr : r ∈ rules)
    (h : ¬ Complete r) (category : ℕ) : generateAcTable ⟨true, rules⟩ category = none := by
  unfold generateAcTable
  rw [if_pos rfl, mapM_generateAcEntry_eq_none hr h]

/-- The walk over a table has enough fuel. -/
theorem doTable_tableBytes {rules : List RuleItem}
    (hsort : ∀ r ∈ rules, r.protoIds.ids.Pairwise (· ≤ ·)) (req : TableReq) :
    doTable req (tableBytes rules) = some (firstMatch rules req) :=
  doTableLoop_tableBytes hsort req (length_le_tableBytes rules)

/-- The kernel accepts the table that the rules make. -/
theorem translateTable_bytes (rules : List RuleItem) {category : ℕ} (hcat : category < 2) :
    translateTable ⟨category, (tableBytes rules).length, rules.length, tableBytes rules⟩ = true := by
  unfold translateTable
  simp [hcat, checkEntries_tableBytes rules (length_le_tableBytes rules) (Nat.zero_mod 8)]

/-- Every 16-bit field of a rule's entry holds what was to be stored. -/
structure FieldsFit (r : RuleItem) : Prop where
  id : r.id < 2 ^ 16
  srcZoneNum : r.srcZoneIds.ids.length < 2 ^ 16
  srcIpgrpNum : r.srcIpgrpIds.ids.length < 2 ^ 16
  dstZoneNum : r.dstZoneIds.ids.length < 2 ^ 16
  dstIpgrpNum : r.dstIpgrpIds.ids.length < 2 ^ 16
  protoNum : r.protoIds.ids.length < 2 ^ 16
  flowMatchSize : r.flowMatchSize < 2 ^ 16
  protoMatchSize : r.protoMatchSize < 2 ^ 16
  protoMatchOffset : r.protoMatchOffset < 2 ^ 16
  targetOffset : r.targetOffset < 2 ^ 16
  nextOffset : r.nextOffset < 2 ^ 16

/-- Every number of an entry fits its field. -/
theorem fieldsFit (r : RuleItem) : FieldsFit r where
  id := Nat.lt_succ_of_le r.id_le
  srcZoneNum := idList_length_lt _
  srcIpgrpNum := idList_length_lt _
  dstZoneNum := idList_length_lt _
  dstIpgrpNum := idList_length_lt _
  protoNum := idList_length_lt _
  flowMatchSize := by
    have := protoMatchOffset_lt r
    unfold RuleItem.protoMatchOffset at this
    omega
  protoMatchSize := by
    have := targetOffset_lt r
    unfold RuleItem.targetOffset at this
    omega
  protoMatchOffset := protoMatchOffset_lt r
  targetOffset := targetOffset_lt r
  nextOffset := nextOffset_lt r

/-- A list of complete rules with sorted protocols means the same on both sides: its block
    is built with no field cut off, the kernel accepts it, and for every flow the kernel's
    walk gives the target of the first rule that is for the flow, if there is one. -/
theorem table_means_list (rules : List RuleItem) (category : ℕ) (hcat : category < 2)
    (hcomplete : ∀ r ∈ rules, Complete r) (hsort : ∀ r ∈ rules, r.protoIds.ids.Pairwise (· ≤ ·))
    (hsize : (rules.map RuleItem.nextOffset).sum < 2 ^ 31) :
    ∃ t, generateAcTable ⟨true, rules⟩ category = some t ∧ t.size = t.entries.length
      ∧ t.number = rules.length ∧ (∀ r ∈ rules, FieldsFit r) ∧ translateTable t = true
      ∧ ∀ req, doTable req t.entries = some (firstMatch rules req) := by
  have hmod : (rules.map RuleItem.nextOffset).sum % 2 ^ 32 = (tableBytes rules).length := by
    rw [Nat.mod_eq_of_lt (by omega), sum_nextOffset]
  refine ⟨_, generateAcTable_eq hcomplete category, hmod, rfl, fun r _ => fieldsFit r, ?_,
    doTable_tableBytes hsort⟩
  rw [hmod]
  exact translateTable_bytes rules hcat

/-- One id, below the bound. -/
def oneId {maxid : ℕ} (x : ℕ) (h : x ≤ maxid) : IdList maxid where
  ids := [x]
  len_le := by simp [acIdMaxnumPermatch]
  le := by simpa using h

/-- A rule for every zone and every group with one protocol. -/
def anyFlow (id protoId : ℕ) (action : List (List Char)) (hid : id ≤ acRuleMaxid)
    (hproto : protoId ≤ acProtoMaxid) (haction : action.length ≤ acActionMaxnum) : RuleItem where
  id := id
  srcZoneIds := oneId acZoneMaxid (le_refl _)
  srcIpgrpIds := oneId acIpgrpMaxid (le_refl _)
  dstZoneIds := oneId acZoneMaxid (le_refl _)
  dstIpgrpIds := oneId acIpgrpMaxid (le_refl _)
  protoIds := oneId protoId hproto
  action := action
  id_le := hid
  action_le := haction

/-- `REJECT`. -/
def rejectName : List Char := ['R', 'E', 'J', 'E', 'C', 'T']

/-- One action is within the number allowed. -/
theorem rejectName_le : [rejectName].length ≤ acActionMaxnum := by decide

/-- One rule that rejects protocol 5. -/
def rejectFive : RuleItem := anyFlow 3 5 [rejectName] (by decide) (by decide) rejectName_le

/-- `ACCEPT`. -/
def acceptName : List Char := ['A', 'C', 'C', 'E', 'P', 'T']

/-- `AUDIT`. -/
def auditName : List Char := ['A', 'U', 'D', 'I', 'T']

/-- Some protocols of two groups are accepted and audited; three of them are rejected from two
    zones; the rest of one protocol is accepted. -/
def officeRules : List RuleItem := [
  { id := 10
    srcZoneIds := ⟨[1, 3], by decide, by decide⟩
    srcIpgrpIds := ⟨[2, 40], by decide, by decide⟩
    dstZoneIds := ⟨[2], by decide, by decide⟩
    dstIpgrpIds := oneId acIpgrpMaxid (le_refl _)
    protoIds := ⟨[3, 8, 20, 77, 90], by decide, by decide⟩
    action := [acceptName, auditName]
    id_le := by decide
    action_le := by decide },
  { id := 11
    srcZoneIds := ⟨[1, 4], by decide, by decide⟩
    srcIpgrpIds := oneId acIpgrpMaxid (le_refl _)
    dstZoneIds := oneId acZoneMaxid (le_refl _)
    dstIpgrpIds := oneId acIpgrpMaxid (le_refl _)
    protoIds := ⟨[20, 77, 80], by decide, by decide⟩
    action := [rejectName]
    id_le := by decide
    action_le := by decide },
  anyFlow 12 80 [acceptName] (by decide) (by decide) (by decide)]

/-- Three rules are read back: protocol 77 of group 40 meets the first two and takes the first, of
    group 7 only the second, and protocol 80 from zone 3 only the third. -/
theorem table_means_list_office :
    ∃ t, generateAcTable ⟨true, officeRules⟩ 0 = some t
      ∧ doTable ⟨1, 2, 1 <<< 40, 0, 77, by decide⟩ t.entries
        = some (some ⟨acAccept ||| acAudit, 10⟩)
      ∧ doTable ⟨1, 2, 1 <<< 7, 0, 77, by decide⟩ t.entries = some (some ⟨acReject, 11⟩)
      ∧ doTable ⟨3, 2, 1 <<< 7, 0, 80, by decide⟩ t.entries = some (some ⟨acAccept, 12⟩)
      ∧ doTable ⟨3, 2, 1 <<< 7, 0, 77, by decide⟩ t.entries = some none := by
  obtain ⟨t, ht, -, -, -, -, hreq⟩ := table_means_list officeRules 0 (by decide)
    (by simp [Complete, officeRules, anyFlow, oneId]) (by decide) (by decide)
  exact ⟨t, ht, by rw [hreq]; decide, by rw [hreq]; decide, by rw [hreq]; decide,
    by rw [hreq]; decide⟩

/-- A rule with all its lists and no action has no block at all. -/
theorem no_action_no_table :
    generateAcTable ⟨true, [anyFlow 3 5 [] (by decide) (by decide) (by decide)]⟩ 0 = none := by
  decide

end Nacs
