/-
# Replacing the white and black lists

The set half of `nacs_table.c`: `do_replace_set` takes a request of user space,
looks up the ipsets it names, and swaps the whole structure of one category.  An
ipset is referenced while an installed entry holds its index.  A request carries
every number user space chooses; what `ip_set_get_byname` answers for its names
and what `copy_from_user` and the allocator do is part of it.
-/
import Mathlib.Data.Int.Notation
import Mathlib.Data.List.Count
import Mathlib.Data.List.Induction
import Mathlib.Logic.Function.Basic
import Mathlib.Tactic.Common
import Mathlib.Tactic.IntervalCases

namespace Nacs

/-- `IPSET_INVALID_ID`. -/
def ipsetInvalidId : ℕ := 65535

/-- `AC_ALIGN(sizeof(struct ac_hybrid_entry))`. -/
def hybridEntrySize : ℕ := 8

/-- `sizeof(struct ac_repl_set_info)`. -/
def replSetInfoSize : ℕ := 144

/-- `RULE_TYPE_CONTROL` and `RULE_TYPE_AUDIT`. -/
inductive RuleType where
  | control
  | audit
deriving DecidableEq, Repr

/-- `RULE_TYPE_MAX`. -/
def ruleTypeMax : ℕ := 2

/-- The rule type with the number, below `RULE_TYPE_MAX`. -/
def RuleType.ofNat? : ℕ → Option RuleType
  | 0 => some .control
  | 1 => some .audit
  | _ => none

/-- `struct ac_hybrid_entry` without its constant size. -/
structure HybridEntry where
  ipsetId : ℕ
  flags : ℕ
deriving DecidableEq, Repr

/-- `struct ac_set_info`: `number` is the length of the entries. -/
structure SetInfo where
  updated : BitVec 32
  entries : List HybridEntry
deriving DecidableEq, Repr

/-- What is installed, and the references this module holds on each ipset. -/
structure SetTable where
  privSets : RuleType → Option SetInfo
  refs : ℕ → ℤ
  magic : ℕ

/-- A call of `do_replace_set`: the header, the entries as they lie in the copied body and
    behind it, what each name is found as, and whether copying and allocating succeed. -/
structure ReplSet where
  len : ℕ
  category : ℕ
  size : ℕ
  number : ℕ
  updated : BitVec 32
  body : ℕ → HybridEntry
  found : ℕ → ℕ
  copyHeader : Bool := true
  alloc : Bool := true
  copyBody : Bool := true
  size_lt : size < 2 ^ 32 := by decide

/-- The error codes of the call. -/
inductive SetErrno where
  | efault
  | enoprotoopt
  | einval
  | enomem
deriving DecidableEq, Repr

/-- `updated & (1 << i)`. -/
def bitSet (updated : BitVec 32) (i : ℕ) : Bool := updated.getLsbD (i % 32)

/-! ## References -/

/-- `ip_set_get_byname`: a set that is found is referenced. -/
def getRef (refs : ℕ → ℤ) (id : ℕ) : ℕ → ℤ :=
  if id = ipsetInvalidId then refs else Function.update refs id (refs id + 1)

/-- The body of the loop of `free_ac_set_info`. -/
def putRef (refs : ℕ → ℤ) (id : ℕ) : ℕ → ℤ :=
  if id = ipsetInvalidId then refs else Function.update refs id (refs id - 1)

/-- `free_ac_set_info` on the first `number` entries found in memory. -/
def freeAcSetInfo (refs : ℕ → ℤ) (entries : List HybridEntry) : ℕ → ℤ :=
  entries.foldl (fun r e => putRef r e.ipsetId) refs

/-! ## The request -/

/-- The entries of the structure before it is translated. -/
def ReplSet.raw (req : ReplSet) : List HybridEntry := (List.range req.number).map req.body

/-- The `i`-th entry after the loop of `translate_set`. -/
def ReplSet.entry (req : ReplSet) (i : ℕ) : HybridEntry :=
  { req.body i with ipsetId := if bitSet req.updated i then req.found i else ipsetInvalidId }

/-- The entries after the loop. -/
def ReplSet.entries (req : ReplSet) : List HybridEntry := (List.range req.number).map req.entry

/-- The references the loop of `translate_set` takes. -/
def ReplSet.get (req : ReplSet) (refs : ℕ → ℤ) : ℕ → ℤ :=
  (List.range req.number).foldl
    (fun r i => if bitSet req.updated i then getRef r (req.found i) else r) refs

/-- The size check of `translate_set`; the product is a 32-bit `size_t`. -/
def ReplSet.sizeOk (req : ReplSet) : Bool :=
  req.number * hybridEntrySize % 2 ^ 32 == req.size

/-- `__do_replace_set`: swap, count the change, free what was there. -/
def doReplaceSetLocked (t : SetTable) (c : RuleType) (info : SetInfo) : SetTable where
  privSets := Function.update t.privSets c (some info)
  refs := freeAcSetInfo t.refs (match t.privSets c with
    | some old => old.entries
    | none => [])
  magic := (t.magic + 1) % 2 ^ 32

/-- `do_replace_set`: the error the call returns, if any, and the table after it.  `none`
    when the call leaves its memory: a size that only fits modulo `2 ^ 32` lets the loop
    run off the allocation, and the category `RULE_TYPE_MAX` passes the check and indexes
    behind `priv_sets`. -/
def doReplaceSet (t : SetTable) (req : ReplSet) : Option (Option SetErrno × SetTable) :=
  if !req.copyHeader then some (some .efault, t)
  else if req.len ≠ (replSetInfoSize + req.size) % 2 ^ 32 then some (some .enoprotoopt, t)
  else if ruleTypeMax < req.category then some (some .einval, t)
  else if !req.alloc then some (some .enomem, t)
  else if 0 < req.size && !req.copyBody then some (some .efault, t)
  else if !req.sizeOk then some (some .einval, { t with refs := freeAcSetInfo t.refs req.raw })
  else if req.size < req.number * hybridEntrySize then none
  else
    match RuleType.ofNat? req.category with
    | none => none
    | some c =>
      some (none, doReplaceSetLocked { t with refs := req.get t.refs } c
        { updated := req.updated, entries := req.entries })

/-! ## What the references are for -/

/-- How often the entries hold an index. -/
def occ (entries : List HybridEntry) (id : ℕ) : ℕ :=
  if id = ipsetInvalidId then 0 else (entries.map HybridEntry.ipsetId).count id

/-- The entries installed for a rule type. -/
def SetTable.installed (t : SetTable) (c : RuleType) : List HybridEntry :=
  match t.privSets c with
  | some info => info.entries
  | none => []

/-- Every index is referenced once for each installed entry that holds it. -/
def SetTable.Balanced (t : SetTable) : Prop :=
  ∀ id, t.refs id = occ (t.installed .control) id + occ (t.installed .audit) id

/-- The call fails before it has filled a structure of its own. -/
def ReplSet.Refused (req : ReplSet) : Prop :=
  req.copyHeader = false ∨ req.len ≠ (replSetInfoSize + req.size) % 2 ^ 32
    ∨ ruleTypeMax < req.category ∨ req.alloc = false ∨ (0 < req.size ∧ req.copyBody = false)

/-- The request is refused at once, or it names a rule type and its size is the one of its
    entries, or its size is wrong and its body names no ipset. -/
def ReplSet.Sound (req : ReplSet) : Prop :=
  req.Refused ∨ (req.size = req.number * hybridEntrySize ∧ req.category < ruleTypeMax)
    ∨ (req.sizeOk = false ∧ ∀ i < req.number, (req.body i).ipsetId = ipsetInvalidId)

/-- References are conserved along the calls: they are balanced before the first and after
    each, no call leaves its memory, and a call that fails leaves the table as it was. -/
def Conserved (t : SetTable) : List ReplSet → Prop
  | [] => t.Balanced
  | req :: reqs => t.Balanced ∧ ∃ err t', doReplaceSet t req = some (err, t') ∧
      (err ≠ none → t'.privSets = t.privSets ∧ t'.refs = t.refs) ∧ Conserved t' reqs

/-! ## What the loops do to the references -/

/-- A reference is taken, unless the set is invalid. -/
theorem getRef_apply (refs : ℕ → ℤ) (id x : ℕ) :
    getRef refs id x = refs x + if id = x ∧ id ≠ ipsetInvalidId then 1 else 0 := by
  unfold getRef
  by_cases hinv : id = ipsetInvalidId
  · simp [hinv]
  · by_cases hx : id = x
    · subst hx
      simp [hinv]
    · simp [hinv, hx, Function.update_of_ne (Ne.symm hx)]

/-- A reference is given up, unless the set is invalid. -/
theorem putRef_apply (refs : ℕ → ℤ) (id x : ℕ) :
    putRef refs id x = refs x - if id = x ∧ id ≠ ipsetInvalidId then 1 else 0 := by
  unfold putRef
  by_cases hinv : id = ipsetInvalidId
  · simp [hinv]
  · by_cases hx : id = x
    · subst hx
      simp [hinv]
    · simp [hinv, hx, Function.update_of_ne (Ne.symm hx)]

@[simp] theorem occ_nil (id : ℕ) : occ [] id = 0 := by
  simp [occ]

/-- One more entry refers to one more set. -/
theorem occ_cons (e : HybridEntry) (l : List HybridEntry) (x : ℕ) :
    occ (e :: l) x = occ l x + if e.ipsetId = x ∧ e.ipsetId ≠ ipsetInvalidId then 1 else 0 := by
  unfold occ
  by_cases hinv : x = ipsetInvalidId
  · subst hinv
    by_cases he : e.ipsetId = ipsetInvalidId <;> simp [he]
  · by_cases he : e.ipsetId = x
    · simp [hinv, he]
    · simp [hinv, he]

/-- Freeing a structure puts every index its entries hold. -/
theorem freeAcSetInfo_apply (refs : ℕ → ℤ) (l : List HybridEntry) (x : ℕ) :
    freeAcSetInfo refs l x = refs x - occ l x := by
  induction l generalizing refs with
  | nil => simp [freeAcSetInfo]
  | cons e l ih =>
    unfold freeAcSetInfo at ih ⊢
    rw [List.foldl_cons, ih, putRef_apply, occ_cons]
    by_cases hc : e.ipsetId = x ∧ e.ipsetId ≠ ipsetInvalidId
    · rw [if_pos hc, if_pos hc]
      omega
    · rw [if_neg hc, if_neg hc]
      omega

/-- Translating a request gets every index its entries end up with. -/
theorem ReplSet.get_apply (req : ReplSet) (refs : ℕ → ℤ) (x : ℕ) :
    req.get refs x = refs x + occ req.entries x := by
  unfold ReplSet.get ReplSet.entries
  generalize List.range req.number = l
  induction l generalizing refs with
  | nil => simp
  | cons i l ih =>
    rw [List.foldl_cons, ih, List.map_cons, occ_cons]
    by_cases hb : bitSet req.updated i = true
    · rw [if_pos hb, getRef_apply]
      simp only [ReplSet.entry, if_pos hb]
      by_cases hc : req.found i = x ∧ req.found i ≠ ipsetInvalidId
      · rw [if_pos hc, if_pos hc]
        omega
      · rw [if_neg hc, if_neg hc]
        omega
    · simp [ReplSet.entry, hb]

/-- Nothing is referred to where every set is invalid. -/
theorem occ_eq_zero_iff (l : List HybridEntry) :
    (∀ x, occ l x = 0) ↔ ∀ e ∈ l, e.ipsetId = ipsetInvalidId := by
  constructor
  · intro h e he
    by_contra hne
    have hocc := h e.ipsetId
    rw [occ, if_neg hne, List.count_eq_zero] at hocc
    exact hocc (List.mem_map_of_mem he)
  · intro h x
    by_cases hx : x = ipsetInvalidId
    · simp [occ, hx]
    · rw [occ, if_neg hx, List.count_eq_zero]
      intro hmem
      obtain ⟨e, he, rfl⟩ := List.mem_map.1 hmem
      exact hx (h e he)

/-- The size is that of the entries. -/
theorem ReplSet.sizeOk_iff (req : ReplSet) :
    (req.sizeOk = true ∧ ¬ req.size < req.number * hybridEntrySize) ↔
      req.size = req.number * hybridEntrySize := by
  have hlt := req.size_lt
  unfold ReplSet.sizeOk
  rw [beq_iff_eq]
  constructor
  · rintro ⟨hmod, hle⟩
    have := Nat.mod_le (req.number * hybridEntrySize) (2 ^ 32)
    omega
  · intro h
    rw [← h, Nat.mod_eq_of_lt hlt]
    exact ⟨rfl, Nat.lt_irrefl _⟩

/-! ## One call -/

/-- What a call does: it is refused and nothing happens, it fails on the size and puts what
    the body names, it leaves its memory, or it installs the request. -/
theorem doReplaceSet_cases (t : SetTable) (req : ReplSet) :
    (req.Refused ∧ ∃ e, doReplaceSet t req = some (some e, t)) ∨
    (¬ req.Refused ∧ req.sizeOk = false ∧ doReplaceSet t req =
      some (some .einval, { t with refs := freeAcSetInfo t.refs req.raw })) ∨
    (¬ req.Refused ∧ req.sizeOk = true ∧ doReplaceSet t req = none ∧
      ¬ (req.size = req.number * hybridEntrySize ∧ req.category < ruleTypeMax)) ∨
    (¬ req.Refused ∧ req.size = req.number * hybridEntrySize ∧ ∃ c,
      RuleType.ofNat? req.category = some c ∧ doReplaceSet t req =
        some (none, doReplaceSetLocked { t with refs := req.get t.refs } c
          { updated := req.updated, entries := req.entries })) := by
  unfold doReplaceSet
  by_cases h1 : (!req.copyHeader) = true
  · rw [if_pos h1]
    exact Or.inl ⟨Or.inl (by simpa using h1), .efault, rfl⟩
  rw [if_neg h1]
  by_cases h2 : req.len ≠ (replSetInfoSize + req.size) % 2 ^ 32
  · rw [if_pos h2]
    exact Or.inl ⟨Or.inr (Or.inl h2), .enoprotoopt, rfl⟩
  rw [if_neg h2]
  by_cases h3 : ruleTypeMax < req.category
  · rw [if_pos h3]
    exact Or.inl ⟨Or.inr (Or.inr (Or.inl h3)), .einval, rfl⟩
  rw [if_neg h3]
  by_cases h4 : (!req.alloc) = true
  · rw [if_pos h4]
    exact Or.inl ⟨Or.inr (Or.inr (Or.inr (Or.inl (by simpa using h4)))), .enomem, rfl⟩
  rw [if_neg h4]
  by_cases h5 : (decide (0 < req.size) && !req.copyBody) = true
  · rw [if_pos h5]
    exact Or.inl ⟨Or.inr (Or.inr (Or.inr (Or.inr (by simpa using h5)))), .efault, rfl⟩
  rw [if_neg h5]
  -- the five checks are passed, and what is left is what the request gives
  have hnot : ¬ req.Refused := by
    rintro (h | h | h | h | h)
    · exact h1 (by simpa using h)
    · exact h2 h
    · exact h3 h
    · exact h4 (by simpa using h)
    · exact h5 (by simpa using h)
  by_cases h6 : (!req.sizeOk) = true
  · rw [if_pos h6]
    exact Or.inr (Or.inl ⟨hnot, by simpa using h6, rfl⟩)
  rw [if_neg h6]
  have hok : req.sizeOk = true := by simpa using h6
  by_cases h7 : req.size < req.number * hybridEntrySize
  · rw [if_pos h7]
    exact Or.inr (Or.inr (Or.inl ⟨hnot, hok, rfl, fun h => by omega⟩))
  rw [if_neg h7]
  cases h8 : RuleType.ofNat? req.category with
  | none =>
    refine Or.inr (Or.inr (Or.inl ⟨hnot, hok, rfl, fun h => ?_⟩))
    have hcat := h.2
    unfold ruleTypeMax at hcat
    interval_cases hc : req.category <;> simp [RuleType.ofNat?] at h8
  | some c =>
    exact Or.inr (Or.inr (Or.inr ⟨hnot, req.sizeOk_iff.1 ⟨hok, h7⟩, c, rfl, rfl⟩))

/-- There are two categories. -/
theorem RuleType.ofNat?_lt {n : ℕ} {c : RuleType} (h : RuleType.ofNat? n = some c) :
    n < ruleTypeMax := by
  unfold ruleTypeMax
  match n, h with
  | 0, _ => omega
  | 1, _ => omega

/-- Installing a request moves the references from the entries it replaces to its own. -/
theorem locked_balanced {t : SetTable} (h : t.Balanced) (req : ReplSet) (c : RuleType) :
    (doReplaceSetLocked { t with refs := req.get t.refs } c
      { updated := req.updated, entries := req.entries }).Balanced := by
  intro id
  have hrefs : (doReplaceSetLocked { t with refs := req.get t.refs } c
      { updated := req.updated, entries := req.entries }).refs id
      = t.refs id + occ req.entries id - occ (t.installed c) id := by
    unfold doReplaceSetLocked
    dsimp only
    rw [freeAcSetInfo_apply, ReplSet.get_apply]
    rfl
  rw [hrefs, h id]
  cases c with
  | control =>
    simp only [SetTable.installed, doReplaceSetLocked, Function.update_self,
      Function.update_of_ne (show RuleType.audit ≠ RuleType.control by decide)]
    omega
  | audit =>
    simp only [SetTable.installed, doReplaceSetLocked, Function.update_self,
      Function.update_of_ne (show RuleType.control ≠ RuleType.audit by decide)]
    omega

/-- When freeing the request's own body leaves the references balanced. -/
theorem raw_free_balanced_iff {t : SetTable} (h : t.Balanced) (req : ReplSet) :
    ({ t with refs := freeAcSetInfo t.refs req.raw } : SetTable).Balanced ↔
      ∀ i < req.number, (req.body i).ipsetId = ipsetInvalidId := by
  have hraw : (∀ e ∈ req.raw, e.ipsetId = ipsetInvalidId) ↔
      ∀ i < req.number, (req.body i).ipsetId = ipsetInvalidId := by
    simp [ReplSet.raw]
  rw [← hraw, ← occ_eq_zero_iff]
  refine forall_congr' fun x => ?_
  have hx := h x
  change freeAcSetInfo t.refs req.raw x = occ (t.installed .control) x
    + occ (t.installed .audit) x ↔ _
  rw [freeAcSetInfo_apply, hx]
  omega

/-- From a balanced table, one call conserves the references exactly when the request is sound. -/
theorem doReplaceSet_conserves_iff {t : SetTable} (h : t.Balanced) (req : ReplSet) :
    (∃ err t', doReplaceSet t req = some (err, t') ∧
      (err ≠ none → t'.privSets = t.privSets ∧ t'.refs = t.refs) ∧ t'.Balanced) ↔ req.Sound := by
  rcases doReplaceSet_cases t req with ⟨href, e, heq⟩ | ⟨hnot, hsz, heq⟩ | ⟨hnot, hsz, heq, hbad⟩
    | ⟨hnot, hsz, c, hc, heq⟩
  · exact iff_of_true ⟨some e, t, heq, fun _ => ⟨rfl, rfl⟩, h⟩ (Or.inl href)
  · rw [heq]
    constructor
    · rintro ⟨err, t', hres, -, hbal⟩
      cases hres
      exact Or.inr (Or.inr ⟨hsz, (raw_free_balanced_iff h req).1 hbal⟩)
    · rintro (href | ⟨hsize, -⟩ | ⟨-, hids⟩)
      · exact absurd href hnot
      · exact absurd (req.sizeOk_iff.2 hsize).1 (by simp [hsz])
      · have hbal := (raw_free_balanced_iff h req).2 hids
        refine ⟨_, _, rfl, fun _ => ⟨rfl, funext fun x => ?_⟩, hbal⟩
        have hx := hbal x
        exact hx.trans (h x).symm
  · rw [heq]
    refine iff_of_false ?_ ?_
    · rintro ⟨err, t', hres, -⟩
      cases hres
    · rintro (href | hgood | ⟨hsz', -⟩)
      · exact hnot href
      · exact hbad hgood
      · exact absurd hsz (by simp [hsz'])
  · exact iff_of_true ⟨none, _, heq, fun hne => absurd rfl hne, locked_balanced h req c⟩
      (Or.inr (Or.inl ⟨hsz, RuleType.ofNat?_lt hc⟩))

/-- The references are conserved exactly where every request is sound. -/
theorem conserved_iff {t : SetTable} (h : t.Balanced) (reqs : List ReplSet) :
    Conserved t reqs ↔ ∀ req ∈ reqs, req.Sound := by
  induction reqs generalizing t with
  | nil => simpa [Conserved] using h
  | cons req reqs ih =>
    rw [List.forall_mem_cons, ← doReplaceSet_conserves_iff h req, Conserved]
    constructor
    · rintro ⟨-, err, t', heq, hfail, hrest⟩
      have hbal : t'.Balanced := by
        cases reqs with
        | nil => exact hrest
        | cons => exact hrest.1
      exact ⟨⟨err, t', heq, hfail, hbal⟩, (ih hbal).1 hrest⟩
    · rintro ⟨⟨err, t', heq, hfail, hbal⟩, hsound⟩
      exact ⟨h, err, t', heq, hfail, (ih hbal).2 hsound⟩

/-- The table of a fresh module, before any set is installed. -/
def SetTable.fresh : SetTable := ⟨fun _ => none, fun _ => 0, 999⟩

/-- Along any sequence of calls the references are those of the installed entries exactly
    when every request is sound. -/
theorem refs_conserved_iff (reqs : List ReplSet) :
    Conserved SetTable.fresh reqs ↔ ∀ req ∈ reqs, req.Sound :=
  conserved_iff (fun id => by simp [SetTable.fresh, SetTable.installed]) reqs

/-- A control request whose header announces four entries and carries one, with index 3. -/
def shortBody : ReplSet where
  len := 152
  category := 0
  size := 8
  number := 4
  updated := 0#32
  body := fun _ => ⟨3, 4⟩
  found := fun _ => ipsetInvalidId

/-- The failing call puts references it never took. -/
theorem shortBody_puts_foreign : ¬ Conserved SetTable.fresh [shortBody] := by
  rintro ⟨-, err, t', heq, -, hbal⟩
  have hrefs : t'.refs 3 = -4 := by
    have : doReplaceSet SetTable.fresh shortBody = some (some .einval,
        { SetTable.fresh with refs := freeAcSetInfo SetTable.fresh.refs shortBody.raw }) := rfl
    rw [this] at heq
    cases heq
    decide
  have := hbal 3
  rw [hrefs] at this
  omega

/-! ## Updating some of the sets -/

/-- The contents of the `i`-th set: its entry, with the flags, unless that refers to no ipset,
    in which case `__do_set` passes over it. -/
def slot (entries : List HybridEntry) (i : ℕ) : Option HybridEntry :=
  entries[i]?.filter fun e => e.ipsetId ≠ ipsetInvalidId

/-- What the request asks for as its `i`-th set: the ipset of that name with the flags of the
    entry. -/
def ReplSet.asked (req : ReplSet) (i : ℕ) : Option HybridEntry :=
  if i < req.number ∧ req.found i ≠ ipsetInvalidId then some ⟨req.found i, (req.body i).flags⟩
  else none

/-- How many of the sets that the mask selects refer to an index. -/
def occWhere (mask : ℕ → Bool) (entries : List HybridEntry) (id : ℕ) : ℕ :=
  (List.range entries.length).countP fun i =>
    mask i && (slot entries i).map HybridEntry.ipsetId == some id

/-- The sets whose bit is clear stay as they are, flags included, the others are the ones asked
    for, and the references change by those of the others only. -/
structure Selective (t t' : SetTable) (c : RuleType) (req : ReplSet) : Prop where
  keeps : ∀ i, bitSet req.updated i = false → slot (t'.installed c) i = slot (t.installed c) i
  takes : ∀ i, bitSet req.updated i = true → slot (t'.installed c) i = req.asked i
  refs : ∀ id, t'.refs id = t.refs id + occWhere (bitSet req.updated) (t'.installed c) id
    - occWhere (bitSet req.updated) (t.installed c) id

/-- An entry of the new structure. -/
theorem slot_entries (req : ReplSet) (i : ℕ) :
    slot req.entries i = if bitSet req.updated i then req.asked i else none := by
  unfold slot ReplSet.entries ReplSet.asked
  rw [List.getElem?_map]
  by_cases hi : i < req.number
  · by_cases hb : bitSet req.updated i = true
    · by_cases hf : req.found i = ipsetInvalidId <;>
        simp [hi, hb, hf, ReplSet.entry, Option.filter]
    · simp [hi, hb, ReplSet.entry, Option.filter]
  · simp [hi]

/-- What is not asked for refers to nothing. -/
theorem occ_eq_occWhere {mask : ℕ → Bool} {l : List HybridEntry}
    (h : ∀ i, mask i = false → slot l i = none) (id : ℕ) : occ l id = occWhere mask l id := by
  have hall : occWhere mask l id = (List.range l.length).countP fun i =>
      (slot l i).map HybridEntry.ipsetId == some id := by
    refine List.countP_congr fun i _ => ?_
    by_cases hm : mask i = true
    · simp [hm]
    · simp [h i (by simpa using hm)]
  rw [hall]
  clear hall h
  -- entry by entry, from the back
  induction l using List.reverseRecOn with
  | nil => simp
  | append_singleton l e ih =>
    have hcongr : (List.range l.length).countP (fun i =>
          (slot (l ++ [e]) i).map HybridEntry.ipsetId == some id)
        = (List.range l.length).countP fun i =>
          (slot l i).map HybridEntry.ipsetId == some id := by
      refine List.countP_congr fun i hi => ?_
      rw [slot, slot, List.getElem?_append_left (List.mem_range.1 hi)]
    rw [List.length_append, List.length_singleton, List.range_succ, List.countP_append, hcongr,
      ← ih]
    unfold occ slot
    by_cases hid : id = ipsetInvalidId
    · by_cases he : e.ipsetId = ipsetInvalidId <;> simp [hid, he, Option.filter]
    · by_cases he : e.ipsetId = id
      · simp [hid, he, Option.filter]
      · have hne : List.count id [e.ipsetId] = 0 := List.count_eq_zero.2 (by simp [Ne.symm he])
        by_cases hinv : e.ipsetId = ipsetInvalidId
        · simp [hid, hinv, ← hne, Option.filter]
        · simp [hid, he, hinv, Option.filter]

/-- A successful call is selective exactly when the sets whose bit is clear were empty before. -/
theorem replace_selective_iff {t t' : SetTable} {req : ReplSet} {c : RuleType}
    (hc : RuleType.ofNat? req.category = some c) (h : doReplaceSet t req = some (none, t')) :
    Selective t t' c req ↔
      ∀ i, bitSet req.updated i = false → slot (t.installed c) i = none := by
  obtain ⟨c', hc', rfl⟩ : ∃ c', RuleType.ofNat? req.category = some c' ∧
      t' = doReplaceSetLocked { t with refs := req.get t.refs } c'
        { updated := req.updated, entries := req.entries } := by
    rcases doReplaceSet_cases t req with ⟨-, e, heq⟩ | ⟨-, -, heq⟩ | ⟨-, -, heq, -⟩
      | ⟨-, -, c', hc', heq⟩
    all_goals rw [heq] at h
    · cases h
    · cases h
    · cases h
    · exact ⟨c', hc', by cases h; rfl⟩
  obtain rfl : c = c' := Option.some.inj (hc.symm.trans hc')
  have hnew : (doReplaceSetLocked { t with refs := req.get t.refs } c
      { updated := req.updated, entries := req.entries }).installed c = req.entries := by
    simp [SetTable.installed, doReplaceSetLocked]
  constructor
  · intro hsel i hi
    have hkeep := hsel.keeps i hi
    rw [hnew, slot_entries, hi] at hkeep
    exact hkeep.symm
  · intro hempty
    refine ⟨fun i hi => ?_, fun i hi => ?_, fun id => ?_⟩
    · rw [hnew, slot_entries, hi, hempty i hi]
      rfl
    · rw [hnew, slot_entries, hi]
      rfl
    · rw [hnew, ← occ_eq_occWhere hempty id,
        ← occ_eq_occWhere (fun i hi => by rw [slot_entries, hi]; rfl) id]
      unfold doReplaceSetLocked
      dsimp only
      rw [freeAcSetInfo_apply, ReplSet.get_apply]
      rfl

/-- A control request for four sets, as user space builds it. -/
def request (updated : BitVec 32) (found : ℕ → ℕ) : ReplSet where
  len := 176
  category := 0
  size := 32
  number := 4
  updated := updated
  body := fun i => ⟨ipsetInvalidId, if i < 2 then 1 else 4⟩
  found := found

/-- The first request of a fresh module may leave sets out. -/
theorem replace_selective_iff_first :
    ∃ t', doReplaceSet SetTable.fresh (request 2#32 fun _ => 5) = some (none, t') ∧
      Selective SetTable.fresh t' .control (request 2#32 fun _ => 5) :=
  ⟨_, rfl, (replace_selective_iff rfl rfl).2 fun _ _ => rfl⟩

/-- Ipset 5 is installed as the first control set; a request for the second set alone takes
    it away. -/
theorem unselected_set_lost :
    ∃ t t', doReplaceSet SetTable.fresh (request 1#32 fun _ => 5) = some (none, t) ∧
      doReplaceSet t (request 2#32 fun _ => 7) = some (none, t') ∧
      ¬ Selective t t' .control (request 2#32 fun _ => 7) := by
  refine ⟨_, _, rfl, rfl, fun h => ?_⟩
  have hlost := h.keeps 0 (by decide)
  exact absurd hlost (by decide)

end Nacs
