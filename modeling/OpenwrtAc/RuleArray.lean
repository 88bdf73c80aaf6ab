/-
# The array of a rule set (`nproto/src/rules.c`)

`set_add_rule_normal` puts a rule into the array of a set, which it makes longer by
`NP_SET_GROW_COUNT` places when it is full.  The memory of the array is explicit here: a place
that has not been written has no rule, and an access outside of the array, or to such a place,
is not defined.  `num_rules` and `capacity` are of 16 bits.
-/
import Mathlib.Data.List.Sort
import OpenwrtAc.NprotoSets

namespace NpRules

/-! ## The order of the rules -/

/-- Descending priority. -/
def Descending (rules : List Rule) : Prop :=
  rules.Pairwise fun r r' => r'.priority ≤ r.priority

/-- Of two rules the one in front has no lower priority. -/
theorem Descending.le {rules : List Rule} (h : Descending rules) {i j : ℕ} {r r' : Rule}
    (hi : rules[i]? = some r) (hj : rules[j]? = some r') (hij : i ≤ j) :
    r'.priority ≤ r.priority := by
  rcases Nat.eq_or_lt_of_le hij with rfl | hlt
  · rw [hi] at hj
    rw [Option.some.inj hj]
  · obtain ⟨hil, rfl⟩ := List.getElem?_eq_some_iff.mp hi
    obtain ⟨hjl, rfl⟩ := List.getElem?_eq_some_iff.mp hj
    exact List.pairwise_iff_getElem.mp h i j hil hjl hlt

/-- What the binary search gives: the rules up to its position have no lower priority, those
behind it no higher one. -/
structure Between (rules : List Rule) (priority : ℕ) (hi : ℤ) : Prop where
  lower : -1 ≤ hi
  upper : hi < rules.length
  before : ∀ (i : ℕ) (r : Rule), (i : ℤ) ≤ hi → rules[i]? = some r → priority ≤ r.priority
  behind : ∀ (i : ℕ) (r : Rule), hi < i → rules[i]? = some r → r.priority ≤ priority

/-- One turn of the search compares with the rule in the middle. -/
theorem insertSearch_of_get {rules : List Rule} {priority fuel : ℕ} {lo hi : ℤ} {r : Rule}
    (hle : lo ≤ hi) (hr : rules[((lo + hi) / 2).toNat]? = some r) :
    insertSearch rules priority (fuel + 1) lo hi =
      if r.priority = priority then (lo + hi) / 2
      else if r.priority < priority then insertSearch rules priority fuel lo ((lo + hi) / 2 - 1)
      else insertSearch rules priority fuel ((lo + hi) / 2 + 1) hi := by
  rw [insertSearch, if_pos hle]
  dsimp only
  rw [hr]

/-- The search does not end below its lower bound. -/
theorem insertSearch_ge (rules : List Rule) (priority fuel : ℕ) {lo hi : ℤ}
    (hle : lo ≤ hi + 1) : lo - 1 ≤ insertSearch rules priority fuel lo hi := by
  induction fuel generalizing lo hi with
  | zero =>
    rw [insertSearch]
    omega
  | succ fuel ih =>
    rw [insertSearch]
    split
    · dsimp only
      split
      · omega
      · split_ifs
        · omega
        · exact ih (by omega)
        · exact Int.le_trans (by omega) (ih (by omega))
    · omega

/-- It ends behind the rules of higher priority and before those of lower. -/
theorem insertSearch_between {rules : List Rule} (hrules : Descending rules) {priority : ℕ}
    {fuel : ℕ} {lo hi : ℤ} (hlo : 0 ≤ lo) (hle : lo ≤ hi + 1) (hhi : hi < rules.length)
    (hfuel : hi - lo < fuel)
    (hbefore : ∀ (i : ℕ) (r : Rule), (i : ℤ) < lo → rules[i]? = some r → priority ≤ r.priority)
    (hbehind : ∀ (i : ℕ) (r : Rule), hi < i → rules[i]? = some r → r.priority ≤ priority) :
    Between rules priority (insertSearch rules priority fuel lo hi) := by
  induction fuel generalizing lo hi with
  | zero =>
    rw [insertSearch]
    exact ⟨by omega, hhi, fun i r hi => hbefore i r (by omega), hbehind⟩
  | succ fuel ih =>
    by_cases hlohi : lo ≤ hi
    · have hmid : ((lo + hi) / 2).toNat < rules.length := by omega
      rw [insertSearch_of_get hlohi (List.getElem?_eq_getElem hmid)]
      -- the rules on the two sides of the one in the middle
      have hleft : ∀ (i : ℕ) (r : Rule), (i : ℤ) ≤ (lo + hi) / 2 → rules[i]? = some r →
          rules[((lo + hi) / 2).toNat].priority ≤ r.priority := fun i r hi hr =>
        hrules.le hr (List.getElem?_eq_getElem hmid) (by omega)
      have hright : ∀ (i : ℕ) (r : Rule), (lo + hi) / 2 ≤ i → rules[i]? = some r →
          r.priority ≤ rules[((lo + hi) / 2).toNat].priority := fun i r hi hr =>
        hrules.le (List.getElem?_eq_getElem hmid) hr (by omega)
      split_ifs with heq hlt
      · refine ⟨by omega, by omega, fun i r hi hr => ?_, fun i r hi hr => ?_⟩
        · exact heq ▸ hleft i r hi hr
        · exact heq ▸ hright i r (by omega) hr
      · refine ih hlo (by omega) (by omega) (by omega) hbefore fun i r hi hr => ?_
        exact Nat.le_trans (hright i r (by omega) hr) (by omega)
      · refine ih (by omega) (by omega) hhi (by omega) (fun i r hi hr => ?_) hbehind
        exact Nat.le_trans (by omega) (hleft i r (by omega) hr)
    · rw [insertSearch, if_neg hlohi]
      exact ⟨by omega, hhi, fun i r hi => hbefore i r (by omega), hbehind⟩

/-- An insertion cuts the list in two. -/
theorem insertIdx_eq_append {α : Type} (a : α) :
    ∀ (l : List α) {i : ℕ}, i ≤ l.length → l.insertIdx i a = l.take i ++ a :: l.drop i
  | _, 0, _ => rfl
  | [], i + 1, h => absurd h (Nat.not_succ_le_zero i)
  | b :: l, i + 1, h => by
    rw [List.insertIdx_succ_cons, insertIdx_eq_append a l (Nat.le_of_succ_le_succ h)]
    rfl

/-- The place of a new rule. -/
def insertPos (rules : List Rule) (rule : Rule) : ℕ :=
  if rule.priority = 0 then rules.length
  else if rule.priority = npRulePriMax then 0
  else (insertSearch rules rule.priority rules.length 0 (rules.length - 1) + 1).toNat

/-- The rule stands between the two parts. -/
theorem insertSorted_eq (rules : List Rule) (rule : Rule) :
    insertSorted rules rule =
      rules.take (insertPos rules rule) ++ rule :: rules.drop (insertPos rules rule) := by
  unfold insertSorted insertPos
  split_ifs
  · rw [List.take_length, List.drop_length]
  · rfl
  · have hle := insertSearch_le rules rule.priority rules.length 0 (rules.length - 1)
    exact insertIdx_eq_append rule rules (by omega)

/-- Inserting a rule loses none. -/
theorem insertSorted_perm (rules : List Rule) (rule : Rule) :
    (insertSorted rules rule).Perm (rule :: rules) := by
  rw [insertSorted_eq]
  refine List.perm_middle.trans ?_
  rw [List.take_append_drop]

/-- `set_add_rule_normal_sorted` finds a place before which no rule has a lower priority and
behind which none has a higher one. -/
theorem insertPos_between {rules : List Rule} (hrules : Descending rules)
    (hmax : ∀ r ∈ rules, r.priority ≤ npRulePriMax) (rule : Rule) :
    (∀ r ∈ rules.take (insertPos rules rule), rule.priority ≤ r.priority) ∧
      ∀ r ∈ rules.drop (insertPos rules rule), r.priority ≤ rule.priority := by
  unfold insertPos
  split_ifs with hmin hpri
  · rw [List.drop_length, hmin]
    exact ⟨fun r _ => Nat.zero_le _, nofun⟩
  · rw [List.take_zero, hpri]
    exact ⟨nofun, fun r hr => hmax r (List.mem_of_mem_drop hr)⟩
  · have hsearch : Between rules rule.priority
        (insertSearch rules rule.priority rules.length 0 (rules.length - 1)) :=
      insertSearch_between hrules (by omega) (by omega) (by omega) (by omega)
        (fun i r hi => by omega)
        (fun i r hi hr => by
          have := (List.getElem?_eq_some_iff.mp hr).1
          omega)
    generalize insertSearch rules rule.priority rules.length 0 (rules.length - 1) = hi at hsearch
    have hlower := hsearch.lower
    constructor
    · intro r hr
      obtain ⟨i, hi, rfl⟩ := List.mem_take_iff_getElem.mp hr
      exact hsearch.before i _ (by omega) (List.getElem?_eq_getElem (by omega))
    · intro r hr
      obtain ⟨i, hi, rfl⟩ := List.mem_drop_iff_getElem.mp hr
      exact hsearch.behind _ _ (by omega) (List.getElem?_eq_getElem (by omega))

/-- Inserting a rule keeps the order. -/
theorem Descending.insertSorted {rules : List Rule} (hrules : Descending rules)
    (hmax : ∀ r ∈ rules, r.priority ≤ npRulePriMax) (rule : Rule) :
    Descending (NpRules.insertSorted rules rule) := by
  obtain ⟨hbefore, hbehind⟩ := insertPos_between hrules hmax rule
  rw [insertSorted_eq]
  have hsplit : Descending (rules.take (insertPos rules rule) ++
      rules.drop (insertPos rules rule)) := by rwa [List.take_append_drop]
  obtain ⟨htake, hdrop, hcross⟩ := List.pairwise_append.mp hsplit
  refine List.pairwise_append.mpr ⟨htake, List.pairwise_cons.mpr ⟨hbehind, hdrop⟩, ?_⟩
  intro r hr r' hr'
  rcases List.mem_cons.mp hr' with rfl | hr'
  · exact hbefore r hr
  · exact hcross r hr r' hr'

/-- The rules as one call after the other puts them in. -/
def sortedRules (rules : List Rule) : List Rule := rules.foldl insertSorted []

/-- The last rule is inserted among the others. -/
theorem sortedRules_append (rules : List Rule) (rule : Rule) :
    sortedRules (rules ++ [rule]) = insertSorted (sortedRules rules) rule := by
  rw [sortedRules, List.foldl_append]
  rfl

/-- Sorting loses no rule. -/
theorem sortedRules_perm (rules : List Rule) : (sortedRules rules).Perm rules := by
  induction rules using List.reverseRecOn with
  | nil => exact .nil
  | append_singleton rules rule ih =>
    rw [sortedRules_append]
    refine (insertSorted_perm _ rule).trans ?_
    exact (ih.cons rule).trans (List.perm_append_singleton rule rules).symm

/-- The rules are sorted. -/
theorem sortedRules_descending {rules : List Rule}
    (hmax : ∀ r ∈ rules, r.priority ≤ npRulePriMax) : Descending (sortedRules rules) := by
  induction rules using List.reverseRecOn with
  | nil => exact .nil
  | append_singleton rules rule ih =>
    have hmax' : ∀ r ∈ rules, r.priority ≤ npRulePriMax :=
      fun r hr => hmax r (List.mem_append_left _ hr)
    rw [sortedRules_append]
    exact (ih hmax').insertSorted
      (fun r hr => hmax' r ((sortedRules_perm rules).mem_iff.mp hr)) rule

/-! ## The memory of an array -/

/-- The places of an array, of which one that has not been written has no rule. -/
abbrev Slots := List (Option Rule)

/-- `rules[i]`. -/
def readSlot (slots : Slots) (i : ℤ) : Option Rule :=
  if 0 ≤ i then (slots[i.toNat]?).join else none

/-- `rules[i] = rule`. -/
def writeSlot (slots : Slots) (i : ℤ) (rule : Rule) : Option Slots :=
  if 0 ≤ i ∧ i < slots.length then some (slots.set i.toNat (some rule)) else none

/-- `memmove` of `count` places. -/
def moveSlots (slots : Slots) (dst src count : ℤ) : Option Slots :=
  if 0 ≤ dst ∧ 0 ≤ src ∧ dst + count ≤ slots.length ∧ src + count ≤ slots.length then
    some (slots.take dst.toNat ++ (slots.drop src.toNat).take count.toNat ++
      slots.drop (dst + count).toNat)
  else none

/-- `np_rule_set_t`: the array with its number of rules and its capacity. -/
structure RuleArray where
  slots : Slots
  numRules : ℕ
  capacity : ℕ

/-- A set without rules, which has no array. -/
def RuleArray.empty : RuleArray := ⟨[], 0, 0⟩

/-- `NP_SET_GROW_COUNT`. -/
def npSetGrowCount : ℕ := 64

/-- The loop that looks for the insert position. -/
def searchLoop (slots : Slots) (priority : ℕ) : ℕ → ℤ → ℤ → Option ℤ
  | 0, _, _ => none
  | fuel + 1, lo, hi =>
    if lo ≤ hi then do
      let mid := (lo + hi) / 2
      let r ← readSlot slots mid
      if r.priority = priority then some mid
      else if r.priority < priority then searchLoop slots priority fuel lo (mid - 1)
      else searchLoop slots priority fuel (mid + 1) hi
    else some hi

/-- The `memmove` that makes room for a rule, if there is one to move. -/
def makeRoom (slots : Slots) (i count : ℤ) : Option Slots :=
  if 0 < count then moveSlots slots (i + 1) i count else some slots

/-- `set_add_rule_normal_sorted`. -/
def RuleArray.addSorted (set : RuleArray) (rule : Rule) : Option RuleArray := do
  let slots ←
    if rule.priority = 0 then writeSlot set.slots set.numRules rule
    else if rule.priority = npRulePriMax then do
      let slots ← makeRoom set.slots 0 set.numRules
      writeSlot slots 0 rule
    else do
      let hi ← searchLoop set.slots rule.priority (set.numRules + 1) 0 (set.numRules - 1)
      let slots ← makeRoom set.slots (hi + 1) (set.numRules - (hi + 1))
      writeSlot slots (hi + 1) rule
  return { set with slots, numRules := (set.numRules + 1) % 2 ^ 16 }

/-- `set_add_rule_normal`; the allocation succeeds, and `memcpy` takes as many places as the
capacity says. -/
def RuleArray.add (set : RuleArray) (rule : Rule) : Option RuleArray :=
  if set.capacity ≤ set.numRules then
    if set.capacity ≤ set.slots.length then
      RuleArray.addSorted
        { set with
          slots := set.slots.take set.capacity ++ List.replicate npSetGrowCount none
          capacity := (set.capacity + npSetGrowCount) % 2 ^ 16 } rule
    else none
  else set.addSorted rule

/-- A sequence of calls on a new set. -/
def addAll (rules : List Rule) : Option RuleArray := rules.foldlM RuleArray.add .empty

/-! ## One insertion -/

/-- A slot in use is read. -/
theorem readSlot_eq {rules : List Rule} {i : ℤ} (hi : 0 ≤ i) {r : Rule}
    (hr : rules[i.toNat]? = some r) (free : Slots) :
    readSlot (rules.map some ++ free) i = some r := by
  have hlt := (List.getElem?_eq_some_iff.mp hr).1
  rw [readSlot, if_pos hi, List.getElem?_append_left (by simpa using hlt), List.getElem?_map, hr]
  rfl

/-- The search on the memory is that on the list. -/
theorem searchLoop_eq (rules : List Rule) (free : Slots) (priority : ℕ) {fuel : ℕ} {lo hi : ℤ}
    (hlo : 0 ≤ lo) (hhi : hi < rules.length) (hfuel : hi - lo < fuel) :
    searchLoop (rules.map some ++ free) priority (fuel + 1) lo hi =
      some (insertSearch rules priority fuel lo hi) := by
  induction fuel generalizing lo hi with
  | zero =>
    rw [searchLoop, if_neg (by omega)]
    rfl
  | succ fuel ih =>
    rw [searchLoop]
    by_cases hle : lo ≤ hi
    · have hmid : ((lo + hi) / 2).toNat < rules.length := by omega
      have hget := List.getElem?_eq_getElem hmid
      rw [if_pos hle, insertSearch_of_get hle hget]
      dsimp only
      rw [readSlot_eq (by omega) hget, Option.bind_eq_bind, Option.bind_some]
      split_ifs
      · rfl
      · exact ih hlo (by omega) (by omega)
      · exact ih (by omega) hhi (by omega)
    · rw [if_neg hle, insertSearch, if_neg hle]

/-- Room is made and the rule put there. -/
theorem makeRoom_writeSlot (before behind : List Rule) (x : Option Rule) (free : Slots)
    (rule : Rule) :
    (makeRoom ((before ++ behind).map some ++ x :: free) before.length behind.length >>=
      fun slots => writeSlot slots before.length rule) =
      some ((before ++ rule :: behind).map some ++ free) := by
  have hset : ∀ (y : Option Rule) (l : Slots),
      writeSlot (before.map some ++ y :: l) before.length rule =
        some (before.map some ++ some rule :: l) := by
    intro y l
    have hlen : (before.map some ++ y :: l).length = before.length + (l.length + 1) := by
      rw [List.length_append, List.length_map, List.length_cons]
    rw [writeSlot, if_pos (by omega), Int.toNat_natCast,
      List.set_append_right _ _ (by rw [List.length_map])]
    simp
  cases behind with
  | nil =>
    rw [makeRoom, if_neg (by simp)]
    simpa using hset x free
  | cons r behind =>
    have hmove : moveSlots ((before ++ r :: behind).map some ++ x :: free) (before.length + 1)
        before.length (r :: behind).length =
          some (before.map some ++ some r :: ((r :: behind).map some ++ free)) := by
      have hlist : (before ++ r :: behind).map some ++ x :: free =
          before.map some ++ some r :: (behind.map some ++ x :: free) := by simp
      have hdst : ((before.length : ℤ) + 1).toNat = (before.map some).length + 1 := by
        rw [List.length_map]
        omega
      have hend : ((before.length : ℤ) + 1 + (r :: behind).length).toNat =
          (before.map some).length + (behind.length + 2) := by
        rw [List.length_map, List.length_cons]
        omega
      have hsrc : (before.length : ℤ).toNat = (before.map some).length + 0 := by simp
      have hlen : ((before ++ r :: behind).map some ++ x :: free).length =
          before.length + (behind.length + 1) + (free.length + 1) := by
        rw [List.length_append, List.length_map, List.length_append, List.length_cons,
          List.length_cons]
      rw [moveSlots, if_pos (by rw [hlen, List.length_cons]; omega), hlist, hdst, hend, hsrc, List.take_length_add_append,
        List.drop_length_add_append, List.drop_length_add_append, Int.toNat_natCast]
      simp [List.drop_append]
    rw [makeRoom, if_pos (by simp), hmove]
    show writeSlot _ _ _ = _
    rw [hset]
    simp

/-- A rule is inserted behind the last one at most. -/
theorem insertPos_le (rules : List Rule) (rule : Rule) : insertPos rules rule ≤ rules.length := by
  unfold insertPos
  split_ifs
  · exact Nat.le_refl _
  · exact Nat.zero_le _
  · have := insertSearch_le rules rule.priority rules.length 0 (rules.length - 1)
    omega

/-- Room is made at the place of the rule and the rule put there. -/
theorem makeRoom_insertPos (rules : List Rule) (x : Option Rule) (free : Slots) (rule : Rule) :
    (makeRoom (rules.map some ++ x :: free) (insertPos rules rule)
        (rules.length - insertPos rules rule) >>=
      fun slots => writeSlot slots (insertPos rules rule) rule) =
      some ((insertSorted rules rule).map some ++ free) := by
  have hpos := insertPos_le rules rule
  have h := makeRoom_writeSlot (rules.take (insertPos rules rule))
    (rules.drop (insertPos rules rule)) x free rule
  rw [List.take_append_drop, ← insertSorted_eq, List.length_take, List.length_drop,
    Nat.min_eq_left hpos, Int.ofNat_sub hpos] at h
  exact h

/-- `set_add_rule_normal_sorted` in an array that has a place left. -/
theorem addSorted_eq (rules : List Rule) (x : Option Rule) (free : Slots) (capacity : ℕ)
    (rule : Rule) :
    RuleArray.addSorted ⟨rules.map some ++ x :: free, rules.length, capacity⟩ rule =
      some ⟨(insertSorted rules rule).map some ++ free, (rules.length + 1) % 2 ^ 16, capacity⟩ := by
  have hroom := makeRoom_insertPos rules x free rule
  rw [RuleArray.addSorted]
  dsimp only
  by_cases hmin : rule.priority = 0
  · rw [if_pos hmin]
    have hpos : insertPos rules rule = rules.length := if_pos hmin
    rw [hpos, makeRoom, if_neg (by omega)] at hroom
    have hwrite : writeSlot (rules.map some ++ x :: free) rules.length rule =
      some ((insertSorted rules rule).map some ++ free) := hroom
    rw [hwrite]
    rfl
  · rw [if_neg hmin]
    by_cases hmax : rule.priority = npRulePriMax
    · have hpos : insertPos rules rule = 0 := by rw [insertPos, if_neg hmin, if_pos hmax]
      rw [hpos, Int.natCast_zero, Int.sub_zero] at hroom
      rw [if_pos hmax, ← bind_assoc, hroom]
      rfl
    · have hle := insertSearch_ge rules rule.priority rules.length
        (show (0 : ℤ) ≤ rules.length - 1 + 1 by omega)
      have hpos : (insertPos rules rule : ℤ) =
          insertSearch rules rule.priority rules.length 0 (rules.length - 1) + 1 := by
        rw [insertPos, if_neg hmin, if_neg hmax]
        omega
      rw [hpos] at hroom
      rw [if_neg hmax, searchLoop_eq rules (x :: free) rule.priority (by omega) (by omega)
        (by omega), Option.bind_eq_bind, Option.bind_some, ← bind_assoc, hroom]
      rfl

/-! ## Growing -/

/-- The array has the rules in this order at its first places, and as many places as its
capacity says, which grows by `NP_SET_GROW_COUNT` when it has to. -/
structure RuleArray.Holds (set : RuleArray) (rules : List Rule) : Prop where
  used : ∃ free, set.slots = rules.map some ++ free
  num : set.numRules = rules.length
  cap : set.capacity = set.slots.length
  tight : set.capacity < rules.length + npSetGrowCount
  grown : npSetGrowCount ∣ set.capacity

/-- The largest multiple of `NP_SET_GROW_COUNT` that a capacity can be. -/
def fullCount : ℕ := 65472

/-- The rules fit the capacity. -/
theorem RuleArray.Holds.le {set : RuleArray} {rules : List Rule} (h : set.Holds rules) :
    rules.length ≤ set.capacity := by
  obtain ⟨free, hslots⟩ := h.used
  rw [h.cap, hslots, List.length_append, List.length_map]
  exact Nat.le_add_right _ _

/-- The array at the start holds no rule. -/
theorem RuleArray.Holds.empty : RuleArray.empty.Holds [] where
  used := ⟨[], rfl⟩
  num := rfl
  cap := rfl
  tight := by decide
  grown := ⟨0, rfl⟩

/-- The array that `set_add_rule_normal` gives to `set_add_rule_normal_sorted` has a place
left. -/
theorem RuleArray.Holds.add_eq {set : RuleArray} {rules : List Rule} (h : set.Holds rules)
    (rule : Rule) :
    ∃ x free capacity,
      set.add rule =
        RuleArray.addSorted ⟨rules.map some ++ x :: free, rules.length, capacity⟩ rule ∧
      ((set.capacity ≤ rules.length ∧ capacity = (set.capacity + npSetGrowCount) % 2 ^ 16 ∧
          rules.length + (free.length + 1) = set.capacity + npSetGrowCount) ∨
        (rules.length < set.capacity ∧ capacity = set.capacity ∧
          rules.length + (free.length + 1) = set.capacity)) := by
  obtain ⟨slots, numRules, cap⟩ := set
  obtain ⟨⟨free, hslots⟩, hnum, hcap, htight, hgrown⟩ := h
  dsimp only at hslots hnum hcap htight hgrown
  subst hslots hnum
  have hlen : ((rules.map some ++ free).length) = rules.length + free.length := by simp
  rw [hlen] at hcap
  rw [RuleArray.add]
  dsimp only
  by_cases hfull : cap ≤ rules.length
  · have hfree : free = [] := List.length_eq_zero_iff.mp (by omega)
    subst hfree
    refine ⟨none, List.replicate (npSetGrowCount - 1) none, _, ?_, .inl ⟨hfull, rfl, ?_⟩⟩
    · rw [if_pos hfull, if_pos (by rw [hlen]; omega), List.take_of_length_le (by rw [hlen]; omega),
        List.append_nil]
      rfl
    · rw [List.length_replicate]
      simp only [List.length_nil, npSetGrowCount] at hcap ⊢
      omega
  · cases free with
    | nil =>
      rw [List.length_nil] at hcap
      omega
    | cons x free =>
      refine ⟨x, free, cap, ?_, .inr ⟨by omega, rfl, ?_⟩⟩
      · rw [if_neg hfull]
      · rw [List.length_cons] at hcap
        omega

/-- Below the full count a rule is added, on the memory as on the list. -/
theorem RuleArray.Holds.add {set : RuleArray} {rules : List Rule} (h : set.Holds rules)
    (hlt : rules.length < fullCount) (rule : Rule) :
    ∃ set', set.add rule = some set' ∧ set'.Holds (insertSorted rules rule) := by
  obtain ⟨x, free, capacity, hadd, hcase⟩ := h.add_eq rule
  have hlen := (insertSorted_perm rules rule).length_eq
  obtain ⟨k, hk⟩ := h.grown
  have htight := h.tight
  rw [addSorted_eq] at hadd
  refine ⟨_, hadd, ⟨free, rfl⟩, ?_, ?_, ?_, ?_⟩
  · dsimp only
    rw [hlen, List.length_cons, Nat.mod_eq_of_lt (by unfold fullCount at hlt; omega)]
  · dsimp only
    rw [List.length_append, List.length_map, hlen, List.length_cons]
    unfold npSetGrowCount fullCount at *
    omega
  · dsimp only
    rw [hlen, List.length_cons]
    unfold npSetGrowCount fullCount at *
    omega
  · dsimp only
    unfold npSetGrowCount fullCount at *
    rcases hcase with ⟨hle, rfl, -⟩ | ⟨hlt', rfl, -⟩
    · exact ⟨k + 1, by omega⟩
    · exact ⟨k, hk⟩

/-! ## Sequences of calls -/

/-- The last rule is added to the array of the others. -/
theorem addAll_append (rules : List Rule) (rule : Rule) :
    addAll (rules ++ [rule]) = (addAll rules).bind fun set => set.add rule := by
  rw [addAll, List.foldlM_append]
  show (addAll rules).bind (fun set => (set.add rule).bind some) = _
  simp only [Option.bind_fun_some]

/-- Up to the full count the array holds all rules, sorted. -/
theorem holds_addAll {rules : List Rule} (hle : rules.length ≤ fullCount) :
    ∃ set, addAll rules = some set ∧ set.Holds (sortedRules rules) := by
  induction rules using List.reverseRecOn with
  | nil => exact ⟨.empty, rfl, .empty⟩
  | append_singleton rules rule ih =>
    rw [List.length_append, List.length_singleton] at hle
    obtain ⟨set, hset, hholds⟩ := ih (by omega)
    have hlen := (sortedRules_perm rules).length_eq
    obtain ⟨set', hset', hholds'⟩ := hholds.add (by omega) rule
    refine ⟨set', ?_, ?_⟩
    · rw [addAll_append, hset, Option.bind_some, hset']
    · rw [sortedRules_append]
      exact hholds'

/-- The rule after those: the capacity becomes 0. -/
theorem RuleArray.Holds.add_full {set : RuleArray} {rules : List Rule} (h : set.Holds rules)
    (hlen : rules.length = fullCount) (rule : Rule) :
    ∃ set', set.add rule = some set' ∧ set'.numRules = fullCount + 1 ∧ set'.capacity = 0 := by
  obtain ⟨x, free, capacity, hadd, hcase⟩ := h.add_eq rule
  obtain ⟨k, hk⟩ := h.grown
  have hroom := h.le
  have htight := h.tight
  rw [addSorted_eq] at hadd
  refine ⟨_, hadd, ?_, ?_⟩
  · dsimp only
    rw [hlen]
    rfl
  · dsimp only
    unfold npSetGrowCount fullCount at *
    rcases hcase with ⟨hle, rfl, -⟩ | ⟨hlt, rfl, -⟩
    · omega
    · omega

/-- The one after that goes out of an array of `NP_SET_GROW_COUNT` places. -/
theorem RuleArray.add_over {set : RuleArray} (hcap : set.capacity = 0)
    (hnum : npSetGrowCount ≤ set.numRules) (rule : Rule) : set.add rule = none := by
  obtain ⟨slots, numRules, capacity⟩ := set
  dsimp only at hcap hnum
  subst hcap
  have hlen : (List.replicate npSetGrowCount (none : Option Rule)).length = 64 :=
    List.length_replicate
  have hread : ∀ i, readSlot (List.replicate npSetGrowCount none) i = none := by
    intro i
    rw [readSlot, List.getElem?_replicate]
    split_ifs
    · rfl
    · rfl
    · rfl
  unfold npSetGrowCount at hnum
  rw [RuleArray.add, if_pos (Nat.zero_le _), if_pos (Nat.zero_le _), List.take_zero,
    List.nil_append, RuleArray.addSorted]
  dsimp only
  split_ifs with hmin hmax
  · rw [writeSlot, if_neg (by omega)]
    rfl
  · rw [makeRoom, if_pos (by omega), moveSlots, if_neg (by omega)]
    rfl
  · rw [searchLoop, if_pos (by omega)]
    dsimp only
    rw [hread]
    rfl

/-- The first places of the array have the rules that were added, by descending priority, and
there are not more of them than the capacity says. -/
structure InOrder (rules : List Rule) (set : RuleArray) : Prop where
  sorted : ∃ l, l.Perm rules ∧ Descending l ∧ set.numRules = l.length ∧
    set.slots.take set.numRules = l.map some
  le : set.numRules ≤ set.capacity

/-- An array that holds the sorted rules is in order. -/
theorem RuleArray.Holds.inOrder {set : RuleArray} {rules : List Rule}
    (h : set.Holds (sortedRules rules)) (hmax : ∀ r ∈ rules, r.priority ≤ npRulePriMax) :
    InOrder rules set := by
  obtain ⟨free, hslots⟩ := h.used
  refine ⟨⟨sortedRules rules, sortedRules_perm rules, sortedRules_descending hmax, h.num, ?_⟩, ?_⟩
  · have hlen : set.numRules = ((sortedRules rules).map some).length := by
      rw [List.length_map, h.num]
    rw [hslots, hlen, List.take_left]
  · rw [h.num]
    exact h.le

/-- Above the full count it is not. -/
theorem not_inOrder_of_over {rules : List Rule} (hlen : fullCount < rules.length) :
    ¬ ∃ set, addAll rules = some set ∧ InOrder rules set := by
  rintro ⟨set, hset, hin⟩
  obtain ⟨full, hfull, hholds⟩ := holds_addAll (List.length_take_le fullCount rules)
  have hflen : (sortedRules (rules.take fullCount)).length = fullCount := by
    rw [(sortedRules_perm _).length_eq, List.length_take, Nat.min_eq_left (Nat.le_of_lt hlen)]
  have hsplit : rules = rules.take fullCount ++ rules[fullCount] :: rules.drop (fullCount + 1) := by
    rw [← List.drop_eq_getElem_cons hlen, List.take_append_drop]
  obtain ⟨set', hset', hnum, hcap⟩ := hholds.add_full hflen rules[fullCount]
  rw [hsplit, addAll, List.foldlM_append] at hset
  change (addAll (rules.take fullCount)).bind _ = _ at hset
  rw [hfull, Option.bind_some, List.foldlM_cons, hset', Option.bind_eq_bind,
    Option.bind_some] at hset
  cases hrest : rules.drop (fullCount + 1) with
  | nil =>
    rw [hrest] at hset
    obtain rfl := Option.some.inj hset
    have := hin.le
    omega
  | cons r rest =>
    rw [hrest, List.foldlM_cons, RuleArray.add_over hcap (by rw [hnum]; decide)] at hset
    cases hset

/-- The rules stand in order after each sequence of calls that adds at most 65472 of them, and
after no other. -/
theorem addAll_inOrder_iff {rules : List Rule} (hmax : ∀ r ∈ rules, r.priority ≤ npRulePriMax) :
    (∃ set, addAll rules = some set ∧ InOrder rules set) ↔ rules.length ≤ 65472 := by
  constructor
  · intro h
    by_contra hlen
    exact not_inOrder_of_over (Nat.lt_of_not_le hlen) h
  · intro hle
    obtain ⟨set, hset, hholds⟩ := holds_addAll hle
    exact ⟨set, hset, hholds.inOrder hmax⟩

/-- A rule that matches on nothing. -/
def plainRule (id priority : ℕ) : Rule where
  id := id
  priority := priority
  isBase := true
  l4 := none
  l7 := none
  http := none
  protoCb pkt := pkt

/-- Rules of the highest priority, of two others and of the lowest one. -/
theorem addAll_inOrder_four :
    ∃ set, addAll [plainRule 1 100, plainRule 2 65535, plainRule 3 0, plainRule 4 200] = some set ∧
      InOrder [plainRule 1 100, plainRule 2 65535, plainRule 3 0, plainRule 4 200] set :=
  (addAll_inOrder_iff (by decide)).mpr (by decide)

/-- A set that gets 65473 rules of one priority. -/
theorem not_inOrder_overflow :
    (∀ r ∈ List.replicate 65473 (plainRule 1 100), r.priority ≤ npRulePriMax) ∧
      ¬ ∃ set, addAll (List.replicate 65473 (plainRule 1 100)) = some set ∧
        InOrder (List.replicate 65473 (plainRule 1 100)) set := by
  constructor
  · intro r hr
    rw [List.eq_of_mem_replicate hr]
    decide
  · exact not_inOrder_of_over (by rw [List.length_replicate]; decide)

end NpRules
