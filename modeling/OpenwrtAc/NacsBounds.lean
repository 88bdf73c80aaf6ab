/-
# Accepted requests and the memory they are read in

`__do_table` follows the offsets and numbers of each entry, which `translate_table` does not
look at, and the handler of the sets lets a category pass that is one too large.  What is read
of an entry depends on the flow: the lists of the flow match up to the first id that holds, the
protocols that the binary search comes to, and the target of an entry that is for the flow.  An
accepted request is read inside its memory exactly where, for every flow, these parts of the
entries that the flow comes to lie in the table, and the category has a place in the array.
-/
import OpenwrtAc.NacsWalk

open ByteCodec RuleTable

namespace Nacs

/-! ## Checks that may read outside -/

/-- The check gives an answer exactly where `inside` holds, and the answer is whether `hit`
does. -/
structure Answers (x : Option Bool) (inside hit : Prop) : Prop where
  answer : inside → ∃ b, x = some b ∧ (b = true ↔ hit)
  inside : x ≠ none → inside

namespace Answers

variable {x y : Option Bool} {inside inside' hit hit' : Prop}

/-- An answer may be described in other words. -/
theorem congr (h : Answers x inside hit) (hinside : inside ↔ inside') (hhit : hit ↔ hit') :
    Answers x inside' hit' := by
  refine ⟨fun hi => ?_, fun hx => hinside.1 (h.inside hx)⟩
  obtain ⟨b, hb, hiff⟩ := h.answer (hinside.2 hi)
  exact ⟨b, hb, hiff.trans hhit⟩

/-- A second check is made where the first one holds. -/
theorem andThen (hx : Answers x inside hit) (hy : Answers y inside' hit') :
    Answers (x.bind fun b => if b = true then y else some false)
      (inside ∧ (hit → inside')) (hit ∧ hit') := by
  constructor
  · rintro ⟨hi, hi'⟩
    obtain ⟨b, rfl, hb⟩ := hx.answer hi
    cases b with
    | false => exact ⟨false, rfl, iff_of_false nofun fun h => nomatch hb.2 h.1⟩
    | true =>
      obtain ⟨c, rfl, hc⟩ := hy.answer (hi' (hb.1 rfl))
      exact ⟨c, rfl, hc.trans (and_iff_right (hb.1 rfl)).symm⟩
  · intro h
    obtain ⟨b, rfl⟩ : ∃ b, x = some b := by
      cases x with
      | none => exact absurd rfl h
      | some b => exact ⟨b, rfl⟩
    have hi := hx.inside (Option.some_ne_none b)
    obtain ⟨c, hc, hhit⟩ := hx.answer hi
    obtain rfl := Option.some.inj hc
    refine ⟨hi, fun hh => hy.inside fun hnone => h ?_⟩
    rw [hhit.2 hh, Option.bind_some, if_pos rfl, hnone]

/-- A value is read first. -/
theorem afterRead {α : Type} {r : Option α} {f : α → Option Bool} {v : α} {there : Prop}
    (hv : there → r = some v) (hthere : r ≠ none → there) (hf : Answers (f v) inside hit) :
    Answers (r.bind f) (there ∧ inside) hit := by
  constructor
  · rintro ⟨ht, hi⟩
    rw [hv ht]
    exact hf.answer hi
  · intro h
    have ht : there := hthere fun hnone => h (by rw [hnone, Option.bind_none])
    rw [hv ht, Option.bind_some] at h
    exact ⟨ht, hf.inside h⟩

end Answers

/-! ## The bytes of a table -/

/-- The bytes of the table. -/
def tableOf (mem : ℕ → UInt8) (size : ℕ) : List UInt8 := (List.range size).map mem

/-- The table has as many bytes as its size says. -/
@[simp] theorem tableOf_length (mem : ℕ → UInt8) (size : ℕ) :
    (tableOf mem size).length = size := by
  simp [tableOf]

/-- The 32-bit word at a place in memory. -/
def dwordAt (mem : ℕ → UInt8) (off : ℕ) : ℕ := wordAt mem off + 2 ^ 16 * wordAt mem (off + 2)

section Reads

variable {mem : ℕ → UInt8} {size off : ℕ}

/-- The byte at an offset stands in front of the others. -/
theorem tableOf_drop (h : off < size) :
    (tableOf mem size).drop off = mem off :: (tableOf mem size).drop (off + 1) := by
  rw [List.drop_eq_getElem_cons (by rwa [tableOf_length])]
  simp [tableOf]

/-- Two bytes are read inside the table. -/
theorem rd16_tableOf (h : off + 2 ≤ size) :
    rd16 ((tableOf mem size).drop off) = some (wordAt mem off) := by
  rw [tableOf_drop (by omega), tableOf_drop (by omega)]
  rfl

/-- Four bytes are read inside the table. -/
theorem rd32_tableOf (h : off + 4 ≤ size) :
    rd32 ((tableOf mem size).drop off) = some (dwordAt mem off) := by
  rw [tableOf_drop (by omega), tableOf_drop (by omega), tableOf_drop (by omega),
    tableOf_drop (by omega)]
  rfl

/-- A read that succeeds is inside. -/
theorem rd16_inside (h : rd16 ((tableOf mem size).drop off) ≠ none) : off + 2 ≤ size := by
  by_contra hgt
  have hlen : ((tableOf mem size).drop off).length < 2 := by
    rw [List.length_drop, tableOf_length]
    omega
  match hl : (tableOf mem size).drop off, hlen with
  | [], _ => exact h (by rw [hl]; rfl)
  | [_], _ => exact h (by rw [hl]; rfl)

/-- Four bytes are read only inside the table. -/
theorem rd32_inside (h : rd32 ((tableOf mem size).drop off) ≠ none) : off + 4 ≤ size := by
  by_contra hgt
  have hlen : ((tableOf mem size).drop off).length < 4 := by
    rw [List.length_drop, tableOf_length]
    omega
  match hl : (tableOf mem size).drop off, hlen with
  | [], _ => exact h (by rw [hl]; rfl)
  | [_], _ => exact h (by rw [hl]; rfl)
  | [_, _], _ => exact h (by rw [hl]; rfl)
  | [_, _, _], _ => exact h (by rw [hl]; rfl)

end Reads

/-! ## The flow match -/

/-- What both kinds of lists are checked with: whether one of the first `number` ids holds. -/
def checkIds (holds : UInt8 → Bool) : ℕ → List UInt8 → Option Bool
  | 0, _ => some false
  | _ + 1, [] => none
  | number + 1, z :: l => if holds z then some true else checkIds holds number l

/-- The zone or the wildcard. -/
def zoneHolds (zoneId z : UInt8) : Bool := z = zoneId ∨ acZoneMaxid ≤ z.toNat

/-- A group of the mask or the wildcard. -/
def ipgrpHolds (bits : BitVec 64) (g : UInt8) : Bool :=
  (g.toNat < 64 ∧ bits.getLsbD g.toNat = true) ∨ acIpgrpMaxid ≤ g.toNat

/-- The loop over the zones is the loop over ids. -/
theorem acZoneCheck_eq (zoneId : UInt8) (number : ℕ) (l : List UInt8) :
    acZoneCheck zoneId number l = checkIds (zoneHolds zoneId) number l := by
  induction number generalizing l with
  | zero => rfl
  | succ number ih =>
    cases l with
    | nil => rfl
    | cons z l =>
      rw [acZoneCheck, checkIds, ih]
      simp only [zoneHolds, decide_eq_true_eq]

/-- The loop over the groups is the loop over ids. -/
theorem acIpgrpCheck_eq (bits : BitVec 64) (number : ℕ) (l : List UInt8) :
    acIpgrpCheck bits number l = checkIds (ipgrpHolds bits) number l := by
  induction number generalizing l with
  | zero => rfl
  | succ number ih =>
    cases l with
    | nil => rfl
    | cons g l =>
      rw [acIpgrpCheck, checkIds, ih]
      simp only [ipgrpHolds, decide_eq_true_eq]
      by_cases hg : g.toNat < 64 ∧ bits.getLsbD g.toNat = true
      · rw [if_pos hg, if_pos (Or.inl hg)]
      · rw [if_neg hg]
        exact if_congr (or_iff_right hg).symm rfl rfl

/-- The ids of a list are inside as far as they are compared: up to the first that holds. -/
def IdsInside (holds : UInt8 → Bool) (mem : ℕ → UInt8) (size off number : ℕ) : Prop :=
  ∀ i < number, (∀ j < i, holds (mem (off + j)) = false) → off + i < size

/-- One of the ids of a list holds. -/
def IdHolds (holds : UInt8 → Bool) (mem : ℕ → UInt8) (off number : ℕ) : Prop :=
  ∃ i < number, holds (mem (off + i)) = true

section Ids

variable {holds : UInt8 → Bool} {mem : ℕ → UInt8} {size off number : ℕ}

/-- Behind an id that does not hold, the check goes on with the next one. -/
theorem idsInside_succ (hlt : off < size) (hno : holds (mem off) = false) :
    IdsInside holds mem size (off + 1) number ↔ IdsInside holds mem size off (number + 1) := by
  constructor
  · intro h i hi hbelow
    cases i with
    | zero => exact hlt
    | succ i =>
      have := h i (Nat.lt_of_succ_lt_succ hi) fun j hj => by
        rw [Nat.add_right_comm, Nat.add_assoc]
        exact hbelow (j + 1) (Nat.succ_lt_succ hj)
      omega
  · intro h i hi hbelow
    have := h (i + 1) (Nat.succ_lt_succ hi) fun j hj => by
      cases j with
      | zero => exact hno
      | succ j =>
        have := hbelow j (Nat.lt_of_succ_lt_succ hj)
        rwa [Nat.add_right_comm, Nat.add_assoc] at this
    omega

/-- An id that does not hold is passed over. -/
theorem idHolds_succ (hno : holds (mem off) = false) :
    IdHolds holds mem (off + 1) number ↔ IdHolds holds mem off (number + 1) := by
  constructor
  · rintro ⟨i, hi, hh⟩
    rw [Nat.add_right_comm, Nat.add_assoc] at hh
    exact ⟨i + 1, Nat.succ_lt_succ hi, hh⟩
  · rintro ⟨i, hi, hh⟩
    cases i with
    | zero => exact absurd hh (by rw [Nat.add_zero, hno]; exact Bool.false_ne_true)
    | succ i =>
      refine ⟨i, Nat.lt_of_succ_lt_succ hi, ?_⟩
      rwa [Nat.add_right_comm, Nat.add_assoc]

/-- The loop over ids reads up to the first one that holds. -/
theorem checkIds_answers (holds : UInt8 → Bool) (mem : ℕ → UInt8) (size off number : ℕ) :
    Answers (checkIds holds number ((tableOf mem size).drop off))
      (IdsInside holds mem size off number) (IdHolds holds mem off number) := by
  induction number generalizing off with
  | zero =>
    exact ⟨fun _ => ⟨false, rfl, iff_of_false nofun fun ⟨_, hi, _⟩ => absurd hi (Nat.not_lt_zero _)⟩,
      fun _ _ hi => absurd hi (Nat.not_lt_zero _)⟩
  | succ number ih =>
    by_cases hlt : off < size
    · rw [tableOf_drop hlt, checkIds]
      by_cases hh : holds (mem off) = true
      · rw [if_pos hh]
        refine ⟨fun _ => ⟨true, rfl, iff_of_true rfl ⟨0, Nat.succ_pos _, hh⟩⟩, fun _ i _ hno => ?_⟩
        -- what comes behind the id that holds is not compared
        cases i with
        | zero => exact hlt
        | succ i => exact absurd (hno 0 (Nat.succ_pos _)) (by rw [Nat.add_zero, hh]; nofun)
      · rw [if_neg hh]
        have hno : holds (mem off) = false := Bool.eq_false_iff.2 hh
        exact (ih (off + 1)).congr (idsInside_succ hlt hno) (idHolds_succ hno)
    · rw [List.drop_of_length_le (by rw [tableOf_length]; omega), checkIds]
      exact ⟨fun h => absurd (h 0 (Nat.succ_pos _) fun j hj => absurd hj (Nat.not_lt_zero _)) hlt,
        fun h => absurd rfl h⟩

end Ids

/-- What an id of the list `k` is compared with. -/
def idHolds (req : TableReq) : ℕ → UInt8 → Bool
  | 0 => zoneHolds req.srcZone
  | 1 => ipgrpHolds req.srcIpgrpBits
  | 2 => zoneHolds req.dstZone
  | _ => ipgrpHolds req.dstIpgrpBits

/-- `number[k]` of the flow match at `m`. -/
def listNumber (mem : ℕ → UInt8) (m k : ℕ) : ℕ := wordAt mem (m + 2 * k)

/-- Where the list `k` of the flow match at `m` begins. -/
def listStart (mem : ℕ → UInt8) (m : ℕ) : ℕ → ℕ
  | 0 => m + sizeofFlowMatch
  | k + 1 => listStart mem m k + listNumber mem m k

/-- The number of the list is inside, and so are the ids that are compared. -/
def ListInside (req : TableReq) (mem : ℕ → UInt8) (size m k : ℕ) : Prop :=
  m + 2 * k + 2 ≤ size ∧
    IdsInside (idHolds req k) mem size (listStart mem m k) (listNumber mem m k)

/-- An id of the list holds. -/
def ListHolds (req : TableReq) (mem : ℕ → UInt8) (m k : ℕ) : Prop :=
  IdHolds (idHolds req k) mem (listStart mem m k) (listNumber mem m k)

/-- A list is checked, and where one of its ids holds the check goes on. -/
theorem listCheck_answers {req : TableReq} {mem : ℕ → UInt8} {size m k : ℕ}
    {rest : ℕ → Option Bool} {inside hit : Prop}
    (hrest : Answers (rest (listNumber mem m k)) inside hit) :
    Answers ((rd16 ((tableOf mem size).drop (m + 2 * k))).bind fun number =>
        (checkIds (idHolds req k) number ((tableOf mem size).drop (listStart mem m k))).bind
          fun b => if b = true then rest number else some false)
      (ListInside req mem size m k ∧ (ListHolds req mem m k → inside))
      (ListHolds req mem m k ∧ hit) :=
  (Answers.afterRead rd16_tableOf rd16_inside
    ((checkIds_answers ..).andThen hrest)).congr and_assoc.symm Iff.rfl

/-- The lists of a flow match are inside as far as they are come to. -/
def FlowInside (req : TableReq) (mem : ℕ → UInt8) (size m : ℕ) : Prop :=
  ∀ k < 4, (∀ j < k, ListHolds req mem m j) → ListInside req mem size m k

/-- The flow match is for the flow. -/
def FlowHolds (req : TableReq) (mem : ℕ → UInt8) (m : ℕ) : Prop :=
  ∀ k < 4, ListHolds req mem m k

/-- Four steps of which each is made when those before hold. -/
theorem forall_lt_four_iff {holds inside : ℕ → Prop} :
    (∀ k < 4, (∀ j < k, holds j) → inside k) ↔
      inside 0 ∧ (holds 0 → inside 1 ∧ (holds 1 → inside 2 ∧ (holds 2 → inside 3))) := by
  constructor
  · intro h
    refine ⟨h 0 (by omega) nofun, fun h0 => ⟨h 1 (by omega) fun j hj => ?_, fun h1 =>
      ⟨h 2 (by omega) fun j hj => ?_, fun h2 => h 3 (by omega) fun j hj => ?_⟩⟩⟩
    · obtain rfl : j = 0 := by omega
      exact h0
    · obtain rfl | rfl : j = 0 ∨ j = 1 := by omega
      · exact h0
      · exact h1
    · obtain rfl | rfl | rfl : j = 0 ∨ j = 1 ∨ j = 2 := by omega
      · exact h0
      · exact h1
      · exact h2
  · rintro ⟨i0, h⟩ k hk hbelow
    obtain rfl | rfl | rfl | rfl : k = 0 ∨ k = 1 ∨ k = 2 ∨ k = 3 := by omega
    · exact i0
    · exact (h (hbelow 0 (by omega))).1
    · exact ((h (hbelow 0 (by omega))).2 (hbelow 1 (by omega))).1
    · exact ((h (hbelow 0 (by omega))).2 (hbelow 1 (by omega))).2 (hbelow 2 (by omega))

/-- What the flow match reads and when it holds. -/
theorem flowMatchCheck_answers (req : TableReq) (mem : ℕ → UInt8) (size m : ℕ) :
    Answers (flowMatchCheck req ((tableOf mem size).drop m)) (FlowInside req mem size m)
      (FlowHolds req mem m) := by
  have hlast : Answers ((rd16 ((tableOf mem size).drop (m + 6))).bind fun number =>
        checkIds (idHolds req 3) number ((tableOf mem size).drop (listStart mem m 3)))
      (ListInside req mem size m 3) (ListHolds req mem m 3) :=
    Answers.afterRead rd16_tableOf rd16_inside (checkIds_answers ..)
  have hcheck : Answers (flowMatchCheck req ((tableOf mem size).drop m))
      (ListInside req mem size m 0 ∧ (ListHolds req mem m 0 → ListInside req mem size m 1 ∧
        (ListHolds req mem m 1 → ListInside req mem size m 2 ∧
          (ListHolds req mem m 2 → ListInside req mem size m 3))))
      (ListHolds req mem m 0 ∧ ListHolds req mem m 1 ∧ ListHolds req mem m 2
        ∧ ListHolds req mem m 3) := by
    unfold flowMatchCheck
    simp only [acZoneCheck_eq, acIpgrpCheck_eq, List.drop_drop, Option.bind_eq_bind,
      ← Nat.add_assoc]
    exact listCheck_answers (k := 0) (listCheck_answers (k := 1) (listCheck_answers (k := 2) hlast))
  refine hcheck.congr forall_lt_four_iff.symm ⟨?_, fun h => ⟨h 0 (by omega), h 1 (by omega),
    h 2 (by omega), h 3 (by omega)⟩⟩
  rintro ⟨h0, h1, h2, h3⟩ k hk
  obtain rfl | rfl | rfl | rfl : k = 0 ∨ k = 1 ∨ k = 2 ∨ k = 3 := by omega
  · exact h0
  · exact h1
  · exact h2
  · exact h3

/-! ## The protocol match -/

/-- The places that the loop of `binary_search` comes to with its bounds at `left` and `right`. -/
inductive Probes (val : ℕ → ℕ) (value : ℕ) : ℤ → ℤ → ℕ → Prop
  | middle {left right : ℤ} (h : left ≤ right) :
      Probes val value left right (left + (right - left) / 2).toNat
  | lower {left right : ℤ} {i : ℕ} (h : left ≤ right)
      (hlt : value < val (left + (right - left) / 2).toNat)
      (hp : Probes val value left (left + (right - left) / 2 - 1) i) :
      Probes val value left right i
  | upper {left right : ℤ} {i : ℕ} (h : left ≤ right)
      (hlt : val (left + (right - left) / 2).toNat < value)
      (hp : Probes val value (left + (right - left) / 2 + 1) right i) :
      Probes val value left right i

/-- One of the places that the search comes to has the value. -/
def Finds (val : ℕ → ℕ) (value : ℕ) (left right : ℤ) : Prop :=
  ∃ i, Probes val value left right i ∧ val i = value

section Search

variable {get : ℕ → Option ℕ} {val : ℕ → ℕ} {there : ℕ → Prop} {value : ℕ}

/-- Where the bounds have crossed, the search comes to no place. -/
theorem not_probes {left right : ℤ} {i : ℕ} (h : ¬ left ≤ right) :
    ¬ Probes val value left right i := by
  intro hp
  cases hp with
  | middle h' => exact h h'
  | lower h' => exact h h'
  | upper h' => exact h h'

/-- One round of the loop, by what stands in the middle. -/
theorem probes_iff {left right : ℤ} (h : left ≤ right) {i : ℕ} :
    Probes val value left right i ↔ i = (left + (right - left) / 2).toNat
      ∨ value < val (left + (right - left) / 2).toNat
        ∧ Probes val value left (left + (right - left) / 2 - 1) i
      ∨ val (left + (right - left) / 2).toNat < value
        ∧ Probes val value (left + (right - left) / 2 + 1) right i := by
  constructor
  · intro hp
    cases hp with
    | middle _ => exact Or.inl rfl
    | lower _ hlt hp => exact Or.inr (Or.inl ⟨hlt, hp⟩)
    | upper _ hlt hp => exact Or.inr (Or.inr ⟨hlt, hp⟩)
  · rintro (rfl | ⟨hlt, hp⟩ | ⟨hlt, hp⟩)
    · exact .middle h
    · exact .lower h hlt hp
    · exact .upper h hlt hp

/-- The search goes on with the bounds `left'` and `right'`, where the middle has not the
value. -/
theorem answers_goOn {x : Option Bool} {left right left' right' : ℤ}
    (hm : there (left + (right - left) / 2).toNat)
    (hne : val (left + (right - left) / 2).toNat ≠ value)
    (hp : ∀ i, Probes val value left right i ↔
      i = (left + (right - left) / 2).toNat ∨ Probes val value left' right' i)
    (h : Answers x (∀ i, Probes val value left' right' i → there i)
      (Finds val value left' right')) :
    Answers x (∀ i, Probes val value left right i → there i) (Finds val value left right) := by
  refine h.congr ?_ ?_
  · simp only [hp, forall_eq_or_imp, hm, true_and]
  · simp only [Finds, hp, or_and_right, exists_or, exists_eq_left, hne, false_or]

/-- A search that is over finds nothing. -/
theorem not_finds {left right : ℤ} (h : ¬ left ≤ right) : ¬ Finds val value left right := by
  rintro ⟨i, hp, -⟩
  exact not_probes h hp

/-- The search gives an answer exactly where all places that it comes to can be read. -/
theorem binarySearchLoop_answers (hget : ∀ i, there i → get i = some (val i))
    (hthere : ∀ i, get i ≠ none → there i) (fuel : ℕ) {left right : ℤ} (h0 : 0 ≤ left)
    (hfuel : right - left + 1 ≤ fuel) :
    Answers ((binarySearchLoop get value fuel left right).map fun k => !(k < 0))
      (∀ i, Probes val value left right i → there i) (Finds val value left right) := by
  induction fuel generalizing left right with
  | zero =>
    have hgt : ¬ left ≤ right := by omega
    rw [binarySearchLoop, if_neg hgt]
    exact ⟨fun _ => ⟨false, rfl, iff_of_false Bool.false_ne_true (not_finds hgt)⟩,
      fun _ _ hp => absurd hp (not_probes hgt)⟩
  | succ fuel ih =>
    rw [binarySearchLoop]
    by_cases hle : left ≤ right
    · rw [if_pos hle]
      by_cases hm : there (left + (right - left) / 2).toNat
      · simp only [hget _ hm]
        rcases lt_trichotomy value (val (left + (right - left) / 2).toNat) with hlt | heq | hgt
        · rw [if_pos hlt]
          refine answers_goOn hm (Nat.ne_of_gt hlt) (fun i => ?_) (ih h0 (by omega))
          rw [probes_iff hle]
          simp only [hlt, Nat.lt_asymm hlt, true_and, false_and, or_false]
        · rw [if_neg (by omega), if_neg (by omega)]
          refine ⟨fun _ => ⟨true, ?_, iff_of_true rfl ⟨_, .middle hle, heq.symm⟩⟩,
            fun _ i hp => ?_⟩
          · simp only [Option.map_some, Option.some.injEq, Bool.not_eq_true', decide_eq_false_iff_not]
            omega
          · rcases (probes_iff hle).1 hp with rfl | ⟨hlt, -⟩ | ⟨hlt, -⟩
            · exact hm
            · omega
            · omega
        · rw [if_neg (by omega), if_pos hgt]
          refine answers_goOn hm (Nat.ne_of_lt hgt) (fun i => ?_) (ih (by omega) (by omega))
          rw [probes_iff hle]
          simp only [hgt, Nat.lt_asymm hgt, true_and, false_and, false_or]
      · have hnone : get (left + (right - left) / 2).toNat = none := by
          by_contra hsome
          exact hm (hthere _ hsome)
        simp only [hnone]
        exact ⟨fun h => absurd (h _ (.middle hle)) hm, fun h => absurd rfl h⟩
    · rw [if_neg hle]
      exact ⟨fun _ => ⟨false, rfl, iff_of_false Bool.false_ne_true (not_finds hle)⟩,
        fun _ _ hp => absurd hp (not_probes hle)⟩

end Search

/-- `number` of the protocol match at `p`. -/
def protoNumber (mem : ℕ → UInt8) (p : ℕ) : ℕ := wordAt mem p

/-- The protocols of the match at `p`. -/
def protoAt (mem : ℕ → UInt8) (p i : ℕ) : ℕ := dwordAt mem (p + sizeofProtoMatch + 4 * i)

/-- The number of a protocol match is inside, and so are the protocols that the search comes
to. -/
def ProtoInside (protoId : ℕ) (mem : ℕ → UInt8) (size p : ℕ) : Prop :=
  p + 2 ≤ size ∧ ∀ i, Probes (protoAt mem p) protoId 0 (protoNumber mem p - 1) i →
    p + sizeofProtoMatch + 4 * i + 4 ≤ size

/-- The search finds the protocol. -/
def ProtoHolds (protoId : ℕ) (mem : ℕ → UInt8) (p : ℕ) : Prop :=
  Finds (protoAt mem p) protoId 0 (protoNumber mem p - 1)

/-- What the protocol match reads and when it holds. -/
theorem protoMatchCheck_answers (protoId : ℕ) (mem : ℕ → UInt8) (size p : ℕ) :
    Answers (protoMatchCheck protoId ((tableOf mem size).drop p))
      (ProtoInside protoId mem size p) (ProtoHolds protoId mem p) := by
  refine Answers.afterRead rd16_tableOf rd16_inside ?_
  have hsearch := @binarySearchLoop_answers
    (fun i => rd32 ((tableOf mem size).drop (p + sizeofProtoMatch + 4 * i))) (protoAt mem p)
    (fun i => p + sizeofProtoMatch + 4 * i + 4 ≤ size) protoId (fun i => rd32_tableOf)
    (fun i => rd32_inside) (protoNumber mem p) 0 (protoNumber mem p - 1) le_rfl (by omega)
  have hmap : ∀ x : Option ℤ, (x.bind fun k => some (!(decide (k < 0)))) = x.map fun k => !(k < 0) :=
    fun x => by cases x <;> rfl
  simp only [List.drop_drop, binarySearch, Option.bind_eq_bind, Option.pure_def, hmap]
  exact hsearch

/-! ## The entries -/

/-- The parts of the entry at `off` that are read for the flow are inside: the lists of its
flow match as far as they are come to, the protocol match of an entry whose flow match is for
the flow, and the flags of the target of one that is for the flow. -/
structure EntryInside (req : TableReq) (mem : ℕ → UInt8) (size off : ℕ) : Prop where
  flow : FlowInside req mem size (off + sizeofEntry)
  proto : FlowHolds req mem (off + sizeofEntry) →
    ProtoInside req.protoId mem size (off + wordAt mem (off + 2))
  target : FlowHolds req mem (off + sizeofEntry) →
    ProtoHolds req.protoId mem (off + wordAt mem (off + 2)) →
      off + wordAt mem (off + 4) + sizeofTarget ≤ size

/-- The entry at `off` is for the flow. -/
def EntryHolds (req : TableReq) (mem : ℕ → UInt8) (off : ℕ) : Prop :=
  FlowHolds req mem (off + sizeofEntry) ∧
    ProtoHolds req.protoId mem (off + wordAt mem (off + 2))

/-- Where the number of the first list is inside, so is the header of the entry. -/
theorem FlowInside.header {req : TableReq} {mem : ℕ → UInt8} {size off : ℕ}
    (h : FlowInside req mem size (off + sizeofEntry)) : off + sizeofEntry + 2 ≤ size :=
  (h 0 (by omega) nofun).1

/-- What an entry reads and when it holds. -/
theorem entryCheck_answers (req : TableReq) (mem : ℕ → UInt8) (size off : ℕ) :
    Answers ((entryCheck req ((tableOf mem size).drop off)).map Option.isSome)
      (EntryInside req mem size off) (EntryHolds req mem off) := by
  have htarget : Answers ((rd32 ((tableOf mem size).drop (off + wordAt mem (off + 4) + 4))).bind
      fun _ => some true) (off + wordAt mem (off + 4) + 4 + 4 ≤ size ∧ True) True :=
    Answers.afterRead rd32_tableOf rd32_inside ⟨fun _ => ⟨true, rfl, by simp⟩, fun _ => trivial⟩
  have hparts := (flowMatchCheck_answers req mem size (off + sizeofEntry)).andThen
    ((protoMatchCheck_answers req.protoId mem size (off + wordAt mem (off + 2))).andThen htarget)
  have hcheck : Answers ((entryCheck req ((tableOf mem size).drop off)).map Option.isSome)
      (off + 2 ≤ size ∧ off + 2 + 2 ≤ size ∧ off + 4 + 2 ≤ size ∧ FlowInside req mem size
        (off + sizeofEntry) ∧ (FlowHolds req mem (off + sizeofEntry) →
          ProtoInside req.protoId mem size (off + wordAt mem (off + 2)) ∧
          (ProtoHolds req.protoId mem (off + wordAt mem (off + 2)) →
            off + wordAt mem (off + 4) + 4 + 4 ≤ size ∧ True)))
      (FlowHolds req mem (off + sizeofEntry) ∧
        ProtoHolds req.protoId mem (off + wordAt mem (off + 2)) ∧ True) := by
    unfold entryCheck
    simp only [Option.bind_eq_bind, Option.map_bind, Function.comp_def, List.drop_drop,
      apply_ite (Option.map Option.isSome), Option.pure_def, Option.map_some, Option.isSome_some,
      Option.isSome_none]
    exact Answers.afterRead rd16_tableOf rd16_inside (Answers.afterRead rd16_tableOf rd16_inside
      (Answers.afterRead rd16_tableOf rd16_inside hparts))
  refine hcheck.congr ⟨?_, fun h => ?_⟩ (by simp only [and_true, EntryHolds])
  · rintro ⟨-, -, -, hflow, hrest⟩
    exact ⟨hflow, fun hf => (hrest hf).1, fun hf hp => ((hrest hf).2 hp).1⟩
  · have hheader := h.flow.header
    unfold sizeofEntry at hheader
    exact ⟨by omega, by omega, by omega, h.flow, fun hf => ⟨h.proto hf, fun hp =>
      ⟨h.target hf hp, trivial⟩⟩⟩

/-- The entries that the walk of `__do_table` comes to for a flow: up to the first that is for
it. -/
inductive Comes (req : TableReq) (mem : ℕ → UInt8) (size : ℕ) : ℕ → Prop
  | first (h : 0 < size) : Comes req mem size 0
  | next {off : ℕ} (h : Comes req mem size off) (hno : ¬ EntryHolds req mem off)
      (hlt : off + nextAt mem off < size) : Comes req mem size (off + nextAt mem off)

/-- For every flow, what is read of the entries that it comes to is inside. -/
def Fits (mem : ℕ → UInt8) (size : ℕ) : Prop :=
  ∀ req off, Comes req mem size off → EntryInside req mem size off

section Walk

variable {req : TableReq} {mem : ℕ → UInt8} {size : ℕ}

/-- An entry that is come to lies inside the table. -/
theorem Comes.lt {off : ℕ} (h : Comes req mem size off) : off < size := by
  cases h with
  | first h => exact h
  | next _ _ hlt => exact hlt

/-- The loop at an entry whose parts are inside: it ends there, or goes on with the next. -/
theorem doTableLoop_inside {off : ℕ} (h : EntryInside req mem size off) (fuel : ℕ) :
    (EntryHolds req mem off ∧ doTableLoop req (fuel + 1) ((tableOf mem size).drop off) ≠ none) ∨
      (¬ EntryHolds req mem off ∧ doTableLoop req (fuel + 1) ((tableOf mem size).drop off)
        = doTableLoop req fuel ((tableOf mem size).drop (off + nextAt mem off))) := by
  have hheader := h.flow.header
  unfold sizeofEntry at hheader
  obtain ⟨b, hb, hiff⟩ := (entryCheck_answers req mem size off).answer h
  obtain ⟨r, hr, hrb⟩ := Option.map_eq_some_iff.1 hb
  have hnext : rd16 (((tableOf mem size).drop off).drop 6) = some (nextAt mem off) := by
    rw [List.drop_drop]
    exact rd16_tableOf (by omega)
  rw [← List.drop_drop]
  rw [tableOf_drop (by omega)] at hr hnext ⊢
  rw [doTableLoop]
  simp only [hr, hnext]
  cases r with
  | none => exact Or.inr ⟨fun hh => by simp [hiff.2 hh] at hrb, rfl⟩
  | some hit =>
    obtain rfl : true = b := hrb
    exact Or.inl ⟨hiff.1 rfl, Option.some_ne_none _⟩

/-- The loop at an entry with a part outside ends with a read outside. -/
theorem doTableLoop_outside {off : ℕ} (hlt : off < size) (h : ¬ EntryInside req mem size off)
    (fuel : ℕ) : doTableLoop req fuel ((tableOf mem size).drop off) = none := by
  have hnone : entryCheck req ((tableOf mem size).drop off) = none := by
    by_contra hne
    refine h ((entryCheck_answers req mem size off).inside ?_)
    rwa [ne_eq, Option.map_eq_none_iff]
  rw [tableOf_drop hlt] at hnone ⊢
  cases fuel with
  | zero => rfl
  | succ fuel =>
    rw [doTableLoop]
    simp only [hnone]

/-- Where the walk comes to an entry, its loop stands there. -/
theorem doTableLoop_comes {fuel off : ℕ}
    (h : doTableLoop req fuel ((tableOf mem size).drop 0) ≠ none) (hc : Comes req mem size off) :
    ∃ fuel, doTableLoop req fuel ((tableOf mem size).drop off) ≠ none := by
  induction hc with
  | first _ => exact ⟨fuel, h⟩
  | @next off hc hno hlt ih =>
    obtain ⟨fuel, hf⟩ := ih
    have hin : EntryInside req mem size off := by
      by_contra hout
      exact hf (doTableLoop_outside hc.lt hout fuel)
    cases fuel with
    | zero => exact absurd (by rw [tableOf_drop hc.lt]; rfl) hf
    | succ fuel =>
      rcases doTableLoop_inside hin fuel with ⟨hh, -⟩ | ⟨-, heq⟩
      · exact absurd hh hno
      · exact ⟨fuel, heq ▸ hf⟩

/-- The walk reads nothing outside when the parts of what it comes to are inside. -/
theorem doTableLoop_ne_none (hpos : ∀ off, Comes req mem size off → nextAt mem off ≠ 0)
    (hin : ∀ off, Comes req mem size off → EntryInside req mem size off) (fuel : ℕ) {off : ℕ}
    (hc : off < size → Comes req mem size off) (hfuel : size ≤ off + fuel) :
    doTableLoop req fuel ((tableOf mem size).drop off) ≠ none := by
  induction fuel generalizing off with
  | zero =>
    rw [List.drop_of_length_le (by rw [tableOf_length]; omega)]
    exact Option.some_ne_none _
  | succ fuel ih =>
    by_cases hlt : off < size
    · rcases doTableLoop_inside (hin off (hc hlt)) fuel with ⟨-, hne⟩ | ⟨hno, heq⟩
      · exact hne
      · rw [heq]
        have hne := hpos off (hc hlt)
        exact ih (fun hlt' => .next (hc hlt) hno hlt') (by omega)
    · rw [List.drop_of_length_le (by rw [tableOf_length]; omega)]
      exact Option.some_ne_none _

/-- For a flow, `__do_table` reads nothing outside the table exactly where the parts of the
entries that it comes to are inside. -/
theorem doTable_inside_iff (hpos : ∀ off, Comes req mem size off → nextAt mem off ≠ 0) :
    doTable req (tableOf mem size) ≠ none ↔
      ∀ off, Comes req mem size off → EntryInside req mem size off := by
  have hstart : doTable req (tableOf mem size) =
      doTableLoop req size ((tableOf mem size).drop 0) := by
    rw [doTable, tableOf_length, List.drop_zero]
  rw [hstart]
  constructor
  · intro h off hc
    obtain ⟨fuel, hf⟩ := doTableLoop_comes h hc
    by_contra hout
    exact hf (doTableLoop_outside hc.lt hout fuel)
  · exact fun hin => doTableLoop_ne_none hpos hin size .first (by omega)

end Walk

/-- What the walk of `translate_table` has checked of each entry of an accepted table. -/
theorem walk_accepts_at {mem : ℕ → UInt8} {size fuel n off : ℕ}
    (h : walk mem size fuel 0 0 = some (some n)) (hv : Visits mem size off) :
    ∃ fuel i, walk mem size fuel off i = some (some n) := by
  induction hv with
  | first _ => exact ⟨fuel, 0, h⟩
  | @next off hv hal hlt ih =>
    obtain ⟨fuel, i, hw⟩ := ih
    cases fuel with
    | zero =>
      rw [walk_zero hv.lt] at hw
      cases hw
    | succ fuel =>
      rw [walk_succ hv.lt, if_neg (by omega), if_neg (by omega)] at hw
      exact ⟨fuel, i + 1, hw⟩

/-- In an accepted table the entries are aligned and lead forward. -/
theorem pos_of_accepted {mem : ℕ → UInt8} {size fuel n : ℕ}
    (h : walk mem size fuel 0 0 = some (some n)) (off : ℕ) (hv : Visits mem size off) :
    off % 8 = 0 ∧ nextAt mem off ≠ 0 := by
  obtain ⟨fuel', i, hw⟩ := walk_accepts_at h hv
  have hal : off % 8 = 0 := by
    cases fuel' with
    | zero =>
      rw [walk_zero hv.lt] at hw
      cases hw
    | succ fuel' =>
      rw [walk_succ hv.lt] at hw
      split at hw
      · cases hw
      split at hw
      · cases hw
      next hal => omega
  exact ⟨hal, walk_ends_iff.1 ⟨fuel, by rw [h]; exact Option.some_ne_none _⟩ off hv hal⟩

/-- What a flow comes to is among what the walk of `translate_table` has come to. -/
theorem Comes.visits {req : TableReq} {mem : ℕ → UInt8} {size fuel n off : ℕ}
    (hc : Comes req mem size off) (h : walk mem size fuel 0 0 = some (some n)) :
    Visits mem size off := by
  induction hc with
  | first h0 => exact .first h0
  | next _ _ hlt ih => exact .next ih (pos_of_accepted h _ ih).1 hlt

/-- A table of one entry. -/
theorem Comes.eq_zero {req : TableReq} {mem : ℕ → UInt8} {size off : ℕ}
    (hc : Comes req mem size off) (h : size ≤ nextAt mem 0) : off = 0 := by
  induction hc with
  | first _ => rfl
  | next _ _ hlt ih =>
    subst ih
    omega

/-! ## Entries that lie in the table with all their parts -/

/-- Every part of the entry at `off` is inside, whatever a flow reads of it. -/
structure EntryFits (mem : ℕ → UInt8) (size off : ℕ) : Prop where
  flow : listStart mem (off + sizeofEntry) 4 ≤ size
  proto : off + wordAt mem (off + 2) + sizeofProtoMatch
    + 4 * protoNumber mem (off + wordAt mem (off + 2)) ≤ size
  target : off + wordAt mem (off + 4) + sizeofTarget ≤ size

/-- The search stays between its bounds. -/
theorem Probes.between {val : ℕ → ℕ} {value i : ℕ} {left right : ℤ} (h0 : 0 ≤ left)
    (hp : Probes val value left right i) : (i : ℤ) ≤ right := by
  induction hp with
  | middle h => omega
  | lower h _ _ ih =>
    have := ih h0
    omega
  | upper h _ _ ih => exact ih (by omega)

/-- The lists of ids stand one behind the other. -/
theorem listStart_mono (mem : ℕ → UInt8) (m : ℕ) {j k : ℕ} (h : j ≤ k) :
    listStart mem m j ≤ listStart mem m k := by
  induction h with
  | refl => exact le_rfl
  | step _ ih => exact ih.trans (Nat.le_add_right _ _)

/-- An entry whose lists fit is inside for every flow. -/
theorem EntryFits.inside {mem : ℕ → UInt8} {size off : ℕ} (h : EntryFits mem size off)
    (req : TableReq) : EntryInside req mem size off := by
  refine ⟨fun k hk _ => ⟨?_, fun i hi _ => ?_⟩, fun _ => ⟨?_, fun i hp => ?_⟩, fun _ _ => h.target⟩
  · have hle := (listStart_mono mem (off + sizeofEntry) (Nat.zero_le 4)).trans h.flow
    have hstart : listStart mem (off + sizeofEntry) 0 = off + sizeofEntry + 16 := rfl
    omega
  · have hnext : k + 1 ≤ 4 := hk
    have hle := (listStart_mono mem (off + sizeofEntry) hnext).trans h.flow
    have hstart : listStart mem (off + sizeofEntry) (k + 1)
      = listStart mem (off + sizeofEntry) k + listNumber mem (off + sizeofEntry) k := rfl
    omega
  · have hle := h.proto
    unfold sizeofProtoMatch at hle
    omega
  · have hle := h.proto
    have hi := hp.between le_rfl
    omega

/-! ## Requests -/

/-- `sizeof(struct ac_repl_table_info)`. -/
def replTableInfoSize : ℕ := 12

/-- A call of `do_replace_table`: the header, the memory of the copied entries with what the
allocation holds behind them, and whether copying and allocating succeed. -/
structure TableRequest where
  len : ℕ
  header : TableHeader
  mem : ℕ → UInt8
  copyHeader : Bool
  alloc : Bool
  copyBody : Bool

/-- `do_replace_table` comes to the replacement. -/
structure TableRequest.Accepted (r : TableRequest) : Prop where
  copyHeader : r.copyHeader = true
  len : r.len = (replTableInfoSize + r.header.size) % 2 ^ 32
  alloc : r.alloc = true
  copyBody : 0 < r.header.size → r.copyBody = true
  translated : ∃ fuel, translateTableIn r.header r.mem fuel = some true

/-- `do_replace_set` comes to the replacement. -/
structure ReplSet.Accepted (r : ReplSet) : Prop where
  copyHeader : r.copyHeader = true
  len : r.len = (replSetInfoSize + r.size) % 2 ^ 32
  category : r.category ≤ ruleTypeMax
  alloc : r.alloc = true
  copyBody : 0 < r.size → r.copyBody = true
  size : r.sizeOk = true

/-- The requests that are not accepted are those that get an error code. -/
theorem ReplSet.not_accepted_iff (r : ReplSet) (t : SetTable) :
    ¬ r.Accepted ↔ ∃ e t', doReplaceSet t r = some (some e, t') := by
  constructor
  · intro hnot
    by_contra h
    refine hnot ?_
    unfold doReplaceSet at h
    by_cases hh : (!r.copyHeader) = true
    · exact absurd ⟨_, _, if_pos hh⟩ h
    rw [if_neg hh] at h
    by_cases hl : r.len ≠ (replSetInfoSize + r.size) % 2 ^ 32
    · exact absurd ⟨_, _, if_pos hl⟩ h
    rw [if_neg hl] at h
    by_cases hc : ruleTypeMax < r.category
    · exact absurd ⟨_, _, if_pos hc⟩ h
    rw [if_neg hc] at h
    by_cases ha : (!r.alloc) = true
    · exact absurd ⟨_, _, if_pos ha⟩ h
    rw [if_neg ha] at h
    by_cases hb : (decide (0 < r.size) && !r.copyBody) = true
    · exact absurd ⟨_, _, if_pos hb⟩ h
    rw [if_neg hb] at h
    by_cases hs : (!r.sizeOk) = true
    · exact absurd ⟨_, _, if_pos hs⟩ h
    exact ⟨by simpa using hh, not_not.1 hl, Nat.not_lt.1 hc, by simpa using ha,
      by simpa using hb, by simpa using hs⟩
  · rintro ⟨e, t', h⟩ ⟨hh, hl, hc, ha, hb, hs⟩
    unfold doReplaceSet at h
    rw [if_neg (by simp [hh]), if_neg (not_not.2 hl), if_neg (Nat.not_lt.2 hc),
      if_neg (by simp [ha]), if_neg (by simpa using hb), if_neg (by simp [hs])] at h
    split at h
    · cases h
    · split at h <;> cases h

/-! ## Staying inside -/

/-- A request of either handler. -/
inductive Request where
  | table (r : TableRequest)
  | set (r : ReplSet)

def Request.Accepted : Request → Prop
  | .table r => r.Accepted
  | .set r => r.Accepted

/-- The category has a place in the array, and `__do_table` reads nothing outside the table for
any flow. -/
def Request.Safe : Request → Prop
  | .table r => r.header.category < ruleTypeMax ∧
      ∀ req, doTable req (tableOf r.mem r.header.size) ≠ none
  | .set r => r.category < ruleTypeMax

/-- What the handlers do not check. -/
def Request.Fits : Request → Prop
  | .table r => Nacs.Fits r.mem r.header.size
  | .set r => r.category ≠ ruleTypeMax

/-- An accepted table has a category and offsets that lead on. -/
theorem TableRequest.Accepted.walk {r : TableRequest} (h : r.Accepted) :
    r.header.category < ruleTypeMax ∧
      ∃ fuel, walk r.mem r.header.size fuel 0 0 = some (some r.header.number) := by
  obtain ⟨fuel, ht⟩ := h.translated
  unfold translateTableIn at ht
  split at ht
  · cases ht
  next hcat =>
    obtain ⟨n, hw, hn⟩ := Option.map_eq_some_iff.1 ht
    obtain rfl : n = some r.header.number := by simpa using hn
    exact ⟨Nat.not_le.1 hcat, fuel, hw⟩

/-- An accepted request is safe exactly where, for every flow, what is read of the entries that
it comes to lies in the table, and the category of a request for sets is not the one too
large. -/
theorem safe_iff_fits {r : Request} (h : r.Accepted) : r.Safe ↔ r.Fits := by
  cases r with
  | table r =>
    obtain ⟨hcat, fuel, hw⟩ := TableRequest.Accepted.walk h
    have hpos := fun req off (hc : Comes req r.mem r.header.size off) =>
      (pos_of_accepted hw off (hc.visits hw)).2
    exact (and_iff_right hcat).trans (forall_congr' fun req => doTable_inside_iff (hpos req))
  | set r =>
    have hle := ReplSet.Accepted.category h
    exact ⟨fun hlt he => absurd he (Nat.ne_of_lt hlt), fun hne => Nat.lt_of_le_of_ne hle hne⟩

/-- The table of one rule as user space builds it. -/
def ruleTable : TableRequest where
  len := replTableInfoSize + (tableBytes [rejectFive]).length
  header := ⟨0, (tableBytes [rejectFive]).length, 1⟩
  mem i := (tableBytes [rejectFive]).getD i 0
  copyHeader := true
  alloc := true
  copyBody := true

/-- An entry without ids, of which the offsets lead far behind the table. -/
def idleEntry : TableRequest where
  len := replTableInfoSize + 16
  header := ⟨1, 16, 1⟩
  mem i := if i = 6 then 16 else if 2 ≤ i ∧ i < 6 then 255 else 0
  copyHeader := true
  alloc := true
  copyBody := true

/-- Of the table as user space builds it every part is inside, and of the entry without ids no
flow comes to a part that is not. -/
theorem ruleTable_safe : (Request.table ruleTable).Safe ∧ (Request.table idleEntry).Safe := by
  have hrule : (Request.table ruleTable).Accepted :=
    ⟨rfl, by decide, rfl, fun _ => rfl, 2, by decide +kernel⟩
  have hidle : (Request.table idleEntry).Accepted :=
    ⟨rfl, by decide, rfl, fun _ => rfl, 2, by decide +kernel⟩
  refine ⟨(safe_iff_fits hrule).2 fun req off hc => ?_,
    (safe_iff_fits hidle).2 fun req off hc => ?_⟩
  · obtain rfl := hc.eq_zero (by decide)
    exact EntryFits.inside ⟨by decide, by decide, by decide⟩ req
  · obtain rfl := hc.eq_zero (by decide)
    -- the first list is empty, so that no flow is compared with anything else
    have hempty : ¬ ListHolds req idleEntry.mem (0 + sizeofEntry) 0 := fun ⟨i, hi, _⟩ =>
      Nat.not_lt_zero i hi
    refine ⟨fun k hk hbelow => ?_, fun h => absurd (h 0 (by omega)) hempty,
      fun h => absurd (h 0 (by omega)) hempty⟩
    cases k with
    | zero => exact ⟨by decide, fun i hi => absurd hi (Nat.not_lt_zero i)⟩
    | succ k => exact absurd (hbelow 0 (by omega)) hempty

/-- One entry that ends where its parts would begin. -/
def bareEntry : TableRequest where
  len := replTableInfoSize + 8
  header := ⟨0, 8, 1⟩
  mem i := if i = 6 then 8 else 0
  copyHeader := true
  alloc := true
  copyBody := true

/-- No sets, for the category `RULE_TYPE_MAX`. -/
def strayCategory : ReplSet where
  len := replSetInfoSize
  category := ruleTypeMax
  size := 0
  number := 0
  updated := 0
  body _ := ⟨0, 0⟩
  found _ := 0

/-- The walk reads behind the entry for the very first flow, and the array has no place for
the category. -/
theorem accepted_not_safe :
    ((Request.table bareEntry).Accepted ∧ ¬ (Request.table bareEntry).Safe) ∧
      (Request.set strayCategory).Accepted ∧ ¬ (Request.set strayCategory).Safe := by
  refine ⟨⟨⟨rfl, rfl, rfl, fun _ => rfl, 1, rfl⟩, fun hsafe => ?_⟩,
    ⟨rfl, rfl, Nat.le_refl _, rfl, fun _ => rfl, rfl⟩, fun hsafe => ?_⟩
  · exact hsafe.2 ⟨0, 0, 0, 0, 0, by decide⟩ rfl
  · exact Nat.lt_irrefl _ hsafe

end Nacs
