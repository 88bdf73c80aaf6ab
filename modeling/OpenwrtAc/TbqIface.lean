/-
# The interface lists

`struct tbq_iface` declares `char ifname[TBQ_MAX_IFNAME_SIZE][TBQ_MAX_IFACE_COUNT]`: 32
rows of 16 bytes, where the two numbers stand for names of 32 bytes and 16 interfaces.
`init_iface` copies the names to the rows one after the other, and a name of 16 or more
bytes goes on in the row of the next one.
-/
import Mathlib.Algebra.Order.BigOperators.Group.List
import Mathlib.Algebra.Order.Group.Nat
import Mathlib.Data.List.Chain
import Mathlib.Data.List.Forall2
import OpenwrtAc.TbqConfig

open Outcome CString

namespace Tbq

/-! ## The array -/

/-- `memcpy` to the offset `off`. -/
def memcpy (buf : List UInt8) (off : ℕ) (src : List UInt8) : List UInt8 :=
  buf.take off ++ src ++ buf.drop (off + src.length)

theorem length_memcpy {buf src : List UInt8} {off : ℕ} (h : off + src.length ≤ buf.length) :
    (memcpy buf off src).length = buf.length := by
  simp only [memcpy, List.length_append, List.length_take, List.length_drop]
  omega

/-- `struct tbq_iface`, with the bytes of `ifname`. -/
structure Iface where
  cur : ℕ
  ifname : List UInt8
  size_eq : ifname.length = 32 * 16
  deriving DecidableEq

/-- The zeroed structure. -/
def Iface.zero : Iface := ⟨0, List.replicate (32 * 16) 0, List.length_replicate⟩

/-- `memcpy(iface->ifname[iface->cur], p, p2 - p); iface->cur++`. -/
def Iface.put (iface : Iface) (name : List UInt8) : Except ConfigStop Iface :=
  if h : 16 * iface.cur + name.length ≤ 32 * 16 then
    pure ⟨iface.cur + 1, memcpy iface.ifname (16 * iface.cur) name, by
      rw [length_memcpy (by rw [iface.size_eq]; exact h), iface.size_eq]⟩
  else throw (.bug .ifaceWrite)

/-- The loop of `init_iface`; `name` is what stands between `p` and the place reached. -/
def initIfaceLoop (iface : Iface) (name : List UInt8) : List UInt8 → Except ConfigStop Iface
  | [] => pure iface
  | c :: p =>
      if c = 9 then
        if name = [] then pure iface
        else do
          stopIf (16 < iface.cur ∨ 32 ≤ name.length) (.bug .ifaceRoom)
          let iface ← iface.put name
          initIfaceLoop iface [] p
      else initIfaceLoop iface (name ++ [c]) p

/-- `init_iface` on a zeroed `tbq_iface`. -/
def initIface (text : List UInt8) : Except ConfigStop Iface := initIfaceLoop .zero [] text

/-- `match_iface`. -/
def matchIface (iface : Iface) (name : List UInt8) : ℕ :=
  if (List.range iface.cur).any fun i => cstr (iface.ifname.drop (16 * i)) == name then 1 else 0

theorem matchIface_eq_one {iface : Iface} {name : List UInt8} :
    matchIface iface name = 1 ↔ ∃ i < iface.cur, cstr (iface.ifname.drop (16 * i)) = name := by
  unfold matchIface
  split
  · rename_i h
    simpa using h
  · rename_i h
    simpa using h

/-- No string makes `init_iface` write outside of the array. -/
theorem initIface_ne_ifaceWrite (text : List UInt8) :
    initIface text ≠ .error (.bug .ifaceWrite) := by
  suffices h : ∀ (p name : List UInt8) (iface : Iface),
      initIfaceLoop iface name p ≠ .error (.bug .ifaceWrite) from h _ _ _
  intro p
  induction p with
  | nil =>
      intro name iface h
      cases h
  | cons c p ih =>
      intro name iface
      unfold initIfaceLoop
      split
      · split
        · exact fun h => by cases h
        · by_cases hroom : 16 < iface.cur ∨ 32 ≤ name.length
          · rw [stopIf_of hroom]
            exact fun h => by cases h
          · rw [stopIf_of_not hroom]
            have hfits : 16 * iface.cur + name.length ≤ 32 * 16 := by omega
            simp only [Iface.put, dif_pos hfits]
            exact ih _ _
      · exact ih _ _

/-! ## What the rows hold -/

/-- The strings that stand in the rows of the names, and in the row behind them; `spill` is
what the name before left beyond its own row.  A name of less than 16 bytes is followed by
the rest of that, and a longer one by the string of the next row. -/
def rowStrings (spill : List UInt8) : List (List UInt8) → List (List UInt8)
  | [] => [spill]
  | n :: names =>
      let below := rowStrings (n.drop 16) names
      (if n.length < 16 then n ++ spill.drop n.length else n.take 16 ++ below.headD []) :: below

theorem rowStrings_cons (spill n : List UInt8) (names : List (List UInt8)) :
    rowStrings spill (n :: names)
      = (if n.length < 16 then n ++ spill.drop n.length
          else n.take 16 ++ (rowStrings (n.drop 16) names).headD [])
        :: rowStrings (n.drop 16) names := rfl

/-- The names written one after the other from the row `cur` on. -/
def storeAll (buf : List UInt8) (cur : ℕ) : List (List UInt8) → List UInt8
  | [] => buf
  | n :: names => storeAll (memcpy buf (16 * cur) n) (cur + 1) names

theorem cstr_append {a : List UInt8} (ha : 0 ∉ a) (b : List UInt8) :
    cstr (a ++ b) = a ++ cstr b := by
  unfold cstr
  refine List.takeWhile_append_of_pos fun c hc => ?_
  have hne : c ≠ 0 := by
    rintro rfl
    exact ha hc
  simpa using hne

theorem cstr_append_zeros {a : List UInt8} (ha : 0 ∉ a) {k : ℕ} (hk : 0 < k) (b : List UInt8) :
    cstr (a ++ (List.replicate k 0 ++ b)) = a := by
  obtain ⟨k, rfl⟩ := Nat.exists_eq_succ_of_ne_zero hk.ne'
  rw [cstr_append ha, List.replicate_succ, List.cons_append]
  simp [cstr]

section

variable {buf spill n : List UInt8} {cur k : ℕ}

theorem memcpy_take (hn : 16 * cur ≤ buf.length) :
    (memcpy buf (16 * cur) n).take (16 * cur) = buf.take (16 * cur) := by
  unfold memcpy
  rw [List.append_assoc, List.take_append_of_le_length (by simp; omega), List.take_take, Nat.min_self]

theorem memcpy_drop (hn : 16 * cur ≤ buf.length) :
    (memcpy buf (16 * cur) n).drop (16 * cur) = n ++ (buf.drop (16 * cur)).drop n.length := by
  have hlen : (buf.take (16 * cur)).length = 16 * cur := by simp [hn]
  unfold memcpy
  rw [List.append_assoc, List.drop_drop]
  exact List.drop_left' hlen

/-- What a name leaves for the next row. -/
theorem memcpy_drop_next (hn : 16 * cur ≤ buf.length)
    (hbuf : buf.drop (16 * cur) = spill ++ List.replicate k 0) (hover : spill.length ≤ 15) :
    ∃ k', (memcpy buf (16 * cur) n).drop (16 * (cur + 1)) = n.drop 16 ++ List.replicate k' 0 := by
  have hdrop : ∀ m, spill.length ≤ m →
      (spill ++ List.replicate k (0 : UInt8)).drop m = List.replicate (k - (m - spill.length)) 0 := by
    intro m hm
    rw [List.drop_append, List.drop_eq_nil_of_le hm, List.nil_append, List.drop_replicate]
  rw [show 16 * (cur + 1) = 16 * cur + 16 by omega, ← List.drop_drop, memcpy_drop hn, hbuf,
    List.drop_append, List.drop_drop]
  by_cases hlong : n.length < 16
  · rw [show n.length + (16 - n.length) = 16 by omega, hdrop 16 (by omega)]
    exact ⟨_, rfl⟩
  · rw [show n.length + (16 - n.length) = n.length by omega, hdrop _ (by omega)]
    exact ⟨_, rfl⟩

end

/-- The row of a name, with whatever stands behind it. -/
theorem cstr_row {spill n : List UInt8} {k : ℕ} (hover : spill.length ≤ 15) (h0 : 0 ∉ spill)
    (hn0 : 0 ∉ n) (hk : 17 ≤ k) (below : List UInt8) :
    cstr ((n ++ (spill ++ List.replicate k 0).drop n.length).take 16 ++ below)
      = if n.length < 16 then n ++ spill.drop n.length else n.take 16 ++ cstr below := by
  split
  · rename_i hshort
    have hrow : (n ++ (spill ++ List.replicate k (0 : UInt8)).drop n.length).take 16
        = (n ++ spill.drop n.length) ++ List.replicate (16 - (n ++ spill.drop n.length).length) 0 := by
      rw [List.drop_append, ← List.append_assoc, List.take_append, List.take_of_length_le,
        List.drop_replicate, List.take_replicate, Nat.min_eq_left]
      · simp only [List.length_append, List.length_drop]
        omega
      · simp only [List.length_append, List.length_drop]
        omega
    rw [hrow, List.append_assoc]
    refine cstr_append_zeros (fun h => ?_) ?_ below
    · rcases List.mem_append.mp h with h | h
      · exact hn0 h
      · exact h0 (List.mem_of_mem_drop h)
    · simp only [List.length_append, List.length_drop]
      omega
  · rename_i hlong
    rw [List.take_append_of_le_length (by omega)]
    exact cstr_append (fun h => hn0 (List.mem_of_mem_take h)) below

/-- The rows after all names are written. -/
theorem storeAll_rows : ∀ (names : List (List UInt8)) (spill buf : List UInt8) (cur k : ℕ),
    16 * (cur + names.length) + 32 ≤ buf.length → buf.drop (16 * cur) = spill ++ List.replicate k 0 →
    spill.length ≤ 15 → 0 ∉ spill → (∀ n ∈ names, n.length < 32 ∧ 0 ∉ n) →
    (storeAll buf cur names).take (16 * cur) = buf.take (16 * cur)
      ∧ rowStrings spill names = (List.range (names.length + 1)).map fun i =>
          cstr ((storeAll buf cur names).drop (16 * (cur + i))) := by
  intro names
  induction names with
  | nil =>
      intro spill buf cur k hroom hbuf hover h0 _
      refine ⟨rfl, ?_⟩
      have hk : 0 < k := by
        have := congrArg List.length hbuf
        simp only [List.length_drop, List.length_append, List.length_replicate,
          List.length_nil] at this hroom
        omega
      simp only [rowStrings, storeAll, List.length_nil, Nat.zero_add, List.range_one,
        List.map_cons, List.map_nil, Nat.add_zero, hbuf]
      rw [← List.append_nil (List.replicate k 0), cstr_append_zeros h0 hk]
  | cons n names ih =>
      intro spill buf cur k hroom hbuf hover h0 hnames
      rw [List.length_cons] at hroom
      obtain ⟨⟨hn, hn0⟩, hnames⟩ := List.forall_mem_cons.mp hnames
      have hcur : 16 * cur ≤ buf.length := by omega
      set buf₁ := memcpy buf (16 * cur) n with hbuf₁
      have hlen : buf₁.length = buf.length := length_memcpy (by omega)
      obtain ⟨k', hnext⟩ := memcpy_drop_next (n := n) hcur hbuf hover
      obtain ⟨htake, hrows⟩ := ih (n.drop 16) buf₁ (cur + 1) k' (by omega) hnext
        (by simp; omega) (fun h => hn0 (List.mem_of_mem_drop h)) hnames
      change (storeAll buf₁ (cur + 1) names).take (16 * cur) = _ ∧ rowStrings spill (n :: names)
        = (List.range (names.length + 1 + 1)).map fun i =>
          cstr ((storeAll buf₁ (cur + 1) names).drop (16 * (cur + i)))
      set final := storeAll buf₁ (cur + 1) names
      refine ⟨?_, ?_⟩
      · have hle : 16 * cur = min (16 * cur) (16 * (cur + 1)) := by omega
        rw [hle, ← List.take_take, htake, List.take_take, ← hle, hbuf₁, memcpy_take hcur]
      · -- The rows up to this one stay as they are from here on.
        have hrow : final.drop (16 * cur)
            = (n ++ (spill ++ List.replicate k 0).drop n.length).take 16
              ++ final.drop (16 * (cur + 1)) := by
          conv_lhs => rw [← List.take_append_drop (16 * (cur + 1)) final, htake]
          rw [List.drop_append_of_le_length (by simp only [List.length_take]; omega),
            List.drop_take, hbuf₁, memcpy_drop hcur, hbuf,
            show 16 * (cur + 1) - 16 * cur = 16 by omega]
        have hk : 17 ≤ k := by
          have := congrArg List.length hbuf
          simp only [List.length_drop, List.length_append, List.length_replicate] at this
          omega
        rw [List.range_succ_eq_map, List.map_cons, List.map_map, Nat.add_zero, hrow,
          cstr_row hover h0 hn0 hk]
        have hhead : (rowStrings (n.drop 16) names).headD []
            = cstr (final.drop (16 * (cur + 1))) := by
          rw [hrows, List.range_succ_eq_map]
          rfl
        rw [rowStrings_cons, hhead, hrows]
        congr 1
        refine List.map_congr_left fun i _ => ?_
        simp only [Function.comp_apply, Nat.succ_eq_add_one]
        rw [show cur + 1 + i = cur + (i + 1) by omega]

/-! ## The lists that are read back -/

/-- The names of a list: at most 16 of them, none empty, each shorter than
`TBQ_MAX_IFNAME_SIZE` and without the tab and the 0. -/
structure IfNames (names : List (List UInt8)) : Prop where
  count : names.length ≤ 16
  name : ∀ n ∈ names, n ≠ [] ∧ n.length < 32 ∧ 9 ∉ n ∧ 0 ∉ n

/-- The text of a list: a tab behind every name. -/
def tabbed (names : List (List UInt8)) : List UInt8 := names.flatMap (· ++ [9])

/-- The loop goes on to the tab. -/
theorem initIfaceLoop_name {n : List UInt8} (hn : 9 ∉ n) (iface : Iface) (p : List UInt8) :
    ∀ name, initIfaceLoop iface name (n ++ 9 :: p) = initIfaceLoop iface (name ++ n) (9 :: p) := by
  induction n with
  | nil =>
      intro name
      rw [List.nil_append, List.append_nil]
  | cons c n ih =>
      intro name
      rw [List.mem_cons, not_or] at hn
      rw [List.cons_append, initIfaceLoop, if_neg (fun h => hn.1 h.symm), ih hn.2,
        List.append_assoc, List.singleton_append]

/-- Every name of the list gets its row. -/
theorem initIfaceLoop_tabbed : ∀ (names : List (List UInt8)) (iface : Iface),
    iface.cur + names.length ≤ 16 → (∀ n ∈ names, n ≠ [] ∧ n.length < 32 ∧ 9 ∉ n ∧ 0 ∉ n) →
    ∃ iface', initIfaceLoop iface [] (tabbed names) = .ok iface'
      ∧ iface'.cur = iface.cur + names.length
      ∧ iface'.ifname = storeAll iface.ifname iface.cur names := by
  intro names
  induction names with
  | nil =>
      intro iface _ _
      exact ⟨iface, rfl, rfl, rfl⟩
  | cons n names ih =>
      intro iface hroom hnames
      rw [List.length_cons] at hroom
      obtain ⟨⟨hne, hlen, htab, -⟩, hnames⟩ := List.forall_mem_cons.mp hnames
      have hfits : 16 * iface.cur + n.length ≤ 32 * 16 := by omega
      have htext : tabbed (n :: names) = n ++ 9 :: tabbed names := by
        simp [tabbed]
      have hput : initIfaceLoop iface [] (tabbed (n :: names))
          = iface.put n >>= fun iface => initIfaceLoop iface [] (tabbed names) := by
        rw [htext, initIfaceLoop_name htab, List.nil_append]
        conv_lhs => unfold initIfaceLoop
        rw [if_pos rfl, if_neg hne, stopIf_of_not (by omega)]
        rfl
      rw [hput, Iface.put, dif_pos hfits]
      obtain ⟨iface', hok, hcur, hbytes⟩ := ih ⟨iface.cur + 1, memcpy iface.ifname (16 * iface.cur) n,
        by rw [length_memcpy (by rw [iface.size_eq]; exact hfits), iface.size_eq]⟩
        (by dsimp only; omega) hnames
      refine ⟨iface', hok, ?_, hbytes⟩
      rw [hcur, List.length_cons]
      dsimp only
      omega

/-- What `match_iface` compares a name with. -/
theorem initIface_rows {names : List (List UInt8)} (h : IfNames names) :
    ∃ iface, initIface (tabbed names) = .ok iface ∧ iface.cur = names.length
      ∧ (rowStrings [] names).take names.length
        = (List.range names.length).map fun i => cstr (iface.ifname.drop (16 * i)) := by
  have hcount := h.count
  obtain ⟨iface, hok, hcur, hbytes⟩ := initIfaceLoop_tabbed names .zero
    (by change 0 + names.length ≤ 16; omega) h.name
  have hzero : Iface.zero.cur = 0 := rfl
  rw [hzero] at hcur hbytes
  obtain ⟨-, hrows⟩ := storeAll_rows names [] Iface.zero.ifname 0 (32 * 16)
    (by rw [Iface.zero.size_eq]; omega) rfl (Nat.zero_le _) List.not_mem_nil
    fun n hn => ⟨(h.name n hn).2.1, (h.name n hn).2.2.2⟩
  refine ⟨iface, hok, by rw [hcur, Nat.zero_add], ?_⟩
  rw [hrows, ← List.map_take, List.take_range, hbytes, Nat.min_eq_left (Nat.le_succ _)]
  simp only [Nat.zero_add]

/-- A name is recognised when some row spells it. -/
theorem matchIface_rows {iface : Iface} {rows : List (List UInt8)} {n : ℕ} (hcur : iface.cur = n)
    (h : rows = (List.range n).map fun i => cstr (iface.ifname.drop (16 * i)))
    (name : List UInt8) : matchIface iface name = 1 ↔ name ∈ rows := by
  rw [matchIface_eq_one, h, hcur, List.mem_map]
  simp only [List.mem_range]

/-- The rows are the names when a name of 16 or more bytes is the last one, or the next
name is what it has beyond them. -/
theorem rowStrings_eq : ∀ (names : List (List UInt8)) (spill : List UInt8),
    names.IsChain (fun a b => a.length < 16 ∨ b = a.drop 16) →
    (∀ n ∈ names.head?, spill.length ≤ n.length) → (∀ n ∈ names, n.length < 32) →
    (rowStrings spill names).take names.length = names := by
  intro names
  induction names with
  | nil =>
      intro spill _ _ _
      rfl
  | cons n names ih =>
      intro spill hchain hover hlen
      obtain ⟨hn, hlen⟩ := List.forall_mem_cons.mp hlen
      have hhead : spill.length ≤ n.length := hover n rfl
      have hnext : ∀ m ∈ names.head?, n.length < 16 ∨ m = n.drop 16 := by
        intro m hm
        exact hchain.rel_head? hm
      have hrest := ih (n.drop 16) hchain.tail (fun m hm => ?_) hlen
      · rw [rowStrings_cons, List.length_cons, List.take_succ_cons, hrest]
        congr 1
        split
        · rw [List.drop_eq_nil_of_le hhead, List.append_nil]
        · rename_i hlong
          -- The next row holds just what this name has beyond its own.
          have hbelow : (rowStrings (n.drop 16) names).headD [] = n.drop 16 := by
            cases names with
            | nil => rfl
            | cons m names =>
                obtain rfl := (hnext m rfl).resolve_left hlong
                have hshort : (n.drop 16).length < 16 := by
                  rw [List.length_drop]
                  omega
                rw [rowStrings_cons, if_pos hshort, List.drop_length, List.append_nil]
                rfl
          rw [hbelow, List.take_append_drop]
      · rcases hnext m hm with hshort | rfl
        · simp
          omega
        · exact le_refl _

/-- Where every row spells the name that was stored there, a longer name goes on with the
next one. -/
theorem chain_of_rowStrings : ∀ (names : List (List UInt8)) (spill : List UInt8),
    (rowStrings spill names).take names.length = names →
    names.IsChain (fun a b => a.length < 16 ∨ b = a.drop 16) := by
  intro names
  induction names with
  | nil =>
      intro _ _
      exact .nil
  | cons n names ih =>
      intro spill h
      rw [rowStrings_cons, List.length_cons, List.take_succ_cons] at h
      obtain ⟨hrow, hbelow⟩ := List.cons_eq_cons.mp h
      refine (ih _ hbelow).cons fun m hm => ?_
      obtain ⟨rest, rfl⟩ := List.head?_eq_some_iff.mp hm
      by_cases hshort : n.length < 16
      · exact Or.inl hshort
      · -- the row of `n` is its first 16 bytes and the row of `m`, which is `m`
        have hhead : (rowStrings (n.drop 16) (m :: rest)).headD [] = m := by
          rw [rowStrings_cons] at hbelow ⊢
          exact List.head_eq_of_cons_eq hbelow
        rw [if_neg hshort, hhead] at hrow
        have hsplit : n.take 16 ++ m = n.take 16 ++ n.drop 16 := by
          rw [hrow, List.take_append_drop]
        exact Or.inr (List.append_cancel_left hsplit)

/-- The first row holds what was left for it. -/
theorem le_length_head_rowStrings (names : List (List UInt8)) {spill : List UInt8}
    (h : spill.length ≤ 16) : spill.length ≤ ((rowStrings spill names).headD []).length := by
  cases names with
  | nil => exact le_refl _
  | cons n names =>
      rw [rowStrings_cons, List.headD_cons]
      split
      · rw [List.length_append, List.length_drop]
        omega
      · rw [List.length_append, List.length_take]
        omega

/-- No row spells less than the name that was stored there. -/
theorem length_le_rowStrings : ∀ (names : List (List UInt8)) (spill : List UInt8),
    (∀ n ∈ names, n.length < 32) →
    List.Forall₂ (fun n row => n.length ≤ row.length) names
      ((rowStrings spill names).take names.length) := by
  intro names
  induction names with
  | nil =>
      intro _ _
      exact .nil
  | cons n names ih =>
      intro spill hlen
      obtain ⟨hn, hlen⟩ := List.forall_mem_cons.mp hlen
      rw [rowStrings_cons, List.length_cons, List.take_succ_cons]
      refine .cons ?_ (ih _ hlen)
      split
      · rw [List.length_append]
        exact Nat.le_add_right _ _
      · have hspill : (n.drop 16).length ≤ 16 := by
          rw [List.length_drop]
          omega
        have hhead := le_length_head_rowStrings names hspill
        rw [List.length_drop] at hhead
        rw [List.length_append, List.length_take]
        omega

/-- Where every row is as long as its name, what follows a longer name is as long as what it
has beyond its row. -/
theorem chain_of_length_rowStrings : ∀ (names : List (List UInt8)) (spill : List UInt8),
    List.Forall₂ (fun n row => n.length = row.length) names
      ((rowStrings spill names).take names.length) →
    names.IsChain (fun a b => a.length < 16 ∨ b.length + 16 = a.length) := by
  intro names
  induction names with
  | nil =>
      intro _ _
      exact .nil
  | cons n names ih =>
      intro spill h
      rw [rowStrings_cons, List.length_cons, List.take_succ_cons] at h
      obtain ⟨hrow, hbelow⟩ := List.forall₂_cons.mp h
      refine (ih _ hbelow).cons fun m hm => ?_
      obtain ⟨rest, rfl⟩ := List.head?_eq_some_iff.mp hm
      by_cases hshort : n.length < 16
      · exact Or.inl hshort
      · have hhead : m.length = ((rowStrings (n.drop 16) (m :: rest)).headD []).length := by
          rw [rowStrings_cons] at hbelow ⊢
          exact (List.forall₂_cons.mp hbelow).1
        rw [if_neg hshort, List.length_append, List.length_take] at hrow
        exact Or.inr (by omega)

/-- Two lists that are a permutation of each other, and one of which is nowhere longer, are as
long everywhere. -/
theorem length_eq_of_perm {l l' : List (List UInt8)}
    (h : List.Forall₂ (fun a b => a.length ≤ b.length) l l') (hp : l.Perm l') :
    List.Forall₂ (fun a b => a.length = b.length) l l' := by
  have hsum : (l'.map List.length).sum ≤ (l.map List.length).sum :=
    ((hp.map List.length).sum_eq).ge
  clear hp
  induction h with
  | nil => exact .nil
  | @cons a b l l' hab hrest ih =>
      have hle : (l.map List.length).sum ≤ (l'.map List.length).sum :=
        List.Forall₂.sum_le_sum (List.forall₂_map_left_iff.mpr (List.forall₂_map_right_iff.mpr hrest))
      simp only [List.map_cons, List.sum_cons] at hsum
      exact .cons (by omega) (ih (by omega))

/-- A list of names is stored without a write outside of the array.  It is recognised as it
was given when every name is shorter than 16 bytes, or is the last one, or goes on with the
next name, and these are the lists of which every row spells the name that was stored there.
Of a list without repetitions that is recognised, what follows a name of 16 or more bytes is
at least as long as what this has beyond them. -/
theorem ifaces_recognised {names : List (List UInt8)} (h : IfNames names) :
    ∃ iface, initIface (tabbed names) = .ok iface
      ∧ (names.IsChain (fun a b => a.length < 16 ∨ b = a.drop 16) →
        ∀ name, matchIface iface name = 1 ↔ name ∈ names)
      ∧ (names.IsChain (fun a b => a.length < 16 ∨ b = a.drop 16) ↔
        names = (List.range names.length).map fun i => cstr (iface.ifname.drop (16 * i)))
      ∧ (names.Nodup → (∀ name, matchIface iface name = 1 ↔ name ∈ names) →
        names.IsChain (fun a b => a.length < 16 ∨ b.length + 16 = a.length)) := by
  obtain ⟨iface, hok, hcur, hrows⟩ := initIface_rows h
  have hlen : ∀ n ∈ names, n.length < 32 := fun n hn => (h.name n hn).2.1
  have hmatch := matchIface_rows hcur hrows
  have hchain : names.IsChain (fun a b => a.length < 16 ∨ b = a.drop 16) →
      (rowStrings [] names).take names.length = names := fun hc =>
    rowStrings_eq names [] hc (fun n _ => Nat.zero_le _) hlen
  refine ⟨iface, hok, fun hc name => ?_, ⟨fun hc => ?_, fun heq => ?_⟩, fun hnodup hall => ?_⟩
  · rw [hmatch, hchain hc]
  · rw [← hrows, hchain hc]
  · exact chain_of_rowStrings names [] (hrows.trans heq.symm)
  · -- the rows are the names in another order, and nowhere shorter
    have hsub : names ⊆ (rowStrings [] names).take names.length := fun n hn =>
      (hmatch n).mp ((hall n).mpr hn)
    have hperm := (List.subperm_of_subset hnodup hsub).perm_of_length_le
      (List.length_take_le _ _)
    exact chain_of_length_rowStrings names []
      (length_eq_of_perm (length_le_rowStrings names [] hlen) hperm)

/-- Three names are found again; the second has 17 bytes, and the third is its last one. -/
theorem ifaces_recognised_three :
    ∃ iface, initIface (tabbed [asciiBytes "eth0", asciiBytes "wireguard-uplink1",
        asciiBytes "1"]) = .ok iface
      ∧ matchIface iface (asciiBytes "wireguard-uplink1") = 1
      ∧ matchIface iface (asciiBytes "wireguard-uplink") ≠ 1 := by
  have hnames : IfNames [asciiBytes "eth0", asciiBytes "wireguard-uplink1", asciiBytes "1"] := by
    refine ⟨by decide, ?_⟩
    decide
  obtain ⟨iface, hok, hchain, -, -⟩ := ifaces_recognised hnames
  have hall := hchain (by decide)
  exact ⟨iface, hok, (hall _).mpr (by decide), fun hone => absurd ((hall _).mp hone) (by decide)⟩

/-- The rows can also hold the names in another order: here each of two long names is followed
by the rest of the other. -/
example : rowStrings [] [asciiBytes "wireguard-uplink1", asciiBytes "2",
      asciiBytes "wireguard-uplink2", asciiBytes "1"]
    = [asciiBytes "wireguard-uplink2", asciiBytes "2", asciiBytes "wireguard-uplink1",
      asciiBytes "1", []] := by decide

/-- A name of 16 bytes runs together with the name behind it. -/
theorem ifaces_run_together :
    ¬ ∀ names, IfNames names → ∃ iface, initIface (tabbed names) = .ok iface
      ∧ ∀ name, matchIface iface name = 1 ↔ name ∈ names := by
  intro hall
  have hnames : IfNames [asciiBytes "wireguard-uplink", asciiBytes "eth0"] := by
    refine ⟨by decide, fun n hn => ?_⟩
    rcases List.mem_pair.mp hn with rfl | rfl
    · decide
    · decide
  obtain ⟨iface, hok, hmatch⟩ := hall _ hnames
  have hlost : ((initIface (tabbed [asciiBytes "wireguard-uplink", asciiBytes "eth0"])).toOption.any
      fun iface => matchIface iface (asciiBytes "wireguard-uplink") = 0) = true := by
    decide +kernel
  rw [hok] at hlost
  have hzero : matchIface iface (asciiBytes "wireguard-uplink") = 0 := of_decide_eq_true hlost
  have hone := (hmatch (asciiBytes "wireguard-uplink")).mpr (List.mem_pair.mpr (.inl rfl))
  rw [hzero] at hone
  cases hone

end Tbq
