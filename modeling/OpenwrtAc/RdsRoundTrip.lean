/-
# What is written can be read back

Messages written one after the other and fed to a decoder in pieces come out again.
Of a decoder it is said which bytes it still waits for; a call takes what there is of
them and gives a message when it is complete.
-/
import OpenwrtAc.RdsParser

open MachineInt

namespace Rds

/-! ## Messages as bytes -/

/-- The bytes of a message. -/
def writeMsg (m : List Bytes) : Bytes := header star m.length ++ m.flatMap writeParam

/-- The loop of the encoder appends the parameters. -/
theorem encodeLoop_ok {total : ℕ} {arr : List Bytes} {buff out : Bytes}
    (h : encodeLoop total arr buff = .ok out) : out = buff ++ arr.flatMap writeParam := by
  induction arr generalizing buff with
  | nil =>
    rw [encodeLoop] at h
    split at h
    · cases h
    · cases h
      simp
  | cons s arr ih =>
    rw [encodeLoop] at h
    split at h
    · cases h
    · split at h
      · cases h
      · rw [ih h, List.flatMap_cons, List.append_assoc]

/-- What `rds_encode` has written and what it has checked. -/
theorem rdsEncode_ok {arr : List Bytes} {out : Bytes} (h : rdsEncode arr = .ok out) :
    out = writeMsg arr ∧ arr ≠ [] ∧ (∀ s ∈ arr, 0 < s.length ∧ s.length ≤ 128 * 1024)
      ∧ encodeTotal arr < 2 ^ 31 := by
  unfold rdsEncode at h
  split at h
  · cases h
  next hne =>
    split at h
    · cases h
    next hlen =>
      split at h
      · cases h
      next htotal =>
        split at h
        · cases h
        · refine ⟨encodeLoop_ok h, hne, fun s hs => ?_, by omega⟩
          simp only [List.any_eq_true, not_exists, not_and] at hlen
          have := hlen s hs
          simp only [Bool.or_eq_true, beq_iff_eq, decide_eq_true_eq, not_or] at this
          omega

/-- A number below a power of ten has as many digits at most. -/
theorem decimal_length_le {n k : ℕ} (hk : 0 < k) (h : n < 10 ^ k) : (decimal n).length ≤ k := by
  unfold decimal
  split
  · exact hk
  · simpa using (Nat.digits_length_le_iff (by decide) n).2 h

/-- The length of a count with its mark and line end. -/
theorem length_header (mark : UInt8) (n : ℕ) : (header mark n).length = (decimal n).length + 3 := by
  simp [header]

/-- The length of a parameter with its header and line end. -/
theorem length_writeParam (s : Bytes) :
    (writeParam s).length = (decimal s.length).length + s.length + 5 := by
  simp only [writeParam, List.length_append, length_header, List.length_cons, List.length_nil]
  omega

/-- A parameter within the bound takes eleven bytes more than it has. -/
theorem writeParam_length_le {s : Bytes} (h : s.length ≤ 128 * 1024) :
    (writeParam s).length ≤ s.length + 11 := by
  have := decimal_length_le (by decide) (show s.length < 10 ^ 6 by omega)
  rw [length_writeParam]
  omega

/-- So do all the parameters of a message. -/
theorem flatMap_writeParam_length_le {arr : List Bytes} (h : ∀ s ∈ arr, s.length ≤ 128 * 1024) :
    (arr.flatMap writeParam).length ≤ (arr.map List.length).sum + 11 * arr.length := by
  induction arr with
  | nil => simp
  | cons s arr ih =>
    have hs := writeParam_length_le (h s List.mem_cons_self)
    have harr := ih fun x hx => h x (List.mem_cons_of_mem s hx)
    simp only [List.flatMap_cons, List.length_append, List.map_cons, List.sum_cons,
      List.length_cons]
    omega

/-- With enough room the loop of `rds_encode` writes everything. -/
theorem encodeLoop_eq {total : ℕ} {arr : List Bytes} {buff : Bytes}
    (h : buff.length + (arr.flatMap writeParam).length + 1 < total) :
    encodeLoop total arr buff = .ok (buff ++ arr.flatMap writeParam) := by
  induction arr generalizing buff with
  | nil =>
    rw [encodeLoop, if_neg (by simpa using h)]
    simp
  | cons s arr ih =>
    have hs := length_writeParam s
    have hheader := length_header dollar s.length
    simp only [List.flatMap_cons, List.length_append] at h
    rw [encodeLoop, if_neg (by omega), if_neg (by omega), ih]
    · simp
    · simp only [List.length_append]
      omega

/-- For two strings and more the buffer of `rds_encode` is large enough. -/
theorem rdsEncode_eq {arr : List Bytes} (htwo : 2 ≤ arr.length)
    (hlen : ∀ s ∈ arr, 0 < s.length ∧ s.length ≤ 128 * 1024) (htotal : encodeTotal arr < 2 ^ 31) :
    rdsEncode arr = .ok (writeMsg arr) := by
  have hcount := decimal_length_le (show 0 < arr.length by omega)
    (Nat.lt_pow_self (show 1 < 10 by decide))
  have hbody := flatMap_writeParam_length_le fun s hs => (hlen s hs).2
  have hheader := length_header star arr.length
  have hlens : ¬ arr.any (fun s => s.length == 0 || 128 * 1024 < s.length) = true := by
    simp only [List.any_eq_true, not_exists, not_and, Bool.or_eq_true, beq_iff_eq,
      decide_eq_true_eq, not_or]
    intro s hs
    have := hlen s hs
    omega
  have hroom : (header star arr.length).length + (arr.flatMap writeParam).length + 1
      < encodeTotal arr := by
    unfold encodeTotal
    omega
  unfold rdsEncode
  rw [if_neg, if_neg hlens, if_neg (by omega), if_neg (by omega), encodeLoop_eq hroom]
  · rfl
  · rintro rfl
    exact absurd htwo (by simp)

/-! ## The room for one string -/

/-- A number from a power of ten on has more digits. -/
theorem decimal_length_lt {n k : ℕ} (h : 10 ^ k ≤ n) : k < (decimal n).length := by
  have hpos : n ≠ 0 := by
    have := Nat.pow_pos (n := k) (show 0 < 10 by decide)
    omega
  unfold decimal
  rw [if_neg hpos, List.length_map, List.length_reverse]
  exact (Nat.lt_digits_length_iff (by decide) n).2 h

/-- The room the encoder plans for a single parameter. -/
theorem encodeTotal_single (s : Bytes) : encodeTotal [s] = s.length + 16 := by
  simp only [encodeTotal, List.length_singleton, List.map_cons, List.map_nil, List.sum_singleton]
  omega

/-- What `rds_encode` does with one string: the checks ask for one byte more than is written. -/
theorem rdsEncode_single {s : Bytes} (hlen : 0 < s.length ∧ s.length ≤ 128 * 1024) :
    rdsEncode [s] = if (decimal s.length).length < 6 then .ok (writeMsg [s]) else .error .bugOn := by
  have hstar : (header star 1).length = 4 := by decide
  have hheader := length_header dollar s.length
  have hparam := length_writeParam s
  have hsix := decimal_length_le (by decide) (show s.length < 10 ^ 6 by omega)
  have hlens : ¬ [s].any (fun s => s.length == 0 || 128 * 1024 < s.length) = true := by
    simp only [List.any_cons, List.any_nil, Bool.or_false, Bool.or_eq_true, beq_iff_eq, decide_eq_true_eq]
    omega
  unfold rdsEncode
  rw [if_neg (by simp), if_neg hlens, encodeTotal_single, if_neg (by omega), List.length_singleton, if_neg (by omega),
    encodeLoop, if_neg (by omega), if_neg (by omega), encodeLoop]
  simp only [List.length_append, hstar, hparam]
  by_cases hlt : (decimal s.length).length < 6
  · rw [if_pos hlt, if_neg (by omega)]
    simp [writeMsg]
  · rw [if_neg hlt, if_pos (by omega)]

/-- The buffer that `rds_encode` gets is enough, and it is taken for enough, if and only if the
    array is not a single string whose length has six digits. -/
theorem encode_fits_iff {arr : List Bytes} (hne : arr ≠ [])
    (hlen : ∀ s ∈ arr, 1 ≤ s.length ∧ s.length ≤ 131072) (htotal : encodeTotal arr < 2 ^ 31) :
    (rdsEncode arr = .ok (writeMsg arr) ∧ (writeMsg arr).length + 1 ≤ encodeTotal arr) ↔
      ¬ ∃ s, arr = [s] ∧ 100000 ≤ s.length := by
  have hroom : (writeMsg arr).length + 1 ≤ encodeTotal arr := by
    have hcount := decimal_length_le (show 0 < arr.length from List.length_pos_iff.mpr hne)
      (Nat.lt_pow_self (show 1 < 10 by decide))
    have hbody := flatMap_writeParam_length_le fun s hs => (hlen s hs).2
    unfold writeMsg encodeTotal
    rw [List.length_append, length_header]
    have := List.length_pos_iff.mpr hne
    omega
  rw [and_iff_left hroom]
  obtain _ | ⟨s, _ | ⟨t, arr⟩⟩ := arr
  · exact absurd rfl hne
  · have hs := hlen s List.mem_cons_self
    rw [rdsEncode_single hs]
    by_cases hlong : 100000 ≤ s.length
    · have := decimal_length_lt (show 10 ^ 5 ≤ s.length by omega)
      rw [if_neg (by omega)]
      exact iff_of_false (by simp) (not_not.mpr ⟨s, rfl, hlong⟩)
    · have := decimal_length_le (by decide) (show s.length < 10 ^ 5 by omega)
      rw [if_pos (by omega)]
      refine iff_of_true rfl ?_
      rintro ⟨_, h, hlong'⟩
      cases h
      exact hlong hlong'
  · refine iff_of_true (rdsEncode_eq (by simp) hlen htotal) ?_
    rintro ⟨_, h, -⟩
    cases h

/-- One string of 100000 bytes ends the process, though there is room for it. -/
theorem sixDigits_bugOn : ∃ s : Bytes, s.length = 100000 ∧ encodeTotal [s] < 2 ^ 31 ∧
    (writeMsg [s]).length + 1 = encodeTotal [s] ∧ rdsEncode [s] = .error .bugOn := by
  obtain ⟨s, hl⟩ : ∃ s : Bytes, s.length = 100000 := ⟨List.replicate 100000 65, List.length_replicate ..⟩
  have hlt := decimal_length_lt (show 10 ^ 5 ≤ s.length by omega)
  have hle := decimal_length_le (by decide) (show s.length < 10 ^ 6 by omega)
  have hparam := length_writeParam s
  have hstar : (header star 1).length = 4 := by decide
  refine ⟨s, hl, ?_, ?_, ?_⟩
  · rw [encodeTotal_single]
    omega
  · rw [encodeTotal_single, writeMsg, List.length_append, List.length_singleton, hstar, List.flatMap_singleton, hparam]
    omega
  · rw [rdsEncode_single (by omega), if_neg (by omega)]

/-- One string of 99999 bytes is written. -/
theorem encode_fits_iff_five :
    ∃ s : Bytes, s.length = 99999 ∧ rdsEncode [s] = .ok (writeMsg [s]) := by
  obtain ⟨s, hl⟩ : ∃ s : Bytes, s.length = 99999 := ⟨List.replicate 99999 65, List.length_replicate ..⟩
  refine ⟨s, hl, ((encode_fits_iff (by simp) (fun t ht => ?_) ?_).mpr ?_).1⟩
  · rw [List.mem_singleton.mp ht]
    omega
  · rw [encodeTotal_single]
    omega
  · rintro ⟨_, h, hlong⟩
    cases h
    omega

/-! ## Reading a length -/

/-- The digits of a number, read from the front, give the number. -/
theorem digits_value (n : ℕ) :
    (Nat.digits 10 n).reverse.foldl (fun c d => c * 10 + d) 0 = n := by
  rw [List.foldl_reverse]
  have h := Nat.ofDigits_digits 10 n
  rw [Nat.ofDigits_eq_foldr] at h
  simpa [Nat.mul_comm, Nat.add_comm] using h

/-- Digits followed by the end of the line are read as their number. -/
theorem readDigits_digits {ds : List ℕ} (hds : ∀ d ∈ ds, d < 10) (rest : Bytes) {c v : ℕ}
    (hv : ds.foldl (fun c d => c * 10 + d) c = v) (hlt : v < 2 ^ 31) :
    readDigits (ds.map (fun d => (48 + d).toUInt8) ++ 13 :: 10 :: rest) c =
      if 100000000 ≤ v then .fail else .ok v rest := by
  induction ds generalizing c with
  | nil =>
    obtain rfl : c = v := hv
    simp only [List.map_nil, List.nil_append, readDigits, and_self, if_true]
    norm_cast
  | cons d ds ih =>
    have hd : d < 10 := hds d List.mem_cons_self
    -- the value only grows, so that no digit before the last overflows
    have hmono : ∀ (l : List ℕ) (a : ℕ), a ≤ l.foldl (fun c d => c * 10 + d) a := by
      intro l
      induction l with
      | nil => exact fun a => Nat.le_refl a
      | cons x l ih => exact fun a => Nat.le_trans (by omega) (ih (a * 10 + x))
    rw [List.foldl_cons] at hv
    have hle := hmono ds (c * 10 + d)
    have hbyte : (48 + d).toUInt8.toNat = 48 + d := by
      rw [Nat.toUInt8_eq, UInt8.toNat_ofNat']
      omega
    have hrec := ih (fun x hx => hds x (List.mem_cons_of_mem d hx)) hv
    -- behind a digit there is always another byte: the next digit or the CR
    obtain ⟨x, xs, hxs⟩ : ∃ x xs, ds.map (fun d => (48 + d).toUInt8) ++ 13 :: 10 :: rest = x :: xs := by
      cases ds with
      | nil => exact ⟨_, _, rfl⟩
      | cons y ys => exact ⟨_, _, rfl⟩
    rw [hxs] at hrec
    rw [List.map_cons, List.cons_append, hxs, readDigits, if_neg, if_neg]
    · have hcount : i32 ((c : ℤ) * 10 + ((48 + d).toUInt8.toNat - 48 : ℕ)) = ((c * 10 + d : ℕ) : ℤ) := by
        rw [hbyte, i32_of_range] <;> push_cast <;> omega
      rw [hcount, hrec]
    · -- the byte of a digit is neither below '0' nor above '9', nor is it the CR
      rintro (hlow | hhigh)
      · rw [UInt8.lt_iff_toNat_lt, hbyte] at hlow
        exact absurd hlow (by simp)
      · rw [UInt8.lt_iff_toNat_lt, hbyte] at hhigh
        have : (57 : UInt8).toNat = 57 := rfl
        omega
    · rintro ⟨h13, -⟩
      have := congrArg UInt8.toNat h13
      rw [hbyte] at this
      have h : (13 : UInt8).toNat = 13 := rfl
      omega

/-- Of digits and the end of the line, a part is not enough. -/
theorem readDigits_part {ds : List ℕ} (hds : ∀ d ∈ ds, d < 10) {p : Bytes}
    (hp : p <+: ds.map (fun d => (48 + d).toUInt8) ++ [13, 10])
    (hlt : p.length < ds.length + 2) (c : ℤ) : readDigits p c = .more := by
  induction ds generalizing p c with
  | nil =>
    match p, hlt with
    | [], _ => rfl
    | [x], _ => rfl
    | x :: y :: p, hlt => exact absurd hlt (by simp)
  | cons d ds ih =>
    match p, hp with
    | [], _ => rfl
    | [x], _ => rfl
    | x :: y :: p, hp =>
      have hd : d < 10 := hds d List.mem_cons_self
      rw [List.map_cons, List.cons_append, List.cons_prefix_cons] at hp
      obtain ⟨rfl, hp⟩ := hp
      have hbyte : (48 + d).toUInt8.toNat = 48 + d := by
        rw [Nat.toUInt8_eq, UInt8.toNat_ofNat']
        omega
      have hne : (48 + d).toUInt8 ≠ 13 := fun h => by
        have := congrArg UInt8.toNat h
        rw [hbyte] at this
        have h13 : (13 : UInt8).toNat = 13 := rfl
        omega
      have hdigit : ¬ ((48 + d).toUInt8 < 48 ∨ 57 < (48 + d).toUInt8) := by
        rw [UInt8.lt_iff_toNat_lt, UInt8.lt_iff_toNat_lt, hbyte]
        have h48 : (48 : UInt8).toNat = 48 := rfl
        have h57 : (57 : UInt8).toNat = 57 := rfl
        omega
      rw [readDigits, if_neg fun h => hne h.1, if_neg hdigit]
      refine ih (fun z hz => hds z (List.mem_cons_of_mem d hz)) hp ?_ _
      simp only [List.length_cons] at hlt ⊢
      omega

/-- The digits that `%d` writes. -/
theorem decimal_eq (n : ℕ) : ∃ ds : List ℕ, (∀ d ∈ ds, d < 10)
    ∧ decimal n = ds.map (fun d => (48 + d).toUInt8)
    ∧ ds.foldl (fun c d => c * 10 + d) 0 = n := by
  unfold decimal
  split
  next h =>
    subst h
    exact ⟨[0], by simp, rfl, rfl⟩
  · refine ⟨(Nat.digits 10 n).reverse, fun d hd => ?_, rfl, digits_value n⟩
    exact Nat.digits_lt_base (by decide) (List.mem_reverse.1 hd)

/-- The decoder reads back a count that the encoder wrote, unless it is too large. -/
theorem readRdsLen_header (mark : UInt8) {n : ℕ} (hn : n < 2 ^ 31) (rest : Bytes) :
    readRdsLen mark (header mark n ++ rest) =
      if 100000000 ≤ n then .fail else .ok n rest := by
  obtain ⟨ds, hds, hdec, hval⟩ := decimal_eq n
  have hread := readDigits_digits hds rest hval hn
  rw [header, hdec, List.cons_append, List.cons_append, readRdsLen, if_pos rfl, List.append_assoc]
  exact hread

/-- A part of a length is not enough. -/
theorem readRdsLen_part (mark : UInt8) (n : ℕ) {p : Bytes} (hne : p ≠ [])
    (hp : p <+: header mark n) (hlt : p.length < (header mark n).length) :
    readRdsLen mark p = .more := by
  obtain ⟨ds, hds, hdec, -⟩ := decimal_eq n
  match p, hne with
  | x :: p, _ =>
    rw [header, hdec] at hp hlt
    rw [List.cons_append, List.cons_prefix_cons] at hp
    rw [readRdsLen, if_pos hp.1]
    refine readDigits_part hds hp.2 ?_ 0
    simp only [List.length_append, List.length_cons, List.length_map, List.length_nil] at hlt
    omega

/-- Bytes that begin like a length and some others: the length is there, or a part of it. -/
theorem readRdsLen_prefix (mark : UInt8) {n : ℕ} (hn : n < 100000000) {buff tail : Bytes}
    (hne : buff ≠ []) (hpre : buff <+: header mark n ++ tail) :
    (∃ r, buff = header mark n ++ r ∧ r <+: tail ∧ readRdsLen mark buff = .ok n r) ∨
    (buff.length < (header mark n).length ∧ readRdsLen mark buff = .more) := by
  by_cases hlt : buff.length < (header mark n).length
  · have hshort : buff <+: header mark n :=
      List.prefix_of_prefix_length_le hpre (List.prefix_append _ _) hlt.le
    exact .inr ⟨hlt, readRdsLen_part mark n hne hshort hlt⟩
  · obtain ⟨r, rfl⟩ : header mark n <+: buff :=
      List.prefix_of_prefix_length_le (List.prefix_append _ _) hpre (by omega)
    refine .inl ⟨r, rfl, (List.prefix_append_right_inj _).1 hpre, ?_⟩
    rw [readRdsLen_header mark (by omega), if_neg (by omega)]

/-! ## Reading strings -/

/-- A string that is there is read. -/
theorem readParamContent_writeParam {s : Bytes} (hlen : s.length < 100000000) (left : ℕ)
    (rest : Bytes) (arr : List Bytes) :
    readParamContent (left + 1) (writeParam s ++ rest) arr
      = readParamContent left rest (arr ++ [s]) := by
  have hne : writeParam s ++ rest ≠ [] := by simp [writeParam, header]
  have hread : readRdsLen dollar (writeParam s ++ rest) = .ok s.length (s ++ [13, 10] ++ rest) := by
    rw [writeParam, List.append_assoc, List.append_assoc, readRdsLen_header dollar (by omega),
      if_neg (by omega), List.append_assoc]
  have hroom : ¬ ((s ++ [13, 10] ++ rest).length : ℤ) < s.length + 2 := by
    simp only [List.length_append, List.length_cons, List.length_nil]
    omega
  rw [readParamContent, if_neg hne]
  simp only [hread]
  rw [if_neg hroom, if_neg (by omega), if_neg (by simp)]
  simp

/-- Bytes that begin like strings and some others, of which those from `future` on are not there
    yet: all strings are there, or some of them and a part of the next one. -/
theorem readParamContent_part {ps : List Bytes} (hps : ∀ s ∈ ps, s.length < 100000000)
    {buff future tail : Bytes} (h : buff ++ future = ps.flatMap writeParam ++ tail)
    (arr : List Bytes) :
    (∃ r, readParamContent ps.length buff arr = .ok (.done r (arr ++ ps)) ∧ r ++ future = tail) ∨
    (∃ read left r, readParamContent ps.length buff arr = .ok (.more r (arr ++ read))
      ∧ ps = read ++ left ∧ left ≠ [] ∧ r ++ future = left.flatMap writeParam ++ tail
      ∧ future ≠ [] ∧ ∃ s ∈ left, r.length < (writeParam s).length) := by
  induction ps generalizing buff arr with
  | nil => exact .inl ⟨buff, by simp [readParamContent], by simpa using h⟩
  | cons s ps ih =>
    -- whatever is cut short, the bytes are those of all strings, and some are to come
    have hmore : buff.length < (writeParam s).length →
        readParamContent (s :: ps).length buff arr = .ok (.more buff arr) →
        ∃ read left r, readParamContent (s :: ps).length buff arr = .ok (.more r (arr ++ read))
          ∧ s :: ps = read ++ left ∧ left ≠ [] ∧ r ++ future = left.flatMap writeParam ++ tail
          ∧ future ≠ [] ∧ ∃ s ∈ left, r.length < (writeParam s).length := by
      intro hlt hr
      refine ⟨[], s :: ps, buff, by simpa using hr, rfl, List.cons_ne_nil s ps, h, ?_,
        s, List.mem_cons_self, hlt⟩
      rintro rfl
      have := congrArg List.length h
      simp only [List.append_nil, List.flatMap_cons, List.length_append] at this
      omega
    by_cases hbuff : buff = []
    · refine .inr (hmore ?_ (by rw [List.length_cons, readParamContent, if_pos hbuff]))
      simp [hbuff, writeParam, header]
    rw [List.flatMap_cons, writeParam, List.append_assoc, List.append_assoc, List.append_assoc] at h
    have hlen := hps s List.mem_cons_self
    rcases readRdsLen_prefix dollar hlen hbuff ⟨future, h⟩ with ⟨r, rfl, -, hread⟩ | ⟨hlt, hread⟩
    · rw [List.append_assoc] at h
      have hr : r ++ future = s ++ ([13, 10] ++ (ps.flatMap writeParam ++ tail)) :=
        List.append_cancel_left h
      by_cases hshort : r.length < s.length + 2
      · refine .inr (hmore ?_ ?_)
        · simp only [writeParam, List.length_append, List.length_cons, List.length_nil]
          omega
        · rw [List.length_cons, readParamContent, if_neg hbuff]
          simp only [hread]
          rw [if_pos (by omega)]
      · -- the string and the end of its line are there
        obtain ⟨r', rfl⟩ : s ++ [13, 10] <+: r :=
          List.prefix_of_prefix_length_le ⟨ps.flatMap writeParam ++ tail, by simpa using hr.symm⟩
            (List.prefix_append r future) (by simpa using hshort)
        have hr' : r' ++ future = ps.flatMap writeParam ++ tail := by simpa using hr
        have hbytes : header dollar s.length ++ (s ++ [13, 10] ++ r') = writeParam s ++ r' := by
          simp [writeParam]
        rw [hbytes, List.length_cons, readParamContent_writeParam hlen]
        rcases ih (fun x hx => hps x (List.mem_cons_of_mem s hx)) hr' (arr ++ [s]) with
          ⟨r₂, hdone, htail⟩ | ⟨read, left, r₂, hm, rfl, hleft, htail, hf⟩
        · exact .inl ⟨r₂, by simpa using hdone, htail⟩
        · exact .inr ⟨s :: read, left, r₂, by simpa using hm, rfl, hleft, htail, hf⟩
    · refine .inr (hmore ?_ ?_)
      · simp only [writeParam, List.length_append]
        omega
      · rw [List.length_cons, readParamContent, if_neg hbuff]
        simp only [hread]

/-! ## Reading messages -/

/-- A message whose lengths the decoder takes. -/
def Readable (m : List Bytes) : Prop :=
  m ≠ [] ∧ m.length < 100000000 ∧ ∀ s ∈ m, s.length < 100000000

/-- What the decoder has read of the messages `msgs`, when the bytes `future` are still to come:
    nothing, or the first strings of the first of them. -/
def Expects (rds : Decoder) (future : Bytes) (msgs : List (List Bytes)) : Prop :=
  (∀ m ∈ msgs, Readable m) ∧
  ((rds.state = .new ∧ rds.resArr = [] ∧ rds.buff ++ future = msgs.flatMap writeMsg) ∨
   (rds.state = .run ∧ ∃ m rest left, msgs = m :: rest ∧ rds.resCount = m.length
      ∧ rds.resArr ++ left = m ∧ left ≠ []
      ∧ rds.buff ++ future = left.flatMap writeParam ++ rest.flatMap writeMsg))

/-- A decoder that has read everything. -/
def Idle (rds : Decoder) : Prop := rds.buff = [] ∧ rds.state = .new ∧ rds.resArr = []

/-- A new decoder expects the messages from their start. -/
theorem expects_rdsNew {msgs : List (List Bytes)} (h : ∀ m ∈ msgs, Readable m) :
    Expects rdsNew (msgs.flatMap writeMsg) msgs :=
  ⟨h, .inl ⟨rfl, rfl, rfl⟩⟩

/-- A decoder that expects messages has met no error. -/
theorem Expects.state_ne_err {rds : Decoder} {future : Bytes} {msgs : List (List Bytes)}
    (h : Expects rds future msgs) : rds.state ≠ .err := by
  rcases h.2 with ⟨hs, -⟩ | ⟨hs, -⟩ <;> simp [hs]

/-- Without bytes to come and without bytes in the buffer, nothing is left to read. -/
theorem Expects.idle {rds : Decoder} {msgs : List (List Bytes)} (h : Expects rds [] msgs)
    (hbuff : rds.buff = []) : msgs = [] ∧ Idle rds := by
  rcases h.2 with ⟨hs, harr, hb⟩ | ⟨-, m, rest, left, -, -, -, hleft, hb⟩
  · refine ⟨?_, hbuff, hs, harr⟩
    rw [hbuff, List.append_nil] at hb
    cases msgs with
    | nil => rfl
    | cons m msgs => exact absurd hb.symm (by simp [writeMsg, header])
  · rw [hbuff, List.append_nil] at hb
    cases left with
    | nil => exact absurd rfl hleft
    | cons s left => exact absurd hb.symm (by simp [writeParam, header])

/-- No length and no string of a message takes more than `b` bytes. -/
def Limit (b : ℕ) (m : List Bytes) : Prop :=
  (header star m.length).length ≤ b ∧ ∀ s ∈ m, (writeParam s).length ≤ b

/-- What a call of `rds_decode` gives when messages are expected and the buffer has `size` bytes:
    it asks for more, with no more in the buffer than a part of something, and if no bytes are to
    come everything was read; or it gives the first of the messages and has taken bytes. -/
def Progress (r : Except Stop (DecodeRet × Decoder)) (size : ℕ) (future : Bytes)
    (msgs : List (List Bytes)) : Prop :=
  (∃ rds', r = .ok (.more, rds') ∧ Expects rds' future msgs
    ∧ (future = [] → msgs = [] ∧ Idle rds')
    ∧ ∀ b, (∀ m ∈ msgs, Limit b m) → rds'.buff.length ≤ b) ∨
  (∃ m rest rds', r = .ok (.done m, rds') ∧ msgs = m :: rest ∧ Expects rds' future rest
    ∧ rds'.buff.length < size)

/-- More room may be granted. -/
theorem Progress.mono {r : Except Stop (DecodeRet × Decoder)} {size size' : ℕ} {future : Bytes}
    {msgs : List (List Bytes)} (h : Progress r size future msgs) (hle : size ≤ size') :
    Progress r size' future msgs := by
  rcases h with hmore | ⟨m, rest, rds', hr, hmsgs, hexp, hlt⟩
  · exact .inl hmore
  · exact .inr ⟨m, rest, rds', hr, hmsgs, hexp, hlt.trans_le hle⟩

/-- Reading parameters makes progress with the message begun. -/
theorem decodeParams_progress {rds : Decoder} {future : Bytes} {m : List Bytes}
    {rest : List (List Bytes)} {left : List Bytes} (hgood : ∀ x ∈ m :: rest, Readable x)
    (hstate : rds.state = .run) (hcount : rds.resCount = m.length) (hm : rds.resArr ++ left = m)
    (hleft : left ≠ [])
    (h : rds.buff ++ future = left.flatMap writeParam ++ rest.flatMap writeMsg) :
    Progress (decodeParams rds) rds.buff.length future (m :: rest) := by
  have hlen : m.length = rds.resArr.length + left.length := by rw [← hm, List.length_append]
  have hpos := List.length_pos_of_ne_nil hleft
  have hsmall : ∀ s ∈ left, s.length < 100000000 := fun s hs =>
    (hgood m List.mem_cons_self).2.2 s (hm ▸ List.mem_append_right _ hs)
  have hsub : rds.resCount - rds.resArr.length = left.length := by omega
  have htaken : 0 < (left.flatMap writeParam).length := by
    cases left with
    | nil => exact absurd rfl hleft
    | cons s left => simp [writeParam, header]
  unfold decodeParams
  rw [if_neg (by omega), hsub]
  rcases readParamContent_part hsmall h rds.resArr with
    ⟨r, hdone, htail⟩ | ⟨read, left', r, hmore, rfl, hleft', htail, hfuture, x, hx, hlt⟩
  · have hlt : r.length < rds.buff.length := by
      have := congrArg List.length h
      rw [← htail] at this
      simp only [List.length_append] at this
      omega
    rw [hdone, hm]
    refine .inr ⟨m, rest, _, rfl, rfl, ⟨fun x hx => hgood x (List.mem_cons_of_mem m hx), .inl ?_⟩, ?_⟩
    · split <;> exact ⟨rfl, rfl, htail⟩
    · split <;> exact hlt
  · rw [hmore]
    refine .inl ⟨_, rfl, ⟨hgood, .inr ⟨hstate, m, rest, left', rfl, hcount, ?_, hleft', htail⟩⟩,
      fun hf => absurd hf hfuture, fun b hb => ?_⟩
    · rw [← hm, List.append_assoc]
    · have hmem : x ∈ m := by simp [← hm, hx]
      exact hlt.le.trans ((hb m List.mem_cons_self).2 x hmem)

/-- `rds_decode` behind the buffering, when messages are expected. -/
theorem decodeBuff_progress {rds : Decoder} {future : Bytes} {msgs : List (List Bytes)}
    (h : Expects rds future msgs) :
    Progress (decodeBuff rds) rds.buff.length future msgs := by
  unfold decodeBuff
  by_cases hbuff : rds.buff = []
  · rw [if_pos hbuff]
    exact .inl ⟨rds, rfl, h, fun hf => (hf ▸ h).idle hbuff, fun b _ => by simp [hbuff]⟩
  rw [if_neg hbuff]
  rcases h.2 with ⟨hs, harr, hb⟩ | ⟨hs, m, rest, left, rfl, hcount, hm, hleft, hb⟩
  · simp only [hs]
    cases msgs with
    | nil => exact absurd (List.append_eq_nil_iff.1 hb).1 hbuff
    | cons m rest =>
      obtain ⟨hne, hcount, hsmall⟩ := h.1 m List.mem_cons_self
      have hb' : rds.buff ++ future
          = header star m.length ++ (m.flatMap writeParam ++ rest.flatMap writeMsg) := by
        rw [hb, List.flatMap_cons, writeMsg, List.append_assoc]
      rcases readRdsLen_prefix star hcount hbuff ⟨future, hb'⟩ with
        ⟨r, hr, -, hread⟩ | ⟨hlt, hread⟩
      · have hpos := List.length_pos_of_ne_nil hne
        rw [hr, List.append_assoc] at hb'
        simp only [hread]
        rw [if_neg (by omega)]
        refine (decodeParams_progress h.1 rfl (by simp) (by rw [harr]; rfl) hne
          (List.append_cancel_left hb')).mono ?_
        simp [hr]
      · simp only [hread]
        refine .inl ⟨rds, rfl, h, ?_, fun b hb => hlt.le.trans (hb m List.mem_cons_self).1⟩
        rintro rfl
        have := congrArg List.length hb'
        simp only [List.append_nil, List.length_append] at this
        omega
  · simp only [hs]
    exact decodeParams_progress h.1 hs hcount hm hleft hb

/-! ## Buffering -/

/-- The buffer grows within its bound. -/
theorem adjustSize_le {n : ℕ} (hn : n ≤ 512 * 1024) :
    ∃ size, adjustSize n = some size ∧ size ≤ 512 * 1024 := by
  unfold adjustSize
  rw [List.find?_map]
  cases hfind : (List.range 24).find? ((fun x => decide (n ≤ x)) ∘ (2 ^ ·)) with
  | none =>
    have := List.find?_eq_none.1 hfind 19 (by simp)
    simp only [Function.comp_apply, decide_eq_true_eq] at this
    omega
  | some k =>
    refine ⟨2 ^ k, rfl, ?_⟩
    -- 2 ^ 19 is large enough, so the search does not go on behind it
    have hk : k ≤ 19 := by
      by_contra hk
      have := (List.find?_range_eq_some.1 hfind).2.2 19 (by omega)
      simp only [Function.comp_apply, Bool.not_eq_true', decide_eq_false_iff_not] at this
      omega
    calc 2 ^ k ≤ 2 ^ 19 := Nat.pow_le_pow_right (by decide) hk
      _ = 512 * 1024 := by decide

/-- There is room for 512 KiB. -/
theorem rdsCache_ok {rds : Decoder} {s : Bytes} (h : rds.buff.length + s.length ≤ 512 * 1024) :
    ∃ size ≤ max rds.maxsize (512 * 1024),
      rdsCache rds s = .ok (true, { rds with maxsize := size, buff := rds.buff ++ s }) := by
  obtain ⟨size, hsize, hle⟩ := adjustSize_le h
  unfold rdsCache
  by_cases hmax : rds.maxsize = 0
  · simp only [hmax, if_true]
    split
    · exact ⟨32 * 1024, by omega, rfl⟩
    · rw [hsize]
      simp only
      rw [if_neg (by omega)]
      exact ⟨size, le_max_of_le_right hle, rfl⟩
  · simp only [if_neg hmax]
    split
    · exact ⟨rds.maxsize, le_max_left _ _, rfl⟩
    · rw [hsize]
      simp only
      rw [if_neg (by omega)]
      exact ⟨size, le_max_of_le_right hle, rfl⟩

/-- Bytes move from the future into the buffer. -/
theorem Expects.cache {rds : Decoder} {s future : Bytes} {msgs : List (List Bytes)}
    (h : Expects rds (s ++ future) msgs) (size : ℕ) :
    Expects { rds with maxsize := size, buff := rds.buff ++ s } future msgs := by
  refine ⟨h.1, h.2.imp ?_ ?_⟩
  · rintro ⟨hs, harr, hb⟩
    exact ⟨hs, harr, by simpa using hb⟩
  · rintro ⟨hs, m, rest, left, hmsgs, hcount, hm, hleft, hb⟩
    exact ⟨hs, m, rest, left, hmsgs, hcount, hm, hleft, by simpa using hb⟩

/-- One call of the decoder makes progress. -/
theorem rdsDecode_progress {rds : Decoder} {s future : Bytes} {msgs : List (List Bytes)}
    (h : Expects rds (s ++ future) msgs) (hroom : rds.buff.length + s.length ≤ 512 * 1024) :
    Progress (rdsDecode rds s) (rds.buff.length + s.length) future msgs := by
  unfold rdsDecode
  rw [if_neg h.state_ne_err]
  by_cases hs : s = []
  · subst hs
    rw [if_pos rfl]
    exact decodeBuff_progress h
  · rw [if_neg hs]
    obtain ⟨size, -, hcache⟩ := rdsCache_ok hroom
    simp only [hcache]
    exact (decodeBuff_progress (h.cache size)).mono (by simp)

/-! ## All messages of a piece -/

/-- What reading all messages gives that are there: the first ones; all of them, if no bytes are to
    come. -/
def ReadsAll (r : Except Stop (Option (List (List Bytes)) × Decoder)) (res : List (List Bytes))
    (future : Bytes) (msgs : List (List Bytes)) : Prop :=
  ∃ got rest rds', r = .ok (some (res ++ got), rds') ∧ msgs = got ++ rest
    ∧ Expects rds' future rest ∧ (future = [] → rest = [] ∧ Idle rds')
    ∧ ∀ b, (∀ m ∈ msgs, Limit b m) → rds'.buff.length ≤ b

/-- The loop of the binding reads every message that is complete. -/
theorem decodeRest_readsAll {fuel : ℕ} {rds : Decoder} {future : Bytes} {msgs : List (List Bytes)}
    (h : Expects rds future msgs) (hfuel : rds.buff.length < fuel) (res : List (List Bytes)) :
    ReadsAll (decodeRest fuel rds res) res future msgs := by
  induction fuel generalizing rds msgs res with
  | zero => omega
  | succ fuel ih =>
    have hcall : rdsDecode rds [] = decodeBuff rds := by
      rw [rdsDecode, if_neg h.state_ne_err, if_pos rfl]
    rw [decodeRest, hcall]
    rcases decodeBuff_progress h with
      ⟨rds', hr, hexp, hdone, hlimit⟩ | ⟨m, rest, rds', hr, rfl, hexp, hlt⟩
    · simp only [hr]
      exact ⟨[], msgs, rds', by simp, rfl, hexp, hdone, hlimit⟩
    · simp only [hr]
      obtain ⟨got, rest', rds'', hrun, rfl, hexp', hdone, hlimit⟩ := ih hexp (by omega) (res ++ [m])
      exact ⟨m :: got, rest', rds'', by simpa using hrun, rfl, hexp', hdone,
        fun b hb => hlimit b fun x hx => hb x (List.mem_cons_of_mem m hx)⟩

/-- A call of the binding reads every message that is complete. -/
theorem lDecode_readsAll {rds : Decoder} {s future : Bytes} {msgs : List (List Bytes)}
    (h : Expects rds (s ++ future) msgs) (hroom : rds.buff.length + s.length ≤ 512 * 1024) :
    ReadsAll (lDecode rds s) [] future msgs := by
  unfold lDecode
  rcases rdsDecode_progress h hroom with
    ⟨rds', hr, hexp, hdone, hlimit⟩ | ⟨m, rest, rds', hr, rfl, hexp, -⟩
  · simp only [hr]
    exact ⟨[], msgs, rds', rfl, rfl, hexp, hdone, hlimit⟩
  · simp only [hr]
    obtain ⟨got, rest', rds'', hrun, rfl, hexp', hdone, hlimit⟩ :=
      decodeRest_readsAll hexp (Nat.lt_succ_self _) [m]
    exact ⟨m :: got, rest', rds'', by simpa using hrun, rfl, hexp', hdone,
      fun b hb => hlimit b fun x hx => hb x (List.mem_cons_of_mem m hx)⟩

/-! ## A decoder fed in pieces -/

/-- One decoder that is fed with pieces until a call fails: the messages it gives. -/
def feed (rds : Decoder) : List Bytes → Except Stop (Option (List (List Bytes)) × Decoder)
  | [] => .ok (some [], rds)
  | s :: chunks =>
    match lDecode rds s with
    | .error e => .error e
    | .ok (none, rds) => .ok (none, rds)
    | .ok (some got, rds) =>
      match feed rds chunks with
      | .error e => .error e
      | .ok (none, rds) => .ok (none, rds)
      | .ok (some got', rds) => .ok (some (got ++ got'), rds)

/-- At most 512 KiB are in the buffer whenever a piece comes. -/
def fits (rds : Decoder) : List Bytes → Bool
  | [] => true
  | s :: chunks =>
    rds.buff.length + s.length ≤ 512 * 1024 &&
      match lDecode rds s with
      | .ok (some _, rds) => fits rds chunks
      | _ => true

/-- Fed with all the pieces, the decoder returns all the messages. -/
theorem feed_expects {rds : Decoder} {chunks : List Bytes} {msgs : List (List Bytes)}
    (h : Expects rds chunks.flatten msgs) (hfits : fits rds chunks = true)
    (hidle : chunks = [] → msgs = [] ∧ Idle rds) :
    ∃ rds', feed rds chunks = .ok (some msgs, rds') ∧ Idle rds' := by
  induction chunks generalizing rds msgs with
  | nil =>
    obtain ⟨rfl, hi⟩ := hidle rfl
    exact ⟨rds, rfl, hi⟩
  | cons s chunks ih =>
    simp only [fits, Bool.and_eq_true, decide_eq_true_eq] at hfits
    obtain ⟨got, rest, rds', hr, rfl, hexp, hdone, -⟩ := lDecode_readsAll h hfits.1
    have hfits' := hfits.2
    simp only [hr] at hfits'
    obtain ⟨rds'', hfeed, hi⟩ := ih hexp hfits' (fun hc => hdone (by simp [hc]))
    refine ⟨rds'', ?_, hi⟩
    simp only [feed, hr, hfeed, List.nil_append]

/-- What the encoder writes for messages within the bounds. -/
theorem encoded_eq {msgs : List (List Bytes)} {encoded : List Bytes}
    (henc : List.Forall₂ (fun m e => rdsEncode m = .ok e) msgs encoded) :
    encoded.flatten = msgs.flatMap writeMsg ∧ ∀ m ∈ msgs, ∃ e, rdsEncode m = .ok e := by
  induction henc with
  | nil => exact ⟨rfl, fun m hm => absurd hm List.not_mem_nil⟩
  | cons h _ ih =>
    refine ⟨by rw [List.flatten_cons, ih.1, (rdsEncode_ok h).1, List.flatMap_cons], fun m hm => ?_⟩
    rcases List.mem_cons.1 hm with rfl | hm
    · exact ⟨_, h⟩
    · exact ih.2 m hm

/-- Arrays of fewer than 100000000 strings come out as they were written, however the bytes are
    cut. -/
theorem feed_encoded (msgs : List (List Bytes)) (encoded chunks : List Bytes)
    (henc : List.Forall₂ (fun m e => rdsEncode m = .ok e) msgs encoded)
    (hcount : ∀ m ∈ msgs, m.length < 100000000) (hcut : chunks.flatten = encoded.flatten)
    (hfits : fits rdsNew chunks = true) :
    ∃ rds, feed rdsNew chunks = .ok (some msgs, rds) ∧ Idle rds := by
  obtain ⟨hbytes, hall⟩ := encoded_eq henc
  have hgood : ∀ m ∈ msgs, Readable m := by
    intro m hm
    obtain ⟨e, he⟩ := hall m hm
    obtain ⟨-, hne, hlen, -⟩ := rdsEncode_ok he
    exact ⟨hne, hcount m hm, fun s hs => by have := hlen s hs; omega⟩
  have hexp := expects_rdsNew hgood
  rw [← hbytes, ← hcut] at hexp
  refine feed_expects hexp hfits ?_
  rintro rfl
  exact hexp.idle rfl

/-- Two messages, one of them with the bytes of a header in it, cut inside lengths and strings. -/
theorem feed_encoded_pieces :
    ∃ rds, feed rdsNew [[42, 49, 13], [10, 36, 52, 13, 10, 42, 13], [10, 0, 13, 10, 42, 50, 13, 10, 36,
      49, 13, 10, 7, 13, 10, 36, 50], [13, 10, 36, 36, 13, 10]]
        = .ok (some [[[42, 13, 10, 0]], [[7], [36, 36]]], rds) ∧ Idle rds :=
  feed_encoded [[[42, 13, 10, 0]], [[7], [36, 36]]]
    [[42, 49, 13, 10, 36, 52, 13, 10, 42, 13, 10, 0, 13, 10],
      [42, 50, 13, 10, 36, 49, 13, 10, 7, 13, 10, 36, 50, 13, 10, 36, 36, 13, 10]] _
    (.cons (by decide) (.cons (by decide) .nil)) (by decide) (by decide) (by decide)

/-- The encoding of many parameters of one byte. -/
theorem rdsEncode_replicate {n : ℕ} (htwo : 2 ≤ n) (hn : n ≤ 100000000) :
    rdsEncode (List.replicate n [65]) = .ok (writeMsg (List.replicate n [65])) := by
  refine rdsEncode_eq (by rwa [List.length_replicate]) (fun s hs => ?_) ?_
  · rw [List.eq_of_mem_replicate hs]
    decide
  · rw [encodeTotal, List.length_replicate, List.map_replicate, List.sum_replicate_nat]
    simp only [List.length_cons, List.length_nil]
    omega

/-- The writer takes an array of 100000000 strings, which is too large for the reader. -/
theorem largeArray_not_read :
    ¬ ∀ (msgs : List (List Bytes)) (encoded chunks : List Bytes),
      List.Forall₂ (fun m e => rdsEncode m = .ok e) msgs encoded →
      chunks.flatten = encoded.flatten → fits rdsNew chunks = true →
      ∃ rds, feed rdsNew chunks = .ok (some msgs, rds) ∧ Idle rds := by
  intro h
  obtain ⟨n, hn⟩ : ∃ n, n = 100000000 := ⟨_, rfl⟩
  have hfail : lDecode rdsNew (header star n)
      = .ok (none, ⟨header star n, 32 * 1024, .err, 0, []⟩) := by
    rw [hn]
    decide
  have hroom : (header star n).length ≤ 512 * 1024 := by
    rw [hn]
    decide
  obtain ⟨rds, hrun, -⟩ := h [List.replicate n [65]] [writeMsg (List.replicate n [65])]
    (header star n :: ((List.replicate n [65]).flatMap writeParam).map fun b => [b])
    (.cons (rdsEncode_replicate (by omega) (by omega)) .nil)
    (by simp [writeMsg, ← List.flatMap_def])
    (by
      simp only [fits, hfail, Bool.and_true, decide_eq_true_eq]
      rwa [rdsNew, List.length_nil, Nat.zero_add])
  simp only [feed, hfail] at hrun
  cases hrun

end Rds
