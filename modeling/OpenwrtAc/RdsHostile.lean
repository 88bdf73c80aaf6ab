/-
# A decoder under attack

What bytes make a call of `rds_decode` end the process, or read what is not there: a number
of strings that is 0 or less or for which there is no memory, a length that is -2 or points
in front of the buffer, and more bytes than any buffer takes.  Numbers of many digits can
be all of these, since an `int` overflows.
-/
import OpenwrtAc.RdsStream

open MachineInt

namespace Rds

/-! ## Memory for the array -/

/-- `rds_decode` behind the buffering, where `room n` is that `malloc` has memory for an array of
    `n` strings. The other allocations are of no more than 512 KiB, and succeed. -/
def decodeBuffIn (room : ℕ → Bool) (rds : Decoder) : Except Stop (DecodeRet × Decoder) :=
  if rds.buff = [] then .ok (.more, rds)
  else
    match rds.state with
    | .err => .error .bugOn
    | .run => decodeParams rds
    | .new =>
      match readRdsLen star rds.buff with
      | .fail => .ok (.fail, { rds with state := .err })
      | .more => .ok (.more, rds)
      | .ok count rest =>
        if count ≤ 0 then .error .bugOn
        -- `mnew`
        else if room count.toNat then decodeParams { rds with buff := rest, state := .run, resCount := count.toNat }
        else .error .bugOn

/-- `rds_decode`. -/
def rdsDecodeIn (room : ℕ → Bool) (rds : Decoder) (buff : Bytes) : Except Stop (DecodeRet × Decoder) :=
  if rds.state = .err then .error .bugOn
  else if buff = [] then decodeBuffIn room rds
  else
    match rdsCache rds buff with
    | .error e => .error e
    | .ok (false, rds) => .ok (.fail, rds)
    | .ok (true, rds) => decodeBuffIn room rds

/-- With memory for all arrays. -/
theorem rdsDecodeIn_true (rds : Decoder) (buff : Bytes) :
    rdsDecodeIn (fun _ => true) rds buff = rdsDecode rds buff :=
  rfl

/-! ## Lengths -/

/-- The bytes of a number. -/
theorem readDigits_shape {buff rest : Bytes} {c n : ℤ} (h : readDigits buff c = .ok n rest) :
    ∃ ds : Bytes, (13 : UInt8) ∉ ds ∧ buff = ds ++ 13 :: 10 :: rest := by
  induction buff generalizing c with
  | nil => cases h
  | cons x buff ih =>
    cases buff with
    | nil => cases h
    | cons y buff =>
      rw [readDigits] at h
      split at h
      next hend =>
        split at h
        · cases h
        · cases h
          exact ⟨[], List.not_mem_nil, by rw [hend.1, hend.2]; rfl⟩
      · split at h
        · cases h
        next hdigit =>
          obtain ⟨ds, hds, hbuff⟩ := ih h
          refine ⟨x :: ds, ?_, by rw [hbuff]; rfl⟩
          rintro (_ | ⟨_, hmem⟩)
          · exact hdigit (by decide)
          · exact hds hmem

/-- A length that is read has its mark, its digits and its line end. -/
theorem readRdsLen_shape {mark : UInt8} {buff rest : Bytes} {n : ℤ}
    (h : readRdsLen mark buff = .ok n rest) :
    ∃ ds : Bytes, (13 : UInt8) ∉ ds ∧ buff = mark :: (ds ++ 13 :: 10 :: rest) := by
  cases buff with
  | nil => cases h
  | cons x buff =>
    rw [readRdsLen] at h
    split at h
    next hx =>
      obtain ⟨ds, hds, hbuff⟩ := readDigits_shape h
      exact ⟨ds, hds, by rw [hx, hbuff]⟩
    · cases h

/-- A negative length leads to an error, unless the string would begin in front of the buffer, or
    with the end of the line of the length itself. -/
theorem negativeLen_returns_iff {buff rest : Bytes} {len : ℤ}
    (h : readRdsLen dollar buff = .ok len rest)
    (hneg : len < 0) :
    (∃ r, negativeLen buff (buff.length - rest.length) len = .ok r) ↔
      len ≠ -2 ∧ 0 ≤ ((buff.length - rest.length : ℕ) : ℤ) + len := by
  obtain ⟨ds, hds, hbuff⟩ := readRdsLen_shape h
  have hoff : buff.length - rest.length = ds.length + 3 := by
    rw [hbuff]
    simp only [List.length_cons, List.length_append]
    omega
  rw [hoff]
  unfold negativeLen
  by_cases hlow : ((ds.length + 3 : ℕ) : ℤ) + len < 0
  · rw [if_pos hlow]
    exact ⟨nofun, fun h => absurd h.2 (by omega)⟩
  rw [if_neg hlow]
  obtain ⟨k, hk⟩ := Int.eq_ofNat_of_zero_le (not_lt.mp hlow)
  rw [hk, Int.toNat_natCast]
  have hline : buff = (dollar :: ds) ++ 13 :: 10 :: rest := hbuff
  by_cases htwo : len = -2
  · have hkd : k = (dollar :: ds).length := by
      rw [List.length_cons]
      omega
    have htake : (buff.drop k).take 2 = [13, 10] := by
      rw [hline, hkd, List.drop_left]
      rfl
    rw [if_neg (not_not.mpr htake), if_pos (by omega)]
    exact ⟨nofun, fun h => absurd htwo h.1⟩
  · -- the first byte is no `\\r`
    have htake : (buff.drop k).take 2 ≠ [13, 10] := by
      by_cases hone : len = -1
      · have hkd : k = (dollar :: ds).length + 1 := by
          rw [List.length_cons]
          omega
        rw [hline, hkd, ← List.drop_drop, List.drop_left, List.drop_one, List.tail_cons, List.take_succ_cons]
        intro heq
        exact absurd (List.cons.inj heq).1 (by decide)
      · have hlt : k < (dollar :: ds).length := by
          rw [List.length_cons]
          omega
        rw [hline, List.drop_append_of_le_length hlt.le, List.drop_eq_getElem_cons hlt, List.cons_append,
          List.take_succ_cons]
        intro heq
        have hmem := List.getElem_mem hlt
        rw [(List.cons.inj heq).1] at hmem
        rcases hmem with _ | ⟨_, hmem⟩
        exact hds hmem
    rw [if_pos htake]
    exact ⟨fun _ => ⟨htwo, by omega⟩, fun _ => ⟨_, rfl⟩⟩

/-! ## Fields -/

/-- Some strings are there, and this behind them. -/
inductive Behind : ℕ → Bytes → Bytes → Prop
  | zero (b : Bytes) : Behind 0 b b
  | succ {k n : ℕ} {b rest b' : Bytes} (hread : readRdsLen dollar b = .ok n rest) (hlen : n + 2 ≤ rest.length)
      (hend : (rest.drop n).take 2 = [13, 10]) (h : Behind k (rest.drop (n + 2)) b') : Behind (k + 1) b b'

/-- The length that begins a string, if its line is there, is as an `int` not -2, and does not
    point in front of the buffer. -/
def LenOk (b : Bytes) : Prop :=
  ∀ len rest, readRdsLen dollar b = .ok len rest → len ≠ -2 ∧ 0 ≤ ((b.length - rest.length : ℕ) : ℤ) + len

/-- All lengths of the strings that are still to come, as far as they are there. -/
def LensOk (left : ℕ) (b : Bytes) : Prop := ∀ k < left, ∀ b', Behind k b b' → LenOk b'

/-- The lengths are harmless: the first, and those behind the string it announces. -/
theorem lensOk_succ (left : ℕ) (b : Bytes) :
    LensOk (left + 1) b ↔ LenOk b ∧ ∀ (n : ℕ) (rest : Bytes), readRdsLen dollar b = .ok n rest →
      n + 2 ≤ rest.length → (rest.drop n).take 2 = [13, 10] → LensOk left (rest.drop (n + 2)) := by
  constructor
  · intro h
    refine ⟨h 0 (Nat.succ_pos left) b (.zero b), fun n rest hread hlen hend k hk b' hb => ?_⟩
    exact h (k + 1) (Nat.succ_lt_succ hk) b' (.succ hread hlen hend hb)
  · rintro ⟨h0, hs⟩ k hk b' hb
    cases hb with
    | zero => exact h0
    | @succ k n _ rest _ hread hlen hend hb => exact hs n rest hread hlen hend k (Nat.lt_of_succ_lt_succ hk) b' hb

/-- Where there is no length, none is asked for anything. -/
theorem lensOk_of_none {left : ℕ} {b : Bytes} (h : ∀ len rest, readRdsLen dollar b ≠ .ok len rest) :
    LensOk (left + 1) b := by
  rw [lensOk_succ]
  exact ⟨fun len rest hread => absurd hread (h len rest),
    fun n rest hread => absurd hread (h n rest)⟩

/-- `read_param_content` returns if and only if no length stops it. -/
theorem readParamContent_returns_iff (left : ℕ) (buff : Bytes) (arr : List Bytes) :
    (∃ r, readParamContent left buff arr = .ok r) ↔ LensOk left buff := by
  induction left generalizing buff arr with
  | zero => exact ⟨fun _ k hk => absurd hk (Nat.not_lt_zero k), fun _ => ⟨_, rfl⟩⟩
  | succ left ih =>
    rw [readParamContent]
    by_cases hnil : buff = []
    · rw [if_pos hnil]
      refine ⟨fun _ => lensOk_of_none fun len rest h => ?_, fun _ => ⟨_, rfl⟩⟩
      rw [hnil] at h
      cases h
    rw [if_neg hnil]
    cases hread : readRdsLen dollar buff with
    | fail =>
      refine ⟨fun _ => lensOk_of_none fun len rest h => ?_, fun _ => ⟨_, rfl⟩⟩
      rw [hread] at h
      cases h
    | more =>
      refine ⟨fun _ => lensOk_of_none fun len rest h => ?_, fun _ => ⟨_, rfl⟩⟩
      rw [hread] at h
      cases h
    | ok len rest =>
      rw [lensOk_succ]
      unfold LenOk
      rw [hread]
      obtain ⟨ds, -, hbuff⟩ := readRdsLen_shape hread
      have hoff : 3 ≤ buff.length - rest.length := by
        rw [hbuff]
        simp only [List.length_cons, List.length_append]
        omega
      have hlen : (∀ l r, LenRet.ok len rest = .ok l r → l ≠ -2 ∧ 0 ≤ ((buff.length - r.length : ℕ) : ℤ) + l) ↔
          len ≠ -2 ∧ 0 ≤ ((buff.length - rest.length : ℕ) : ℤ) + len :=
        ⟨fun h => h len rest rfl, fun h l r hr => by cases hr; exact h⟩
      rw [hlen]
      dsimp only
      by_cases hshort : (rest.length : ℤ) < len + 2
      · -- then the length is -1 at least
        rw [if_pos hshort]
        refine ⟨fun _ => ⟨⟨by omega, by omega⟩, fun n r hr hle => ?_⟩, fun _ => ⟨_, rfl⟩⟩
        cases hr
        omega
      rw [if_neg hshort]
      by_cases hneg : len < 0
      · rw [if_pos hneg, negativeLen_returns_iff hread hneg]
        refine ⟨fun h => ⟨h, fun n r hr => ?_⟩, fun h => h.1⟩
        cases hr
        omega
      obtain ⟨n, rfl⟩ := Int.eq_ofNat_of_zero_le (not_lt.mp hneg)
      rw [if_neg hneg, Int.toNat_natCast]
      by_cases hend : (rest.drop n).take 2 = [13, 10]
      · rw [if_neg (not_not.mpr hend), ih]
        refine ⟨fun h => ⟨⟨by omega, by omega⟩, fun m r hr _ _ => ?_⟩, fun h => h.2 n rest rfl (by omega) hend⟩
        cases hr
        exact h
      · rw [if_pos hend]
        refine ⟨fun _ => ⟨⟨by omega, by omega⟩, fun m r hr _ hcr => ?_⟩, fun _ => ⟨_, rfl⟩⟩
        cases hr
        exact absurd hcr hend

/-! ## A call -/

/-- What holds of a decoder as long as no call has returned an error. -/
structure Decoder.Sound (rds : Decoder) : Prop where
  spot : ∃ s, rds.At s
  maxsize : rds.maxsize ≤ 512 * 1024

/-- A sound decoder has met no error. -/
theorem Decoder.Sound.state {rds : Decoder} (h : rds.Sound) : rds.state ≠ .err := by
  obtain ⟨s, hs⟩ := h.spot
  exact hs.state_ne_err

/-- A sound decoder in a message waits for a parameter. -/
theorem Decoder.Sound.run {rds : Decoder} (h : rds.Sound) (hrun : rds.state = .run) :
    rds.resArr.length < rds.resCount := by
  obtain ⟨s, -, harr, ⟨hnew, -⟩ | ⟨-, hcount, hlt⟩⟩ := h.spot
  · rw [hrun] at hnew
    cases hnew
  · rw [harr, hcount]
    exact hlt

/-- A sound decoder between messages holds no parameter. -/
theorem Decoder.Sound.new {rds : Decoder} (h : rds.Sound) (hnew : rds.state = .new) :
    rds.resArr = [] := by
  obtain ⟨s, -, harr, ⟨-, -, hnil⟩ | ⟨hrun, -⟩⟩ := h.spot
  · rw [harr, hnil]
  · rw [hnew] at hrun
    cases hrun

/-- More bytes and more room keep a decoder sound. -/
theorem Decoder.Sound.cache {rds : Decoder} (h : rds.Sound) (chunk : Bytes) {size : ℕ}
    (hsize : size ≤ 512 * 1024) :
    Decoder.Sound { rds with maxsize := size, buff := rds.buff ++ chunk } := by
  obtain ⟨s, hs⟩ := h.spot
  exact ⟨⟨s.more chunk, congrArg (· ++ chunk) hs.buff, hs.arr, hs.count⟩, hsize⟩

/-- The fields in the buffer do no harm: the number of strings, if it is expected and its line is
    there, is as an `int` 1 at least, with memory for so many, and neither do the lengths. -/
def FieldsOk (room : ℕ → Bool) (rds : Decoder) (b : Bytes) : Prop :=
  if rds.state = .run then LensOk (rds.resCount - rds.resArr.length) b
  else ∀ count rest, readRdsLen star b = .ok count rest →
    1 ≤ count ∧ room count.toNat = true ∧ LensOk count.toNat rest

/-- Bytes that do no harm: there are not too many, and if they are not turned down for being more
    than 512 KiB, the fields in them do none. -/
structure Harmless (room : ℕ → Bool) (rds : Decoder) (chunk : Bytes) : Prop where
  size : chunk ≠ [] → rds.buff.length + chunk.length ≤ 2 ^ 23
  fields : chunk = [] ∨ rds.buff.length + chunk.length ≤ 512 * 1024 → FieldsOk room rds (rds.buff ++ chunk)

/-- Reading parameters returns exactly where the lengths are harmless. -/
theorem decodeParams_returns_iff {rds : Decoder} (h : rds.resArr.length < rds.resCount) :
    (∃ r, decodeParams rds = .ok r) ↔ LensOk (rds.resCount - rds.resArr.length) rds.buff := by
  rw [← readParamContent_returns_iff _ rds.buff rds.resArr]
  unfold decodeParams
  rw [if_neg (by omega)]
  cases readParamContent (rds.resCount - rds.resArr.length) rds.buff rds.resArr with
  | error e => exact ⟨nofun, nofun⟩
  | ok ret => cases ret <;> exact ⟨fun _ => ⟨_, rfl⟩, fun _ => ⟨_, rfl⟩⟩

/-- Decoding the buffer returns exactly where its fields are. -/
theorem decodeBuffIn_returns_iff (room : ℕ → Bool) {rds : Decoder} (h : rds.Sound) :
    (∃ r, decodeBuffIn room rds = .ok r) ↔ FieldsOk room rds rds.buff := by
  unfold decodeBuffIn FieldsOk
  by_cases hnil : rds.buff = []
  · rw [if_pos hnil, hnil]
    refine ⟨fun _ => ?_, fun _ => ⟨_, rfl⟩⟩
    split
    · rw [← readParamContent_returns_iff _ [] []]
      cases rds.resCount - rds.resArr.length <;> exact ⟨_, rfl⟩
    · exact nofun
  rw [if_neg hnil]
  cases hs : rds.state with
  | err => exact absurd hs h.state
  | run => exact decodeParams_returns_iff (h.run hs)
  | new =>
    rw [if_neg nofun]
    dsimp only
    cases readRdsLen star rds.buff with
    | fail => exact ⟨fun _ => nofun, fun _ => ⟨_, rfl⟩⟩
    | more => exact ⟨fun _ => nofun, fun _ => ⟨_, rfl⟩⟩
    | ok count rest =>
      have hfield : (∀ c r, LenRet.ok count rest = .ok c r → 1 ≤ c ∧ room c.toNat = true ∧ LensOk c.toNat r) ↔
          1 ≤ count ∧ room count.toNat = true ∧ LensOk count.toNat rest :=
        ⟨fun h => h count rest rfl, fun h c r hr => by cases hr; exact h⟩
      rw [hfield]
      dsimp only
      by_cases hpos : count ≤ 0
      · rw [if_pos hpos]
        exact ⟨nofun, fun h => absurd h.1 (by omega)⟩
      rw [if_neg hpos]
      by_cases hroom : room count.toNat = true
      · have hlt : rds.resArr.length < count.toNat := by
          rw [h.new hs, List.length_nil]
          omega
        rw [if_pos hroom, decodeParams_returns_iff hlt, h.new hs, List.length_nil, Nat.sub_zero]
        exact ⟨fun h => ⟨by omega, hroom, h⟩, fun h => h.2.2⟩
      · rw [if_neg hroom]
        exact ⟨nofun, fun h => absurd h.2.1 hroom⟩

/-- The size cannot be adjusted from a bound on. -/
theorem adjustSize_eq_none_iff (n : ℕ) : adjustSize n = none ↔ 2 ^ 23 < n := by
  unfold adjustSize
  rw [List.find?_eq_none]
  constructor
  · intro h
    have := h (2 ^ 23) (List.mem_map.mpr ⟨23, List.mem_range.mpr (by omega), rfl⟩)
    simpa using this
  · intro h x hx
    obtain ⟨k, hk, rfl⟩ := List.mem_map.mp hx
    have hpow : 2 ^ k ≤ 2 ^ 23 := Nat.pow_le_pow_right (by omega) (by have := List.mem_range.mp hk; omega)
    simp only [decide_eq_true_eq]
    omega

/-- The three things that buffering bytes does. -/
theorem rdsCache_cases {rds : Decoder} (h : rds.maxsize ≤ 512 * 1024) (s : Bytes) :
    (rds.buff.length + s.length ≤ 512 * 1024 → ∃ size ≤ 512 * 1024,
      rdsCache rds s = .ok (true, { rds with maxsize := size, buff := rds.buff ++ s })) ∧
    (512 * 1024 < rds.buff.length + s.length → rds.buff.length + s.length ≤ 2 ^ 23 →
      ∃ rds', rdsCache rds s = .ok (false, rds')) ∧
    (2 ^ 23 < rds.buff.length + s.length → rdsCache rds s = .error .bugOn) := by
  refine ⟨fun hle => ?_, ?_⟩
  · obtain ⟨size, hsize, hcache⟩ := rdsCache_ok hle
    exact ⟨size, hsize.trans (max_le h le_rfl), hcache⟩
  -- what is too much for 512 KiB is too much for the buffer that there is
  obtain ⟨room, hroom, hmax⟩ : ∃ room ≤ 512 * 1024,
      (if rds.maxsize = 0 then { rds with maxsize := 32 * 1024 } else rds) = { rds with maxsize := room } := by
    by_cases h0 : rds.maxsize = 0
    · exact ⟨32 * 1024, by omega, if_pos h0⟩
    · exact ⟨rds.maxsize, h, if_neg h0⟩
  unfold rdsCache
  rw [hmax]
  dsimp only
  refine ⟨fun hlt hle => ?_, fun hlt => ?_⟩
  · rw [if_neg (by omega)]
    cases hadj : adjustSize (rds.buff.length + s.length) with
    | none =>
      have := (adjustSize_eq_none_iff _).mp hadj
      omega
    | some size =>
      have hsize : rds.buff.length + s.length ≤ size := by
        unfold adjustSize at hadj
        simpa using List.find?_some hadj
      dsimp only
      rw [if_pos (by omega)]
      exact ⟨_, rfl⟩
  · rw [if_neg (by omega), (adjustSize_eq_none_iff _).mpr hlt]

/-- A call returns if and only if its bytes do no harm. -/
theorem rdsDecodeIn_returns_iff (room : ℕ → Bool) {rds : Decoder} (h : rds.Sound) (chunk : Bytes) :
    (∃ r, rdsDecodeIn room rds chunk = .ok r) ↔ Harmless room rds chunk := by
  have hharm : Harmless room rds chunk ↔ (chunk ≠ [] → rds.buff.length + chunk.length ≤ 2 ^ 23) ∧
      (chunk = [] ∨ rds.buff.length + chunk.length ≤ 512 * 1024 → FieldsOk room rds (rds.buff ++ chunk)) :=
    ⟨fun h => ⟨h.size, h.fields⟩, fun h => ⟨h.1, h.2⟩⟩
  rw [hharm]
  unfold rdsDecodeIn
  rw [if_neg h.state]
  by_cases hnil : chunk = []
  · rw [if_pos hnil, hnil, List.append_nil, decodeBuffIn_returns_iff room h]
    exact ⟨fun hf => ⟨fun hne => absurd rfl hne, fun _ => hf⟩, fun hf => hf.2 (.inl rfl)⟩
  rw [if_neg hnil]
  obtain ⟨hfit, hlarge, hhuge⟩ := rdsCache_cases h.maxsize chunk
  by_cases hle : rds.buff.length + chunk.length ≤ 512 * 1024
  · obtain ⟨size, hsize, hcache⟩ := hfit hle
    rw [hcache]
    dsimp only
    rw [decodeBuffIn_returns_iff room (h.cache chunk hsize)]
    exact ⟨fun hf => ⟨fun _ => by omega, fun _ => hf⟩, fun hf => hf.2 (.inr hle)⟩
  · by_cases hmid : rds.buff.length + chunk.length ≤ 2 ^ 23
    · obtain ⟨rds', hcache⟩ := hlarge (by omega) hmid
      rw [hcache]
      exact ⟨fun _ => ⟨fun _ => hmid, fun hor => absurd hor (by simp [hnil, hle])⟩, fun _ => ⟨_, rfl⟩⟩
    · rw [hhuge (by omega)]
      exact ⟨nofun, fun hf => absurd (hf.1 hnil) hmid⟩

/-! ## A run -/

/-- What returns with any allocation returns without failures of it. -/
theorem decodeBuffIn_ok {room : ℕ → Bool} {rds : Decoder} {r : DecodeRet × Decoder}
    (h : decodeBuffIn room rds = .ok r) : decodeBuff rds = .ok r := by
  unfold decodeBuffIn at h
  unfold decodeBuff
  split at h
  next hnil =>
    rw [if_pos hnil]
    exact h
  next hnil =>
    rw [if_neg hnil]
    cases hs : rds.state with
    | err =>
      rw [hs] at h
      cases h
    | run =>
      rw [hs] at h
      exact h
    | new =>
      rw [hs] at h
      dsimp only at h ⊢
      cases hread : readRdsLen star rds.buff with
      | fail =>
        rw [hread] at h
        exact h
      | more =>
        rw [hread] at h
        exact h
      | ok count rest =>
        rw [hread] at h
        dsimp only at h ⊢
        split at h
        · cases h
        next hpos =>
          rw [if_neg hpos]
          split at h
          · exact h
          · cases h

/-- Reading parameters does not grow the buffer. -/
theorem decodeParams_maxsize_le {rds rds' : Decoder} {r : DecodeRet}
    (h : decodeParams rds = .ok (r, rds')) :
    rds'.maxsize ≤ rds.maxsize := by
  unfold decodeParams at h
  split at h
  · cases h
  · split at h
    · cases h
    · cases h
      exact le_rfl
    · cases h
      exact le_rfl
    · cases h
      split
      · exact min_le_left _ _
      · exact le_rfl

/-- Decoding does not grow the buffer. -/
theorem decodeBuff_maxsize_le {rds rds' : Decoder} {r : DecodeRet}
    (h : decodeBuff rds = .ok (r, rds')) :
    rds'.maxsize ≤ rds.maxsize := by
  unfold decodeBuff at h
  split at h
  · cases h
    exact le_rfl
  · split at h
    · cases h
    · exact decodeParams_maxsize_le h
    · split at h
      · cases h
        exact le_rfl
      · cases h
        exact le_rfl
      · split at h
        · cases h
        · exact (decodeParams_maxsize_le h :)

/-- Decoding without a failure keeps the decoder sound. -/
theorem decodeBuff_sound {rds rds' : Decoder} {r : DecodeRet} (hs : rds.Sound)
    (h : decodeBuff rds = .ok (r, rds'))
    (hr : r ≠ .fail) : rds'.Sound := by
  obtain ⟨s, hat⟩ := hs.spot
  obtain ⟨t, -, hends⟩ := decodeBuff_reaches hat
  rw [h] at hends
  refine ⟨?_, (decodeBuff_maxsize_le h).trans hs.maxsize⟩
  cases r with
  | fail => exact absurd rfl hr
  | more => exact ⟨t, hends.2⟩
  | done m =>
    obtain ⟨u, -, hu⟩ := hends
    exact ⟨u, hu⟩

/-- A call without a failure keeps the decoder sound. -/
theorem rdsDecodeIn_sound {room : ℕ → Bool} {rds rds' : Decoder} {chunk : Bytes} {r : DecodeRet} (hs : rds.Sound)
    (h : rdsDecodeIn room rds chunk = .ok (r, rds')) (hr : r ≠ .fail) : rds'.Sound := by
  unfold rdsDecodeIn at h
  rw [if_neg hs.state] at h
  split at h
  · exact decodeBuff_sound hs (decodeBuffIn_ok h) hr
  · obtain ⟨hfit, hlarge, hhuge⟩ := rdsCache_cases hs.maxsize chunk
    by_cases hle : rds.buff.length + chunk.length ≤ 512 * 1024
    · obtain ⟨size, hsize, hcache⟩ := hfit hle
      rw [hcache] at h
      exact decodeBuff_sound (hs.cache chunk hsize) (decodeBuffIn_ok h) hr
    · by_cases hmid : rds.buff.length + chunk.length ≤ 2 ^ 23
      · obtain ⟨rds₁, hcache⟩ := hlarge (by omega) hmid
        rw [hcache] at h
        cases h
        exact absurd rfl hr
      · rw [hhuge (by omega)] at h
        cases h

/-- Each call returns, up to the first that returns an error; a call comes with the memory there
    is at the time. -/
def Returns : Decoder → List ((ℕ → Bool) × Bytes) → Prop
  | _, [] => True
  | rds, (room, chunk) :: calls =>
    ∃ r rds', rdsDecodeIn room rds chunk = .ok (r, rds') ∧ (r ≠ .fail → Returns rds' calls)

/-- The bytes of each call do no harm, up to the first that returns an error. -/
def AllHarmless : Decoder → List ((ℕ → Bool) × Bytes) → Prop
  | _, [] => True
  | rds, (room, chunk) :: calls =>
    Harmless room rds chunk ∧
      ∀ r rds', rdsDecodeIn room rds chunk = .ok (r, rds') → r ≠ .fail → AllHarmless rds' calls

/-- A sequence of calls returns exactly where each is harmless. -/
theorem Decoder.Sound.returns_iff {rds : Decoder} (h : rds.Sound)
    (calls : List ((ℕ → Bool) × Bytes)) :
    Returns rds calls ↔ AllHarmless rds calls := by
  induction calls generalizing rds with
  | nil => exact Iff.rfl
  | cons call calls ih =>
    obtain ⟨room, chunk⟩ := call
    unfold Returns AllHarmless
    constructor
    · rintro ⟨r, rds', hcall, hrest⟩
      refine ⟨(rdsDecodeIn_returns_iff room h chunk).mp ⟨_, hcall⟩, fun r' rds'' hcall' hr => ?_⟩
      rw [hcall] at hcall'
      cases hcall'
      exact (ih (rdsDecodeIn_sound h hcall hr)).mp (hrest hr)
    · rintro ⟨hharm, hrest⟩
      obtain ⟨⟨r, rds'⟩, hcall⟩ := (rdsDecodeIn_returns_iff room h chunk).mpr hharm
      exact ⟨r, rds', hcall, fun hr => (ih (rdsDecodeIn_sound h hcall hr)).mpr (hrest r rds' hcall hr)⟩

/-- A new decoder returns from all calls if and only if no bytes do harm. -/
theorem rdsNew_returns_iff (calls : List ((ℕ → Bool) × Bytes)) :
    Returns rdsNew calls ↔ AllHarmless rdsNew calls :=
  Decoder.Sound.returns_iff ⟨⟨⟨0, [], []⟩, rfl, rfl, .inl ⟨rfl, rfl, rfl⟩⟩, Nat.zero_le _⟩ calls

/-- An array of no strings ends the process, in one call of four bytes. -/
theorem no_strings_bugOn : rdsDecodeIn (fun _ => true) rdsNew [42, 48, 13, 10] = .error .bugOn ∧
    ¬ Returns rdsNew [(fun _ => true, [42, 48, 13, 10])] := by
  have hstop : rdsDecodeIn (fun _ => true) rdsNew [42, 48, 13, 10] = .error .bugOn := by decide +kernel
  refine ⟨hstop, ?_⟩
  rintro ⟨r, rds', hcall, -⟩
  rw [hstop] at hcall
  cases hcall

end Rds
