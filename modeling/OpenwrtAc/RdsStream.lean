/-
# Bytes that may not be messages

A decoder reads one number after the other, each with the string behind it.  What it does
with a number does not depend on the bytes that come later, so that the messages it gives,
and whether it runs into an error behind them, are those of the whole stream.
-/
import OpenwrtAc.CString
import OpenwrtAc.RdsTail
import Mathlib.Logic.Relation

open CString MachineInt

namespace Rds

/-! ## One number after the other -/

/-- Where a decoder is: how many strings the message has, with 0 between two messages, those it
    has read, and the bytes in front of it. -/
structure Spot where
  count : ℕ
  arr : List Bytes
  buff : Bytes
deriving DecidableEq, Repr

/-- What it does there: it waits, returns an error, does not return, reads on, or has read a
    message. -/
inductive Move where
  | starved
  | failed
  | stopped (e : Stop)
  | next (s : Spot)
  | give (m : List Bytes) (s : Spot)
deriving DecidableEq, Repr

/-- The number of strings of a message. -/
def Spot.readCount (s : Spot) : Move :=
  match readRdsLen star s.buff with
  | .fail => .failed
  | .more => .starved
  | .ok count rest => if count ≤ 0 then .stopped .bugOn else .next ⟨count.toNat, [], rest⟩

/-- A string of a message, with its length. -/
def Spot.readString (s : Spot) : Move :=
  match readRdsLen dollar s.buff with
  | .fail => .failed
  | .more => .starved
  | .ok len rest =>
    if (rest.length : ℤ) < len + 2 then .starved
    else if len < 0 then
      match negativeLen s.buff (s.buff.length - rest.length) len with
      | .error e => .stopped e
      | .ok _ => .failed
    else if (rest.drop len.toNat).take 2 ≠ [13, 10] then .failed
    else
      let arr := s.arr ++ [rest.take len.toNat]
      if arr.length < s.count then .next ⟨s.count, arr, rest.drop (len.toNat + 2)⟩
      else .give arr ⟨0, [], rest.drop (len.toNat + 2)⟩

def Spot.move (s : Spot) : Move :=
  if s.buff = [] then .starved else if s.count = 0 then s.readCount else s.readString

/-- With other bytes behind those that are there. -/
def Spot.more (s : Spot) (later : Bytes) : Spot := { s with buff := s.buff ++ later }

def Move.more (later : Bytes) : Move → Move
  | .starved => .starved
  | .failed => .failed
  | .stopped e => .stopped e
  | .next s => .next (s.more later)
  | .give m s => .give m (s.more later)

@[simp] theorem Spot.more_nil (s : Spot) : s.more [] = s := by simp [Spot.more]

@[simp] theorem Spot.more_more (s : Spot) (a b : Bytes) : (s.more a).more b = s.more (a ++ b) := by
  simp [Spot.more]

/-! ## Bytes that come later -/

/-- More bytes do not change a number that was read, nor a failure. -/
theorem readDigits_append {buff : Bytes} {c : ℤ} (later : Bytes) :
    (readDigits buff c = .fail → readDigits (buff ++ later) c = .fail) ∧
    ∀ n rest, readDigits buff c = .ok n rest → readDigits (buff ++ later) c = .ok n (rest ++ later) := by
  induction buff generalizing c with
  | nil => exact ⟨fun h => (by cases h), fun n rest h => by cases h⟩
  | cons x buff ih =>
    cases buff with
    | nil => exact ⟨fun h => (by cases h), fun n rest h => by cases h⟩
    | cons y buff =>
      rw [List.cons_append, List.cons_append, readDigits, readDigits]
      split
      · split
        · exact ⟨fun _ => rfl, fun n rest h => by cases h⟩
        · exact ⟨fun h => (by cases h), fun n rest h => by cases h; rfl⟩
      · split
        · exact ⟨fun _ => rfl, fun n rest h => by cases h⟩
        · exact ih

/-- More bytes do not change a length that was read, nor a failure. -/
theorem readRdsLen_append (mark : UInt8) (buff later : Bytes) :
    (readRdsLen mark buff = .fail → readRdsLen mark (buff ++ later) = .fail) ∧
    ∀ n rest, readRdsLen mark buff = .ok n rest → readRdsLen mark (buff ++ later) = .ok n (rest ++ later) := by
  cases buff with
  | nil => exact ⟨fun h => (by cases h), fun n rest h => by cases h⟩
  | cons x buff =>
    rw [List.cons_append, readRdsLen, readRdsLen]
    split
    · exact readDigits_append later
    · exact ⟨fun _ => rfl, fun n rest h => by cases h⟩

/-- A negative length is judged by the bytes that are there. -/
theorem negativeLen_append {buff : Bytes} {off : ℕ} {len : ℤ} (later : Bytes)
    (h : off + len + 2 ≤ buff.length) :
    negativeLen (buff ++ later) off len = negativeLen buff off len := by
  unfold negativeLen
  by_cases hlow : off + len < 0
  · rw [if_pos hlow, if_pos hlow]
  · rw [if_neg hlow, if_neg hlow, List.drop_append_of_le_length (by omega),
      List.take_append_of_le_length (by rw [List.length_drop]; omega)]

/-- More bytes do not change a count that was read. -/
theorem Spot.readCount_more {s : Spot} (h : s.readCount ≠ .starved) (later : Bytes) :
    (s.more later).readCount = s.readCount.more later := by
  unfold Spot.readCount at h ⊢
  obtain ⟨hfail, hok⟩ := readRdsLen_append star s.buff later
  cases hread : readRdsLen star s.buff with
  | fail => simp only [Spot.more, hfail hread, Move.more]
  | more => exact absurd (by rw [hread]) h
  | ok n rest =>
    simp only [Spot.more, hok n rest hread]
    split <;> rfl

/-- More bytes do not change a string that was read. -/
theorem Spot.readString_more {s : Spot} (h : s.readString ≠ .starved) (later : Bytes) :
    (s.more later).readString = s.readString.more later := by
  obtain ⟨count, arr, buff⟩ := s
  change Spot.readString ⟨count, arr, buff ++ later⟩ = _
  unfold Spot.readString at h ⊢
  dsimp only at h ⊢
  obtain ⟨hfail, hok⟩ := readRdsLen_append dollar buff later
  cases hread : readRdsLen dollar buff with
  | fail => simp only [hfail hread, Move.more]
  | more => exact absurd (by rw [hread]) h
  | ok len rest =>
    have hlen := readRdsLen_length hread
    simp only [hok len rest hread, hread] at h ⊢
    by_cases hshort : (rest.length : ℤ) < len + 2
    · exact absurd (if_pos hshort) h
    rw [if_neg hshort, if_neg (by rw [List.length_append]; omega)]
    by_cases hneg : len < 0
    · have hoff : (buff ++ later).length - (rest ++ later).length = buff.length - rest.length := by
        rw [List.length_append, List.length_append]
        omega
      rw [if_pos hneg, if_pos hneg, hoff, negativeLen_append later (by omega)]
      cases negativeLen buff (buff.length - rest.length) len <;> rfl
    · obtain ⟨n, rfl⟩ := Int.eq_ofNat_of_zero_le (not_lt.mp hneg)
      rw [if_neg hneg, if_neg hneg, Int.toNat_natCast, List.drop_append_of_le_length (by omega),
        List.take_append_of_le_length (by rw [List.length_drop]; omega),
        List.take_append_of_le_length (by omega), List.drop_append_of_le_length (by omega)]
      split
      · rfl
      · split <;> rfl

/-- What a decoder does does not depend on the bytes that come later, unless it waits for them. -/
theorem Spot.move_more {s : Spot} (h : s.move ≠ .starved) (later : Bytes) :
    (s.more later).move = s.move.more later := by
  unfold Spot.move at h ⊢
  by_cases hbuff : s.buff = []
  · exact absurd (if_pos hbuff) h
  rw [if_neg hbuff] at h ⊢
  rw [if_neg (by simp [Spot.more, hbuff] : (s.more later).buff ≠ [])]
  by_cases hcount : s.count = 0
  · rw [if_pos hcount] at h ⊢
    rw [if_pos (show (s.more later).count = 0 from hcount)]
    exact Spot.readCount_more h later
  · rw [if_neg hcount] at h ⊢
    rw [if_neg (show (s.more later).count ≠ 0 from hcount)]
    exact Spot.readString_more h later

/-! ## A call -/

/-- A spot is reached without a message. -/
def Reaches : Spot → Spot → Prop := Relation.ReflTransGen fun s t => s.move = .next t

/-- What is reached is reached with more bytes behind it. -/
theorem Reaches.more {s t : Spot} (h : Reaches s t) (later : Bytes) :
    Reaches (s.more later) (t.more later) := by
  induction h with
  | refl => exact .refl
  | tail _ hmove ih =>
    refine ih.tail ?_
    rw [Spot.move_more (by rw [hmove]; exact nofun), hmove]
    rfl

/-- A string is one more of the message, and the last one makes it whole. -/
theorem Spot.move_string {s : Spot} (hcount : s.count ≠ 0) :
    (∀ t, s.move = .next t → t.count = s.count ∧ t.arr.length = s.arr.length + 1 ∧ t.arr.length < t.count) ∧
    ∀ m t, s.move = .give m t → t = ⟨0, [], t.buff⟩ ∧ s.count ≤ s.arr.length + 1 := by
  unfold Spot.move Spot.readString
  rw [if_neg hcount]
  split
  · exact ⟨nofun, nofun⟩
  · split
    · exact ⟨nofun, nofun⟩
    · exact ⟨nofun, nofun⟩
    · split
      · exact ⟨nofun, nofun⟩
      · split
        · split <;> exact ⟨nofun, nofun⟩
        · split
          · exact ⟨nofun, nofun⟩
          · dsimp only
            split
            next hlt =>
              refine ⟨fun t h => ?_, nofun⟩
              cases h
              exact ⟨rfl, by simp, hlt⟩
            next hlast =>
              refine ⟨nofun, fun m t h => ?_⟩
              cases h
              rw [List.length_append, List.length_singleton] at hlast
              exact ⟨rfl, by omega⟩

/-- The loop of `read_param_content` moves on from string to string. -/
theorem readParamContent_move {s : Spot} (hcount : s.count ≠ 0) (left : ℕ) :
    readParamContent (left + 1) s.buff s.arr =
      match s.move with
      | .starved => .ok (.more s.buff s.arr)
      | .failed => .ok .fail
      | .stopped e => .error e
      | .next t => readParamContent left t.buff t.arr
      | .give m t => readParamContent left t.buff m := by
  rw [readParamContent]
  unfold Spot.move
  by_cases hbuff : s.buff = []
  · rw [if_pos hbuff, if_pos hbuff]
  rw [if_neg hbuff, if_neg hbuff, if_neg hcount]
  unfold Spot.readString
  cases readRdsLen dollar s.buff with
  | fail => rfl
  | more => rfl
  | ok len rest =>
    dsimp only
    split
    · rfl
    · split
      · -- a negative length ends in one way or another
        obtain hneg | ⟨e, hneg⟩ := negativeLen_cases s.buff (s.buff.length - rest.length) len <;> rw [hneg]
      · split
        · rfl
        · by_cases hlt : (s.arr ++ [rest.take len.toNat]).length < s.count
          · rw [if_pos hlt]
          · rw [if_neg hlt]

/-- The strings of a message, one after the other. -/
theorem readParamContent_reaches {left : ℕ} {s : Spot}
    (hcount : s.arr.length + (left + 1) = s.count) :
    ∃ t, Reaches s t ∧
      match readParamContent (left + 1) s.buff s.arr with
      | .error e => t.move = .stopped e
      | .ok .fail => t.move = .failed
      | .ok (.more b a) => t.move = .starved ∧ t = ⟨s.count, a, b⟩ ∧ a.length < s.count
      | .ok (.done b a) => t.move = .give a ⟨0, [], b⟩ := by
  induction left generalizing s with
  | zero =>
    obtain ⟨hnext, hgive⟩ := Spot.move_string (show s.count ≠ 0 by omega)
    rw [readParamContent_move (by omega)]
    refine ⟨s, .refl, ?_⟩
    cases hmove : s.move with
    | starved => exact ⟨rfl, rfl, by omega⟩
    | failed => rfl
    | stopped e => rfl
    | next t =>
      obtain ⟨ht, hlen, hlt⟩ := hnext t hmove
      omega
    | give m t =>
      rw [(hgive m t hmove).1]
      rfl
  | succ left ih =>
    obtain ⟨hnext, hgive⟩ := Spot.move_string (show s.count ≠ 0 by omega)
    rw [readParamContent_move (by omega)]
    cases hmove : s.move with
    | starved => exact ⟨s, .refl, hmove, rfl, by omega⟩
    | failed => exact ⟨s, .refl, hmove⟩
    | stopped e => exact ⟨s, .refl, hmove⟩
    | next t =>
      obtain ⟨ht, hlen, hlt⟩ := hnext t hmove
      obtain ⟨u, hreach, hu⟩ := ih (s := t) (by omega)
      rw [ht] at hu
      exact ⟨u, .head hmove hreach, hu⟩
    | give m t =>
      have := (hgive m t hmove).2
      omega

/-- A decoder is at a spot. -/
structure Decoder.At (rds : Decoder) (s : Spot) : Prop where
  buff : rds.buff = s.buff
  arr : rds.resArr = s.arr
  count : (rds.state = .new ∧ s.count = 0 ∧ s.arr = []) ∨
    (rds.state = .run ∧ rds.resCount = s.count ∧ s.arr.length < s.count)

/-- A decoder at a spot has met no error. -/
theorem Decoder.At.state_ne_err {rds : Decoder} {s : Spot} (h : rds.At s) : rds.state ≠ .err := by
  obtain ⟨hs, -⟩ | ⟨hs, -⟩ := h.count <;> simp [hs]

/-- What a call that has buffered its bytes does at a spot it does at one that it reaches. -/
def Ends (t : Spot) : Except Stop (DecodeRet × Decoder) → Prop
  | .error e => t.move = .stopped e
  | .ok (.fail, _) => t.move = .failed
  | .ok (.more, rds) => t.move = .starved ∧ rds.At t
  | .ok (.done m, rds) => ∃ u, t.move = .give m u ∧ rds.At u

/-- Reading strings moves along the spots. -/
theorem decodeParams_reaches {rds : Decoder} {s : Spot} (h : rds.At s) (hrun : rds.state = .run) :
    ∃ t, Reaches s t ∧ Ends t (decodeParams rds) := by
  obtain ⟨hbuff, harr, ⟨hnew, -⟩ | ⟨-, hcount, hlt⟩⟩ := h
  · rw [hrun] at hnew
    cases hnew
  obtain ⟨left, hleft⟩ : ∃ left, s.count - s.arr.length = left + 1 := ⟨s.count - s.arr.length - 1, by omega⟩
  obtain ⟨t, hreach, ht⟩ := readParamContent_reaches (show s.arr.length + (left + 1) = s.count by omega)
  refine ⟨t, hreach, ?_⟩
  unfold decodeParams
  rw [hbuff, harr, hcount, if_neg (by omega), hleft]
  cases hread : readParamContent (left + 1) s.buff s.arr with
  | error e =>
    rw [hread] at ht
    exact ht
  | ok ret =>
    rw [hread] at ht
    cases ret with
    | fail => exact ht
    | more b a =>
      obtain ⟨hmove, rfl, ha⟩ := ht
      exact ⟨hmove, rfl, rfl, .inr ⟨hrun, rfl, ha⟩⟩
    | done b a =>
      refine ⟨_, ht, ?_⟩
      split <;> exact ⟨rfl, rfl, .inl ⟨rfl, rfl, rfl⟩⟩

/-- Decoding the buffer moves along the spots. -/
theorem decodeBuff_reaches {rds : Decoder} {s : Spot} (h : rds.At s) :
    ∃ t, Reaches s t ∧ Ends t (decodeBuff rds) := by
  unfold decodeBuff
  by_cases hnil : rds.buff = []
  · rw [if_pos hnil]
    refine ⟨s, .refl, ?_, h⟩
    unfold Spot.move
    rw [if_pos (h.buff ▸ hnil)]
  rw [if_neg hnil]
  obtain ⟨hnew, hcount, harr⟩ | ⟨hrun, -⟩ := h.count
  · have hmove : s.move = s.readCount := by
      unfold Spot.move
      rw [if_neg (h.buff ▸ hnil), if_pos hcount]
    unfold Spot.readCount at hmove
    simp only [hnew, h.buff]
    cases hread : readRdsLen star s.buff with
    | fail =>
      rw [hread] at hmove
      exact ⟨s, .refl, hmove⟩
    | more =>
      rw [hread] at hmove
      exact ⟨s, .refl, hmove, h⟩
    | ok count rest =>
      rw [hread] at hmove
      dsimp only at hmove ⊢
      by_cases hpos : count ≤ 0
      · rw [if_pos hpos] at hmove ⊢
        exact ⟨s, .refl, hmove⟩
      · rw [if_neg hpos] at hmove ⊢
        have hat : Decoder.At { rds with buff := rest, state := .run, resCount := count.toNat }
            ⟨count.toNat, [], rest⟩ :=
          ⟨rfl, h.arr.trans harr, .inr ⟨rfl, rfl, Int.pos_iff_toNat_pos.mp (not_le.mp hpos)⟩⟩
        obtain ⟨t, hreach, ht⟩ := decodeParams_reaches hat rfl
        exact ⟨t, .head hmove hreach, ht⟩
  · simp only [hrun]
    exact decodeParams_reaches h hrun

/-- A call of `rds_decode`, when there is room for its bytes. -/
theorem rdsDecode_reaches {rds : Decoder} {s : Spot} (h : rds.At s) (chunk : Bytes)
    (hroom : chunk ≠ [] → rds.buff.length + chunk.length ≤ 512 * 1024) :
    ∃ t, Reaches (s.more chunk) t ∧ Ends t (rdsDecode rds chunk) := by
  unfold rdsDecode
  rw [if_neg h.state_ne_err]
  by_cases hnil : chunk = []
  · rw [if_pos hnil, hnil, Spot.more_nil]
    exact decodeBuff_reaches h
  · obtain ⟨size, -, hcache⟩ := rdsCache_ok (hroom hnil)
    rw [if_neg hnil, hcache]
    exact decodeBuff_reaches (s := s.more chunk) ⟨congrArg (· ++ chunk) h.buff, h.arr, h.count⟩

/-! ## A stream -/

/-- What comes behind the messages. -/
inductive Final where
  | failed
  | starved
deriving DecidableEq, Repr

/-- The messages in front of a spot, and what comes behind them. -/
inductive Parses : Spot → List (List Bytes) → Final → Prop
  | starved {s : Spot} (h : s.move = .starved) : Parses s [] .starved
  | failed {s : Spot} (h : s.move = .failed) : Parses s [] .failed
  | next {s t : Spot} {ms : List (List Bytes)} {f : Final} (h : s.move = .next t) (ht : Parses t ms f) : Parses s ms f
  | give {s t : Spot} {m : List Bytes} {ms : List (List Bytes)} {f : Final} (h : s.move = .give m t)
      (ht : Parses t ms f) : Parses s (m :: ms) f

/-- A caller that has no more bytes calls until it is told that there are too few, or of an error;
    `none` is that it would have to go on. -/
def drain : ℕ → Decoder → List (List Bytes) → Except Stop (Option (List (List Bytes) × Final))
  | 0, _, _ => .ok none
  | fuel + 1, rds, res =>
    match rdsDecode rds [] with
    | .error e => .error e
    | .ok (.fail, _) => .ok (some (res, .failed))
    | .ok (.more, _) => .ok (some (res, .starved))
    | .ok (.done arr, rds) => drain fuel rds (res ++ [arr])

/-- A caller with a stream in pieces: a call for each, which may be empty, up to the first error,
    and the calls behind them.  A message takes bytes. -/
def calls : List Bytes → Decoder → List (List Bytes) → Except Stop (Option (List (List Bytes) × Final))
  | [], rds, res => drain (rds.buff.length + 1) rds res
  | chunk :: chunks, rds, res =>
    match rdsDecode rds chunk with
    | .error e => .error e
    | .ok (.fail, _) => .ok (some (res, .failed))
    | .ok (.more, rds) => calls chunks rds res
    | .ok (.done arr, rds) => calls chunks rds (res ++ [arr])

/-- The first move of a stream that is read. -/
theorem Parses.move {s : Spot} {ms : List (List Bytes)} {f : Final} (hp : Parses s ms f) :
    match s.move with
    | .starved => ms = [] ∧ f = .starved
    | .failed => ms = [] ∧ f = .failed
    | .stopped _ => False
    | .next t => Parses t ms f
    | .give m t => ∃ ms', ms = m :: ms' ∧ Parses t ms' f := by
  cases hp with
  | starved h =>
    rw [h]
    exact ⟨rfl, rfl⟩
  | failed h =>
    rw [h]
    exact ⟨rfl, rfl⟩
  | next h ht =>
    rw [h]
    exact ht
  | give h ht =>
    rw [h]
    exact ⟨_, rfl, ht⟩

/-- What is read from a spot is read from one that it reaches. -/
theorem Parses.of_reaches {s t : Spot} {ms : List (List Bytes)} {f : Final} (hp : Parses s ms f)
    (h : Reaches s t) :
    Parses t ms f := by
  induction h with
  | refl => exact hp
  | tail _ hmove ih =>
    have := ih.move
    rw [hmove] at this
    exact this

/-- Reading takes bytes. -/
theorem Spot.move_length {s : Spot} :
    (∀ t, s.move = .next t → t.buff.length < s.buff.length) ∧
    ∀ m t, s.move = .give m t → t.buff.length < s.buff.length := by
  unfold Spot.move
  split
  · exact ⟨nofun, nofun⟩
  split
  · unfold Spot.readCount
    split
    · exact ⟨nofun, nofun⟩
    · exact ⟨nofun, nofun⟩
    next count rest hread =>
      have hlt := readRdsLen_length hread
      split
      · exact ⟨nofun, nofun⟩
      · exact ⟨fun t h => by cases h; exact hlt, nofun⟩
  · unfold Spot.readString
    split
    · exact ⟨nofun, nofun⟩
    · exact ⟨nofun, nofun⟩
    next len rest hread =>
      have hlt := readRdsLen_length hread
      have hdrop : (rest.drop (len.toNat + 2)).length < s.buff.length := by
        rw [List.length_drop]
        omega
      split
      · exact ⟨nofun, nofun⟩
      split
      · split <;> exact ⟨nofun, nofun⟩
      split
      · exact ⟨nofun, nofun⟩
      · dsimp only
        split
        · exact ⟨fun t h => by cases h; exact hdrop, nofun⟩
        · exact ⟨nofun, fun m t h => by cases h; exact hdrop⟩

/-- The rest only gets shorter. -/
theorem Reaches.length {s t : Spot} (h : Reaches s t) : t.buff.length ≤ s.buff.length := by
  induction h with
  | refl => exact le_rfl
  | tail _ hmove ih => exact (Spot.move_length.1 _ hmove).le.trans ih

/-- A message that is returned was taken off the buffer. -/
theorem rdsDecode_nil_length {rds rds' : Decoder} {m : List Bytes}
    (h : rdsDecode rds [] = .ok (.done m, rds')) :
    rds'.buff.length < rds.buff.length := by
  unfold rdsDecode at h
  split at h
  · cases h
  · rw [if_pos rfl] at h
    exact decodeBuff_length h

/-- The calls behind the last piece give the messages that are left. -/
theorem drain_parses {fuel : ℕ} {rds : Decoder} {s : Spot} {ms : List (List Bytes)} {f : Final}
    (h : rds.At s)
    (hp : Parses s ms f) (hfuel : rds.buff.length < fuel) (res : List (List Bytes)) :
    drain fuel rds res = .ok (some (res ++ ms, f)) := by
  induction fuel generalizing rds s ms res with
  | zero => omega
  | succ fuel ih =>
    obtain ⟨t, hreach, hends⟩ := rdsDecode_reaches h [] (fun hne => absurd rfl hne)
    rw [Spot.more_nil] at hreach
    have hmove := (hp.of_reaches hreach).move
    rw [drain]
    rcases hcall : rdsDecode rds [] with e | ⟨_ | _ | m, rds'⟩
    all_goals rw [hcall] at hends
    · rw [show t.move = .stopped e from hends] at hmove
      exact hmove.elim
    · rw [show t.move = .failed from hends] at hmove
      obtain ⟨rfl, rfl⟩ := hmove
      rw [List.append_nil]
    · rw [hends.1] at hmove
      obtain ⟨rfl, rfl⟩ := hmove
      rw [List.append_nil]
    · obtain ⟨u, hu, hat⟩ := hends
      rw [hu] at hmove
      obtain ⟨ms', rfl, hpu⟩ := hmove
      have hlt := rdsDecode_nil_length hcall
      dsimp only
      rw [ih hat hpu (by omega), List.append_assoc]
      rfl

/-- Whatever is still to come in whatever pieces: the calls give the messages of all of it, and
    end as it does. -/
theorem calls_parses {chunks : List Bytes} {rds : Decoder} {s : Spot} {ms : List (List Bytes)}
    {f : Final}
    (h : rds.At s) (hp : Parses (s.more chunks.flatten) ms f)
    (hroom : s.buff.length + chunks.flatten.length ≤ 512 * 1024) (res : List (List Bytes)) :
    calls chunks rds res = .ok (some (res ++ ms, f)) := by
  induction chunks generalizing rds s ms res with
  | nil =>
    rw [List.flatten_nil, Spot.more_nil] at hp
    exact drain_parses h hp (Nat.lt_succ_self _) res
  | cons chunk chunks ih =>
    rw [List.flatten_cons, List.length_append] at hroom
    rw [List.flatten_cons, ← Spot.more_more] at hp
    obtain ⟨t, hreach, hends⟩ := rdsDecode_reaches h chunk (fun _ => by rw [h.buff]; omega)
    -- what the call has come to is also on the way through all bytes
    have hpt := hp.of_reaches (hreach.more chunks.flatten)
    have hlen : t.buff.length + chunks.flatten.length ≤ 512 * 1024 := by
      have := hreach.length
      rw [Spot.more, List.length_append] at this
      omega
    rw [calls]
    rcases hcall : rdsDecode rds chunk with e | ⟨_ | _ | m, rds'⟩
    all_goals rw [hcall] at hends
    · have hmove := hpt.move
      have ht : t.move = .stopped e := hends
      rw [Spot.move_more (by rw [ht]; exact nofun), ht] at hmove
      exact hmove.elim
    · have hmove := hpt.move
      have ht : t.move = .failed := hends
      rw [Spot.move_more (by rw [ht]; exact nofun), ht] at hmove
      obtain ⟨rfl, rfl⟩ := hmove
      rw [List.append_nil]
    · exact ih hends.2 hpt hlen res
    · obtain ⟨u, hu, hat⟩ := hends
      have hmove := hpt.move
      rw [Spot.move_more (by rw [hu]; exact nofun), hu] at hmove
      obtain ⟨ms', rfl, hpu⟩ := hmove
      have := Spot.move_length.2 m u hu
      dsimp only
      rw [ih hat hpu (by omega), List.append_assoc]
      rfl

/-! ## Fields of few digits -/

/-- What marks the number that is expected. -/
def Spot.mark (s : Spot) : UInt8 := if s.count = 0 then star else dollar

/-- The number that is expected has at most eight digits, and if it is the number of strings, it
    is not 0. -/
structure Spot.Small (s : Spot) : Prop where
  digits : ∀ rest, s.buff = s.mark :: rest → (rest.takeWhile isDigit).length ≤ 8
  pos : s.count = 0 → ∀ n rest, readRdsLen star s.buff = .ok n rest → 1 ≤ n

/-- A spot comes behind another. -/
def Visits : Spot → Spot → Prop :=
  Relation.ReflTransGen fun s t => s.move = .next t ∨ ∃ m, s.move = .give m t

/-- The numbers in a stream, as far as it is well formed, have at most eight digits, and no
    message is announced with 0 strings. -/
def SmallFields (stream : Bytes) : Prop := ∀ s, Visits ⟨0, [], stream⟩ s → s.Small

/-- Eight digits make no negative number. -/
theorem readDigits_small {buff rest : Bytes} {c n : ℤ} {j : ℕ}
    (h : readDigits buff c = .ok n rest) (h0 : 0 ≤ c)
    (hc : c < 10 ^ j) (hj : (buff.takeWhile isDigit).length + j ≤ 8) : 0 ≤ n := by
  induction buff generalizing c j with
  | nil => cases h
  | cons x buff ih =>
    cases buff with
    | nil => cases h
    | cons y buff =>
      rw [readDigits] at h
      split at h
      · split at h
        · cases h
        · cases h
          exact h0
      · split at h
        · cases h
        next hdigit =>
          have hx : isDigit x = true := by
            rw [not_or, UInt8.not_lt, UInt8.not_lt] at hdigit
            simpa [isDigit] using hdigit
          rw [List.takeWhile_cons_of_pos hx, List.length_cons] at hj
          have hnat : x.toNat ≤ 57 := by
            simp only [isDigit, Bool.and_eq_true, decide_eq_true_eq] at hx
            exact UInt8.le_iff_toNat_le.mp hx.2
          have hpow : (10 : ℤ) ^ (j + 1) ≤ 10 ^ 8 := pow_le_pow_right₀ (by norm_num) (by omega)
          have hnext : c * 10 + (x.toNat - 48 : ℕ) < 10 ^ (j + 1) := by
            rw [pow_succ]
            omega
          have hi32 : i32 (c * 10 + (x.toNat - 48 : ℕ)) = c * 10 + (x.toNat - 48 : ℕ) :=
            i32_of_range (by omega) (by omega)
          rw [hi32] at h
          exact ih h (by omega) hnext (by omega)

/-- A number of few digits is not negative. -/
theorem readRdsLen_small {mark : UInt8} {buff rest : Bytes} {n : ℤ}
    (hsmall : ∀ rest, buff = mark :: rest → (rest.takeWhile isDigit).length ≤ 8)
    (h : readRdsLen mark buff = .ok n rest) : 0 ≤ n := by
  cases buff with
  | nil => cases h
  | cons c buff =>
    rw [readRdsLen] at h
    split at h
    next hc =>
      have := hsmall buff (by rw [hc])
      exact readDigits_small h le_rfl (j := 0) (by norm_num) (by omega)
    · cases h

/-- At small numbers a decoder returns. -/
theorem Spot.Small.not_stopped {s : Spot} (h : s.Small) (e : Stop) : s.move ≠ .stopped e := by
  obtain ⟨hdigits, hpos⟩ := h
  unfold Spot.move
  split
  · exact nofun
  split
  next hcount =>
    unfold Spot.readCount
    split
    · exact nofun
    · exact nofun
    next n rest hread =>
      have := hpos hcount n rest hread
      rw [if_neg (by omega)]
      exact nofun
  next hcount =>
    unfold Spot.readString
    split
    · exact nofun
    · exact nofun
    next len rest hread =>
      unfold Spot.mark at hdigits
      rw [if_neg hcount] at hdigits
      have := readRdsLen_small hdigits hread
      split
      · exact nofun
      · rw [if_neg (by omega)]
        split
        · exact nofun
        · dsimp only
          split <;> exact nofun

/-- A stream of small fields is read to an end. -/
theorem parses_of_small {s : Spot} (h : ∀ t, Visits s t → t.Small) : ∃ ms f, Parses s ms f := by
  induction hn : s.buff.length using Nat.strong_induction_on generalizing s with
  | _ n ih =>
    cases hmove : s.move with
    | starved => exact ⟨[], .starved, .starved hmove⟩
    | failed => exact ⟨[], .failed, .failed hmove⟩
    | stopped e => exact absurd hmove ((h s .refl).not_stopped e)
    | next t =>
      have hlt := Spot.move_length.1 t hmove
      obtain ⟨ms, f, hp⟩ := ih t.buff.length (hn ▸ hlt) (fun u hu => h u (.head (.inl hmove) hu)) rfl
      exact ⟨ms, f, .next hmove hp⟩
    | give m t =>
      have hlt := Spot.move_length.2 m t hmove
      obtain ⟨ms, f, hp⟩ := ih t.buff.length (hn ▸ hlt) (fun u hu => h u (.head (.inr ⟨m, hmove⟩) hu)) rfl
      exact ⟨m :: ms, f, .give hmove hp⟩

/-- However a stream is cut, which may break off or be malformed, the same messages are given, and
    the same comes behind them. -/
theorem stream_any_cut {stream : Bytes}
    (hlen : stream.length ≤ 512 * 1024) (hsmall : SmallFields stream) :
    ∃ ms f, ∀ chunks : List Bytes, chunks.flatten = stream → calls chunks rdsNew [] = .ok (some (ms, f)) := by
  obtain ⟨ms, f, hp⟩ := parses_of_small hsmall
  refine ⟨ms, f, fun chunks hflat => ?_⟩
  have hat : rdsNew.At ⟨0, [], []⟩ := ⟨rfl, rfl, .inl ⟨rfl, rfl, rfl⟩⟩
  have hpart : Parses (Spot.more ⟨0, [], []⟩ chunks.flatten) ms f := by
    rw [hflat]
    exact hp
  rw [calls_parses hat hpart (by rw [hflat]; simpa using hlen), List.nil_append]

/-- One message of one string, and a byte that begins none. -/
def oneAndMore : Bytes := [42, 49, 13, 10, 36, 49, 13, 10, 97, 13, 10, 120]

/-- The sample has small fields. -/
theorem smallFields_oneAndMore : SmallFields oneAndMore := by
  have hmove₁ : Spot.move ⟨0, [], oneAndMore⟩ = .next ⟨1, [], oneAndMore.drop 4⟩ := by decide +kernel
  have hmove₂ : Spot.move ⟨1, [], oneAndMore.drop 4⟩ = .give [[97]] ⟨0, [], [120]⟩ := by decide +kernel
  have hmove₃ : Spot.move ⟨0, [], [120]⟩ = .failed := by decide
  intro s h
  obtain rfl | ⟨t, ht, h⟩ := h.cases_head
  · refine ⟨fun rest hr => ?_, fun _ n rest hread => ?_⟩
    · cases hr
      decide
    · have hone : readRdsLen star oneAndMore = .ok 1 (oneAndMore.drop 4) := by decide
      rw [hone] at hread
      cases hread
      exact le_rfl
  rw [hmove₁] at ht
  obtain ht | ⟨m, ht⟩ := ht <;> cases ht
  obtain rfl | ⟨t, ht, h⟩ := h.cases_head
  · refine ⟨fun rest hr => ?_, fun h0 => by cases h0⟩
    cases hr
    decide
  rw [hmove₂] at ht
  obtain ht | ⟨m, ht⟩ := ht <;> cases ht
  obtain rfl | ⟨t, ht, -⟩ := h.cases_head
  · exact ⟨fun rest hr => (by cases hr), fun _ n rest hread => (by cases hread)⟩
  rw [hmove₃] at ht
  obtain ht | ⟨m, ht⟩ := ht <;> cases ht

/-- The message is given and then the error, also byte by byte. -/
theorem stream_any_cut_oneAndMore :
    calls (oneAndMore.map fun c => [c]) rdsNew [] = .ok (some ([[[97]]], .failed)) := by
  obtain ⟨ms, f, hall⟩ := stream_any_cut (show oneAndMore.length ≤ 512 * 1024 by simp [oneAndMore])
    smallFields_oneAndMore
  have hwhole : calls [oneAndMore] rdsNew [] = .ok (some ([[[97]]], .failed)) := by decide +kernel
  rw [hall _ (by decide), ← hwhole, hall [oneAndMore] (by simp)]

end Rds
