/-
# Messages in front of other bytes

A decoder that finds whole messages in its buffer gives them, and goes on with what
stands behind them as a new decoder would.  Whether it runs into an error there depends
on these bytes alone.
-/
import OpenwrtAc.RdsRoundTrip

open MachineInt

namespace Rds

/-! ## Every message takes bytes -/

theorem readDigits_length {buff rest : Bytes} {c n : ℤ} (h : readDigits buff c = .ok n rest) :
    rest.length < buff.length := by
  induction buff generalizing c with
  | nil => cases h
  | cons x buff ih =>
    cases buff with
    | nil => cases h
    | cons y buff =>
      rw [readDigits] at h
      split at h
      · split at h
        · cases h
        · cases h
          simp only [List.length_cons]
          omega
      · split at h
        · cases h
        · exact (ih h).trans (Nat.lt_succ_self _)

theorem readRdsLen_length {mark : UInt8} {buff rest : Bytes} {n : ℤ}
    (h : readRdsLen mark buff = .ok n rest) : rest.length < buff.length := by
  cases buff with
  | nil => cases h
  | cons x buff =>
    rw [readRdsLen] at h
    split at h
    · exact (readDigits_length h).trans (Nat.lt_succ_self _)
    · cases h

/-- With a negative length there is an error, if the call returns. -/
theorem negativeLen_cases (buff : Bytes) (off : ℕ) (len : ℤ) :
    negativeLen buff off len = .ok .fail ∨ ∃ e, negativeLen buff off len = .error e := by
  unfold negativeLen
  split
  · exact .inr ⟨_, rfl⟩
  · split
    · exact .inl rfl
    · split <;> exact .inr ⟨_, rfl⟩

theorem readParamContent_length {left : ℕ} {buff r : Bytes} {arr arr' : List Bytes}
    (h : readParamContent left buff arr = .ok (.done r arr')) : r.length + left ≤ buff.length := by
  induction left generalizing buff arr with
  | zero =>
    cases h
    exact Nat.le_refl _
  | succ left ih =>
    rw [readParamContent] at h
    split at h
    · cases h
    · split at h
      · cases h
      · cases h
      next len rest hlen =>
        have hlt := readRdsLen_length hlen
        split at h
        · cases h
        · split at h
          · obtain hneg | ⟨e, hneg⟩ := negativeLen_cases buff (buff.length - rest.length) len
            all_goals
              rw [hneg] at h
              cases h
          · split at h
            · cases h
            · have := ih h
              rw [List.length_drop] at this
              omega

theorem decodeParams_length {rds rds' : Decoder} {m : List Bytes}
    (h : decodeParams rds = .ok (.done m, rds')) : rds'.buff.length < rds.buff.length := by
  unfold decodeParams at h
  split at h
  · cases h
  next hcount =>
    split at h
    · cases h
    · cases h
    · cases h
    next buff arr hread =>
      have := readParamContent_length hread
      cases h
      have hbuff : ∀ size, (if buff = [] then shrinkBuff ⟨buff, size, .new, 0, []⟩
          else ⟨buff, size, .new, 0, []⟩ : Decoder).buff = buff := by
        intro size
        split <;> rfl
      rw [hbuff]
      omega

theorem decodeBuff_length {rds rds' : Decoder} {m : List Bytes}
    (h : decodeBuff rds = .ok (.done m, rds')) : rds'.buff.length < rds.buff.length := by
  unfold decodeBuff at h
  split at h
  · cases h
  · split at h
    · cases h
    · exact decodeParams_length h
    · split at h
      · cases h
      · cases h
      next count rest hlen =>
        split at h
        · cases h
        · exact (decodeParams_length h).trans (readRdsLen_length hlen)

/-- The bound on the calls of `l_decode` plays no part. -/
theorem decodeRest_fuel {fuel fuel' : ℕ} {rds : Decoder} (res : List (List Bytes))
    (hfuel : rds.buff.length < fuel) (hfuel' : rds.buff.length < fuel') :
    decodeRest fuel rds res = decodeRest fuel' rds res := by
  induction fuel generalizing fuel' rds res with
  | zero => omega
  | succ fuel ih =>
    obtain ⟨fuel', rfl⟩ : ∃ n, fuel' = n + 1 := ⟨fuel' - 1, by omega⟩
    rw [decodeRest, decodeRest]
    cases hcall : rdsDecode rds [] with
    | error e => rfl
    | ok ret =>
      obtain ⟨ret, rds'⟩ := ret
      cases ret with
      | fail => rfl
      | more => rfl
      | done m =>
        have hlt : rds'.buff.length < rds.buff.length := by
          unfold rdsDecode at hcall
          split at hcall
          · cases hcall
          · rw [if_pos rfl] at hcall
            exact decodeBuff_length hcall
        exact ih _ (by omega) (by omega)

/-! ## The size of the buffer -/

/-- The size of the buffer does not matter once the bytes are in it. -/
theorem decodeParams_maxsize (rds : Decoder) (size : ℕ) :
    ∃ size', decodeParams { rds with maxsize := size }
      = (decodeParams rds).map fun r => (r.1, { r.2 with maxsize := size' }) := by
  unfold decodeParams
  split
  · exact ⟨size, rfl⟩
  · dsimp only
    cases readParamContent (rds.resCount - rds.resArr.length) rds.buff rds.resArr with
    | error e => exact ⟨size, rfl⟩
    | ok ret =>
      cases ret with
      | fail => exact ⟨size, rfl⟩
      | more buff arr => exact ⟨size, rfl⟩
      | done buff arr =>
        by_cases hbuff : buff = []
        · simp only [hbuff, if_true]
          exact ⟨min size (128 * 1024), rfl⟩
        · simp only [hbuff, if_false]
          exact ⟨size, rfl⟩

theorem decodeBuff_maxsize (rds : Decoder) (size : ℕ) :
    ∃ size', decodeBuff { rds with maxsize := size }
      = (decodeBuff rds).map fun r => (r.1, { r.2 with maxsize := size' }) := by
  unfold decodeBuff
  dsimp only
  split
  · exact ⟨size, rfl⟩
  · split
    · exact ⟨size, rfl⟩
    · exact decodeParams_maxsize rds size
    · split
      · exact ⟨size, rfl⟩
      · exact ⟨size, rfl⟩
      next count rest _ =>
        split
        · exact ⟨size, rfl⟩
        · exact decodeParams_maxsize
            { rds with buff := rest, state := .run, resCount := count.toNat } size

/-- `l_decode` returns messages. -/
def fine (r : Except Stop (Option (List (List Bytes)) × Decoder)) : Bool :=
  match r with
  | .ok (some _, _) => true
  | _ => false

theorem decodeRest_fine (fuel : ℕ) (rds : Decoder) (size : ℕ) (res res' : List (List Bytes)) :
    fine (decodeRest fuel { rds with maxsize := size } res) = fine (decodeRest fuel rds res') := by
  induction fuel generalizing rds size res res' with
  | zero => rfl
  | succ fuel ih =>
    obtain ⟨size', hsize⟩ := decodeBuff_maxsize rds size
    rw [decodeRest, decodeRest, rdsDecode, rdsDecode]
    by_cases herr : rds.state = .err
    · simp only [herr, if_true]
    · simp only [herr, if_false, if_true, hsize]
      cases decodeBuff rds with
      | error e => rfl
      | ok ret =>
        obtain ⟨ret, rds'⟩ := ret
        cases ret with
        | fail => rfl
        | more => rfl
        | done m => exact ih rds' size' _ _

/-- What was read stays read. -/
theorem decodeRest_prefix {fuel : ℕ} {rds rds' : Decoder} {res out : List (List Bytes)}
    (h : decodeRest fuel rds res = .ok (some out, rds')) : res <+: out := by
  induction fuel generalizing rds res with
  | zero =>
    cases h
    exact List.prefix_rfl
  | succ fuel ih =>
    rw [decodeRest] at h
    split at h
    · cases h
    · cases h
    · cases h
      exact List.prefix_rfl
    · exact (List.prefix_append _ _).trans (ih h)

/-! ## Whole messages -/

/-- The messages `msgs`, of which the first strings of the first may have been read, are in the
    buffer, with the bytes `tail` behind them. -/
def Holds (rds : Decoder) (msgs : List (List Bytes)) (tail : Bytes) : Prop :=
  (∀ m ∈ msgs, Readable m) ∧
  ((rds.state = .new ∧ rds.resArr = [] ∧ rds.buff = msgs.flatMap writeMsg ++ tail) ∨
   (rds.state = .run ∧ ∃ m rest left, msgs = m :: rest ∧ rds.resCount = m.length
      ∧ rds.resArr ++ left = m ∧ left ≠ []
      ∧ rds.buff = left.flatMap writeParam ++ (rest.flatMap writeMsg ++ tail)))

/-- A decoder between two messages. -/
def fresh (buff : Bytes) (size : ℕ) : Decoder := ⟨buff, size, .new, 0, []⟩

theorem holds_fresh {msgs : List (List Bytes)}
    (h : ∀ m ∈ msgs, Readable m) (tail : Bytes) (size : ℕ) :
    Holds (fresh (msgs.flatMap writeMsg ++ tail) size) msgs tail :=
  ⟨h, .inl ⟨rfl, rfl, rfl⟩⟩

/-- The rest of the bytes that were expected has come, with others behind it. -/
theorem Expects.holds {rds : Decoder} {s : Bytes} {msgs : List (List Bytes)}
    (h : Expects rds s msgs)
    (tail : Bytes) (size : ℕ) :
    Holds { rds with maxsize := size, buff := rds.buff ++ (s ++ tail) } msgs tail := by
  refine ⟨h.1, h.2.imp ?_ ?_⟩
  · rintro ⟨hs, harr, hb⟩
    exact ⟨hs, harr, by rw [← hb, List.append_assoc]⟩
  · rintro ⟨hs, m, rest, left, hmsgs, hcount, hm, hleft, hb⟩
    refine ⟨hs, m, rest, left, hmsgs, hcount, hm, hleft, ?_⟩
    rw [← List.append_assoc, hb, List.append_assoc]

/-- The strings of a message that are still to come are all there. -/
theorem decodeParams_whole {rds : Decoder} {m left : List Bytes} {tail : Bytes}
    (hgood : ∀ s ∈ left, s.length < 100000000) (hcount : rds.resCount = m.length)
    (hm : rds.resArr ++ left = m) (hleft : left ≠ [])
    (h : rds.buff = left.flatMap writeParam ++ tail) :
    ∃ size, decodeParams rds = .ok (.done m, fresh tail size) := by
  have hlen : m.length = rds.resArr.length + left.length := by rw [← hm, List.length_append]
  have hpos := List.length_pos_of_ne_nil hleft
  have hsub : rds.resCount - rds.resArr.length = left.length := by omega
  unfold decodeParams
  rw [if_neg (by omega), hsub]
  have hbytes : rds.buff ++ [] = left.flatMap writeParam ++ tail := by rw [List.append_nil, h]
  rcases readParamContent_part hgood hbytes rds.resArr with
    ⟨r, hdone, htail⟩ | ⟨_, _, _, _, _, _, _, hfuture, -⟩
  · rw [List.append_nil] at htail
    subst htail
    rw [hdone, hm]
    by_cases hr : r = []
    · simp only [hr, if_true]
      exact ⟨_, rfl⟩
    · simp only [hr, if_false]
      exact ⟨_, rfl⟩
  · exact absurd rfl hfuture

theorem Holds.decodeBuff {rds : Decoder} {m : List Bytes} {rest : List (List Bytes)} {tail : Bytes}
    (h : Holds rds (m :: rest) tail) :
    ∃ size, decodeBuff rds = .ok (.done m, fresh (rest.flatMap writeMsg ++ tail) size) := by
  obtain ⟨hne, hcount, hsmall⟩ := h.1 m List.mem_cons_self
  unfold Rds.decodeBuff
  rcases h.2 with ⟨hs, harr, hb⟩ | ⟨hs, m', rest', left, heq, hcount', hm, hleft, hb⟩
  · rw [List.flatMap_cons, writeMsg, List.append_assoc, List.append_assoc] at hb
    have hpos := List.length_pos_of_ne_nil hne
    rw [if_neg (by rw [hb]; simp [header]), hb]
    simp only [hs]
    rw [readRdsLen_header star (by omega), if_neg (by omega)]
    dsimp only
    rw [if_neg (by omega)]
    exact decodeParams_whole hsmall (by simp) (by rw [harr]; rfl) hne rfl
  · cases heq
    have hbuff : rds.buff ≠ [] := by
      rw [hb]
      cases left with
      | nil => exact absurd rfl hleft
      | cons s left => simp [writeParam, header]
    rw [if_neg hbuff]
    simp only [hs]
    exact decodeParams_whole (fun s hs => hsmall s (hm ▸ List.mem_append_right _ hs)) hcount' hm hleft hb

/-- Behind all messages the decoder goes on as a new one. -/
theorem decodeRest_messages {msgs : List (List Bytes)} (hgood : ∀ m ∈ msgs, Readable m)
    (fuel : ℕ) (tail : Bytes) (size : ℕ) (res : List (List Bytes)) :
    ∃ size', decodeRest (fuel + msgs.length) (fresh (msgs.flatMap writeMsg ++ tail) size) res
      = decodeRest fuel (fresh tail size') (res ++ msgs) := by
  induction msgs generalizing size res with
  | nil => exact ⟨size, by simp⟩
  | cons m msgs ih =>
    obtain ⟨size₁, hstep⟩ := (holds_fresh hgood tail size).decodeBuff
    obtain ⟨size₂, hrun⟩ := ih (fun x hx => hgood x (List.mem_cons_of_mem m hx)) size₁ (res ++ [m])
    refine ⟨size₂, ?_⟩
    have hcall : rdsDecode (fresh ((m :: msgs).flatMap writeMsg ++ tail) size) []
        = Rds.decodeBuff (fresh ((m :: msgs).flatMap writeMsg ++ tail) size) := by
      rw [rdsDecode, if_neg (by simp [fresh]), if_pos rfl]
    rw [List.length_cons, ← Nat.add_assoc, decodeRest, hcall, hstep]
    dsimp only
    rw [hrun, List.append_assoc]
    rfl

/-- Bytes that a new decoder takes without an error. -/
def reads (tail : Bytes) : Bool := fine (lDecode rdsNew tail)

theorem reads_eq {tail : Bytes} (hroom : tail.length ≤ 512 * 1024) (fuel size : ℕ)
    (hfuel : tail.length < fuel) (res : List (List Bytes)) :
    reads tail = fine (decodeRest fuel (fresh tail size) res) := by
  have hfirst : ∃ size', reads tail = fine (decodeRest (tail.length + 1) (fresh tail size') []) := by
    unfold reads lDecode
    by_cases htail : tail = []
    · subst htail
      exact ⟨0, rfl⟩
    · obtain ⟨size', -, hcache⟩ :=
        rdsCache_ok (show rdsNew.buff.length + tail.length ≤ 512 * 1024 by simpa [rdsNew] using hroom)
      have hcall : rdsDecode rdsNew tail = decodeBuff (fresh tail size') := by
        rw [rdsDecode, if_neg (by simp [rdsNew]), if_neg htail, hcache]
        rfl
      have hcall' : rdsDecode (fresh tail size') [] = decodeBuff (fresh tail size') := by
        rw [rdsDecode, if_neg (by simp [fresh]), if_pos rfl]
      refine ⟨size', ?_⟩
      rw [hcall, decodeRest, hcall']
      cases hstep : decodeBuff (fresh tail size') with
      | error e => rfl
      | ok ret =>
        obtain ⟨ret, rds'⟩ := ret
        cases ret with
        | fail => rfl
        | more => rfl
        | done m =>
          have hlt : rds'.buff.length < tail.length := decodeBuff_length hstep
          dsimp only
          rw [decodeRest_fuel [m] (Nat.lt_succ_self _) hlt]
          rfl
  obtain ⟨size', hsize⟩ := hfirst
  have hsame : decodeRest (tail.length + 1) (fresh tail size') []
      = decodeRest fuel (fresh tail size') [] := decodeRest_fuel [] (Nat.lt_succ_self _) hfuel
  rw [hsize, hsame]
  exact decodeRest_fine fuel (fresh tail size) size' [] res

/-- The last bytes of the messages that are expected come in one piece with some others: an error
    depends on these alone, and without one the messages are given first. -/
theorem lDecode_tail {rds : Decoder} {s tail : Bytes} {msgs : List (List Bytes)}
    (h : Expects rds s msgs) (hne : s ≠ [])
    (hroom : rds.buff.length + (s ++ tail).length ≤ 512 * 1024) :
    fine (lDecode rds (s ++ tail)) = reads tail ∧
      ∀ out rds', lDecode rds (s ++ tail) = .ok (some out, rds') → msgs <+: out := by
  have hmsgs : msgs ≠ [] := by
    rintro rfl
    rcases h.2 with ⟨-, -, hb⟩ | ⟨-, _, _, _, hnil, -⟩
    · exact hne (List.append_eq_nil_iff.1 hb).2
    · cases hnil
  obtain ⟨m, rest, rfl⟩ := List.exists_cons_of_ne_nil hmsgs
  obtain ⟨size, -, hcache⟩ := rdsCache_ok hroom
  obtain ⟨size₁, hstep⟩ := (h.holds tail size).decodeBuff
  have hcall : rdsDecode rds (s ++ tail) = .ok (.done m, fresh (rest.flatMap writeMsg ++ tail) size₁) := by
    rw [rdsDecode, if_neg h.state_ne_err, if_neg (by simp [hne]), hcache]
    exact hstep
  have hgood : ∀ x ∈ rest, Readable x := fun x hx => h.1 x (List.mem_cons_of_mem m hx)
  -- the messages that are left, each of which takes a call, and what is behind them
  have hlong : rest.length ≤ (rest.flatMap writeMsg).length := by
    clear hstep hcall h hgood hmsgs
    induction rest with
    | nil => simp
    | cons x rest ih =>
      have hx : 0 < (writeMsg x).length := by simp [writeMsg, header]
      simp only [List.flatMap_cons, List.length_append, List.length_cons]
      omega
  obtain ⟨size₂, hrun⟩ := decodeRest_messages hgood
    ((fresh (rest.flatMap writeMsg ++ tail) size₁).buff.length + 1 - rest.length) tail size₁ [m]
  have hlen : (fresh (rest.flatMap writeMsg ++ tail) size₁).buff.length
      = (rest.flatMap writeMsg).length + tail.length := List.length_append
  rw [Nat.sub_add_cancel (by omega)] at hrun
  have heq : lDecode rds (s ++ tail)
      = decodeRest ((fresh (rest.flatMap writeMsg ++ tail) size₁).buff.length + 1 - rest.length)
        (fresh tail size₂) (m :: rest) := by
    unfold lDecode
    rw [hcall]
    exact hrun
  refine ⟨?_, fun out rds' hout => decodeRest_prefix (heq.symm.trans hout)⟩
  rw [heq]
  refine (reads_eq ?_ _ size₂ ?_ _).symm
  · simp only [List.length_append] at hroom
    omega
  · omega

end Rds
