/-
# What the compressor puts out

Each round of the main loop puts out one sequence of the format, and the last literals make
the block complete.  The room of `compressBound` is enough for it; with less room, where the
output is limited, the run ends with nothing rather than outside of `dest`.
-/
import OpenwrtAc.Lz4Search

open Rds ByteCodec LzWindow Outcome

namespace Lz4Block

/-! ## Lengths as bytes -/

/-- The loop writes 255 as often as it fits, and the rest. -/
theorem lengthBytes_eq : ∀ fuel len : ℕ, len / 255 ≤ fuel →
    lengthBytes fuel len = List.replicate (len / 255) 255 ++ [UInt8.ofNat (len % 255)] := by
  intro fuel
  induction fuel with
  | zero =>
      intro len h
      have hlt : len < 255 := by omega
      rw [lengthBytes, Nat.div_eq_of_lt hlt, Nat.mod_eq_of_lt hlt]
      rfl
  | succ fuel ih =>
      intro len h
      rw [lengthBytes]
      by_cases hlen : 255 ≤ len
      · rw [if_pos hlen, ih (len - 255) (by omega), ← List.cons_append, ← List.replicate_succ,
          show (len - 255) / 255 + 1 = len / 255 by omega,
          show (len - 255) % 255 = len % 255 by omega]
      · have hlt : len < 255 := by omega
        rw [if_neg hlen, Nat.div_eq_of_lt hlt, Nat.mod_eq_of_lt hlt]
        rfl

/-- So does the loop that writes two bytes at a time. -/
theorem lengthBytes2_eq : ∀ fuel len : ℕ, len / 510 ≤ fuel →
    lengthBytes2 fuel len = List.replicate (len / 255) 255 ++ [UInt8.ofNat (len % 255)] := by
  intro fuel
  induction fuel with
  | zero =>
      intro len h
      exact lengthBytes_eq 1 len (by omega)
  | succ fuel ih =>
      intro len h
      rw [lengthBytes2]
      by_cases hlen : 510 ≤ len
      · rw [if_pos hlen, ih (len - 510) (by omega), ← List.cons_append, ← List.cons_append,
          ← List.replicate_succ, ← List.replicate_succ,
          show (len - 510) / 255 + 1 + 1 = len / 255 by omega,
          show (len - 510) % 255 = len % 255 by omega]
      · rw [if_neg hlen]
        exact lengthBytes_eq 1 len (by omega)

/-- Literals are put out behind a token whose other half is 0. -/
theorem literalBytes_eq (n : ℕ) : Job.literalBytes n = token n 0 :: extra n := by
  unfold Job.literalBytes
  by_cases hn : mask ≤ n
  · rw [if_pos hn, lengthBytes_eq _ _ (by omega), extra_of_le hn, token, Nat.min_eq_right hn]
    rfl
  · have hlt : n < mask := Nat.lt_of_not_le hn
    rw [if_neg hn, extra_of_lt hlt, token, Nat.min_eq_left hlt.le, Nat.shiftLeft_eq, Nat.mul_comm]
    rfl

/-- The other half of the token is added when the length of the match is known. -/
theorem token_add (lits len : ℕ) : token lits 0 + UInt8.ofNat (min len mask) = token lits len := by
  unfold token
  rw [← UInt8.ofNat_add, Nat.zero_min, Nat.add_zero]

/-- The token is changed where it stands. -/
theorem modify_token (pre : Bytes) (t : UInt8) (rest : Bytes) (f : UInt8 → UInt8) :
    (pre ++ t :: rest).modify pre.length f = pre ++ f t :: rest := by
  show (pre ++ t :: rest).modifyTailIdx (pre.length + 0) _ = _
  rw [List.modifyTailIdx_add]
  rfl

/-- A length takes less than it says. -/
theorem length_extra_le (n : ℕ) : (extra n).length ≤ n / 255 + 1 ∧ (extra n).length ≤ n := by
  rw [length_extra]
  unfold mask
  split <;> omega

/-- A copy in words of eight writes seven bytes more at most. -/
theorem wildLength_le (n : ℕ) : wildLength n ≤ max 8 (n + 7) := by
  unfold wildLength
  omega

namespace Job

/-- How much room a job has: what `compressBound` says, or a limit that is looked after. -/
structure Fitting (j : Job) : Prop where
  len_max : j.source.length ≤ maxInputSize
  len_16 : j.tableType = .byU16 → j.source.length < limit64K
  accel : 0 < j.acceleration ∧ j.acceleration * 2 ^ skipTrigger + j.source.length < 2 ^ 32
  room : j.limited = false → j.source.length + j.source.length / 255 + 16 ≤ j.room
  limit : j.limited = true → j.source.length ≤ 2 ^ 17

/-- The output is the beginning of a block, for the source up to `anchor`. -/
structure Writes (j : Job) (anchor : ℕ) (out : Bytes) : Prop where
  le : anchor ≤ j.source.length
  size : out.length ≤ anchor + anchor / 255
  decodes : ∀ code, Decodes j.source (j.source.take anchor) code →
    Decodes j.source [] (out ++ code)

variable {j : Job}

/-- At the start nothing is written. -/
theorem writes_nil (j : Job) : j.Writes 0 [] :=
  ⟨Nat.zero_le _, Nat.le_refl _, fun _ h => h⟩

/-- Bytes are written where there is room. -/
theorem put_eq {out new : Bytes} (h : out.length + new.length ≤ j.room) :
    j.put out new = .ok (out ++ new) := if_pos h

/-- A copy in words of eight, read back without what it wrote too much. -/
theorem wildCopy_eq {out : Bytes} {p n : ℕ} (hp : p + max 8 (n + 7) ≤ j.source.length)
    (hout : out.length + max 8 (n + 7) ≤ j.room) :
    j.wildCopy out p n = .ok (out ++ (j.source.drop p).take n) := by
  have := wildLength_le n
  exact if_pos ⟨by omega, by omega⟩

/-- The two limits, counted from the end of the source. -/
theorem mflimit_eq (hmin : minLength ≤ j.source.length) :
    j.mflimit + mfLimit = j.source.length ∧ j.matchlimit + lastLiterals = j.source.length := by
  unfold mflimit matchlimit minLength mfLimit minMatch lastLiterals at *
  omega

/-- The literals before a match. -/
def literals (j : Job) (anchor ip : ℕ) : Bytes := (j.source.drop anchor).take (ip - anchor)

/-- The number of literals between two positions. -/
theorem length_literals {anchor ip : ℕ} (ha : anchor ≤ ip) (hip : ip ≤ j.source.length) :
    (j.literals anchor ip).length = ip - anchor := by
  rw [literals, List.length_take, List.length_drop]
  omega

/-- The literals extend what was coded before. -/
theorem take_append_literals {anchor ip : ℕ} (ha : anchor ≤ ip) :
    j.source.take anchor ++ j.literals anchor ip = j.source.take ip := by
  obtain ⟨n, rfl⟩ := Nat.exists_eq_add_of_le ha
  rw [literals, Nat.add_sub_cancel_left, List.take_add]

/-! ## One sequence -/

/-- What is put out before the offset of a match. -/
def opening (j : Job) (anchor ip : ℕ) : Bytes :=
  token (ip - anchor) 0 :: (extra (ip - anchor) ++ j.literals anchor ip)

/-- The room for a token, the literal length and the literals. -/
theorem length_opening {anchor ip : ℕ} (ha : anchor ≤ ip) (hip : ip ≤ j.source.length) :
    (j.opening anchor ip).length = 1 + (extra (ip - anchor)).length + (ip - anchor) := by
  rw [opening, List.length_cons, List.length_append, length_literals ha hip]
  omega

/-- Writing the literals ends, within the room or refused. -/
theorem ends_putLiterals (hj : j.Fitting) (hmin : minLength ≤ j.source.length) {out : Bytes}
    {anchor ip : ℕ} (hsize : out.length ≤ anchor + anchor / 255) (ha : anchor ≤ ip)
    (hip : ip ≤ j.mflimit) :
    Ends (j.putLiterals out anchor ip) fun r => (r = none → j.limited = true) ∧
      ∀ out', r = some out' → out' = out ++ j.opening anchor ip ∧ out'.length + 2 ≤ j.room := by
  have hlims := (mflimit_eq hmin).1
  have hext := length_extra_le (ip - anchor)
  have hroom := hj.room
  unfold mfLimit minMatch at hlims
  unfold putLiterals
  by_cases hfull : j.limited = true ∧ out.length + 1 + (ip - anchor) + (2 + 1 + lastLiterals) +
      (ip - anchor) / 255 > j.room
  · rw [if_pos hfull]
    exact ⟨fun _ => hfull.1, fun _ h => absurd h.symm (Option.some_ne_none _)⟩
  · have hspace : out.length + 1 + (extra (ip - anchor)).length + max 8 (ip - anchor + 7) ≤
        j.room := by
      unfold lastLiterals at hfull
      rw [length_extra] at hext ⊢
      unfold mask at hext ⊢
      cases hlimited : j.limited with
      | false =>
          have := hroom hlimited
          split <;> omega
      | true =>
          have : ¬ _ := fun h => hfull ⟨hlimited, h⟩
          split <;> omega
    have hlen : (out ++ token (ip - anchor) 0 :: extra (ip - anchor)).length =
        out.length + 1 + (extra (ip - anchor)).length := by
      rw [List.length_append, List.length_cons]
      omega
    rw [if_neg hfull, literalBytes_eq, put_eq (by rw [List.length_cons]; omega)]
    show Ends (j.wildCopy (out ++ token (ip - anchor) 0 :: extra (ip - anchor)) anchor
      (ip - anchor) >>= _) _
    rw [wildCopy_eq (by omega) (by rw [hlen]; omega)]
    refine ⟨fun h => absurd h (Option.some_ne_none _), fun out' h => ?_⟩
    obtain rfl := Option.some.inj h
    rw [List.append_assoc, List.cons_append]
    refine ⟨rfl, ?_⟩
    rw [List.length_append, ← List.cons_append, List.length_append, List.length_cons,
      List.length_take, List.length_drop]
    omega

/-- The rest of a sequence. -/
theorem ends_putMatch (hj : j.Fitting) (hmin : minLength ≤ j.source.length) {pre : Bytes}
    {anchor ip m : ℕ} (ha : anchor ≤ ip) (hip : ip ≤ j.mflimit) (hm : m < ip)
    (hrep : Repeats j.source (ip - m) ip (ip + minMatch))
    (hroom : (pre ++ j.opening anchor ip).length + 2 ≤ j.room)
    (hsize : pre.length ≤ anchor + anchor / 255) :
    Ends (j.putMatch (pre ++ j.opening anchor ip) pre.length ip m) fun r =>
      (r = none → j.limited = true) ∧ ∀ ip' out', r = some (ip', out') →
        ip + minMatch ≤ ip' ∧ ip' ≤ j.matchlimit ∧ Repeats j.source (ip - m) ip ip' ∧
        Left j (ip - m) 1 ip' ∧ out'.length + 3 ≤ j.room ∧
        out' = pre ++ Sequence.code ⟨j.literals anchor ip, ip - m, ip' - ip⟩ := by
  have hlims := mflimit_eq hmin
  have hopen := length_opening (j := j) ha (by omega)
  have hext := length_extra_le (ip - anchor)
  unfold mfLimit lastLiterals minMatch at hlims
  have hle : (le16 (ip - m)).length = 2 := le16_length _
  unfold putMatch
  rw [put_eq (by rw [hle]; exact hroom)]
  have hcount := ends_count (j := j) (d := ip - m) (j.source.length + 1) (m + minMatch)
    (by unfold minMatch; omega) (by omega)
  rw [show m + minMatch + (ip - m) = ip + minMatch by omega] at hcount
  refine hcount.bind fun ip' hip' => ?_
  obtain ⟨hcounted, hleft⟩ := hip'
  have hge := hcounted.le
  have hlim := hcounted.le_limit
  have hrep' := hrep.append hcounted.repeats
  have hlits := length_literals (j := j) ha (by omega)
  obtain ⟨len, rfl⟩ := Nat.exists_eq_add_of_le hge
  rw [Nat.add_sub_cancel_left]
  have hcode : (pre ++ token (ip - anchor) len :: (extra (ip - anchor) ++ j.literals anchor ip) ++
      le16 (ip - m)) ++ extra len =
        pre ++ Sequence.code ⟨j.literals anchor ip, ip - m, ip + minMatch + len - ip⟩ := by
    simp only [Sequence.code, hlits, Nat.add_assoc, Nat.add_sub_cancel_left, List.append_assoc,
      List.cons_append]
  -- the other half of the token
  have htok : (pre ++ j.opening anchor ip ++ le16 (ip - m)).modify pre.length
      (· + UInt8.ofNat (min len mask)) =
        pre ++ token (ip - anchor) len :: (extra (ip - anchor) ++ j.literals anchor ip) ++
          le16 (ip - m) := by
    rw [opening, List.append_assoc, List.cons_append, modify_token, token_add]
    simp only [List.append_assoc, List.cons_append]
  have hlen : (pre ++ token (ip - anchor) len :: (extra (ip - anchor) ++ j.literals anchor ip) ++
      le16 (ip - m)).length = (pre ++ j.opening anchor ip).length + 2 := by
    simp only [opening, List.length_append, List.length_cons, hle]
  have hlen' : (pre ++ j.opening anchor ip ++ le16 (ip - m)).length =
      (pre ++ j.opening anchor ip).length + 2 := by
    rw [List.length_append, hle]
  have hspace : ¬ (j.limited = true ∧ (pre ++ j.opening anchor ip).length + 2 +
      (1 + lastLiterals) + len >>> 8 > j.room) →
        (pre ++ j.opening anchor ip).length + 2 + (extra len).length + 3 ≤ j.room := by
    intro hfull
    rw [Nat.shiftRight_eq_div_pow] at hfull
    rw [List.length_append, hopen] at hfull ⊢
    cases hlimited : j.limited with
    | false =>
        have hbound := hj.room hlimited
        have hlen := length_extra_le len
        omega
    | true =>
        have hlimit := hj.limit hlimited
        have hcheck : ¬ _ := fun h => hfull ⟨hlimited, h⟩
        rw [length_extra len]
        unfold mask
        unfold lastLiterals at hcheck
        split <;> omega
  by_cases hfull : j.limited = true ∧ (pre ++ j.opening anchor ip).length + 2 +
      (1 + lastLiterals) + len >>> 8 > j.room
  · rw [hlen', if_pos hfull]
    exact ⟨fun _ => hfull.1, fun _ _ h => absurd h.symm (Option.some_ne_none _)⟩
  · have hfits := hspace hfull
    rw [hlen', if_neg hfull]
    by_cases hmask : mask ≤ len
    · rw [if_pos hmask]
      rw [Nat.min_eq_right hmask] at htok
      rw [htok, lengthBytes2_eq _ _ (by omega), ← extra_of_le hmask,
        put_eq (by rw [hlen]; omega)]
      refine ⟨fun h => absurd h (Option.some_ne_none _), fun _ _ h => ?_⟩
      cases h
      exact ⟨by omega, hlim, hrep', hleft, by rw [List.length_append, hlen]; omega, hcode⟩
    · rw [if_neg hmask]
      have hlt : len < mask := Nat.lt_of_not_le hmask
      rw [Nat.min_eq_left hlt.le] at htok
      rw [extra_of_lt hlt, List.append_nil] at hcode
      rw [htok]
      refine ⟨fun h => absurd h (Option.some_ne_none _), fun _ _ h => ?_⟩
      cases h
      exact ⟨by omega, hlim, hrep', hleft, by rw [hlen]; omega, hcode⟩

/-- A sequence makes the output longer by what it stands for. -/
theorem Writes.sequence (hmin : minLength ≤ j.source.length) {out : Bytes} {anchor ip m ip' : ℕ}
    (hw : j.Writes anchor out) (ha : anchor ≤ ip) (hip : ip ≤ j.mflimit) (hm : m < ip)
    (hnear : ip ≤ m + maxDistance) (hle : ip + minMatch ≤ ip') (hlim : ip' ≤ j.matchlimit)
    (hrep : Repeats j.source (ip - m) ip ip') :
    j.Writes ip' (out ++ Sequence.code ⟨j.literals anchor ip, ip - m, ip' - ip⟩) := by
  have hlims := mflimit_eq hmin
  have hlits := length_literals (j := j) ha (by omega)
  have hacc : (j.source.take anchor).length = anchor := by
    rw [List.length_take]
    exact Nat.min_eq_left hw.le
  obtain ⟨len, rfl⟩ := Nat.exists_eq_add_of_le (show ip ≤ ip' by omega)
  rw [Nat.add_sub_cancel_left]
  refine ⟨by omega, ?_, fun code hcode => ?_⟩
  · have hsize := hw.size
    have hlits' := length_extra_le (ip - anchor)
    have hlen' := length_extra_le (len - minMatch)
    rw [List.length_append, Sequence.length_code]
    dsimp only
    rw [hlits]
    rw [length_extra] at hlits' ⊢
    unfold mask minMatch at *
    split <;> omega
  · have hrun : (⟨j.literals anchor ip, ip - m, len⟩ : Sequence).run (j.source.take anchor) =
        j.source.take (ip + len) := by
      rw [Sequence.run, take_append_literals ha]
      exact (eq_copyBack (by omega) (by omega) (by omega) hrep).symm
    rw [List.append_assoc]
    apply hw.decodes
    refine .sequence _ _ _ ⟨?_, ?_, ?_, ?_⟩ ?_ ?_ (by rwa [hrun])
    all_goals dsimp only
    all_goals omega

/-! ## The main loop -/

/-- What holds of the variables of the main loop. -/
structure Inv (j : Job) (s : State) : Prop where
  writes : j.Writes s.anchor s.out
  next : match s.next with
    | .search ip _ => s.anchor ≤ ip ∧ s.table.Below ip
    | .found m => j.IsMatch s.anchor m ∧ s.anchor ≤ j.mflimit ∧ s.table.Below (s.anchor + 1) ∧
        s.out.length + 3 ≤ j.room

/-- What holds after a round that begins with a given anchor. -/
def Good (j : Job) (anchor : ℕ) : Round → Prop
  | .full => j.limited = true
  | .last anchor' out => j.Writes anchor' out
  | .more s => j.Inv s ∧ anchor < s.anchor

/-- The test behind a match ends. -/
theorem ends_nextMatch {entry : Option ℕ} {ip : ℕ} (hip : ip + minMatch ≤ j.source.length)
    (hentry : ∀ m, entry = some m → m < ip) :
    Ends (j.nextMatch entry ip) fun r => ∀ m, r = some m → j.IsMatch ip m := by
  unfold nextMatch
  cases entry with
  | none => exact fun _ h => absurd h.symm (Option.some_ne_none _)
  | some m =>
      have hlt := hentry m rfl
      dsimp only
      split
      case isFalse => exact fun _ h => absurd h.symm (Option.some_ne_none _)
      case isTrue hnear =>
        obtain ⟨d, rfl⟩ : ∃ d, ip = m + d := ⟨ip - m, by omega⟩
        refine (ends_agree hip).bind fun b hb m' hm' => ?_
        cases b with
        | false => cases hm'
        | true =>
            cases hm'
            refine ⟨hlt, hnear, ?_⟩
            rw [Nat.add_sub_cancel_left]
            exact hb.1 rfl

/-- The work behind a match ends. -/
theorem ends_afterMatch (hmin : minLength ≤ j.source.length) {anchor ip : ℕ} {table : Table}
    {out : Bytes} (hw : j.Writes ip out) (hlt : anchor < ip) (hip : 2 ≤ ip)
    (hbelow : table.Below ip) (hroom : out.length + 3 ≤ j.room) :
    Ends (j.afterMatch ip table out) (j.Good anchor) := by
  have hlims := (mflimit_eq hmin).1
  unfold mfLimit minMatch at hlims
  unfold afterMatch
  by_cases hend : ip > j.mflimit
  · rw [if_pos hend]
    exact hw
  · have hput : ∀ h, (putPositionOnHash j.tableType (ip - 2) h table).Below ip := fun h =>
      hbelow.put (by omega)
    have hput' : ∀ h h', (putPositionOnHash j.tableType ip h'
        (putPositionOnHash j.tableType (ip - 2) h table)).Below (ip + 1) := fun h h' =>
      ((hput h).mono (Nat.le_succ ip)).put (Nat.lt_succ_self ip)
    rw [if_neg hend]
    refine (ends_hashPosition (by omega)).bind fun h _ => ?_
    refine (ends_hashPosition (by omega)).bind fun h' _ => ?_
    refine (ends_nextMatch (by unfold minMatch; omega) (hput h h')).bind fun r hr => ?_
    cases r with
    | some m => exact ⟨⟨hw, hr m rfl, Nat.le_of_not_lt hend, hput' h h', hroom⟩, hlt⟩
    | none =>
        refine (ends_hashPosition (by omega)).bind fun forwardH _ => ?_
        exact ⟨⟨hw, Nat.le_succ ip, hput' h h'⟩, hlt⟩

/-- From the literals of a match on, the round is a sequence. -/
theorem ends_sequence (hj : j.Fitting) (hmin : minLength ≤ j.source.length) {out : Bytes}
    {anchor ip m b : ℕ} {table : Table} (hw : j.Writes anchor out) (ha : anchor ≤ ip)
    (hip : ip ≤ b) (hb : b ≤ j.mflimit) (hm : m < ip) (hnear : ip ≤ m + maxDistance)
    (hrep : Repeats j.source (ip - m) ip (b + minMatch)) (hbelow : table.Below (b + 1))
    (hroom : (out ++ j.opening anchor ip).length + 2 ≤ j.room) :
    Ends (j.sequence out.length ip m table (out ++ j.opening anchor ip)) (j.Good anchor) := by
  have hlims := mflimit_eq hmin
  unfold mfLimit lastLiterals at hlims
  unfold sequence
  refine (ends_putMatch hj hmin ha (by omega) hm (hrep.mono (by omega)) hroom hw.size).bind
    fun r hr => ?_
  cases r with
  | none => exact hr.1 rfl
  | some r =>
      obtain ⟨ip', out'⟩ := r
      obtain ⟨hle, hlim, hrep', hleft, hroom', rfl⟩ := hr.2 ip' out' rfl
      -- the match goes on at least as far as where it was found
      have hfar : b + minMatch < ip' + 1 := by
        by_contra hlt
        have := hleft (b + minMatch) (fun i hi hi' => hrep i (by omega) hi') (by omega)
        omega
      unfold minMatch at hle hfar
      exact ends_afterMatch hmin
        (hw.sequence hmin ha (by omega) hm hnear (by unfold minMatch; omega) hlim hrep')
        (by omega) (by omega) (hbelow.mono (by omega)) hroom'

/-- A match right behind a match has a token and no literals. -/
theorem opening_self (anchor : ℕ) : j.opening anchor anchor = [0] := by
  rw [opening, literals, Nat.sub_self]
  rfl

/-- One turn of the main loop ends. -/
theorem ends_round (hj : j.Fitting) (hmin : minLength ≤ j.source.length) {s : State}
    (hs : j.Inv s) : Ends (j.round s) (j.Good s.anchor) := by
  obtain ⟨anchor, next, table, out⟩ := s
  obtain ⟨hw, hnext⟩ := hs
  unfold round
  cases next with
  | search ip forwardH =>
      obtain ⟨ha, hbelow⟩ := hnext
      have haccel : j.acceleration <<< skipTrigger % 2 ^ 32 = j.acceleration * 2 ^ skipTrigger := by
        rw [Nat.shiftLeft_eq]
        exact Nat.mod_eq_of_lt (by have := hj.accel; omega)
      have hmf := (mflimit_eq hmin).1
      unfold mfLimit at hmf
      dsimp only at ha hbelow ⊢
      rw [haccel]
      refine (ends_findMatch hmin hj.len_16 _ ip 1 _ forwardH table hbelow Nat.one_pos
        (Nat.le_mul_of_pos_left _ hj.accel.1) (by have := hj.accel; omega) (by omega)).bind
        fun r hr => ?_
      cases r with
      | none => exact hw
      | some r =>
          obtain ⟨b, m, table'⟩ := r
          obtain ⟨hle, hlt, hmatch, hbelow'⟩ := hr b m table' rfl
          dsimp only
          cases hcatch : j.catchUp anchor b m with
          | mk ip' m' =>
              obtain ⟨ha', hle', hm', hd, hrep⟩ :=
                catchUp_spec (ha.trans hle) hmatch.lt hmatch.repeats hcatch
              have hnear := hmatch.near
              have hlt' := hmatch.lt
              rw [← hd] at hrep
              dsimp only
              refine (ends_putLiterals hj hmin hw.size ha' (by omega)).bind fun r hr => ?_
              cases r with
              | none => exact hr.1 rfl
              | some out' =>
                  obtain ⟨rfl, hroom⟩ := hr.2 out' rfl
                  exact ends_sequence hj hmin hw ha' hle' hlt.le hm' (by omega) hrep hbelow' hroom
  | found m =>
      obtain ⟨hmatch, hle, hbelow, hroom⟩ := hnext
      dsimp only at hmatch hle hbelow hroom ⊢
      rw [put_eq (show out.length + [0].length ≤ j.room by rw [List.length_singleton]; omega)]
      have hseq := ends_sequence hj hmin hw (Nat.le_refl anchor) (Nat.le_refl anchor) hle
        hmatch.lt hmatch.near hmatch.repeats hbelow
        (by rw [opening_self, List.length_append, List.length_singleton]; exact hroom)
      rw [opening_self] at hseq
      exact hseq

/-- A block that is complete. -/
structure Complete (j : Job) (out : Bytes) : Prop where
  decodes : Decodes j.source [] out
  bound : out.length ≤ j.source.length + j.source.length / 255 + 16
  room : out.length ≤ j.room

/-- Writing the last literals ends. -/
theorem ends_putLast (hj : j.Fitting) {anchor : ℕ} {out : Bytes} (hw : j.Writes anchor out) :
    Ends (j.putLast out anchor) fun r =>
      (r = none → j.limited = true) ∧ ∀ out', r = some out' → j.Complete out' := by
  have hle := hw.le
  have hsize := hw.size
  have hext := length_extra_le (j.source.length - anchor)
  have hlast : (j.source.drop anchor).length = j.source.length - anchor := List.length_drop
  unfold putLast
  by_cases hfull : j.limited = true ∧ out.length + (j.source.length - anchor) + 1 +
      (j.source.length - anchor + 255 - mask) / 255 > j.room
  · rw [if_pos hfull]
    exact ⟨fun _ => hfull.1, fun _ h => absurd h.symm (Option.some_ne_none _)⟩
  · have hspace : out.length + 1 + (extra (j.source.length - anchor)).length +
        (j.source.length - anchor) ≤ j.room := by
      cases hlimited : j.limited with
      | false =>
          have := hj.room hlimited
          omega
      | true =>
          have hcheck : ¬ _ := fun h => hfull ⟨hlimited, h⟩
          rw [length_extra]
          unfold mask at *
          split <;> omega
    rw [if_neg hfull, literalBytes_eq, put_eq (by rw [List.length_cons]; omega)]
    show Ends (j.put (out ++ token (j.source.length - anchor) 0 ::
      extra (j.source.length - anchor)) (j.source.drop anchor) >>= _) _
    rw [put_eq (by rw [hlast, List.length_append, List.length_cons]; omega)]
    refine ⟨fun h => absurd h (Option.some_ne_none _), fun out' h => ?_⟩
    obtain rfl := Option.some.inj h
    have hcode : out ++ token (j.source.length - anchor) 0 ::
        extra (j.source.length - anchor) ++ j.source.drop anchor =
          out ++ lastCode (j.source.drop anchor) := by
      rw [lastCode, hlast, List.append_assoc, List.cons_append]
    have hlen := length_lastCode (j.source.drop anchor)
    rw [hcode]
    refine ⟨hw.decodes _ (.last _ _ (List.take_append_drop anchor j.source)), ?_, ?_⟩
    all_goals
      rw [List.length_append, hlen, hlast]
      omega

/-- The main loop ends, with the block complete or the room used up. -/
theorem ends_mainLoop (hj : j.Fitting) (hmin : minLength ≤ j.source.length) :
    ∀ (fuel : ℕ) (s : State), j.Inv s → j.source.length - s.anchor < fuel →
      Ends (j.mainLoop fuel s) fun r =>
        (r = none → j.limited = true) ∧ ∀ out, r = some out → j.Complete out := by
  intro fuel
  induction fuel with
  | zero =>
      intro s _ hfuel
      omega
  | succ fuel ih =>
      intro s hs hfuel
      unfold mainLoop
      refine (ends_round hj hmin hs).bind fun r hr => ?_
      cases r with
      | full => exact ⟨fun _ => hr, fun _ h => absurd h.symm (Option.some_ne_none _)⟩
      | last anchor out => exact ends_putLast hj hr
      | more s' =>
          obtain ⟨hs', hlt⟩ := hr
          have hle := hs'.writes.le
          exact ih s' hs' (by omega)

/-- A job that fits its room is done without an access outside of its memory. -/
theorem ends_compressGeneric (hj : j.Fitting) :
    Ends j.compressGeneric fun r =>
      (r = none → j.limited = true) ∧ ∀ out, r = some out → j.Complete out := by
  unfold compressGeneric
  rw [if_neg (Nat.not_lt.2 hj.len_max),
    if_neg fun h => absurd (hj.len_16 h.1) (Nat.not_lt.2 h.2)]
  split
  case isTrue => exact ends_putLast hj (writes_nil j)
  case isFalse hmin =>
    have hmin := Nat.le_of_not_lt hmin
    have hlen : 13 ≤ j.source.length := hmin
    refine (ends_hashPosition (by omega)).bind fun h _ => ?_
    refine (ends_hashPosition (by omega)).bind fun forwardH _ => ?_
    refine ends_mainLoop hj hmin _ _ ⟨writes_nil j, Nat.zero_le 1, ?_⟩ (by dsimp only; omega)
    exact (j.tableType.empty_below Nat.one_pos).put Nat.one_pos

end Job

/-- `LZ4_compress_default` reads and writes only what it has been given.  What it puts out is a
    block of the source; and it puts one out where there is room for `compressBound`. -/
theorem ends_compressDefault (is64 : Bool) {source : Bytes} {room : ℕ}
    (hlen : source.length ≤ maxInputSize)
    (hroom : compressBound source.length ≤ room ∨ source.length ≤ 2 ^ 17) :
    Ends (compressDefault is64 source room) fun r =>
      (r = none → room < compressBound source.length) ∧ ∀ out, r = some out →
        Decodes source [] out ∧ out.length ≤ room ∧ out.length ≤ compressBound source.length := by
  have hbound : compressBound source.length = source.length + source.length / 255 + 16 :=
    if_neg (Nat.not_lt.2 hlen)
  have hspec := Job.ends_compressGeneric (j := ⟨is64, decide (room < compressBound source.length),
    if source.length < limit64K then .byU16 else if is64 then .byU32 else .byPtr, 1, source, room⟩)
    { len_max := hlen
      len_16 := fun h => by
        dsimp only at h ⊢
        by_contra hlt
        rw [if_neg hlt] at h
        split at h <;> cases h
      accel := by
        unfold maxInputSize at hlen
        unfold skipTrigger
        dsimp only
        omega
      room := fun h => by
        have hle := of_decide_eq_false h
        dsimp only at hle ⊢
        omega
      limit := fun h => by
        have hlt := of_decide_eq_true h
        dsimp only at hlt ⊢
        omega }
  refine Ends.mono hspec fun r hr => ⟨fun h => of_decide_eq_true (hr.1 h), fun out h => ?_⟩
  obtain ⟨hdec, hlen', hroom'⟩ := hr.2 out h
  exact ⟨hdec, hroom', by rw [hbound]; exact hlen'⟩

end Lz4Block
