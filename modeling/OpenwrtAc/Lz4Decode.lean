/-
# What the decompressor makes of its input

A block of the format is decoded to what it means, whatever was in the memory before.  On
any other input the decompressor stays inside of its two buffers, but for the shortest inputs,
behind which it reads one byte or two, and for a match that ends above the last address.
-/
import OpenwrtAc.Lz4Copy

open Rds ByteCodec LzWindow Outcome

namespace Lz4Block

/-! ## The lengths in a block -/

section Lengths

variable {m : Machine} {source behind pre rest : Bytes}

theorem readByte_at {b : UInt8} (h : source = pre ++ b :: rest) :
    readByte (source ++ behind) pre.length = .ok b.toNat := by
  rw [h, List.append_assoc]
  exact readByte_append pre b (rest ++ behind)

/-- A byte of the input. -/
theorem readByte_input {p : ℕ} (h : p < source.length) :
    readByte (source ++ behind) p = .ok source[p].toNat := by
  rw [readByte_eq (by rw [List.length_append]; omega), List.getElem_append_left h]

theorem literalLength_run {r : ℕ} (hr : r < 255) (hrest : mask ≤ rest.length) :
    ∀ (q fuel n : ℕ) (pre : Bytes),
      source = pre ++ (List.replicate q 255 ++ UInt8.ofNat r :: rest) → q < fuel →
      n + (255 * q + r) < m.word →
      literalLength m (source ++ behind) source.length fuel pre.length n =
        .ok (pre.length + (q + 1), n + (255 * q + r)) := by
  intro q
  unfold mask at hrest
  induction q with
  | zero =>
      intro fuel n pre hsource hfuel hn
      obtain ⟨fuel, rfl⟩ : ∃ k, fuel = k + 1 := ⟨fuel - 1, by omega⟩
      unfold literalLength
      rw [readByte_at hsource, UInt8.toNat_ofNat_of_lt' (Nat.lt_trans hr (by decide))]
      show (if _ ∧ r = 255 then _ else _) = _
      rw [if_neg fun h => by omega, Nat.mod_eq_of_lt (by omega), Nat.mul_zero, Nat.zero_add,
        Nat.zero_add]
      rfl
  | succ q ih =>
      intro fuel n pre hsource hfuel hn
      obtain ⟨fuel, rfl⟩ : ∃ k, fuel = k + 1 := ⟨fuel - 1, by omega⟩
      have hlen := congrArg List.length hsource
      simp only [List.length_append, List.length_replicate, List.length_cons] at hlen
      have hnext : source = (pre ++ [255]) ++ (List.replicate q 255 ++ UInt8.ofNat r :: rest) := by
        rw [hsource, List.replicate_succ, List.append_assoc]
        rfl
      have hrun := ih fuel (n + 255) (pre ++ [255]) hnext (by omega) (by omega)
      rw [List.length_append, List.length_singleton] at hrun
      unfold literalLength
      rw [readByte_at hsource]
      show (if pre.length + 1 + 15 < source.length ∧ (255 : ℕ) = 255 then _ else _) = _
      rw [if_pos ⟨by omega, rfl⟩]
      show literalLength m _ _ fuel (pre.length + 1) ((n + 255) % m.word) = _
      rw [Nat.mod_eq_of_lt (by omega), hrun]
      congr 2
      · omega
      · omega

theorem matchLength_run {r : ℕ} (hr : r < 255) (hrest : lastLiterals ≤ rest.length + 1) :
    ∀ (q fuel n : ℕ) (pre : Bytes),
      source = pre ++ (List.replicate q 255 ++ UInt8.ofNat r :: rest) → q < fuel →
      n + (255 * q + r) < m.word →
      matchLength m (source ++ behind) source.length fuel pre.length n =
        .ok (pre.length + (q + 1), n + (255 * q + r)) := by
  intro q
  unfold lastLiterals at hrest
  induction q with
  | zero =>
      intro fuel n pre hsource hfuel hn
      obtain ⟨fuel, rfl⟩ : ∃ k, fuel = k + 1 := ⟨fuel - 1, by omega⟩
      have hlen := congrArg List.length hsource
      simp only [List.length_append, List.length_replicate, List.length_cons] at hlen
      unfold matchLength lastLiterals
      rw [stopIf_of_not (by omega)]
      show readByte (source ++ behind) pre.length >>= _ = _
      rw [readByte_at hsource, UInt8.toNat_ofNat_of_lt' (Nat.lt_trans hr (by decide))]
      show (if r = 255 then _ else _) = _
      rw [if_neg (by omega), Nat.mod_eq_of_lt (by omega), Nat.mul_zero, Nat.zero_add,
        Nat.zero_add]
      rfl
  | succ q ih =>
      intro fuel n pre hsource hfuel hn
      obtain ⟨fuel, rfl⟩ : ∃ k, fuel = k + 1 := ⟨fuel - 1, by omega⟩
      have hlen := congrArg List.length hsource
      simp only [List.length_append, List.length_replicate, List.length_cons] at hlen
      have hnext : source = (pre ++ [255]) ++ (List.replicate q 255 ++ UInt8.ofNat r :: rest) := by
        rw [hsource, List.replicate_succ, List.append_assoc]
        rfl
      have hrun := ih fuel (n + 255) (pre ++ [255]) hnext (by omega) (by omega)
      rw [List.length_append, List.length_singleton] at hrun
      unfold matchLength lastLiterals
      rw [stopIf_of_not (by omega)]
      show readByte (source ++ behind) pre.length >>= _ = _
      rw [readByte_at hsource]
      show matchLength m _ _ fuel (pre.length + 1) ((n + 255) % m.word) = _
      rw [Nat.mod_eq_of_lt (by omega), hrun]
      congr 2
      · omega
      · omega

/-- A length that is half in the token, read by `f`. -/
theorem extra_read {n : ℕ} {f : ℕ → ℕ → ℕ → Except Halt (ℕ × ℕ)}
    (hsource : source = pre ++ (extra n ++ rest))
    (hf : mask ≤ n → ∀ r < 255, ∀ q < source.length, mask + (255 * q + r) = n →
      source = pre ++ (List.replicate q 255 ++ UInt8.ofNat r :: rest) →
      f (source.length + 1) pre.length mask = .ok (pre.length + (q + 1), mask + (255 * q + r))) :
    (if min n mask = mask then f (source.length + 1) pre.length mask
      else pure (pre.length, min n mask) : Except Halt (ℕ × ℕ)) =
      .ok (pre.length + (extra n).length, n) := by
  by_cases hn : n < mask
  · rw [if_neg (by omega), extra_of_lt hn, Nat.min_eq_left (by omega)]
    rfl
  · have hextra := extra_of_le (n := n) (by omega)
    rw [hextra, List.append_assoc] at hsource
    have hlen := congrArg List.length hsource
    simp only [List.length_append, List.length_replicate, List.length_singleton] at hlen
    rw [if_pos (by omega), hf (by omega) ((n - mask) % 255) (by omega) ((n - mask) / 255) (by omega)
        (by omega) hsource, hextra, List.length_append, List.length_replicate,
      List.length_singleton]
    congr 2
    omega

/-- The literals of a sequence, and where they are. -/
theorem literals_read {n len : ℕ} (hrest : mask ≤ n → mask ≤ rest.length) (hn : n < m.word)
    (hsource : source = pre ++ (token n len :: (extra n ++ rest))) :
    (if (token n len).toNat >>> 4 = mask then
        literalLength m (source ++ behind) source.length (source.length + 1) (pre.length + 1) mask
      else pure (pre.length + 1, (token n len).toNat >>> 4) : Except Halt (ℕ × ℕ)) =
      .ok (pre.length + 1 + (extra n).length, n) := by
  have hsource' : source = (pre ++ [token n len]) ++ (extra n ++ rest) := by
    rw [hsource, List.append_assoc]
    rfl
  have hpre : (pre ++ [token n len]).length = pre.length + 1 := List.length_append
  rw [token_shiftRight, ← hpre]
  exact extra_read hsource' fun hle r hr q hq heq h =>
    literalLength_run hr (hrest hle) q _ mask _ h (by omega) (heq ▸ hn)

/-- The length of a match, and where its sequence ends. -/
theorem match_read {n len op : ℕ} {dest : Bytes} (hrest : lastLiterals ≤ rest.length + 1)
    (hlen : len < m.word) (hop : op + len < m.top dest)
    (hsource : source = pre ++ (extra len ++ rest)) :
    matchLengthAt m (source ++ behind) source.length (token n len).toNat pre.length op dest =
      .ok (pre.length + (extra len).length, len) := by
  have hread := extra_read (f := fun fuel ip k =>
      matchLength m (source ++ behind) source.length fuel ip k >>= fun r =>
        stopIf (m.top dest ≤ op + r.2) (.outputError r.1) >>= fun _ => pure r)
      hsource fun _ r hr q hq heq h => by
    have hrun := @matchLength_run m source behind rest r hr hrest q (source.length + 1) mask pre h
      (by omega) (heq ▸ hlen)
    show matchLength m _ _ _ _ _ >>= _ = _
    rw [hrun]
    show (stopIf (m.top dest ≤ op + (mask + (255 * q + r))) _ : Except Halt Unit) >>= _ = _
    rw [stopIf_of_not (by omega)]
    rfl
  unfold matchLengthAt
  rw [token_and]
  exact hread

end Lengths

/-! ## Blocks -/

/-- What a decoding to `out` leaves behind. -/
def Decoded (out dest : Bytes) (r : ℕ × Bytes) : Prop :=
  r.1 = out.length ∧ r.2.length = dest.length ∧ r.2.take out.length = out

theorem decodeLoop_last {m : Machine} {acc lits pre behind dest : Bytes} {fuel : ℕ}
    (hacc : dest.take acc.length = acc) (hroom : (acc ++ lits).length ≤ dest.length)
    (hword : (acc ++ lits).length < m.word) (hfuel : 0 < fuel) :
    Sat (decodeLoop m ((pre ++ lastCode lits) ++ behind) (pre ++ lastCode lits).length fuel
      pre.length acc.length dest) (Decoded (acc ++ lits) dest) fun _ => False := by
  obtain ⟨fuel, rfl⟩ : ∃ k, fuel = k + 1 := ⟨fuel - 1, by omega⟩
  obtain ⟨source, hsource⟩ : ∃ source, source = pre ++ lastCode lits := ⟨_, rfl⟩
  rw [List.length_append] at hroom hword
  have hlen := congrArg List.length hsource
  rw [List.length_append, length_lastCode] at hlen
  have hdrop : source.drop (pre.length + 1 + (extra lits.length).length) = lits := by
    have : source = (pre ++ [token lits.length 0] ++ extra lits.length) ++ lits := by
      rw [hsource, List.append_assoc, List.append_assoc]
      rfl
    rw [this, List.drop_left' (by simp only [List.length_append, List.length_singleton])]
  have hstore : (overwrite dest acc.length lits).take (acc ++ lits).length = acc ++ lits := by
    rw [List.length_append, take_overwrite_add (by omega) (Nat.le_refl _), hacc,
      List.take_of_length_le (Nat.le_refl _)]
  rw [← hsource]
  unfold decodeLoop
  rw [readByte_at hsource]
  show Sat ((if (token lits.length 0).toNat >>> 4 = mask then _ else _) >>= _) _ _
  rw [literals_read (fun h => h) (by omega) hsource]
  show Sat (if _ then _ else _) _ _
  rw [if_pos (Or.inr (by omega)), stopIf_of_not (by omega)]
  show Sat (load (source ++ behind) _ lits.length >>= _) _ _
  rw [load_eq (by rw [List.length_append]; omega), List.drop_append_of_le_length (by omega), hdrop,
    List.take_left]
  show Sat (store dest acc.length lits >>= _) _ _
  rw [store_eq (by omega)]
  exact ⟨List.length_append.symm, length_overwrite (by omega), hstore⟩


/-- The two copies of a sequence. -/
theorem exists_copies {s : Sequence} {acc dest source : Bytes} {ip jp : ℕ} (hfits : s.Fits acc)
    (hacc : dest.take acc.length = acc)
    (hlim : acc.length + s.lits.length + mfLimit ≤ dest.length)
    (hend : acc.length + s.lits.length + s.len + lastLiterals ≤ dest.length)
    (hlits : (source.drop ip).take s.lits.length = s.lits)
    (hip : ip + s.lits.length + 8 ≤ source.length) :
    ∃ dest₁ dest₂, wildCopy (some source) (dest.length + 1) dest acc.length ip
        (acc.length + s.lits.length) = .ok dest₁ ∧
      copyMatch dest₁ jp (acc.length + s.lits.length) (acc.length + s.lits.length - s.dist) s.len =
        .ok dest₂ ∧
      dest₁.length = dest.length ∧ dest₂.length = dest.length ∧
      dest₂.take (s.run acc).length = s.run acc := by
  have hdist := hfits.dist_le
  have hpos := hfits.dist_pos
  have hrun := hfits.length_run
  unfold mfLimit minMatch lastLiterals at *
  obtain ⟨dest₁, h₁, hlen₁, htake₁⟩ := (@sat_wildCopy_source source _ (dest.length + 1)
    s.lits.length dest acc.length ip (by omega) (by omega) (by omega)).exists_ok
  rw [hacc, hlits] at htake₁
  have hcopy := @sat_copyMatch dest₁ jp (acc.length + s.lits.length)
    (acc.length + s.lits.length - s.dist) s.len (Nat.sub_le _ _)
    (by unfold mfLimit minMatch; omega) hfits.len_le
  have hcopy' : Sat (copyMatch dest₁ jp (acc.length + s.lits.length)
      (acc.length + s.lits.length - s.dist) s.len) _ fun _ => False :=
    hcopy.mono (fun _ h => h) fun e he => by
      have := he.2
      unfold lastLiterals at this
      omega
  obtain ⟨dest₂, h₂, hcopied⟩ := hcopy'.exists_ok
  have hdiff : acc.length + s.lits.length - (acc.length + s.lits.length - s.dist) = s.dist := by
    omega
  rw [hdiff] at hcopied
  refine ⟨dest₁, dest₂, h₁, h₂, hlen₁, hcopied.length.trans hlen₁, ?_⟩
  rw [hrun, eq_copyBack hpos hdist (by rw [hcopied.length]; omega) (hcopied.repeats hpos),
    hcopied.front, htake₁]
  rfl

theorem decodeLoop_sequence {m : Machine} {s : Sequence} {acc pre code behind dest : Bytes}
    (fuel : ℕ) (hword : acc.length + s.lits.length + s.len < m.word) (hfits : s.Fits acc) (hacc : dest.take acc.length = acc)
    (hlim : acc.length + s.lits.length + mfLimit ≤ dest.length)
    (hend : acc.length + s.lits.length + s.len + lastLiterals ≤ dest.length)
    (hcode : lastLiterals < code.length) :
    ∃ dest', dest'.length = dest.length ∧ dest'.take (s.run acc).length = s.run acc ∧
      decodeLoop m ((pre ++ (s.code ++ code)) ++ behind) (pre ++ (s.code ++ code)).length (fuel + 1)
          pre.length acc.length dest =
        decodeLoop m ((pre ++ (s.code ++ code)) ++ behind) (pre ++ (s.code ++ code)).length fuel
          (pre ++ s.code).length (s.run acc).length dest' := by
  obtain ⟨source, hsource⟩ : ∃ source, source = pre ++ (s.code ++ code) := ⟨_, rfl⟩
  have hlen := congrArg List.length hsource
  rw [List.length_append, List.length_append, s.length_code] at hlen
  unfold lastLiterals at hcode
  -- the pieces of the input, as the decompressor comes to them
  have htoken : source = pre ++ (token s.lits.length (s.len - minMatch) ::
      (extra s.lits.length ++ (s.lits ++ (le16 s.dist ++ (extra (s.len - minMatch) ++ code))))) := by
    rw [hsource]
    simp only [Sequence.code, List.cons_append, List.append_assoc]
  obtain ⟨ip, hip⟩ : ∃ ip, ip = pre.length + 1 + (extra s.lits.length).length := ⟨_, rfl⟩
  have hdrop : source.drop ip =
      s.lits ++ (le16 s.dist ++ (extra (s.len - minMatch) ++ code)) := by
    rw [htoken, List.append_cons, ← List.append_assoc, List.drop_left']
    rw [hip, List.length_append, List.length_append, List.length_singleton]
  have hdrop' : source.drop (ip + s.lits.length) =
      le16 s.dist ++ (extra (s.len - minMatch) ++ code) := by
    rw [← List.drop_drop, hdrop, List.drop_left]
  have hmem : (source ++ behind).length = source.length + behind.length := List.length_append
  obtain ⟨dest₁, dest₂, h₁, h₂, hlen₁, hlen₂, htake₂⟩ := @exists_copies s _ _ (source ++ behind) ip
    (ip + s.lits.length + 2 + (extra (s.len - minMatch)).length) hfits hacc hlim hend
    (by rw [List.drop_append_of_le_length (by omega), hdrop, List.append_assoc, List.take_left])
    (by omega)
  refine ⟨dest₂, hlen₂, htake₂, ?_⟩
  have hoffset : readLE16 (source ++ behind) (ip + s.lits.length) = .ok s.dist := by
    unfold readLE16
    rw [List.drop_append_of_le_length (by omega), hdrop', List.append_assoc,
      rd16_of_lt (Nat.lt_succ_of_le hfits.dist_max)]
  have htop : ∀ n, n ≤ dest.length → n < m.top dest₁ := fun n hn => by
    rw [Machine.top, hlen₁]
    omega
  unfold lastLiterals at hend
  have hmatch := @match_read m source behind (source.take (ip + s.lits.length + 2)) code
    s.lits.length (s.len - minMatch) (acc.length + s.lits.length) dest₁
    (by unfold lastLiterals; omega) (by omega) (htop _ (by omega)) (by
      conv_lhs => rw [← List.take_append_drop (ip + s.lits.length + 2) source, ← List.drop_drop,
        hdrop', List.drop_left' (le16_length s.dist)])
  rw [List.length_take, Nat.min_eq_left (by omega)] at hmatch
  have hip' : ip + s.lits.length + 2 + (extra (s.len - minMatch)).length =
      (pre ++ s.code).length := by
    rw [List.length_append, s.length_code]
    omega
  have hdist := hfits.dist_le
  have hlen := hfits.len_le
  rw [← hsource, decodeLoop, readByte_at htoken]
  show ((if (token s.lits.length (s.len - minMatch)).toNat >>> 4 = mask then _ else _ :
    Except Halt (ℕ × ℕ)) >>= _) = _
  rw [literals_read (fun _ => by simp only [List.length_append, le16_length]; unfold mask at *; omega)
    (by omega) htoken]
  show (if _ then _ else _) = _
  rw [← hip, if_neg (by unfold lastLiterals; omega)]
  show wildCopy _ _ _ _ _ _ >>= _ = _
  rw [h₁]
  show readLE16 _ _ >>= _ = _
  rw [hoffset]
  show (stopIf _ _ : Except Halt Unit) >>= _ = _
  rw [stopIf_of_not (by omega)]
  show matchLengthAt _ _ _ _ _ _ _ >>= _ = _
  rw [hmatch]
  show (stopIf (m.top dest₁ ≤ _ + (s.len - minMatch + minMatch)) _ : Except Halt Unit) >>= _ = _
  rw [Nat.sub_add_cancel hlen, stopIf_of_not (Nat.not_le.2 (htop _ (by omega)))]
  show copyMatch _ _ _ _ s.len >>= _ = _
  rw [h₂, hip', hfits.length_run]
  rfl

/-- Whatever the memory holds behind what is decoded, and behind the block. -/
theorem sat_decodeLoop {m : Machine} {out acc code behind : Bytes} (h : Decodes out acc code) :
    ∀ (fuel : ℕ) (pre dest : Bytes), dest.take acc.length = acc → out.length ≤ dest.length →
      out.length < m.word → code.length < fuel →
      Sat (decodeLoop m ((pre ++ code) ++ behind) (pre ++ code).length fuel pre.length acc.length
        dest) (Decoded out dest) fun _ => False := by
  induction h with
  | last acc lits hout =>
      intro fuel pre dest hacc hroom hword hfuel
      rw [← hout] at hroom hword ⊢
      exact decodeLoop_last hacc hroom hword (by omega)
  | sequence acc code s hfits hlim hend hcode ih =>
      intro fuel pre dest hacc hroom hword hfuel
      obtain ⟨fuel, rfl⟩ : ∃ k, fuel = k + 1 := ⟨fuel - 1, by omega⟩
      rw [List.length_append, s.length_code] at hfuel
      have hrun := hfits.length_run
      obtain ⟨dest', hlen, htake, hstep⟩ := @decodeLoop_sequence m _ _ pre _ behind _ fuel
        (by omega) hfits hacc (hlim.trans hroom) (hend.trans hroom)
        (hcode.lt_length (by omega))
      rw [hstep, ← List.append_assoc pre]
      exact (ih fuel (pre ++ s.code) dest' htake (by omega) hword (by omega)).mono
        (fun r hr => ⟨hr.1, hr.2.1.trans hlen, hr.2.2⟩) fun _ => id

/-- A block is decoded to what it means, in any memory that has room for it. -/
theorem sat_decompressSafe {m : Machine} {out source : Bytes} (behind : Bytes) {dest : Bytes}
    (h : Decodes out [] source) (hroom : out.length ≤ dest.length) (hword : out.length < m.word) :
    Sat (decompressSafe m (source ++ behind) source.length dest) (Decoded out dest)
      fun _ => False := by
  unfold decompressSafe
  by_cases hdest : dest.length = 0
  · rw [if_pos hdest]
    cases h with
    | last _ lits hout =>
        obtain rfl : lits = [] := List.eq_nil_of_length_eq_zero (by
          rw [← hout, List.nil_append] at hroom
          omega)
        rw [if_pos ⟨rfl, rfl⟩, ← hout]
        exact ⟨rfl, rfl, rfl⟩
    | sequence _ _ s _ hlim =>
        unfold mfLimit at hlim
        omega
  · rw [if_neg hdest]
    exact sat_decodeLoop h (source.length + 1) [] dest rfl hroom hword (Nat.lt_succ_self _)

/-! ## Any input -/

/-- The call has found an error at a place of the input, or a match of it ends above the last
    address. -/
def Stops (m : Machine) (source : Bytes) (e : Halt) : Prop :=
  (∃ ip ≤ source.length, e = .outputError ip) ∨
    e = .wrapped ∧ m.above ≤ 255 * source.length + 3

section Any

variable {m : Machine} {source behind : Bytes}

theorem sat_literalLength {E : Halt → Prop} :
    ∀ (fuel ip n : ℕ), ip < source.length → source.length < ip + fuel →
      Sat (literalLength m (source ++ behind) source.length fuel ip n)
        (fun r => ip < r.1 ∧ r.1 ≤ source.length) E := by
  intro fuel
  induction fuel with
  | zero =>
      intro ip n hip hfuel
      omega
  | succ fuel ih =>
      intro ip n hip hfuel
      unfold literalLength
      rw [readByte_input hip]
      show Sat (if _ then _ else _) _ _
      split
      · exact (ih (ip + 1) _ (by omega) (by omega)).mono
          (fun r hr => ⟨by omega, hr.2⟩) fun _ => id
      · exact ⟨Nat.lt_succ_self ip, hip⟩

/-- A length is at most 255 for each byte of it. -/
theorem sat_matchLength : ∀ (fuel ip n : ℕ), ip ≤ source.length → source.length < ip + fuel →
    Sat (matchLength m (source ++ behind) source.length fuel ip n)
      (fun r => ip < r.1 ∧ r.1 + 4 ≤ source.length ∧ r.2 + 255 * ip ≤ n + 255 * r.1)
      (Stops m source) := by
  intro fuel
  induction fuel with
  | zero =>
      intro ip n hip hfuel
      omega
  | succ fuel ih =>
      intro ip n hip hfuel
      have hstop : Sat (stopIf (ip + lastLiterals > source.length) (Halt.outputError ip))
          (fun _ => ip + 5 ≤ source.length) (Stops m source) :=
        sat_stopIf (fun h => Nat.le_of_not_lt h) fun _ => Or.inl ⟨ip, hip, rfl⟩
      unfold matchLength
      refine hstop.bind fun _ hroom => ?_
      rw [readByte_input (by omega)]
      have hbyte := UInt8.toNat_lt source[ip]
      have hmod := Nat.mod_le (n + source[ip].toNat) m.word
      show Sat (if _ then _ else _) _ _
      split
      · exact (ih (ip + 1) _ (by omega) (by omega)).mono
          (fun r hr => ⟨by omega, hr.2.1, by omega⟩) fun _ => id
      · exact ⟨Nat.lt_succ_self ip, by dsimp only; omega, by dsimp only; omega⟩

/-- What a match can be long. -/
theorem sat_matchLengthAt {token ip op : ℕ} {dest : Bytes} (hip : ip + 6 ≤ source.length) :
    Sat (matchLengthAt m (source ++ behind) source.length token ip op dest)
      (fun r => ip ≤ r.1 ∧ r.1 + 4 ≤ source.length ∧ r.2 ≤ mask + 255 * source.length)
      (Stops m source) := by
  unfold matchLengthAt
  split
  · refine (sat_matchLength _ _ _ (by omega) (by omega)).bind fun r hr => ?_
    obtain ⟨jp, n⟩ := r
    dsimp only at hr ⊢
    have hstop : Sat (stopIf (m.top dest ≤ op + n) (Halt.outputError jp)) (fun _ => True)
        (Stops m source) := sat_stopIf (fun _ => trivial) fun _ => Or.inl ⟨jp, by omega, rfl⟩
    exact hstop.bind fun _ _ => ⟨by dsimp only; omega, hr.2.1, by dsimp only; omega⟩
  · have hand : token &&& mask ≤ mask := Nat.and_le_right
    exact ⟨Nat.le_refl _, by dsimp only; omega, by dsimp only; omega⟩

/-- The number that is returned, and the memory, are within `dest`. -/
def Within (dest : Bytes) (r : ℕ × Bytes) : Prop := r.1 ≤ dest.length ∧ r.2.length = dest.length

/-- As long as there are two bytes to read, the decompressor stays inside of its buffers. -/
theorem sat_decodeLoop_any :
    ∀ (fuel ip op : ℕ) (dest : Bytes), ip + 2 ≤ source.length → source.length < ip + fuel →
      Sat (decodeLoop m (source ++ behind) source.length fuel ip op dest) (Within dest)
        (Stops m source) := by
  intro fuel
  induction fuel with
  | zero =>
      intro ip op dest hip hfuel
      omega
  | succ fuel ih =>
      intro ip op dest hip hfuel
      have hmem : (source ++ behind).length = source.length + behind.length := List.length_append
      unfold decodeLoop
      rw [readByte_input (by omega)]
      generalize source[ip].toNat = token
      have hlits : Sat (if token >>> 4 = mask then
            literalLength m (source ++ behind) source.length (source.length + 1) (ip + 1) mask
          else pure (ip + 1, token >>> 4) : Except Halt (ℕ × ℕ))
          (fun r => ip < r.1 ∧ r.1 ≤ source.length) (Stops m source) := by
        split
        · exact (sat_literalLength _ _ _ (by omega) (by omega)).mono
            (fun r hr => ⟨by omega, hr.2⟩) fun _ => id
        · exact ⟨Nat.lt_succ_self ip, by dsimp only; omega⟩
      show Sat ((if _ then _ else _ : Except Halt (ℕ × ℕ)) >>= _) _ _
      refine hlits.bind fun r hr => ?_
      obtain ⟨jp, n⟩ := r
      dsimp only at hr ⊢
      split
      · -- the last literals
        have hstop : Sat (stopIf (jp + n ≠ source.length ∨ op + n > dest.length)
            (Halt.outputError jp)) (fun _ => jp + n = source.length ∧ op + n ≤ dest.length)
            (Stops m source) :=
          sat_stopIf (fun h => by omega) fun _ => Or.inl ⟨jp, hr.2, rfl⟩
        refine hstop.bind fun _ hfits => ?_
        have hpart := @length_part (source ++ behind) jp n (by omega)
        rw [load_eq (by omega)]
        show Sat (store dest op _ >>= _) _ _
        rw [store_eq (by omega)]
        exact ⟨hfits.2, length_overwrite (by omega)⟩
      · rename_i hmore
        unfold mfLimit minMatch lastLiterals at hmore
        refine (sat_wildCopy_source _ _ _ _ _ (by omega) (by omega) (by omega)).bind
          fun dest₁ h₁ => ?_
        obtain ⟨offset, hoffset⟩ := @exists_readLE16 (source ++ behind) (jp + n) (by omega)
        rw [hoffset]
        show Sat ((stopIf _ _ : Except Halt Unit) >>= _) _ _
        have hdist : Sat (stopIf (op + n < offset) (Halt.outputError (jp + n + 2)))
            (fun _ => True) (Stops m source) :=
          sat_stopIf (fun _ => trivial) fun _ => Or.inl ⟨jp + n + 2, by omega, rfl⟩
        refine hdist.bind fun _ _ => ?_
        refine (sat_matchLengthAt (by omega)).bind fun r hr' => ?_
        obtain ⟨kp, len⟩ := r
        dsimp only at hr' ⊢
        -- above the last address it is only with a length of very many bytes
        have hwrap : Sat (stopIf (m.top dest₁ ≤ op + n + (len + minMatch)) Halt.wrapped)
            (fun _ => True) (Stops m source) := by
          refine sat_stopIf (fun _ => trivial) fun hle => Or.inr ⟨rfl, ?_⟩
          unfold Machine.top minMatch at hle
          unfold mask at hr'
          omega
        refine hwrap.bind fun _ _ => ?_
        have hcopy := @sat_copyMatch dest₁ kp (op + n) (op + n - offset) (len + minMatch)
          (Nat.sub_le _ _) (by unfold mfLimit minMatch; omega)
          (Nat.le_add_left _ _)
        refine (hcopy.mono (fun _ h => h) fun e he => Or.inl ⟨kp, by omega, he.1⟩).bind
          fun dest₂ h₂ => ?_
        have hmem : dest₂.length = dest.length := h₂.length.trans h₁.1
        exact (ih kp _ dest₂ (by omega) (by omega)).mono
          (fun r hr => ⟨hmem ▸ hr.1, hr.2.trans hmem⟩) fun _ => id

end Any

/-- An input that is too short for what its first byte asks for. -/
def Short (source : Bytes) : Prop := source = [] ∨ ∃ t : UInt8, source = [t] ∧ 2 ^ 8 - 2 ^ 4 ≤ t.toNat

/-- Whether a token asks for more bytes of the length of its literals. -/
theorem token_asks (t : UInt8) : t.toNat >>> 4 = mask ↔ 2 ^ 8 - 2 ^ 4 ≤ t.toNat := by
  have := UInt8.toNat_lt t
  rw [Nat.shiftRight_eq_div_pow]
  unfold mask
  omega

/-- What follows the literals of a first token that cannot be there. -/
theorem decodeLoop_token {m : Machine} {mem dest : Bytes} {iend ip n : ℕ} {t : UInt8}
    (hread : readByte mem 0 = .ok t.toNat)
    (hlits : (if t.toNat >>> 4 = mask then literalLength m mem iend (iend + 1) (0 + 1) mask
      else pure (0 + 1, t.toNat >>> 4) : Except Halt (ℕ × ℕ)) = .ok (ip, n))
    (hne : ip + n ≠ iend) (hle : iend ≤ ip + 1) :
    decodeLoop m mem iend (iend + 1) 0 0 dest = .error (.outputError ip) := by
  rw [decodeLoop, hread]
  show ((if t.toNat >>> 4 = mask then _ else _ : Except Halt (ℕ × ℕ)) >>= _) = _
  rw [hlits]
  show (if _ then _ else _) = _
  rw [if_pos (Or.inr (by unfold lastLiterals; omega)), stopIf_of (Or.inl hne)]
  rfl

/-- Behind a token that asks for more, one byte is read. -/
theorem literalLength_once {m : Machine} {mem : Bytes} {iend ip n : ℕ} {b : UInt8}
    (hread : mem[ip]? = some b) (hend : iend ≤ ip + 1) :
    literalLength m mem iend (iend + 1) ip n = .ok (ip + 1, (n + b.toNat) % m.word) := by
  rw [literalLength, readByte, hread]
  show (if _ then _ else _) = _
  rw [if_neg (by omega)]
  rfl

/-- Behind an empty input one byte is read, and another one where that asks for it; the error
    is at the place reached. -/
theorem decodeLoop_nil {m : Machine} {behind dest : Bytes} :
    decodeLoop m behind 0 1 0 0 dest = .error (match behind with
      | [] => .outside
      | t :: more => if t.toNat < 2 ^ 8 - 2 ^ 4 then .outputError 1
        else match more with
          | [] => .outside
          | _ :: _ => .outputError 2) := by
  match behind with
  | [] => rfl
  | t :: more =>
    by_cases ht : t.toNat < 2 ^ 8 - 2 ^ 4
    · have hno : t.toNat >>> 4 ≠ mask := fun h => absurd ((token_asks t).1 h) (Nat.not_le.2 ht)
      rw [decodeLoop_token (t := t) rfl (if_neg hno) (by omega) (by omega)]
      show _ = Except.error (if _ then _ else _)
      rw [if_pos ht]
    · have hyes : t.toNat >>> 4 = mask := (token_asks t).2 (Nat.le_of_not_lt ht)
      match more with
      | [] =>
        rw [decodeLoop]
        show ((if t.toNat >>> 4 = mask then literalLength m [t] 0 1 1 mask else _ :
          Except Halt (ℕ × ℕ)) >>= _) = Except.error (if _ then _ else _)
        rw [if_pos hyes, if_neg ht]
        rfl
      | b :: more =>
        rw [decodeLoop_token (t := t) rfl ((if_pos hyes).trans (literalLength_once rfl (by omega)))
          (by omega) (by omega)]
        show _ = Except.error (if _ then _ else _)
        rw [if_neg ht]

/-- Behind a single byte that asks for more, one byte is read. -/
theorem decodeLoop_one {m : Machine} {behind dest : Bytes} {t : UInt8}
    (ht : 2 ^ 8 - 2 ^ 4 ≤ t.toNat) :
    decodeLoop m (t :: behind) 1 2 0 0 dest = .error (match behind with
      | [] => .outside
      | _ :: _ => .outputError 2) := by
  have hyes : t.toNat >>> 4 = mask := (token_asks t).2 ht
  match behind with
  | [] =>
    rw [decodeLoop]
    show ((if t.toNat >>> 4 = mask then literalLength m [t] 1 2 1 mask else _ :
      Except Halt (ℕ × ℕ)) >>= _) = _
    rw [if_pos hyes]
    rfl
  | b :: more =>
    exact decodeLoop_token (t := t) rfl ((if_pos hyes).trans (literalLength_once rfl (by omega)))
      (by omega) (by omega)

theorem sat_decodeLoop_one {m : Machine} {behind : Bytes} {t : UInt8} {dest : Bytes}
    (ht : t.toNat < 2 ^ 8 - 2 ^ 4) :
    Sat (decodeLoop m (t :: behind) 1 2 0 0 dest) (Within dest) (Stops m [t]) := by
  have hmask : t.toNat >>> 4 ≠ mask := fun h => absurd ((token_asks t).1 h) (Nat.not_le.2 ht)
  by_cases hzero : t.toNat >>> 4 = 0
  · unfold decodeLoop
    show Sat ((if t.toNat >>> 4 = mask then _ else _ : Except Halt (ℕ × ℕ)) >>= _) _ _
    rw [if_neg hmask]
    show Sat (if _ then _ else _) _ _
    rw [if_pos (Or.inr (by unfold lastLiterals; omega)), hzero,
      stopIf_of_not (by rintro (h | h) <;> [exact h rfl; exact absurd h (Nat.not_lt_zero _)])]
    show Sat (load (t :: behind) (0 + 1) 0 >>= fun bytes =>
      store dest 0 bytes >>= fun dest => pure (0 + 0, dest)) _ _
    rw [load_eq (by rw [List.length_cons]; omega)]
    exact ⟨Nat.zero_le _, length_overwrite (Nat.zero_le _)⟩
  · rw [decodeLoop_token (t := t) rfl (if_neg hmask) (by omega) (by omega)]
    exact Or.inl ⟨1, Nat.le_refl 1, rfl⟩

/-- With whatever lies behind the input, the decompressor stays inside of `dest` and ends, with a
    length or with the place of an error in the input, unless the input is too short for its
    first byte, or a match ends above the last address, which takes a byte of the input for
    every 255 addresses there are.  It reads behind no other input than those that are too
    short: one byte of what lies behind, and behind an empty input another one where that is
    at least 0xF0; and these calls end with the place reached. -/
theorem decompressSafe_bounds (m : Machine) (source behind dest : Bytes) :
    (¬ (dest ≠ [] ∧ Short source) →
      Sat (decompressSafe m (source ++ behind) source.length dest) (Within dest)
        (Stops m source)) ∧
    (dest ≠ [] → source = [] →
      decompressSafe m (source ++ behind) source.length dest = .error (match behind with
        | [] => .outside
        | t :: more => if t.toNat < 2 ^ 8 - 2 ^ 4 then .outputError 1
          else match more with
            | [] => .outside
            | _ :: _ => .outputError 2)) ∧
    (dest ≠ [] → ∀ t : UInt8, source = [t] → 2 ^ 8 - 2 ^ 4 ≤ t.toNat →
      decompressSafe m (source ++ behind) source.length dest = .error (match behind with
        | [] => .outside
        | _ :: _ => .outputError 2)) := by
  have hloop : dest ≠ [] → decompressSafe m (source ++ behind) source.length dest =
      decodeLoop m (source ++ behind) source.length (source.length + 1) 0 0 dest := fun hne =>
    if_neg fun h => hne (List.eq_nil_of_length_eq_zero h)
  refine ⟨fun hlong => ?_, fun hne hnil => ?_, fun hne t hone ht => ?_⟩
  · by_cases hdest : dest = []
    · subst hdest
      unfold decompressSafe
      rw [if_pos List.length_nil]
      split
      · exact ⟨Nat.zero_le _, rfl⟩
      · exact Or.inl ⟨0, Nat.zero_le _, rfl⟩
    · rw [hloop hdest]
      have hshort : ¬ Short source := fun h => hlong ⟨hdest, h⟩
      match source, hshort with
      | [], hshort => exact absurd (Or.inl rfl) hshort
      | [t], hshort =>
        exact sat_decodeLoop_one (Nat.lt_of_not_le fun ht => hshort (Or.inr ⟨t, rfl, ht⟩))
      | _ :: _ :: rest, _ =>
        exact sat_decodeLoop_any _ 0 0 dest (Nat.le_add_left _ _)
          (by rw [Nat.zero_add]; exact Nat.lt_succ_self _)
  · rw [hloop hne]
    subst hnil
    exact decodeLoop_nil
  · rw [hloop hne]
    subst hone
    exact decodeLoop_one ht

end Lz4Block
