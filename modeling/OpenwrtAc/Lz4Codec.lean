/-
# lz4.c behind lua-encrypt

The three functions of `lz4.c` are what the codec of lua-encrypt takes them for.
-/
import OpenwrtAc.Encrypt
import OpenwrtAc.Lz4Decode
import OpenwrtAc.Lz4Encode

open Rds Outcome

namespace Lz4Block

/-- `malloc`ed memory with anything in it. -/
def garbage (mem : ℕ → UInt8) (n : ℕ) : Bytes := (List.range n).map mem

theorem length_garbage (mem : ℕ → UInt8) (n : ℕ) : (garbage mem n).length = n := by
  rw [garbage, List.length_map, List.length_range]

/-- `lz4.c` on a machine of 64 or 32 bits, where `above` says how many addresses there are above
    the memory of a call and the sixteen behind it.  Behind a string of Lua there is a 0. -/
def lz4 (is64 : Bool) (mem : ℕ → UInt8) (above : ℕ → ℕ) : Encrypt.Lz4 where
  compressBound := compressBound
  compressDefault source maxDestSize :=
    match compressDefault is64 source maxDestSize with
    | .ok (some out) => out
    | _ => []
  decompressSafe source maxDecompressedSize :=
    match decompressSafe ⟨is64, above maxDecompressedSize⟩ (source ++ [0]) source.length
      (garbage mem maxDecompressedSize) with
    | .ok (n, dest) => .ok (dest.take n)
    | .error (.outputError ip) => .error ip
    | .error _ => .error (source.length + 1)

/-- With room for `compressBound` there is a block. -/
theorem exists_block (is64 : Bool) {source : Bytes} {room : ℕ}
    (hlen : source.length ≤ maxInputSize) (hroom : compressBound source.length ≤ room) :
    ∃ out, compressDefault is64 source room = .ok (some out) ∧ Decodes source [] out ∧
      out.length ≤ compressBound source.length := by
  obtain ⟨r, hr, hnone, hsome⟩ := (ends_compressDefault is64 hlen (Or.inl hroom)).exists_ok
  match r with
  | none => exact absurd (hnone rfl) (Nat.not_lt.2 hroom)
  | some out =>
    obtain ⟨hdec, -, hbound⟩ := hsome out rfl
    exact ⟨out, hr, hdec, hbound⟩

/-- A `size_t` can tell the length of every source. -/
theorem maxInputSize_lt_word (m : Machine) : maxInputSize < m.word := by
  unfold Machine.word
  split
  · decide
  · decide

/-- What `lz4.h` says of the three functions holds of `lz4.c`. -/
theorem lz4_lawful (is64 : Bool) (mem : ℕ → UInt8) (above : ℕ → ℕ) :
    (lz4 is64 mem above).Lawful where
  bound n hn := if_neg (Nat.not_lt.2 hn)
  fits s hs m hm := by
    obtain ⟨out, hout, hdec, hbound⟩ := exists_block is64 hs hm
    have heq : (lz4 is64 mem above).compressDefault s m = out := by
      show (match compressDefault is64 s m with | .ok (some out) => out | _ => []) = out
      rw [hout]
    rw [heq]
    exact ⟨List.ne_nil_of_length_pos hdec.length_pos, hbound⟩
  inverts s hs m hm n hn := by
    obtain ⟨out, hout, hdec, -⟩ := exists_block is64 hs hm
    have heq : (lz4 is64 mem above).compressDefault s m = out := by
      show (match compressDefault is64 s m with | .ok (some out) => out | _ => []) = out
      rw [hout]
    obtain ⟨r, hr, hnum, -, htake⟩ := (@sat_decompressSafe ⟨is64, above n⟩ _ _ [0] (garbage mem n)
      hdec (by rw [length_garbage]; exact hn) (hs.trans_lt (maxInputSize_lt_word _))).exists_ok
    rw [heq]
    show (match decompressSafe ⟨is64, above n⟩ (out ++ [0]) out.length (garbage mem n) with
      | .ok (n, dest) => Except.ok (dest.take n)
      | .error (.outputError ip) => .error ip
      | .error _ => .error (out.length + 1)) = .ok s
    rw [hr]
    show Except.ok (r.2.take r.1) = _
    rw [hnum, htake]

/-- With any room, what the compressor puts out for a source of up to 128 KiB has place in it, and
    is decompressed to the source in any memory that is large enough, whatever lies behind it. -/
theorem compressed_decompressed (is64 : Bool) {source : Bytes} (room : ℕ)
    (hlen : source.length ≤ 2 ^ 17) :
    ∃ r, compressDefault is64 source room = .ok r ∧
      (r = none → room < compressBound source.length) ∧
      ∀ out, r = some out → out.length ≤ room ∧ ∀ (above : ℕ) (behind dest : Bytes),
        source.length ≤ dest.length →
        ∃ dest', decompressSafe ⟨is64, above⟩ (out ++ behind) out.length dest =
            .ok (source.length, dest') ∧
          dest'.length = dest.length ∧ dest'.take source.length = source := by
  have hmax : (2 : ℕ) ^ 17 ≤ maxInputSize := by decide
  obtain ⟨r, hr, hnone, hsome⟩ :=
    (@ends_compressDefault is64 _ room (Nat.le_trans hlen hmax) (Or.inr hlen)).exists_ok
  refine ⟨r, hr, hnone, fun out hout => ?_⟩
  obtain ⟨hdec, hroom, -⟩ := hsome out hout
  refine ⟨hroom, fun above behind dest hdest => ?_⟩
  have hword := (hlen.trans hmax).trans_lt (maxInputSize_lt_word ⟨is64, above⟩)
  obtain ⟨⟨n, dest'⟩, hrun, hnum, hsize, htake⟩ :=
    (sat_decompressSafe behind hdec hdest hword).exists_ok
  obtain rfl : n = source.length := hnum
  exact ⟨dest', hrun, hsize, htake⟩

/-- Forty equal bytes in the room for twenty. -/
theorem forty_decompressed :
    ∃ r, compressDefault true (List.replicate 40 7) 20 = .ok r ∧
      (r = none → 20 < compressBound 40) ∧
      ∀ out, r = some out → out.length ≤ 20 ∧ ∀ (above : ℕ) (behind dest : Bytes),
        40 ≤ dest.length →
        ∃ dest', decompressSafe ⟨true, above⟩ (out ++ behind) out.length dest = .ok (40, dest') ∧
          dest'.length = dest.length ∧ dest'.take 40 = List.replicate 40 7 :=
  @compressed_decompressed true (List.replicate 40 7) 20 (by decide)

end Lz4Block
