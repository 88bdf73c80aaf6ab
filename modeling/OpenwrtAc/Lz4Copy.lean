/-
# The copies of the decompressor

Each of them leaves in the memory what a copy byte by byte would leave there, up to where it
has to go, and stays inside of the memory.
-/
import OpenwrtAc.Lz4Decompress
import Mathlib.Tactic.IntervalCases

open Rds ByteCodec LzWindow Outcome

namespace Lz4Block

/-! ## Memory -/

/-- A load inside the memory. -/
theorem load_eq {mem : Bytes} {p n : ℕ} (h : p + n ≤ mem.length) :
    load mem p n = .ok ((mem.drop p).take n) := if_pos h

/-- A store inside the memory. -/
theorem store_eq {mem new : Bytes} {p : ℕ} (h : p + new.length ≤ mem.length) :
    store mem p new = .ok (overwrite mem p new) := if_pos h

theorem length_part {mem : Bytes} {p n : ℕ} (h : p + n ≤ mem.length) :
    ((mem.drop p).take n).length = n := by
  rw [List.length_take, List.length_drop]
  omega

/-- A byte inside the memory is read. -/
theorem readByte_eq {mem : Bytes} {p : ℕ} (h : p < mem.length) :
    readByte mem p = .ok mem[p].toNat := by
  rw [readByte, List.getElem?_eq_getElem h]

theorem readByte_append (pre : Bytes) (b : UInt8) (rest : Bytes) :
    readByte (pre ++ b :: rest) pre.length = .ok b.toNat := by
  rw [readByte, List.getElem?_append_right (Nat.le_refl _), Nat.sub_self]
  rfl

/-- Two bytes inside the memory are read. -/
theorem exists_readLE16 {mem : Bytes} {p : ℕ} (h : p + 2 ≤ mem.length) :
    ∃ n, readLE16 mem p = .ok n := by
  unfold readLE16
  match hdrop : mem.drop p with
  | [] | [_] =>
    have := congrArg List.length hdrop
    rw [List.length_drop] at this
    simp only [List.length_nil, List.length_singleton] at this
    omega
  | _ :: _ :: _ => exact ⟨_, rfl⟩

/-! ## Copies within the output -/

/-- The memory after a copy of what stands `dist` before it, from `a` up to `d`. -/
structure Copied (dest : Bytes) (dist a d : ℕ) (dest' : Bytes) : Prop where
  length : dest'.length = dest.length
  front : dest'.take a = dest.take a
  repeats : 0 < dist → Repeats dest' dist a d

/-- What was copied further was copied so far. -/
theorem Copied.mono {dest dest' : Bytes} {dist a d d' : ℕ} (h : Copied dest dist a d dest')
    (hd : d' ≤ d) : Copied dest dist a d' dest' :=
  ⟨h.length, h.front, fun hdist => (h.repeats hdist).mono hd⟩

/-- A place from where a copy can go on at `d`: some distances before it. -/
structure Behind (dist a d s : ℕ) : Prop where
  le : s ≤ d
  multiple : 0 < dist → ∃ k, 0 < k ∧ d = s + k * dist
  start : a ≤ s + dist

/-- The source stays as far behind. -/
theorem Behind.add {dist a d s : ℕ} (h : Behind dist a d s) (n : ℕ) :
    Behind dist a (d + n) (s + n) := by
  refine ⟨Nat.add_le_add_right h.le n, fun hdist => ?_, by have := h.start; omega⟩
  obtain ⟨k, hk, hd⟩ := h.multiple hdist
  exact ⟨k, hk, by omega⟩

/-- One piece more. -/
theorem copyWithin_copied {dest dest' : Bytes} {dist a d s n : ℕ}
    (h : Copied dest dist a d dest') (hb : Behind dist a d s) (had : a ≤ d)
    (hs : 0 < dist → s + n ≤ d) (hmem : d + n ≤ dest.length) (E : Halt → Prop) :
    Sat (copyWithin dest' d s n) (Copied dest dist a (d + n)) E := by
  have hlen := h.length
  have hle := hb.le
  have hpart : ((dest'.drop s).take n).length = n := length_part (by omega)
  unfold copyWithin
  rw [load_eq (by omega)]
  show Sat (store dest' d _) _ _
  rw [store_eq (by omega)]
  refine ⟨(length_overwrite (by omega)).trans hlen, ?_, fun hdist => ?_⟩
  · rw [take_overwrite (by omega) had, h.front]
  · obtain ⟨k, hk, hd⟩ := hb.multiple hdist
    exact (h.repeats hdist).copy hd hk hb.start (hs hdist) (by omega)

/-- Copying byte by byte repeats what stands at the distance. -/
theorem sat_copyBytes {dest : Bytes} {dist a : ℕ} {E : Halt → Prop} :
    ∀ (n : ℕ) (dest' : Bytes) (d s : ℕ), Copied dest dist a d dest' → Behind dist a d s →
      a ≤ d → d + n ≤ dest.length →
      Sat (copyBytes n dest' d s) (Copied dest dist a (d + n)) E := by
  intro n
  induction n with
  | zero =>
      intro dest' d s h _ _ _
      exact h
  | succ n ih =>
      intro dest' d s h hb had hmem
      have hs : 0 < dist → s + 1 ≤ d := fun hdist => by
        obtain ⟨k, hk, hd⟩ := hb.multiple hdist
        have := Nat.mul_pos hk hdist
        omega
      unfold copyBytes
      refine (copyWithin_copied h hb had hs (by omega) E).bind fun dest₁ h₁ => ?_
      rw [show d + (n + 1) = d + 1 + n by omega]
      exact ih dest₁ (d + 1) (s + 1) h₁ (hb.add 1) (by omega) (by omega)

/-- `LZ4_wildCopy` within `dest` goes up to seven bytes too far. -/
theorem sat_wildCopy {dest : Bytes} {dist a e : ℕ} {E : Halt → Prop} :
    ∀ (fuel : ℕ) (dest' : Bytes) (d s : ℕ), Copied dest dist a d dest' → Behind dist a d s →
      a ≤ d → (0 < dist → s + 8 ≤ d) → d + max 8 (e - d + 7) ≤ dest.length → e - d < fuel →
      Sat (wildCopy none fuel dest' d s e) (Copied dest dist a e) E := by
  intro fuel
  induction fuel with
  | zero =>
      intro dest' d s _ _ _ _ _ hfuel
      omega
  | succ fuel ih =>
      intro dest' d s h hb had hs hmem hfuel
      have hcopy : Sat (copyWithin dest' d s 8) (Copied dest dist a (d + 8)) E :=
        copyWithin_copied h hb had hs (by omega) E
      show Sat (load dest' s 8 >>= fun bytes => store dest' d bytes >>= fun dest =>
        if d + 8 < e then wildCopy none fuel dest (d + 8) (s + 8) e else pure dest) _ E
      unfold copyWithin at hcopy
      rw [sat_bind] at hcopy ⊢
      refine hcopy.mono (fun bytes hbytes => ?_) fun _ => id
      refine Sat.bind hbytes fun dest₁ h₁ => ?_
      by_cases hlt : d + 8 < e
      · rw [if_pos hlt]
        exact ih dest₁ (d + 8) (s + 8) h₁ (hb.add 8) (by omega)
          (fun hdist => by have := hs hdist; omega) (by omega) (by omega)
      · rw [if_neg hlt]
        exact ⟨h₁.length, h₁.front, fun hdist => (h₁.repeats hdist).mono (by omega)⟩

/-- The tables keep the distance a multiple, and make it at least eight. -/
theorem dec_tables {dist : ℕ} (h : dist < 8) :
    Behind dist dist (dist + 4) (dec32table.getD dist 0) ∧
      (0 < dist → dec32table.getD dist 0 ≤ dist) ∧
      Behind dist dist (dist + 8) (dec32table.getD dist 0 - dec64table.getD dist 0).toNat ∧
      (0 < dist → (dec32table.getD dist 0 - dec64table.getD dist 0).toNat ≤ dist) := by
  have hb : ∀ d s, s ≤ d → dist ≤ s + dist → (∃ k ≤ 8, 0 < k ∧ d = s + k * dist) ∨ dist = 0 →
      Behind dist dist d s := fun d s hle hs hk => ⟨hle, fun hdist => by
        obtain ⟨k, -, hk⟩ := hk.resolve_right (by omega)
        exact ⟨k, hk⟩, hs⟩
  refine ⟨hb _ _ ?_ (Nat.le_add_left _ _) ?_, ?_, hb _ _ ?_ (Nat.le_add_left _ _) ?_, ?_⟩
  all_goals
    clear hb
    revert dist
    decide

/-- The first eight bytes leave a source that is at least as many behind. -/
theorem sat_copyFirst {dest : Bytes} {op m : ℕ} {E : Halt → Prop} (hm : m ≤ op)
    (hmem : op + 8 ≤ dest.length) :
    Sat (copyFirst dest op m) (fun r => Copied dest (op - m) op (op + 8) r.1 ∧
      Behind (op - m) op (op + 8) r.2 ∧ (0 < op - m → r.2 + 8 ≤ op + 8)) E := by
  have hself : Copied dest (op - m) op op dest := ⟨rfl, rfl, fun _ i hi hi' => by omega⟩
  have hbehind : Behind (op - m) op op m :=
    ⟨hm, fun _ => ⟨1, Nat.one_pos, by omega⟩, by omega⟩
  have hshift : ∀ d s, Behind (op - m) (op - m) (op - m + d) s → Behind (op - m) op (op + d) (m + s) :=
    fun d s h => ⟨by have := h.le; omega, fun hdist => by
      obtain ⟨k, hk, hd⟩ := h.multiple hdist
      exact ⟨k, hk, by omega⟩, by have := h.start; omega⟩
  unfold copyFirst
  by_cases hnear : op - m < 8
  · obtain ⟨h32, hle, h64, hle'⟩ := dec_tables hnear
    rw [if_pos hnear]
    refine (sat_copyBytes 4 dest op m hself hbehind (Nat.le_refl op) (by omega)).bind
      fun dest₁ h₁ => ?_
    refine (copyWithin_copied h₁ (hshift 4 _ h32) (by omega)
      (fun hdist => by have := hle hdist; omega) (by omega) E).bind fun dest₂ h₂ => ?_
    have hnat : ((m + dec32table.getD (op - m) 0 : ℕ) - dec64table.getD (op - m) 0).toNat =
        m + (dec32table.getD (op - m) 0 - dec64table.getD (op - m) 0).toNat := by
      have hpos : dec64table.getD (op - m) 0 ≤ dec32table.getD (op - m) 0 := by
        generalize op - m = dist at hnear
        revert dist
        decide
      omega
    refine ⟨h₂, ?_, fun hdist => ?_⟩
    · rw [hnat]
      exact hshift 8 _ h64
    · have := hle' hdist
      dsimp only
      omega
  · rw [if_neg hnear]
    refine (copyWithin_copied hself hbehind (Nat.le_refl op) (fun _ => by omega) hmem E).bind
      fun dest₁ h₁ => ?_
    exact ⟨h₁, hbehind.add 8, fun _ => by dsimp only; omega⟩

/-- The copy of a match is in the memory, or it would have ended in the last bytes. -/
theorem sat_copyMatch {dest : Bytes} {ip op m length : ℕ} (hm : m ≤ op)
    (hmem : op + mfLimit ≤ dest.length) (hlen : minMatch ≤ length) :
    Sat (copyMatch dest ip op m length) (Copied dest (op - m) op (op + length))
      fun e => e = .outputError ip ∧ dest.length < op + length + lastLiterals := by
  unfold mfLimit minMatch at *
  unfold copyMatch
  refine (sat_copyFirst hm (by omega)).bind fun r hr => ?_
  obtain ⟨dest₁, s⟩ := r
  obtain ⟨h₁, hb, hs⟩ := hr
  have hlen₁ := h₁.length
  dsimp only at h₁ hb hs hlen₁ ⊢
  by_cases hnear : op + length + 12 > dest.length
  · rw [if_pos hnear]
    have hstop : Sat (stopIf (op + length + lastLiterals > dest.length) (Halt.outputError ip))
        (fun _ => ¬ dest.length < op + length + lastLiterals)
        fun e => e = .outputError ip ∧ dest.length < op + length + lastLiterals :=
      sat_stopIf (fun h => h) fun h => ⟨rfl, h⟩
    refine hstop.bind fun _ hfits => ?_
    unfold lastLiterals at hfits
    by_cases hroom : op + 8 + 8 < dest.length
    · rw [if_pos hroom]
      refine (sat_wildCopy _ _ _ _ h₁ hb (by omega) hs (by omega) (by omega)).bind
        fun dest₂ h₂ => ?_
      have hb₂ := hb.add (dest.length - 8 - (op + 8))
      rw [show op + 8 + (dest.length - 8 - (op + 8)) = dest.length - 8 by omega] at hb₂
      exact (sat_copyBytes _ _ _ _ h₂ hb₂ (by omega) (by omega)).mono
        (fun _ h => h.mono (by omega)) fun _ => id
    · rw [if_neg hroom]
      exact (sat_copyBytes _ _ _ _ h₁ hb (by omega) (by omega)).mono
        (fun _ h => h.mono (by omega)) fun _ => id
  · rw [if_neg hnear]
    exact sat_wildCopy _ _ _ _ h₁ hb (by omega) hs (by omega) (by omega)

/-! ## Copies from the input -/

/-- Literals, with up to seven bytes too much. -/
theorem sat_wildCopy_source {source : Bytes} {E : Halt → Prop} :
    ∀ (fuel n : ℕ) (dest : Bytes) (d s : ℕ), d + max 8 (n + 7) ≤ dest.length →
      s + max 8 (n + 7) ≤ source.length → n < fuel →
      Sat (wildCopy (some source) fuel dest d s (d + n)) (fun dest' => dest'.length = dest.length ∧
        dest'.take (d + n) = dest.take d ++ (source.drop s).take n) E := by
  intro fuel
  induction fuel with
  | zero =>
      intro n dest d s _ _ hfuel
      omega
  | succ fuel ih =>
      intro n dest d s hmem hsource hfuel
      have hpart : ((source.drop s).take 8).length = 8 := length_part (by omega)
      have hlen : (overwrite dest d ((source.drop s).take 8)).length = dest.length :=
        length_overwrite (by omega)
      have htake : ∀ k ≤ 8, (overwrite dest d ((source.drop s).take 8)).take (d + k) =
          dest.take d ++ (source.drop s).take k := by
        intro k hk
        rw [take_overwrite_add (by omega) (by omega), List.take_take, Nat.min_eq_left hk]
      unfold wildCopy
      rw [Option.getD_some, load_eq (by omega)]
      show Sat (store dest d _ >>= _) _ _
      rw [store_eq (by omega)]
      show Sat (if d + 8 < d + n then _ else _) _ _
      by_cases hlt : d + 8 < d + n
      · obtain ⟨k, rfl⟩ : ∃ k, n = 8 + k := ⟨n - 8, by omega⟩
        rw [if_pos hlt, ← Nat.add_assoc]
        refine (ih k _ (d + 8) (s + 8) (by omega) (by omega) (by omega)).mono
          (fun dest' h => ⟨h.1.trans hlen, ?_⟩) fun _ => id
        rw [h.2, htake 8 (Nat.le_refl 8), List.append_assoc, List.take_add, List.drop_drop]
      · rw [if_neg hlt]
        exact ⟨hlen, htake n (by omega)⟩

end Lz4Block
