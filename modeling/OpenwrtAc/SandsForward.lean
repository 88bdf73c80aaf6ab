/-
# Forwarding messages

What the broker sends has three strings, each with the two bytes of its key in front.
Such a message can be written unless a string is too long for `rds_encode`, which is
stricter than the decoder.
-/
import OpenwrtAc.RdsRoundTrip
import OpenwrtAc.SandsBroker

open CString LuaTable Rds

namespace Sands

/-- Three strings can be written when each of them can. -/
theorem rdsEncode_three {arr : List Bytes} (hthree : arr.length = 3) :
    (∃ out, rdsEncode arr = .ok out) ↔ ∀ s ∈ arr, 0 < s.length ∧ s.length ≤ 128 * 1024 := by
  constructor
  · rintro ⟨out, h⟩
    exact (rdsEncode_ok h).2.2.1
  · intro h
    refine ⟨_, rdsEncode_eq (by omega) h ?_⟩
    obtain ⟨a, b, c, rfl⟩ := List.length_eq_three.1 hthree
    simp only [List.mem_cons, List.not_mem_nil, or_false, forall_eq_or_imp, forall_eq] at h
    simp only [encodeTotal, List.length_cons, List.length_nil, List.map_cons, List.map_nil,
      List.sum_cons, List.sum_nil]
    omega

theorem length_formatS_le (s : Bytes) : (formatS s).length ≤ s.length := by
  unfold formatS
  split
  · exact (List.takeWhile_sublist _).length_le
  · exact Nat.le_refl _

/-- A limit that is not small is not affected by `%s`. -/
theorem length_formatS_le_iff {s : Bytes} {n : ℕ} (hn : 100 ≤ n) :
    (formatS s).length ≤ n ↔ s.length ≤ n := by
  refine ⟨fun h => ?_, fun h => (length_formatS_le s).trans h⟩
  unfold formatS at h
  split at h
  · omega
  · exact h

/-- A topic and a payload that the broker can send. -/
def Fits (topic payload : Bytes) : Prop :=
  topic.length + 2 ≤ 128 * 1024 ∧ payload.length + 2 ≤ 128 * 1024

/-- The order of the strings does not matter. -/
theorem publish_encodes_iff (topic payload : Bytes) :
    (∀ arr : List Bytes, arr.Perm (publishArr topic payload) → ∃ out, rdsEncode arr = .ok out)
      ↔ Fits topic payload := by
  have hall : ∀ arr : List Bytes, arr.Perm (publishArr topic payload) →
      ((∃ out, rdsEncode arr = .ok out) ↔ Fits topic payload) := by
    intro arr harr
    rw [rdsEncode_three (harr.length_eq.trans rfl)]
    have hid : formatS (asciiBytes "id") ++ formatS (asciiBytes "pb") = [105, 100, 112, 98] := by
      decide
    have htp : formatS (asciiBytes "tp") = [116, 112] := by decide
    have hpl : formatS (asciiBytes "pl") = [112, 108] := by decide
    have hmem : ∀ s, s ∈ arr ↔ s = [105, 100, 112, 98] ∨ s = [116, 112] ++ formatS topic
        ∨ s = [112, 108] ++ formatS payload := by
      intro s
      rw [harr.mem_iff, publishArr, toarr]
      simp only [List.map_cons, List.map_nil, hid, htp, hpl, List.mem_cons, List.not_mem_nil, or_false]
    simp only [hmem, forall_eq_or_imp, forall_eq, List.length_append, List.length_cons,
      List.length_nil, Fits]
    have ht := length_formatS_le_iff (s := topic) (show 100 ≤ 128 * 1024 - 2 by decide)
    have hp := length_formatS_le_iff (s := payload) (show 100 ≤ 128 * 1024 - 2 by decide)
    omega
  exact ⟨fun h => (hall _ (.refl _)).1 (h _ (.refl _)), fun h arr harr => (hall arr harr).2 h⟩

theorem publish_encodes {topic payload : Bytes} (h : Fits topic payload) :
    ∃ out, rdsEncode (publishArr topic payload) = .ok out :=
  (publish_encodes_iff topic payload).2 h _ (.refl _)

/-- An answer to a connect command can be written. -/
theorem connack_encodes {st : String} {msg : Bytes} (hst : (asciiBytes st).length ≤ 100)
    (hmsg : msg.length + 2 ≤ 128 * 1024) : ∃ out, rdsEncode (connackArr st msg) = .ok out := by
  refine (rdsEncode_three rfl).2 fun s hs => ?_
  have hid : formatS (asciiBytes "id") ++ formatS (asciiBytes "ca") = [105, 100, 99, 97] := by decide
  have hst' : formatS (asciiBytes "st") = [115, 116] := by decide
  have hda : formatS (asciiBytes "da") = [100, 97] := by decide
  have h1 := length_formatS_le (asciiBytes st)
  have h2 := length_formatS_le msg
  simp only [connackArr, toarr, List.map_cons, List.map_nil, hid, hst', hda, List.mem_cons,
    List.not_mem_nil, or_false] at hs
  rcases hs with rfl | rfl | rfl <;>
    simp only [List.length_append, List.length_cons, List.length_nil] <;> omega

/-- What the broker decodes it can forward: of a message with a topic and a payload, `rds_encode`
    can write what `do_publish` makes of it, in whichever order the strings are. -/
def Forwards (arr : List Bytes) : Prop :=
  ∀ topic payload, field (tomap arr) "tp" = some topic → field (tomap arr) "pl" = some payload →
    ∀ out : List Bytes, out.Perm (publishArr topic payload) → ∃ b, rdsEncode out = .ok b

/-- A message can be forwarded exactly if its topic and its payload leave room for their keys. -/
theorem forwards_iff (arr : List Bytes) :
    Forwards arr ↔ ∀ topic payload, field (tomap arr) "tp" = some topic →
      field (tomap arr) "pl" = some payload →
      topic.length + 2 ≤ 128 * 1024 ∧ payload.length + 2 ≤ 128 * 1024 := by
  unfold Forwards
  simp only [publish_encodes_iff, Fits]

/-- A message with a payload of `n` bytes. -/
def publishOf (n : ℕ) : List Bytes :=
  [asciiBytes "idpb", asciiBytes "tpa", asciiBytes "pl" ++ List.replicate n 65]

/-- The decoder delivers a payload of 128 KiB, which cannot be forwarded. -/
theorem decoded_not_forwards :
    ¬ ∀ (rds rds' : Decoder) (data : Bytes) (r : List (List Bytes)),
      lDecode rds data = .ok (some r, rds') →
      ∀ arr ∈ r, field (tomap arr) "id" = some (asciiBytes "pb") → Forwards arr := by
  intro h
  obtain ⟨n, hn⟩ : ∃ n, n = 128 * 1024 := ⟨_, rfl⟩
  have hpl : (asciiBytes "pl" ++ List.replicate n 65).length = n + 2 := by
    rw [List.length_append, List.length_replicate, Nat.add_comm]
    rfl
  have hread : Readable (publishOf n) := by
    refine ⟨List.cons_ne_nil _ _, by rw [publishOf]; simp, fun s hs => ?_⟩
    simp only [publishOf, List.mem_cons, List.not_mem_nil, or_false] at hs
    rcases hs with rfl | rfl | rfl
    · decide
    · decide
    · omega
  have hbody : (writeMsg (publishOf n)).length ≤ 512 * 1024 := by
    have hlen := decimal_length_le (show 0 < 6 by decide) (show n + 2 < 10 ^ 6 by omega)
    have hid : (writeParam (asciiBytes "idpb")).length = 10 := by decide
    have htp : (writeParam (asciiBytes "tpa")).length = 9 := by decide
    have hcount : (header star 3).length = 4 := by decide
    have hlong := length_writeParam (asciiBytes "pl" ++ List.replicate n 65)
    rw [hpl] at hlong
    simp only [writeMsg, publishOf, List.flatMap_cons, List.flatMap_nil, List.length_append,
      List.length_cons, List.length_nil, Nat.zero_add, Nat.reduceAdd, hid, htp, hcount, hlong]
    omega
  have hexp : Expects rdsNew ([publishOf n].flatMap writeMsg) [publishOf n] :=
    expects_rdsNew fun m hm => (List.mem_singleton.1 hm) ▸ hread
  have hall : Expects rdsNew (writeMsg (publishOf n) ++ []) [publishOf n] := by simpa using hexp
  obtain ⟨got, rest, rds', hrun, hsplit, -, hdone⟩ := lDecode_readsAll hall
    (by simpa [rdsNew] using hbody)
  obtain ⟨rfl, -⟩ := hdone.1 rfl
  rw [List.append_nil] at hsplit
  subst hsplit
  have hfor := h _ _ _ _ hrun (publishOf n) (by simp) rfl
  obtain ⟨-, hlong⟩ := (publish_encodes_iff _ _).1 (hfor (asciiBytes "a") (List.replicate n 65) rfl rfl)
  rw [List.length_replicate] at hlong
  omega

end Sands
