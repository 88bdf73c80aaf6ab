/-
# Frames of the cloud client

What one write puts on the connection, and what the receiver makes of it: the frame of a
topic, that of a payload, and that of a ping, in any pieces.
-/
import OpenwrtAc.Sandc1
import OpenwrtAc.RdsRoundTrip
import Mathlib.Data.List.TakeWhile

open CString LuaTable Rds

namespace Sandc1

variable {N : Type}

/-! ## Tables and strings -/

/-- The first bytes of a string. -/
theorem strSub_take (s : Bytes) (n : ℕ) : strSub s 1 n = s.take n := by
  unfold strSub
  simp only
  rw [if_neg (by omega : ¬((1 : ℤ) < 0)), if_neg (by omega : ¬((n : ℤ) < 0)), max_self]
  by_cases h : 1 ≤ min (s.length : ℤ) n
  · rw [if_pos h]
    have : (min (s.length : ℤ) n - 1 + 1).toNat = min s.length n := by omega
    rw [this, show ((1 : ℤ) - 1).toNat = 0 from rfl, List.drop_zero, List.take_eq_take_iff]
    omega
  · rw [if_neg h]
    have : s.length = 0 ∨ n = 0 := by omega
    obtain h | rfl := this
    · rw [List.length_eq_zero_iff.mp h, List.take_nil]
    · rfl

/-- The bytes behind the first ones. -/
theorem strSub_drop (s : Bytes) (n : ℕ) : strSub s (n + 1) (-1) = s.drop n := by
  unfold strSub
  simp only
  rw [if_neg (by omega : ¬((n : ℤ) + 1 < 0)), if_pos (by omega : (-1 : ℤ) < 0),
    max_eq_right (by omega : (1 : ℤ) ≤ (n : ℤ) + 1)]
  have hmin : min (s.length : ℤ) (max 0 (-1 + s.length + 1)) = s.length := by omega
  rw [hmin]
  by_cases h : (n : ℤ) + 1 ≤ s.length
  · rw [if_pos h, show ((n : ℤ) + 1 - 1).toNat = n by omega]
    refine List.take_of_length_le ?_
    rw [List.length_drop]
    omega
  · rw [if_neg h, List.drop_eq_nil_of_le (by omega)]

/-- What the strings of an array say of a key. -/
theorem get_foldl_set (arr : List Bytes) (map : Table Bytes Bytes) (k : Bytes)
    (hk : ∀ s ∈ arr, s.take 2 ≠ k) : get (arr.foldl (fun map s => set map (s.take 2) (s.drop 2)) map) k = get map k := by
  induction arr generalizing map with
  | nil => rfl
  | cons s arr ih =>
    rw [List.foldl_cons, ih _ fun t ht => hk t (List.mem_cons_of_mem s ht),
      get_set_of_ne _ _ (hk s List.mem_cons_self).symm]

/-- Each key of two letters is there once. -/
theorem get_tomap {arr : List Bytes}
    (hn : (arr.map fun s => s.take 2).Nodup) {s : Bytes} (hs : s ∈ arr) :
    get (Sands.tomap arr) (s.take 2) = some (s.drop 2) := by
  unfold Sands.tomap
  obtain ⟨l₁, l₂, rfl⟩ := List.append_of_mem hs
  rw [List.map_append, List.map_cons, List.nodup_append, List.nodup_cons] at hn
  rw [List.foldl_append, List.foldl_cons, get_foldl_set, get_set_self]
  intro t ht he
  exact hn.2.1.1 (he ▸ List.mem_map_of_mem ht)

/-! ## The frame of a topic -/

/-- A topic that is there and that `%s` does not cut. -/
def Whole (topic : Bytes) : Prop := topic ≠ [] ∧ Sands.formatS topic = topic

/-- A decimal is formatted as it is. -/
theorem formatS_decimal (n : ℕ) : Sands.formatS (decimal n) = decimal n := by
  unfold Sands.formatS
  split
  · refine List.takeWhile_eq_self_iff.mpr fun x hx => ?_
    obtain ⟨ds, hds, hdec, -⟩ := decimal_eq n
    rw [hdec] at hx
    obtain ⟨d, hd, rfl⟩ := List.mem_map.mp hx
    have hlt := hds d hd
    simp only [bne_iff_ne, ne_eq]
    intro h0
    have := congrArg UInt8.toNat h0
    rw [Nat.toUInt8_eq, UInt8.toNat_ofNat'] at this
    change (48 + d) % 2 ^ 8 = 0 at this
    omega
  · rfl

/-- A decimal has a digit at least. -/
theorem decimal_ne_nil (n : ℕ) : decimal n ≠ [] := by
  unfold decimal
  split
  · simp
  · simpa using Nat.digits_ne_nil_iff_ne_zero.mpr ‹_›

/-- The strings of the frame, in an order. -/
def topicArr (order : List String) (topic : Bytes) (n : ℕ) : List Bytes :=
  Sands.toarr (inOrder order (tpmap topic n))

/-- The fields of a publish, in the order that `pairs` gives. -/
theorem topicArr_perm {order : List String}
    (ho : order.Perm ["id", "tp", "pl"]) (topic : Bytes) (n : ℕ) :
    (topicArr order topic n).Perm
      [asciiBytes "id" ++ asciiBytes "pt", asciiBytes "tp" ++ Sands.formatS topic, asciiBytes "pl" ++ decimal n] := by
  have h := (ho.filterMap fun k => ((tpmap topic n).lookup k).map fun v => (k, v)).map fun e =>
    Sands.formatS (asciiBytes e.1) ++ Sands.formatS e.2
  refine h.trans (List.Perm.of_eq ?_)
  have hid : Sands.formatS (asciiBytes "id") = asciiBytes "id" := by decide
  have hpt : Sands.formatS (asciiBytes "pt") = asciiBytes "pt" := by decide
  have htp : Sands.formatS (asciiBytes "tp") = asciiBytes "tp" := by decide
  have hpl : Sands.formatS (asciiBytes "pl") = asciiBytes "pl" := by decide
  have hlookup : (["id", "tp", "pl"].filterMap fun k => ((tpmap topic n).lookup k).map fun v => (k, v)) =
      tpmap topic n := by
    simp [tpmap, List.lookup_cons]
  rw [hlookup]
  simp only [tpmap, List.map_cons, List.map_nil, hid, hpt, htp, hpl, formatS_decimal]

/-- A publish has fields. -/
theorem topicArr_ne_nil {order : List String}
    (ho : order.Perm ["id", "tp", "pl"]) (topic : Bytes) (n : ℕ) :
    topicArr order topic n ≠ [] := by
  intro hnil
  have := (topicArr_perm ho topic n).length_eq
  rw [hnil] at this
  simp at this

/-- The fields of a publish have different keys. -/
theorem topicArr_keys {order : List String}
    (ho : order.Perm ["id", "tp", "pl"]) (topic : Bytes) (n : ℕ) :
    ((topicArr order topic n).map fun s => s.take 2).Nodup := by
  refine ((topicArr_perm ho topic n).map _).nodup_iff.mpr ?_
  have h : ∀ (k : String) (s : Bytes), (asciiBytes k).length = 2 → (asciiBytes k ++ s).take 2 = asciiBytes k :=
    fun k s hk => hk ▸ List.take_left
  simp only [List.map_cons, List.map_nil, h "id" _ rfl, h "tp" _ rfl, h "pl" _ rfl]
  decide

/-- The keys of the frame. -/
theorem topicArr_field {order : List String}
    (ho : order.Perm ["id", "tp", "pl"]) (topic : Bytes) (n : ℕ) :
    field (Sands.tomap (topicArr order topic n)) "id" = some (asciiBytes "pt") ∧
      field (Sands.tomap (topicArr order topic n)) "tp" = some (Sands.formatS topic) ∧
      field (Sands.tomap (topicArr order topic n)) "pl" = some (decimal n) := by
  have hget : ∀ (k : String) (v : Bytes), (asciiBytes k).length = 2 → asciiBytes k ++ v ∈ topicArr order topic n →
      field (Sands.tomap (topicArr order topic n)) k = some v := by
    intro k v hk hm
    have h := get_tomap (topicArr_keys ho topic n) hm
    rw [← hk, List.take_left, List.drop_left] at h
    exact h
  have hmem := fun s => (topicArr_perm ho topic n).mem_iff (a := s)
  exact ⟨hget "id" _ rfl ((hmem _).mpr (by simp)), hget "tp" _ rfl ((hmem _).mpr (by simp)),
    hget "pl" _ rfl ((hmem _).mpr (by simp))⟩

/-- A publish passes the check of the encoder. -/
theorem topicArr_checkarr {order : List String} (ho : order.Perm ["id", "tp", "pl"]) {topic : Bytes}
    (ht : Whole topic) (n : ℕ) : checkarr (topicArr order topic n) = true := by
  unfold checkarr
  rw [List.all_eq_true]
  intro s hs
  rw [(topicArr_perm ho topic n).mem_iff, ht.2] at hs
  have h1 := List.length_pos_iff.mpr ht.1
  have h2 := List.length_pos_iff.mpr (decimal_ne_nil n)
  have hid : (asciiBytes "id").length = 2 ∧ (asciiBytes "pt").length = 2 := ⟨rfl, rfl⟩
  have htp : (asciiBytes "tp").length = 2 := rfl
  have hpl : (asciiBytes "pl").length = 2 := rfl
  simp only [List.mem_cons, List.not_mem_nil, or_false] at hs
  obtain rfl | rfl | rfl := hs <;> rw [List.length_append] <;> simp <;> omega

/-! ## What a frame does -/

/-- A frame of a query, and the strings in it. -/
structure Query (env : Env N) (e : Bytes) (arr : List Bytes) : Prop where
  header : ∃ type, Encrypt.lHeader e = .ok (e.length, type)
  decode : ∃ ds, decode env e = .ok (.ok ds) ∧ env.parseReply ds = .array arr
  check : checkarr arr = true

/-- What was encoded is decoded, and its header is right. -/
theorem encode_encoded {env : Env N} (hl : env.Lawful) {type : ℤ} {s e : Bytes}
    (h : encode env type s = .ok e) :
    decode env e = .ok (.ok s) ∧ ∃ type, Encrypt.lHeader e = .ok (e.length, type) := by
  have henc : Encrypt.lEncode env.lz4 type s = .ok (.ok e) := by
    unfold encode at h
    split at h
    next e' he' =>
      cases h
      exact he'
    · cases h
    · cases h
  obtain ⟨hd, hh⟩ := Encrypt.lEncode_encoded hl.lz4 henc
  refine ⟨?_, _, hh⟩
  unfold decode
  rw [hd]

/-- A message that was encoded is a whole query. -/
theorem query_of_encode {env : Env N} (hl : env.Lawful) {type : ℤ} {arr : List Bytes} {e : Bytes}
    (hne : arr ≠ [])
    (hc : checkarr arr = true) (h : encode env type (env.buildQuery arr) = .ok e) :
    Query env e arr := by
  obtain ⟨hd, hh⟩ := encode_encoded hl h
  exact ⟨hh, ⟨_, hd, hl.parse arr hne⟩, hc⟩

/-- A part of a frame is not enough. -/
theorem parseNormal_lack (env : Env N) {e : Bytes}
    (hh : ∃ type, Encrypt.lHeader e = .ok (e.length, type)) {ins : Ins N}
    (hp : ins.data <+: e) (hlt : ins.data.length < e.length) :
    ins.parseNormal env = .ok (some .lack, ins) := by
  unfold Ins.parseNormal
  by_cases h4 : ins.data.length < 4
  · rw [if_pos h4]
  · obtain ⟨type, hh⟩ := hh
    obtain ⟨rest, hr⟩ := hp
    rw [if_neg h4, ← Encrypt.lHeader_append (by omega) rest, hr, hh]
    simp only
    rw [if_pos hlt]

/-- The strings of a frame are dispatched if `checkarr` lets them pass. -/
theorem parseNormal_frame {env : Env N} {e rest : Bytes}
    (hh : ∃ type, Encrypt.lHeader e = .ok (e.length, type))
    {ds : Bytes} {arr : List Bytes}
    (hds : decode env e = .ok (.ok ds)) (harr : env.parseReply ds = .array arr)
    {ins : Ins N} (hdata : ins.data = e ++ rest) :
    (checkarr arr = false → ins.parseNormal env = .ok (some .dataError, { ins with data := rest })) ∧
    ∀ ins', checkarr arr = true → Ins.dispatch env (Sands.tomap arr) { ins with data := rest } = .ok (none, ins') →
      ∃ types, ins.parseNormal env = .ok (none, { ins' with encodeTypes := types }) := by
  obtain ⟨type, hh⟩ := hh
  have h4 := (Encrypt.lHeader_bounds hh).1
  unfold Ins.parseNormal
  rw [hdata, if_neg (by rw [List.length_append]; omega), Encrypt.lHeader_append h4, hh]
  simp only
  rw [if_neg (by rw [List.length_append]; omega), List.take_left, List.drop_left, hds]
  simp only [bind, Except.bind, harr]
  refine ⟨fun hc => ?_, fun ins' hc hd => ?_⟩
  · rw [if_neg (by rw [hc]; exact Bool.false_ne_true)]
    rfl
  · rw [if_pos hc, hd]
    simp only
    split
    · exact ⟨ins'.encodeTypes, rfl⟩
    · exact ⟨_, rfl⟩

/-- A query is dispatched. -/
theorem Query.round {env : Env N} {e rest : Bytes} {arr : List Bytes} (h : Query env e arr)
    {ins ins' : Ins N}
    (hdata : ins.data = e ++ rest)
    (hd : Ins.dispatch env (Sands.tomap arr) { ins with data := rest } = .ok (none, ins')) :
    ∃ types, ins.parseNormal env = .ok (none, { ins' with encodeTypes := types }) := by
  obtain ⟨ds, hds, harr⟩ := h.decode
  exact (parseNormal_frame h.header hds harr hdata).2 ins' h.check hd

/-- The frames of a topic, of a payload, and of a ping. -/
inductive Frame where
  | head (topic : Bytes) (len : ℕ)
  | body (topic payload : Bytes) (len : ℕ)
  | ping

/-- The bytes of a frame. -/
def Frame.Bytes (env : Env N) (e : Rds.Bytes) : Frame → Prop
  | .head topic len => len < 2 ^ 53 ∧ ∃ order : List String, order.Perm ["id", "tp", "pl"] ∧ Whole topic ∧
      Query env e (topicArr order topic len)
  | .body _ payload len => e.length = len ∧ e ≠ [] ∧ decode env e = .ok (.ok payload)
  | .ping => Query env e (Sands.toarr [("id", asciiBytes "pi")])

/-- What `pbcache` is in front of a frame, with the length as it was sent. -/
abbrev Cache := Option (Rds.Bytes × ℕ)

/-- `pbcache` of the receiver. -/
def Holds (env : Env N) (ins : Ins N) : Cache → Prop
  | none => ins.pbcache = none
  | some (topic, len) => len < 2 ^ 53 ∧ ins.pbcache = some (topic, env.tonumber (decimal len))

/-- Bytes that are frames one after the other: from the `pbcache` in front of them to that behind
    them, with the messages and the pings in them. -/
inductive Link (env : Env N) : Cache → List Rds.Bytes → Cache → List (Rds.Bytes × Rds.Bytes) → ℕ → Prop
  | nil (pb : Cache) : Link env pb [] pb [] 0
  | head {e : Rds.Bytes} {es : List Rds.Bytes} {pb : Cache} {ms : List (Rds.Bytes × Rds.Bytes)} {n : ℕ}
      {topic : Rds.Bytes} {len : ℕ} (he : (Frame.head topic len).Bytes env e)
      (h : Link env (some (topic, len)) es pb ms n) : Link env none (e :: es) pb ms n
  | body {e : Rds.Bytes} {es : List Rds.Bytes} {pb : Cache} {ms : List (Rds.Bytes × Rds.Bytes)} {n : ℕ}
      {topic payload : Rds.Bytes} {len : ℕ} (he : (Frame.body topic payload len).Bytes env e)
      (h : Link env none es pb ms n) : Link env (some (topic, len)) (e :: es) pb ((topic, payload) :: ms) n
  | ping {e : Rds.Bytes} {es : List Rds.Bytes} {pb : Cache} {ms : List (Rds.Bytes × Rds.Bytes)} {n : ℕ}
      (he : Frame.ping.Bytes env e) (h : Link env none es pb ms n) : Link env none (e :: es) pb ms (n + 1)

/-- Two stretches of frames, one behind the other. -/
theorem Link.append {env : Env N} {pb pb' pb'' : Cache} {es es' : List Rds.Bytes}
    {ms ms' : List (Rds.Bytes × Rds.Bytes)} {n n' : ℕ} (h : Link env pb es pb' ms n)
    (h' : Link env pb' es' pb'' ms' n') : Link env pb (es ++ es') pb'' (ms ++ ms') (n + n') := by
  induction h with
  | nil => simpa using h'
  | head he _ ih => exact .head he (ih h')
  | body he _ ih => exact .body he (ih h')
  | ping he _ ih =>
    rw [Nat.add_right_comm]
    exact .ping he (ih h')

/-! ## Rounds of the receiver -/

/-- What the receiver has passed on, and what it still has to. -/
def due (ins : Ins N) (ms : List (Rds.Bytes × Rds.Bytes)) (n : ℕ) :
    List (Option Rds.Bytes × Option Rds.Bytes) × List Rds.Bytes :=
  (ins.messages ++ ms.map fun m => (some m.1, some m.2), ins.unknown ++ List.replicate n (asciiBytes "pi"))

/-- The first frame of a publish is kept until its payload comes. -/
theorem dispatch_topic (env : Env N) {order : List String}
    (ho : order.Perm ["id", "tp", "pl"]) {topic : Rds.Bytes}
    (ht : Whole topic) (len : ℕ) {ins : Ins N} (hpb : ins.pbcache = none) :
    ins.dispatch env (Sands.tomap (topicArr order topic len)) =
      .ok (none, { ins with pbcache := some (topic, env.tonumber (decimal len)) }) := by
  obtain ⟨hid, htp, hpl⟩ := topicArr_field ho topic len
  unfold Ins.dispatch
  rw [hid, htp, hpl, ht.2, hpb]
  simp only
  rw [if_neg (by decide), if_neg (by decide), if_neg (by decide), if_pos trivial]

/-- A ping is an unknown command. -/
theorem dispatch_ping (env : Env N) (ins : Ins N) :
    ins.dispatch env (Sands.tomap (Sands.toarr [("id", asciiBytes "pi")])) =
      .ok (none, { ins with unknown := ins.unknown ++ [asciiBytes "pi"] }) := by
  have hid : field (Sands.tomap (Sands.toarr [("id", asciiBytes "pi")])) "id" = some (asciiBytes "pi") := by
    decide
  unfold Ins.dispatch
  rw [hid]
  simp only
  rw [if_neg (by decide), if_neg (by decide), if_neg (by decide), if_neg (by decide), if_neg (by decide)]

/-- Without a publish begun the next frame is a message. -/
theorem round_none (env : Env N) {ins : Ins N} (h : ins.pbcache = none) :
    ins.round env = ins.parseNormal env := by
  unfold Ins.round
  rw [h]

/-- A frame that is there is taken. -/
theorem Link.round {env : Env N} (hl : env.Lawful) {pb pb' : Cache} {e rest : Rds.Bytes}
    {es : List Rds.Bytes}
    {ms : List (Rds.Bytes × Rds.Bytes)} {n : ℕ} (h : Link env pb (e :: es) pb' ms n) {ins : Ins N}
    (hpb : Holds env ins pb) (hdata : ins.data = e ++ rest) :
    ∃ ins' pb₁ ms₁ n₁, ins.round env = .ok (none, ins') ∧ ins'.data = rest ∧ Holds env ins' pb₁ ∧
      Link env pb₁ es pb' ms₁ n₁ ∧ due ins' ms₁ n₁ = due ins ms n := by
  cases h with
  | @head e _ _ _ _ topic len he h =>
    have hnone : ins.pbcache = none := hpb
    obtain ⟨hlt, order, ho, ht, hq⟩ := he
    have hd := dispatch_topic env ho ht len
      (show ({ ins with data := rest } : Ins N).pbcache = none from hnone)
    obtain ⟨types, hr⟩ := hq.round hdata hd
    refine ⟨{ ins with data := rest, pbcache := some (topic, env.tonumber (decimal len)), encodeTypes := types },
      some (topic, len), ms, n, ?_, rfl, ⟨hlt, rfl⟩, h, rfl⟩
    rw [round_none env hnone]
    exact hr
  | @body e _ _ ms _ topic payload len he h =>
    obtain ⟨hlt, hsome⟩ := hpb
    obtain ⟨hlen, -, hdec⟩ := he
    obtain ⟨x, hx, hlt', hint⟩ := hl.number len hlt
    refine ⟨{ ins with
      data := rest, pbcache := none, messages := ins.messages ++ [(some topic, some payload)] },
      none, ms, n, ?_, rfl, rfl, h, ?_⟩
    · unfold Ins.round
      rw [hsome, hx]
      simp only [Ins.getPayload]
      rw [hlt', hint, if_neg (by rw [hdata, List.length_append]; simp; omega), strSub_take, strSub_drop, hdata, ← hlen,
        List.take_left, List.drop_left]
      simp only [Ins.pp, hdec, bind, Except.bind]
      rfl
    · simp [due]
  | @ping e _ _ _ n he h =>
    have hnone : ins.pbcache = none := hpb
    obtain ⟨types, hr⟩ := Query.round he hdata (dispatch_ping env { ins with data := rest })
    refine ⟨{ ins with data := rest, unknown := ins.unknown ++ [asciiBytes "pi"], encodeTypes := types },
      none, ms, n, ?_, rfl, hnone, h, ?_⟩
    · rw [round_none env hnone]
      exact hr
    · simp [due, List.replicate_succ]

/-- Of a frame that is there in part nothing is taken. -/
theorem Link.lack {env : Env N} (hl : env.Lawful) {pb pb' : Cache} {e : Rds.Bytes}
    {es : List Rds.Bytes}
    {ms : List (Rds.Bytes × Rds.Bytes)} {n : ℕ} (h : Link env pb (e :: es) pb' ms n) {ins : Ins N}
    (hpb : Holds env ins pb) (hp : ins.data <+: e) (hlt : ins.data.length < e.length) :
    ins.round env = .ok (some .lack, ins) := by
  cases h with
  | head he h =>
    obtain ⟨-, order, -, -, hq⟩ := he
    rw [round_none env hpb]
    exact parseNormal_lack env hq.header hp hlt
  | @body e _ _ ms _ topic payload len he h =>
    obtain ⟨hlt53, hsome⟩ := hpb
    obtain ⟨x, hx, hlt', -⟩ := hl.number len hlt53
    unfold Ins.round
    rw [hsome, hx]
    simp only [Ins.getPayload]
    rw [hlt', if_pos (by simpa [he.1] using hlt)]
  | ping he h =>
    rw [round_none env hpb]
    exact parseNormal_lack env (show Query env e _ from he).header hp hlt

/-- No frame is empty. -/
theorem Link.ne_nil {env : Env N} {pb pb' : Cache} {e : Rds.Bytes} {es : List Rds.Bytes}
    {ms : List (Rds.Bytes × Rds.Bytes)} {n : ℕ} (h : Link env pb (e :: es) pb' ms n) : e ≠ [] := by
  have hq : ∀ {arr : List Rds.Bytes}, Query env e arr → e ≠ [] := by
    rintro arr hq rfl
    obtain ⟨type, hh⟩ := hq.header
    have := (Encrypt.lHeader_bounds hh).1
    simp at this
  cases h with
  | head he h =>
    obtain ⟨-, order, -, -, hquery⟩ := he
    exact hq hquery
  | body he h => exact he.2.1
  | ping he h => exact hq he

/-- A frame that is whole is handled. -/
theorem onRecv_round {env : Env N} {ins ins' : Ins N} (hne : ins.data ≠ [])
    (h : ins.round env = .ok (none, ins'))
    (fuel : ℕ) : ins.onRecv env (fuel + 1) = ins'.onRecv env fuel := by
  rw [Ins.onRecv, if_neg hne, h]
  rfl

/-- A frame that is not whole waits. -/
theorem onRecv_lack {env : Env N} {ins : Ins N}
    (h : ins.round env = .ok (some .lack, ins)) (fuel : ℕ) :
    ins.onRecv env (fuel + 1) = .ok (none, ins) := by
  rw [Ins.onRecv]
  split
  · rfl
  · rw [h]
    rfl

/-- A frame of which a part is there is waited for. -/
theorem Link.waits {env : Env N} (hl : env.Lawful) {pb pb' : Cache} {e future tail : Rds.Bytes}
    {es : List Rds.Bytes}
    {ms : List (Rds.Bytes × Rds.Bytes)} {n : ℕ} (h : Link env pb (e :: es) pb' ms n) {ins : Ins N}
    (hpb : Holds env ins pb) (hdata : ins.data ++ future = (e :: es).flatten ++ tail)
    (hlt : ins.data.length < e.length) (fuel : ℕ) :
    ins.onRecv env (fuel + 1) = .ok (none, ins) := by
  rw [List.flatten_cons, List.append_assoc] at hdata
  have hp : ins.data <+: e := List.prefix_of_prefix_length_le ⟨future, hdata⟩ (List.prefix_append _ _) hlt.le
  exact onRecv_lack (h.lack hl hpb hp hlt) fuel

/-- The rounds of `on_recv` take all frames that are there, in front of whatever follows the
    frames. -/
theorem Link.rounds {env : Env N} (hl : env.Lawful) {pb' : Cache} {future tail : Rds.Bytes}
    {es : List Rds.Bytes} :
    ∀ {pb : Cache} {ms : List (Rds.Bytes × Rds.Bytes)} {n fuel : ℕ} {ins : Ins N}, Link env pb es pb' ms n →
      Holds env ins pb → ins.data ++ future = es.flatten ++ tail → ins.data.length < fuel →
      ∃ ins' pb₁ es₁ ms₁ n₁ fuel', ins.onRecv env fuel = ins'.onRecv env (fuel' + 1) ∧ Holds env ins' pb₁ ∧
        Link env pb₁ es₁ pb' ms₁ n₁ ∧ ins'.data ++ future = es₁.flatten ++ tail ∧ due ins' ms₁ n₁ = due ins ms n ∧
        ∀ e es', es₁ = e :: es' → ins'.data.length < e.length := by
  induction es with
  | nil =>
    intro pb ms n fuel ins h hpb hdata hfuel
    obtain ⟨fuel, rfl⟩ : ∃ k, fuel = k + 1 := ⟨fuel - 1, by omega⟩
    exact ⟨ins, pb, [], ms, n, fuel, rfl, hpb, h, hdata, rfl, by simp⟩
  | cons e es ih =>
    intro pb ms n fuel ins h hpb hdata hfuel
    obtain ⟨fuel, rfl⟩ : ∃ k, fuel = k + 1 := ⟨fuel - 1, by omega⟩
    have hpos := List.length_pos_iff.mpr h.ne_nil
    -- the induction is on the messages under way: one that has not come whole is waited for
    by_cases hlt : ins.data.length < e.length
    · refine ⟨ins, pb, e :: es, ms, n, fuel, rfl, hpb, h, hdata, rfl, ?_⟩
      rintro e' es' ⟨⟩
      exact hlt
    · -- the message is all there, and one round of the loop takes it off
      rw [List.flatten_cons, List.append_assoc] at hdata
      obtain ⟨rest, hrest⟩ : e <+: ins.data :=
        List.prefix_of_prefix_length_le (List.prefix_append _ _) ⟨future, hdata⟩ (by omega)
      obtain ⟨ins', pb₁, ms₁, n₁, hround, hd', hpb', h', hdue⟩ := h.round hl hpb hrest.symm
      have hlen : ins.data.length = e.length + rest.length := by rw [← hrest, List.length_append]
      have hflat : ins'.data ++ future = es.flatten ++ tail := by
        rw [hd']
        rw [← hrest, List.append_assoc] at hdata
        exact List.append_cancel_left hdata
      have hne : ins.data ≠ [] := by
        intro hnil
        rw [hnil, List.length_nil] at hlen
        omega
      rw [onRecv_round hne hround, ← hdue]
      exact ih h' hpb' hflat (by rw [hd']; omega)

/-- `on_recv` takes all frames that are there, and keeps what is there of the next one. -/
theorem Link.onRecv {env : Env N} (hl : env.Lawful) {pb pb' : Cache} {future : Rds.Bytes}
    {es : List Rds.Bytes}
    {ms : List (Rds.Bytes × Rds.Bytes)} {n fuel : ℕ} {ins : Ins N} (h : Link env pb es pb' ms n)
    (hpb : Holds env ins pb) (hdata : ins.data ++ future = es.flatten) (hfuel : ins.data.length < fuel) :
    ∃ ins' pb₁ es₁ ms₁ n₁, ins.onRecv env fuel = .ok (none, ins') ∧ Holds env ins' pb₁ ∧
      Link env pb₁ es₁ pb' ms₁ n₁ ∧ ins'.data ++ future = es₁.flatten ∧ due ins' ms₁ n₁ = due ins ms n ∧
      ∀ e es', es₁ = e :: es' → ins'.data.length < e.length := by
  obtain ⟨ins', pb₁, es₁, ms₁, n₁, fuel', hrec, hpb', h', hdata', hdue, hshort⟩ :=
    h.rounds hl hpb (show _ = es.flatten ++ [] by rw [hdata, List.append_nil]) hfuel
  refine ⟨ins', pb₁, es₁, ms₁, n₁, ?_, hpb', h', hdata'.trans (List.append_nil _), hdue, hshort⟩
  rw [hrec]
  cases es₁ with
  | nil => rw [Ins.onRecv, if_pos (List.append_eq_nil_iff.mp hdata').1]
  | cons e es' => exact h'.waits hl hpb' hdata' (hshort e es' rfl) fuel'

/-- `run_internal`, however the bytes come. -/
theorem Link.run {env : Env N} (hl : env.Lawful) {pb' : Cache} {chunks : List Rds.Bytes} :
    ∀ {pb : Cache} {es : List Rds.Bytes} {ms : List (Rds.Bytes × Rds.Bytes)} {n : ℕ} {ins : Ins N},
      Link env pb es pb' ms n → Holds env ins pb → ins.data ++ chunks.flatten = es.flatten →
      (∀ e es', es = e :: es' → ins.data.length < e.length) →
      ∃ ins', ins.run env chunks = .ok (none, ins') ∧ ins'.data = [] ∧ due ins' [] 0 = due ins ms n := by
  induction chunks with
  | nil =>
    intro pb es ms n ins h hpb hdata hshort
    rw [List.flatten_nil, List.append_nil] at hdata
    cases es with
    | nil =>
      cases h
      exact ⟨ins, rfl, hdata, rfl⟩
    | cons e es =>
      have := hshort e es rfl
      rw [hdata, List.flatten_cons, List.length_append] at this
      omega
  | cons c chunks ih =>
    intro pb es ms n ins h hpb hdata hshort
    rw [List.flatten_cons, ← List.append_assoc] at hdata
    obtain ⟨ins', pb₁, es₁, ms₁, n₁, hrec, hpb', h', hdata', hdue, hshort'⟩ :=
      Link.onRecv hl h (show Holds env { ins with data := ins.data ++ c } pb from hpb) hdata
        (Nat.lt_succ_self _)
    obtain ⟨ins'', hrun, hnil, hdue'⟩ := ih h' hpb' hdata' hshort'
    refine ⟨ins'', ?_, hnil, hdue'.trans hdue⟩
    rw [Ins.run]
    rw [hrec]
    exact hrun

end Sandc1
