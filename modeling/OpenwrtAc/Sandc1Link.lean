/-
# The link to the cloud

When no other write comes between the two writes of a `publish`, the receiver gets each
message as it was published, in whatever pieces the bytes arrive; a ping between the two is
taken for the payload.
-/
import OpenwrtAc.Sandc1Frames

open CString LuaTable Rds

namespace Sandc1

variable {N : Type}

/-! ## Writes that stay together -/

/-- No `publish` and no ping begins between the two writes of another `publish`, and topics are
    whole. -/
def Together (s : Sender) : Event → Prop
  | .publish _ topic _ => s.half = [] ∧ Whole topic
  | .ping => s.half = []
  | _ => True

/-- The wire has frames one after the other, of which the last may be that of a topic. -/
def Framed (env : Env N) (s : Sender) : Prop :=
  (s.half = [] ∧ ∃ es, Link env none es none s.published s.pings ∧ s.wire = es.flatten) ∨
    ∃ h es, s.half = [h] ∧ (Frame.body h.topic h.payload h.plStr.length).Bytes env h.plStr ∧
      Link env none es (some (h.topic, h.plStr.length)) s.published s.pings ∧ s.wire = es.flatten

/-- The sample's ping may be encoded. -/
theorem checkarr_ping : checkarr (Sands.toarr [("id", asciiBytes "pi")]) = true := by decide

/-- Every event keeps the frames whole. -/
theorem Framed.step {env : Env N} (hl : env.Lawful) {s s' : Sender} {e : Event} (h : Framed env s)
    (hp : e.Possible) (ht : Together s e) (hs : s.step env e = .ok s') : Framed env s' := by
  cases e with
  | setEncodeType type =>
    cases hs
    exact h
  | second i =>
    cases hs
    obtain ⟨hnil, hes⟩ | ⟨x, es, hx, hbody, hlink, hw⟩ := h
    · -- there is no half message, so nothing is written
      have hsame : s.second i = s := by
        rw [Sender.second, hnil]
        rfl
      rw [hsame]
      exact .inl ⟨hnil, hes⟩
    · cases i with
      | zero =>
        -- the body that was missing follows its head
        refine .inl ⟨by simp [Sender.second, hx], es ++ [x.plStr], ?_, ?_⟩
        · have := hlink.append (.body hbody (.nil none))
          simpa [Sender.second, hx] using this
        · simp [Sender.second, hx, hw]
      | succ i =>
        have hnone : ([x] : List Half)[i + 1]? = none := by simp
        rw [Sender.second, hx, hnone]
        exact .inr ⟨x, es, hx, hbody, hlink, hw⟩
  | ping =>
    obtain ⟨-, es, hlink, hw⟩ | ⟨x, -, hx, -⟩ := h
    · obtain ⟨s1, henc, hs⟩ := Outcome.bind_eq_ok.mp hs
      cases hs
      have hq := query_of_encode hl (by simp [Sands.toarr]) checkarr_ping henc
      refine .inl ⟨ht, es ++ [s1], ?_, by simp [hw]⟩
      simpa using hlink.append (.ping hq (.nil none))
    · rw [show s.half = [] from ht] at hx
      cases hx
  | publish order topic payload =>
    obtain ⟨hnil, hwhole⟩ := ht
    obtain ⟨-, es, hlink, hw⟩ | ⟨x, -, hx, -⟩ := h
    · obtain ⟨plStr, hpl, hs⟩ := Outcome.bind_eq_ok.mp hs
      obtain ⟨tpStr, htp, hs⟩ := Outcome.bind_eq_ok.mp hs
      cases hs
      -- the head announces the length of a body that is written by a later event
      obtain ⟨hdec, type, hh⟩ := encode_encoded hl hpl
      obtain ⟨hlen4, hlen⟩ := Encrypt.lHeader_bounds hh
      have hq := query_of_encode hl (topicArr_ne_nil hp topic plStr.length) (topicArr_checkarr hp hwhole _) htp
      have hne' : plStr ≠ [] := by
        rintro rfl
        simp at hlen4
      refine .inr ⟨⟨topic, payload, plStr⟩, es ++ [tpStr], by simp [hnil], ⟨rfl, hne', hdec⟩, ?_, by simp [hw]⟩
      simpa using hlink.append (.head (show (Frame.head topic plStr.length).Bytes env tpStr from
        ⟨by omega, order, hp, hwhole, hq⟩) (.nil (some (topic, plStr.length))))
    · rw [hnil] at hx
      cases hx

/-- In every reached state the frames are whole. -/
theorem Reached.framed {env : Env N} (hl : env.Lawful) {s : Sender} (h : Reached env Together s) :
    Framed env s := by
  induction h with
  | start type => exact .inl ⟨rfl, [], .nil none, rfl⟩
  | step _ hp ht hs ih => exact ih.step hl hp ht hs

/-- In every run in which the writes of each `publish` stay together, the receiver gets the messages
    that were published and the pings, in whatever pieces the bytes come. -/
theorem together_decodes {env : Env N} (hl : env.Lawful) {s : Sender} (h : Reached env Together s)
    (type : ℤ)
    {chunks : List Rds.Bytes} (hc : chunks.flatten = s.wire) :
    ∃ ins : Ins N, (Ins.new type).run env chunks = .ok (none, ins) ∧
      ins.messages = s.published.map (fun m => (some m.1, some m.2)) ∧
      ins.unknown = List.replicate s.pings (asciiBytes "pi") := by
  obtain ⟨es, pb, hlink, hw⟩ : ∃ es pb, Link env none es pb s.published s.pings ∧ s.wire = es.flatten := by
    obtain ⟨-, es, hlink, hw⟩ | ⟨x, es, -, -, hlink, hw⟩ := h.framed hl
    · exact ⟨es, _, hlink, hw⟩
    · exact ⟨es, _, hlink, hw⟩
  obtain ⟨ins, hrun, -, hdue⟩ := Link.run hl hlink (show Holds env (Ins.new type) none from rfl)
    (show (Ins.new type : Ins N).data ++ chunks.flatten = _ by
      rw [hc, hw]
      rfl) (by
      rintro e es' rfl
      exact List.length_pos_iff.mpr hlink.ne_nil)
  refine ⟨ins, hrun, ?_, ?_⟩
  · simpa [due, Ins.new] using congrArg Prod.fst hdue
  · simpa [due, Ins.new] using congrArg Prod.snd hdue

/-! ## Queries in the unified protocol -/

def digit (c : UInt8) : Bool := 48 ≤ c ∧ c ≤ 57

/-- The number that digits are. -/
def ofDigits (s : Rds.Bytes) : ℕ := s.foldl (fun n c => n * 10 + (c.toNat - 48)) 0

/-- Digits up to the end of the line. -/
def readLen (s : Rds.Bytes) : Option (ℕ × Rds.Bytes) :=
  match s.dropWhile digit with
  | 13 :: 10 :: rest => some (ofDigits (s.takeWhile digit), rest)
  | _ => none

/-- Strings with their lengths. -/
def readStrings : ℕ → Rds.Bytes → Option (List Rds.Bytes)
  | 0, _ => some []
  | k + 1, 36 :: s => do
    let (n, s) ← readLen s
    return s.take n :: (← readStrings k (s.drop (n + 2)))
  | _, _ => none

/-- An array of strings. -/
def readReply : Rds.Bytes → Reply
  | 42 :: s =>
    match readLen s >>= fun r => readStrings r.1 r.2 with
    | some l => .array l
    | none => .nil
  | _ => .nil

/-- Numbers that are natural, arrays of strings, and blocks of literals. -/
def plain : Env ℕ where
  lz4 := Encrypt.literals
  buildQuery arr := header star arr.length ++ arr.flatMap writeParam
  parseReply := readReply
  tonumber s := if s ≠ [] ∧ s.all digit then some (ofDigits s) else none
  natLt m n := m < n
  isZero n := n == 0
  toInteger n := n

/-- The decimal of a number consists of digits and reads back. -/
theorem decimal_digits (n : ℕ) : (∀ c ∈ decimal n, digit c = true) ∧ ofDigits (decimal n) = n := by
  obtain ⟨ds, hds, hdec, hval⟩ := decimal_eq n
  have hbyte : ∀ d ∈ ds, (48 + d).toUInt8.toNat = 48 + d := by
    intro d hd
    have := hds d hd
    rw [Nat.toUInt8_eq, UInt8.toNat_ofNat']
    omega
  rw [hdec]
  constructor
  · intro c hc
    obtain ⟨d, hd, rfl⟩ := List.mem_map.mp hc
    have h1 := hbyte d hd
    have h2 := hds d hd
    have h48 : (48 : UInt8).toNat = 48 := rfl
    have h57 : (57 : UInt8).toNat = 57 := rfl
    simp only [digit, decide_eq_true_eq, UInt8.le_iff_toNat_le, h1]
    omega
  · have hfold : ∀ (l : List ℕ) (a : ℕ), (∀ d ∈ l, (48 + d).toUInt8.toNat = 48 + d) →
        (l.map fun d => (48 + d).toUInt8).foldl (fun n c => n * 10 + (c.toNat - 48)) a =
          l.foldl (fun c d => c * 10 + d) a := by
      intro l
      induction l with
      | nil => exact fun _ _ => rfl
      | cons d l ih =>
        intro a hl
        rw [List.map_cons, List.foldl_cons, List.foldl_cons, hl d List.mem_cons_self, Nat.add_sub_cancel_left]
        exact ih _ fun x hx => hl x (List.mem_cons_of_mem d hx)
    exact (hfold ds 0 hbyte).trans hval

/-- A length that was written is read. -/
theorem readLen_decimal (n : ℕ) (rest : Rds.Bytes) :
    readLen (decimal n ++ 13 :: 10 :: rest) = some (n, rest) := by
  obtain ⟨hd, hv⟩ := decimal_digits n
  have h13 : digit 13 = false := by decide
  unfold readLen
  rw [List.dropWhile_append_of_pos hd, List.takeWhile_append_of_pos hd, List.dropWhile_cons_of_neg (by simp [h13]),
    List.takeWhile_cons_of_neg (by simp [h13]), List.append_nil, hv]
  rfl

/-- The strings that were written are read. -/
theorem readStrings_flatMap (arr : List Rds.Bytes) (rest : Rds.Bytes) :
    readStrings arr.length (arr.flatMap writeParam ++ rest) = some arr := by
  induction arr with
  | nil => rfl
  | cons s arr ih =>
    have hs : (s :: arr).flatMap writeParam ++ rest =
        36 :: (decimal s.length ++ 13 :: 10 :: (s ++ 13 :: 10 :: (arr.flatMap writeParam ++ rest))) := by
      simp [writeParam, header, dollar]
    have hdrop : (s ++ 13 :: 10 :: (arr.flatMap writeParam ++ rest)).drop (s.length + 2) =
        arr.flatMap writeParam ++ rest := by
      rw [List.drop_append, List.drop_eq_nil_of_le (by omega), Nat.add_sub_cancel_left]
      rfl
    rw [hs, List.length_cons, readStrings, readLen_decimal]
    simp only [bind, Option.bind, List.take_left, hdrop, ih]
    rfl

/-- The sample's environment is lawful. -/
theorem plain_lawful : plain.Lawful where
  lz4 := Encrypt.literals_lawful
  parse arr _ := by
    change readReply (header star arr.length ++ arr.flatMap writeParam) = _
    have h : header star arr.length ++ arr.flatMap writeParam =
        42 :: (decimal arr.length ++ 13 :: 10 :: (arr.flatMap writeParam ++ [])) := by
      simp [header, show Rds.star = 42 from rfl]
    rw [h, readReply, readLen_decimal]
    change (match readStrings arr.length (arr.flatMap writeParam ++ []) with | some l => _ | none => _) = _
    rw [readStrings_flatMap]
  number n _ := by
    obtain ⟨hd, hv⟩ := decimal_digits n
    refine ⟨n, ?_, fun m => rfl, rfl⟩
    change (if decimal n ≠ [] ∧ (decimal n).all digit = true then some (ofDigits (decimal n)) else none) = _
    rw [if_pos ⟨decimal_ne_nil n, List.all_eq_true.mpr hd⟩, hv]

/-! ## A ping between the writes -/

/-- A message with an unknown id is kept as unknown. -/
theorem dispatch_unknown (env : Env N) (ins : Ins N) :
    ins.dispatch env (Sands.tomap [asciiBytes "idpx"]) =
      .ok (none, { ins with unknown := ins.unknown ++ [asciiBytes "px"] }) := by
  have hid : field (Sands.tomap [asciiBytes "idpx"]) "id" = some (asciiBytes "px") := by decide
  unfold Ins.dispatch
  rw [hid]
  simp only
  rw [if_neg (by decide), if_neg (by decide), if_neg (by decide), if_neg (by decide), if_neg (by decide)]

/-- Runs of writes in any order, of topics that are whole. -/
def AnyOrder (_ : Sender) : Event → Prop
  | .publish _ topic _ => Whole topic
  | _ => True

/-- A string of type 0. -/
def plainFrame (s : Rds.Bytes) : Rds.Bytes :=
  Encrypt.htonl (Encrypt.setHeader 0 (Encrypt.wordSize + s.length)) ++ s

/-- A message of type 0 is its plain frame. -/
theorem encode_zero (env : Env N) {s : Rds.Bytes} (hs : s ≠ []) (hl : s.length ≤ Encrypt.maxLen) :
    encode env 0 s = .ok (plainFrame s) := by
  have hpos := List.length_pos_iff.mpr hs
  unfold encode Encrypt.lEncode
  rw [if_neg (by omega), if_pos (.inl rfl)]
  rfl

/-- A plain frame has four bytes more than its message. -/
theorem plainFrame_length (s : Rds.Bytes) : (plainFrame s).length = 4 + s.length := by
  rw [plainFrame, List.length_append, Encrypt.htonl_length]
  rfl

/-- A query of one string of four bytes. -/
theorem query_four {x : Rds.Bytes} (hx : x.length = 4) :
    plain.buildQuery [x] = [42, 49, 13, 10, 36, 52, 13, 10] ++ x ++ [13, 10] := by
  simp [plain, header, decimal, writeParam, Rds.star, Rds.dollar, hx]

/-- The payload of the example is as long as a ping. -/
def payloadPx : Rds.Bytes := plain.buildQuery [asciiBytes "idpx"]

def queryPi : Rds.Bytes := plain.buildQuery (Sands.toarr [("id", asciiBytes "pi")])

/-- The length of the sample's payload. -/
theorem payloadPx_length : payloadPx.length = 14 := by
  rw [payloadPx, query_four rfl]
  rfl

/-- The ping has the same length. -/
theorem queryPi_length : queryPi.length = 14 := by
  have h : Sands.toarr [("id", asciiBytes "pi")] = [asciiBytes "idpi"] := by decide
  rw [queryPi, h, query_four rfl]
  rfl

/-- The ping is another text. -/
theorem queryPi_ne : queryPi ≠ payloadPx := by
  have h : Sands.toarr [("id", asciiBytes "pi")] = [asciiBytes "idpi"] := by decide
  rw [queryPi, payloadPx, h, query_four rfl, query_four rfl]
  decide

/-- The frame of the topic in the example. -/
def queryT : Rds.Bytes := plain.buildQuery (topicArr ["id", "tp", "pl"] (asciiBytes "t") 18)

/-- The publish is not empty and fits a frame. -/
theorem queryT_length : queryT ≠ [] ∧ queryT.length ≤ Encrypt.maxLen := by
  have h : topicArr ["id", "tp", "pl"] (asciiBytes "t") 18 =
      [asciiBytes "idpt", asciiBytes "tpt", asciiBytes "pl" ++ decimal 18] := by
    simp [topicArr, inOrder, tpmap, List.lookup_cons, Sands.toarr, formatS_decimal]
    decide
  have hd : decimal 18 = [49, 56] := by simp [decimal]
  have hl : (decimal 3).length = 1 ∧ (decimal 4).length = 1 := by simp [decimal]
  refine ⟨by simp [queryT, plain, header], ?_⟩
  have h3 : (asciiBytes "idpt").length = 4 ∧ (asciiBytes "tpt").length = 3 ∧ (asciiBytes "pl").length = 2 :=
    ⟨rfl, rfl, rfl⟩
  simp [queryT, h, plain, header, writeParam, hd, hl.1, hl.2, h3.1, h3.2.1, h3.2.2, Encrypt.maxLen]

/-- The frames of the sample. -/
theorem plain_encodes : encode plain 0 payloadPx = .ok (plainFrame payloadPx) ∧
    encode plain 0 queryPi = .ok (plainFrame queryPi) ∧ encode plain 0 queryT = .ok (plainFrame queryT) := by
  have hne : ∀ s : Rds.Bytes, s.length = 14 → s ≠ [] ∧ s.length ≤ Encrypt.maxLen := by
    intro s hs
    refine ⟨?_, by rw [hs]; decide⟩
    rintro rfl
    simp at hs
  exact ⟨encode_zero plain (hne _ payloadPx_length).1 (hne _ payloadPx_length).2,
    encode_zero plain (hne _ queryPi_length).1 (hne _ queryPi_length).2, encode_zero plain queryT_length.1 queryT_length.2⟩

/-- The length of the payload's frame. -/
theorem plainFrame_payloadPx :
    (plainFrame payloadPx).length = 18 := by rw [plainFrame_length, payloadPx_length]

/-- A topic of one letter. -/
theorem whole_t : Whole (asciiBytes "t") := ⟨by decide, by decide⟩

/-- The publish of the sample. -/
theorem publish_t : (Sender.start 0).publish plain ["id", "tp", "pl"] (asciiBytes "t") payloadPx =
    .ok ⟨0, plainFrame queryT, [⟨asciiBytes "t", payloadPx, plainFrame payloadPx⟩], [], 0⟩ := by
  obtain ⟨hpl, -, htp⟩ := plain_encodes
  have htp' : encode plain 0 (plain.buildQuery (Sands.toarr (inOrder ["id", "tp", "pl"]
      (tpmap (asciiBytes "t") 18)))) = .ok (plainFrame queryT) := htp
  unfold Sender.publish
  rw [show (Sender.start 0).encodeType = 0 from rfl, hpl]
  simp only [bind, Except.bind, plainFrame_payloadPx, htp']
  rfl

/-- One message, in two pieces. -/
theorem together_decodes_pieces :
    ∃ (s : Sender) (ins : Ins ℕ), s.published = [(asciiBytes "t", payloadPx)] ∧
    (Ins.new 0).run plain [plainFrame queryT, plainFrame payloadPx] = .ok (none, ins) ∧
    ins.messages = [(some (asciiBytes "t"), some payloadPx)] := by
  have r1 := Reached.step (e := .publish ["id", "tp", "pl"] (asciiBytes "t") payloadPx) (.start 0) (.refl _)
    (show Together _ _ from ⟨rfl, whole_t⟩) publish_t
  have r2 := r1.step (e := .second 0) trivial trivial rfl
  obtain ⟨ins, hrun, hmsg, -⟩ := together_decodes plain_lawful r2 0
    (show [plainFrame queryT, plainFrame payloadPx].flatten = _ by simp [Sender.second])
  exact ⟨Sender.second 0 ⟨0, plainFrame queryT, [⟨asciiBytes "t", payloadPx, plainFrame payloadPx⟩], [], 0⟩, ins,
    rfl, hrun, hmsg⟩

/-- A ping between the two writes is delivered as the payload, and the payload is not. -/
theorem ping_between : ∃ s, Reached plain AnyOrder s ∧ s.half = [] ∧
    s.published = [(asciiBytes "t", payloadPx)] ∧ s.pings = 1 ∧
    ∃ ins : Ins ℕ, (Ins.new 0).run plain [s.wire] = .ok (none, ins) ∧
      ins.messages = [(some (asciiBytes "t"), some queryPi)] ∧ queryPi ≠ payloadPx ∧
      asciiBytes "pi" ∉ ins.unknown := by
  obtain ⟨hpl, hpi, htp⟩ := plain_encodes
  have hpll := plainFrame_payloadPx
  have ht := whole_t
  have r1 := Reached.step (e := .publish ["id", "tp", "pl"] (asciiBytes "t") payloadPx) (.start 0) (.refl _)
    (show AnyOrder _ _ from ht) publish_t
  have h2 : Sender.ping plain ⟨0, plainFrame queryT, [⟨asciiBytes "t", payloadPx, plainFrame payloadPx⟩], [], 0⟩ =
      .ok ⟨0, plainFrame queryT ++ plainFrame queryPi,
        [⟨asciiBytes "t", payloadPx, plainFrame payloadPx⟩], [], 1⟩ := by
    unfold Sender.ping
    change (encode plain 0 queryPi >>= _) = _
    rw [hpi]
    rfl
  have r2 := r1.step (e := .ping) trivial trivial h2
  have r3 := r2.step (e := .second 0) trivial trivial rfl
  refine ⟨_, r3, rfl, rfl, rfl, ?_⟩
  have hwire : (Sender.second 0 ⟨0, plainFrame queryT ++ plainFrame queryPi,
      [⟨asciiBytes "t", payloadPx, plainFrame payloadPx⟩], [], 1⟩).wire =
      plainFrame queryT ++ (plainFrame queryPi ++ plainFrame payloadPx) := List.append_assoc ..
  -- the frame of the topic, and the ping in the place of the payload
  have hhead : (Frame.head (asciiBytes "t") 18).Bytes plain (plainFrame queryT) :=
    ⟨by decide, ["id", "tp", "pl"], .refl _, ht, query_of_encode plain_lawful (topicArr_ne_nil (.refl _) _ _)
      (topicArr_checkarr (.refl ["id", "tp", "pl"]) ht 18) htp⟩
  have hbody : (Frame.body (asciiBytes "t") queryPi 18).Bytes plain (plainFrame queryPi) := by
    have hlen : (plainFrame queryPi).length = 18 := by rw [plainFrame_length, queryPi_length]
    refine ⟨hlen, ?_, (encode_encoded plain_lawful hpi).1⟩
    rintro h
    simp [h] at hlen
  have hrest : Query plain (plainFrame payloadPx) [asciiBytes "idpx"] :=
    query_of_encode plain_lawful (by simp) (by decide) hpl
  obtain ⟨a, _, _, _, hround1, hdata1, hpb1, hlink1, hdue1⟩ :=
    (Link.head hhead (.body hbody (.nil none))).round plain_lawful (show Holds plain { (Ins.new 0 : Ins ℕ) with
      data := plainFrame queryT ++ (plainFrame queryPi ++ plainFrame payloadPx) } none from rfl) rfl
  obtain ⟨b, _, _, _, hround2, hdata2, hpb2, hlink2, hdue2⟩ := hlink1.round plain_lawful hpb1 hdata1
  cases hlink2
  have hnone : b.pbcache = none := hpb2
  obtain ⟨types, hround3⟩ := hrest.round (show b.data = _ ++ [] by rw [hdata2, List.append_nil])
    (dispatch_unknown plain _)
  have hdue := hdue2.trans hdue1
  have hmsg : b.messages = [(some (asciiBytes "t"), some queryPi)] := by
    simpa [due, Ins.new] using congrArg Prod.fst hdue
  have hunk : b.unknown = [] := by
    simpa [due, Ins.new] using congrArg Prod.snd hdue
  have hno : asciiBytes "pi" ∉ b.unknown ++ [asciiBytes "px"] := by
    rw [hunk]
    decide
  refine ⟨{ b with data := [], unknown := b.unknown ++ [asciiBytes "px"], encodeTypes := types }, ?_, hmsg,
    queryPi_ne, hno⟩
  have hpos : ∀ s : Rds.Bytes, plainFrame s ≠ [] := by
    intro s h
    have := plainFrame_length s
    simp [h] at this
    omega
  have hrun : ∀ fuel, Ins.onRecv plain (fuel + 4) { (Ins.new 0 : Ins ℕ) with
      data := plainFrame queryT ++ (plainFrame queryPi ++ plainFrame payloadPx) } =
      .ok (none, { b with data := [], unknown := b.unknown ++ [asciiBytes "px"], encodeTypes := types }) := by
    intro fuel
    rw [onRecv_round (by simp [hpos]) hround1, onRecv_round (by simp [hdata1, hpos]) hround2,
      onRecv_round (by simp [hdata2, hpos]) ((round_none plain hnone).trans hround3), Ins.onRecv, if_pos rfl]
  have hlen : (plainFrame queryT ++ (plainFrame queryPi ++ plainFrame payloadPx)).length + 1 =
      (plainFrame queryT).length + 33 + 4 := by
    rw [List.length_append, List.length_append, hpll, plainFrame_length queryPi, queryPi_length]
  rw [hwire, Ins.run]
  change (Ins.onRecv plain ((plainFrame queryT ++ (plainFrame queryPi ++ plainFrame payloadPx)).length + 1)
    { (Ins.new 0 : Ins ℕ) with data := plainFrame queryT ++ (plainFrame queryPi ++ plainFrame payloadPx) } >>= _) = _
  rw [hlen, hrun]
  rfl

end Sandc1
