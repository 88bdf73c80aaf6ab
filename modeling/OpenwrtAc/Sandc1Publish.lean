/-
# Published messages over the cloud link

A sequence of publishes, each with both of its writes before the next, against the receive
loop.  A topic with a zero byte is cut by the `%s` of `toarr`, and one that is empty is
refused by `checkarr`, which ends the link; everything else arrives as it was published.
-/
import OpenwrtAc.Sandc1Link

open CString LuaTable Rds

namespace Sandc1

variable {N : Type}

/-! ## Publishes -/

/-- A call of `publish`: the `encode_type` at the time, the order in which `pairs` has the keys of
    `tpmap`, the topic and the payload. -/
structure Call where
  type : ℤ
  order : List String
  topic : Rds.Bytes
  payload : Rds.Bytes

/-- Both writes of a call. -/
def Call.events (c : Call) : List Event := [.setEncodeType c.type, .publish c.order c.topic c.payload, .second 0]

/-- One call after the other. -/
def Sender.publishAll (env : Env N) (cs : List Call) (s : Sender) : Except Abort Sender :=
  (cs.flatMap Call.events).foldlM (Sender.step env) s

/-- `pairs` goes through all keys of `tpmap`. -/
def Call.Possible (c : Call) : Prop := c.order.Perm ["id", "tp", "pl"]

/-- The receive loop of a receiver that has connected with a type passes on these messages, and no
    others. -/
def Delivers (env : Env N) (type : ℤ) (chunks : List Rds.Bytes) (ms : List (Rds.Bytes × Rds.Bytes)) : Prop :=
  ∃ err ins, (Ins.new type).run env chunks = .ok (err, ins) ∧ ins.messages = ms.map fun m => (some m.1, some m.2)

/-- What arrives of the calls: their topics as `%s` has them, up to the first that is empty. -/
def arriving (cs : List Call) : List (Rds.Bytes × Rds.Bytes) :=
  (cs.takeWhile fun c => Sands.formatS c.topic ≠ []).map fun c => (Sands.formatS c.topic, c.payload)

/-! ## Topics -/

theorem formatS_idem (s : Rds.Bytes) : Sands.formatS (Sands.formatS s) = Sands.formatS s := by
  unfold Sands.formatS
  by_cases h : s.length < 100
  · rw [if_pos h, if_pos ((List.takeWhile_prefix _).length_le.trans_lt h), List.takeWhile_idem]
  · rw [if_neg h, if_neg h]

/-- The frame of a topic is that of what `%s` leaves of it. -/
theorem topicArr_formatS (order : List String) (topic : Rds.Bytes) (n : ℕ) :
    topicArr order (Sands.formatS topic) n = topicArr order topic n := by
  have h : ∀ t, topicArr order t n = order.filterMap fun k =>
      ((tpmap t n).lookup k).map fun v => Sands.formatS (asciiBytes k) ++ Sands.formatS v := by
    intro t
    simp only [topicArr, Sands.toarr, inOrder, List.map_filterMap, Option.map_map, Function.comp_def]
  rw [h, h]
  refine List.filterMap_congr fun k _ => ?_
  by_cases hid : k = "id"
  · simp [tpmap, hid]
  · by_cases htp : k = "tp"
    · simp [tpmap, List.lookup_cons, htp, formatS_idem]
    · simp [tpmap, List.lookup_cons, beq_eq_false_iff_ne.mpr hid, beq_eq_false_iff_ne.mpr htp]

/-- The topics that `%s` does not cut. -/
theorem whole_iff (topic : Rds.Bytes) :
    Whole topic ↔ topic ≠ [] ∧ (topic.length < 100 → (0 : UInt8) ∉ topic) := by
  refine and_congr_right fun _ => ?_
  unfold Sands.formatS
  by_cases h : topic.length < 100
  · rw [if_pos h, List.takeWhile_eq_self_iff]
    refine ⟨fun hall _ h0 => by simpa using hall 0 h0, fun h0 c hc => ?_⟩
    rw [bne_iff_ne]
    exact fun hc0 => h0 h (hc0 ▸ hc)
  · rw [if_neg h]
    exact ⟨fun _ hlt => absurd hlt h, fun _ => rfl⟩

/-- All arrives as it was published if and only if no topic is empty or cut. -/
theorem arriving_eq_iff (cs : List Call) :
    (arriving cs = cs.map fun c => (c.topic, c.payload)) ↔ ∀ c ∈ cs, Whole c.topic := by
  induction cs with
  | nil => simp [arriving]
  | cons c cs ih =>
    by_cases hnil : Sands.formatS c.topic = []
    · -- nothing arrives, and the topic is not whole
      have hnone : arriving (c :: cs) = [] := by simp [arriving, hnil]
      rw [hnone]
      refine ⟨fun h => (by cases h), fun h => ?_⟩
      obtain ⟨hne, heq⟩ := h c List.mem_cons_self
      exact absurd (heq ▸ hnil) hne
    · have hcons : arriving (c :: cs) = (Sands.formatS c.topic, c.payload) :: arriving cs := by
        simp [arriving, hnil]
      rw [hcons, List.map_cons, List.cons.injEq, ih, List.forall_mem_cons, Prod.mk.injEq]
      refine and_congr ⟨fun h => ⟨fun h0 => hnil ?_, h.1⟩, fun h => ⟨h.2, rfl⟩⟩ Iff.rfl
      rw [h.1, h0]

/-! ## A frame that is refused -/

/-- A frame whose strings `checkarr` turns down. -/
structure Refused (env : Env N) (e : Rds.Bytes) : Prop where
  header : ∃ type, Encrypt.lHeader e = .ok (e.length, type)
  decode : ∃ ds arr, decode env e = .ok (.ok ds) ∧ env.parseReply ds = .array arr ∧ checkarr arr = false

/-- `on_recv` in front of a frame that is refused: it takes what is there of the frames before, or
    all of them and the frame, and is done. -/
theorem Refused.onRecv {env : Env N} (hl : env.Lawful) {e rest future : Rds.Bytes}
    (he : Refused env e)
    {pb : Cache} {es : List Rds.Bytes} {ms : List (Rds.Bytes × Rds.Bytes)} {n fuel : ℕ}
    {ins : Ins N}
    (h : Link env pb es none ms n) (hpb : Holds env ins pb)
    (hdata : ins.data ++ future = es.flatten ++ (e ++ rest))
    (hfuel : ins.data.length < fuel) :
    (∃ ins' pb₁ es₁ ms₁ n₁, ins.onRecv env fuel = .ok (none, ins') ∧ Holds env ins' pb₁ ∧
      Link env pb₁ es₁ none ms₁ n₁ ∧ ins'.data ++ future = es₁.flatten ++ (e ++ rest) ∧
      due ins' ms₁ n₁ = due ins ms n ∧ ins'.data.length < es₁.flatten.length + e.length) ∨
    ∃ ins', ins.onRecv env fuel = .ok (some .dataError, ins') ∧ due ins' [] 0 = due ins ms n := by
  obtain ⟨ins', pb₁, es₁, ms₁, n₁, fuel', hrec, hpb', h', hdata', hdue, hshort⟩ := h.rounds hl hpb hdata hfuel
  rw [hrec]
  cases es₁ with
  | cons e' es' =>
    have hlt := hshort e' es' rfl
    refine .inl ⟨ins', pb₁, e' :: es', ms₁, n₁, h'.waits hl hpb' hdata' hlt fuel', hpb', h', hdata', hdue, ?_⟩
    rw [List.flatten_cons, List.length_append]
    omega
  | nil =>
    -- the frames in front have been taken
    cases h'
    have hnone : ins'.pbcache = none := hpb'
    by_cases hlt : ins'.data.length < e.length
    · refine .inl ⟨ins', none, [], [], 0, ?_, hpb', .nil none, hdata', hdue, by simpa using hlt⟩
      have hp : ins'.data <+: e :=
        List.prefix_of_prefix_length_le ⟨future, hdata'⟩ (List.prefix_append _ _) hlt.le
      exact onRecv_lack ((round_none env hnone).trans (parseNormal_lack env he.header hp hlt)) fuel'
    · obtain ⟨more, hmore⟩ : e <+: ins'.data :=
        List.prefix_of_prefix_length_le (List.prefix_append _ _) ⟨future, hdata'⟩ (by omega)
      refine .inr ⟨{ ins' with data := more }, ?_, hdue⟩
      obtain ⟨type, hh⟩ := he.header
      have h4 := (Encrypt.lHeader_bounds hh).1
      have hne : ins'.data ≠ [] := by
        intro hnil
        rw [hnil, List.length_nil] at hlt
        omega
      obtain ⟨ds, arr, hds, harr, hcheck⟩ := he.decode
      rw [Ins.onRecv, if_neg hne, round_none env hnone, (parseNormal_frame he.header hds harr hmore.symm).1 hcheck]
      rfl

/-- `run_internal` ends at the frame, with the messages in front of it. -/
theorem Refused.run {env : Env N} (hl : env.Lawful) {e rest : Rds.Bytes} (he : Refused env e)
    {chunks : List Rds.Bytes} :
    ∀ {pb : Cache} {es : List Rds.Bytes} {ms : List (Rds.Bytes × Rds.Bytes)} {n : ℕ} {ins : Ins N},
      Link env pb es none ms n → Holds env ins pb → ins.data ++ chunks.flatten = es.flatten ++ (e ++ rest) →
      ins.data.length < es.flatten.length + e.length →
      ∃ ins', ins.run env chunks = .ok (some .dataError, ins') ∧ due ins' [] 0 = due ins ms n := by
  induction chunks with
  | nil =>
    intro pb es ms n ins h hpb hdata hshort
    rw [List.flatten_nil, List.append_nil] at hdata
    rw [hdata, List.length_append, List.length_append] at hshort
    omega
  | cons c chunks ih =>
    intro pb es ms n ins h hpb hdata hshort
    rw [List.flatten_cons, ← List.append_assoc] at hdata
    rw [Ins.run]
    obtain ⟨ins', pb₁, es₁, ms₁, n₁, hrec, hpb', h', hdata', hdue, hshort'⟩ | ⟨ins', hrec, hdue⟩ :=
      he.onRecv hl h (show Holds env { ins with data := ins.data ++ c } pb from hpb) hdata (Nat.lt_succ_self _)
    · obtain ⟨ins'', hrun, hdue'⟩ := ih h' hpb' hdata' hshort'
      refine ⟨ins'', ?_, hdue'.trans hdue⟩
      rw [hrec]
      exact hrun
    · refine ⟨ins', ?_, hdue⟩
      rw [hrec]
      rfl

/-! ## The bytes of publishes -/

/-- The two frames of a call. -/
theorem publishAll_cons {env : Env N} {c : Call} {cs : List Call} {s s' : Sender}
    (hhalf : s.half = [])
    (h : Sender.publishAll env (c :: cs) s = .ok s') :
    ∃ plStr tpStr s₁, encode env c.type c.payload = .ok plStr ∧
      encode env c.type (env.buildQuery (topicArr c.order c.topic plStr.length)) = .ok tpStr ∧
      s₁.half = [] ∧ s₁.wire = s.wire ++ (tpStr ++ plStr) ∧ Sender.publishAll env cs s₁ = .ok s' := by
  unfold Sender.publishAll at h
  rw [List.flatMap_cons, List.foldlM_append] at h
  obtain ⟨s₁, h₁, h⟩ := Outcome.bind_eq_ok.mp h
  unfold Call.events at h₁
  simp only [List.foldlM_cons, List.foldlM_nil] at h₁
  obtain ⟨s₂, h₂, h₁⟩ := Outcome.bind_eq_ok.mp h₁
  cases h₂
  obtain ⟨s₃, h₃, h₁⟩ := Outcome.bind_eq_ok.mp h₁
  obtain ⟨s₄, h₄, h₁⟩ := Outcome.bind_eq_ok.mp h₁
  cases h₁
  cases h₄
  obtain ⟨plStr, hpl, h₃⟩ := Outcome.bind_eq_ok.mp h₃
  obtain ⟨tpStr, htp, h₃⟩ := Outcome.bind_eq_ok.mp h₃
  cases h₃
  refine ⟨plStr, tpStr, _, hpl, htp, ?_, ?_, h⟩
  · simp [Sender.second, hhalf]
  · simp [Sender.second, hhalf]

/-- What publishes write are frames, up to one that is refused if there is one. -/
theorem publishAll_wire {env : Env N} (hl : env.Lawful) {cs : List Call}
    (hp : ∀ c ∈ cs, c.Possible) {s s' : Sender}
    (hhalf : s.half = []) (h : Sender.publishAll env cs s = .ok s') :
    ∃ es tail, s'.wire = s.wire ++ (es.flatten ++ tail) ∧ Link env none es none (arriving cs) 0 ∧
      (tail = [] ∨ ∃ e rest, tail = e ++ rest ∧ Refused env e) := by
  induction cs generalizing s with
  | nil =>
    cases h
    exact ⟨[], [], by simp, .nil none, .inl rfl⟩
  | cons c cs ih =>
    obtain ⟨plStr, tpStr, s₁, hpl, htp, hhalf₁, hwire, h⟩ := publishAll_cons hhalf h
    obtain ⟨es, tail, hw, hlink, htail⟩ := ih (fun x hx => hp x (List.mem_cons_of_mem c hx)) hhalf₁ h
    have hpc := hp c List.mem_cons_self
    obtain ⟨hdec, type, hh⟩ := encode_encoded hl hpl
    obtain ⟨hlen4, hlen⟩ := Encrypt.lHeader_bounds hh
    by_cases hnil : Sands.formatS c.topic = []
    · -- the string of the topic is the two bytes of its key
      have hcheck : checkarr (topicArr c.order c.topic plStr.length) = false := by
        unfold checkarr
        rw [List.all_eq_false]
        refine ⟨asciiBytes "tp" ++ Sands.formatS c.topic, ?_, ?_⟩
        · rw [(topicArr_perm hpc c.topic plStr.length).mem_iff]
          simp
        · rw [hnil]
          decide
      obtain ⟨hdt, hht⟩ := encode_encoded hl htp
      have hrefused : Refused env tpStr :=
        ⟨hht, _, _, hdt, hl.parse _ (topicArr_ne_nil hpc c.topic plStr.length), hcheck⟩
      have hnone : arriving (c :: cs) = [] := by simp [arriving, hnil]
      refine ⟨[], tpStr ++ (plStr ++ (es.flatten ++ tail)), ?_, hnone ▸ .nil none, .inr ⟨_, _, rfl, hrefused⟩⟩
      rw [hw, hwire]
      simp only [List.append_assoc, List.flatten_nil, List.nil_append]
    · have hwhole : Whole (Sands.formatS c.topic) := ⟨hnil, formatS_idem c.topic⟩
      rw [← topicArr_formatS] at htp
      have hq := query_of_encode hl (topicArr_ne_nil hpc _ plStr.length) (topicArr_checkarr hpc hwhole _) htp
      have hne : plStr ≠ [] := by
        rintro rfl
        simp at hlen4
      have hcons : arriving (c :: cs) = (Sands.formatS c.topic, c.payload) :: arriving cs := by
        simp [arriving, hnil]
      refine ⟨tpStr :: plStr :: es, tail, ?_, ?_, htail⟩
      · rw [hw, hwire]
        simp only [List.append_assoc, List.flatten_cons]
      · rw [hcons]
        exact .head (show (Frame.head _ plStr.length).Bytes env tpStr from ⟨by omega, c.order, hpc, hwhole, hq⟩)
          (.body (show (Frame.body _ c.payload plStr.length).Bytes env plStr from ⟨rfl, hne, hdec⟩) hlink)

/-- What the receive loop passes on of publishes, in whatever pieces their bytes come. -/
theorem publishes_arrive {env : Env N} (hl : env.Lawful) {cs : List Call}
    (hp : ∀ c ∈ cs, c.Possible) {start : ℤ}
    {s : Sender} (hs : Sender.publishAll env cs (.start start) = .ok s) (type : ℤ) {chunks : List Rds.Bytes}
    (hc : chunks.flatten = s.wire) : Delivers env type chunks (arriving cs) := by
  obtain ⟨es, tail, hw, hlink, htail⟩ := publishAll_wire hl hp (show (Sender.start start).half = [] from rfl) hs
  have hdata : (Ins.new type : Ins N).data ++ chunks.flatten = es.flatten ++ tail := by
    rw [hc, hw]
    rfl
  have hmsg : ∀ ins : Ins N, due ins [] 0 = due (Ins.new type : Ins N) (arriving cs) 0 →
      ins.messages = (arriving cs).map fun m => (some m.1, some m.2) := by
    intro ins hdue
    simpa [due, Ins.new] using congrArg Prod.fst hdue
  obtain rfl | ⟨e, rest, rfl, he⟩ := htail
  · obtain ⟨ins, hrun, -, hdue⟩ := Link.run hl hlink (show Holds env (Ins.new type) none from rfl)
      (by rw [hdata, List.append_nil]) (by
        rintro e es' rfl
        exact List.length_pos_iff.mpr hlink.ne_nil)
    exact ⟨_, ins, hrun, hmsg ins hdue⟩
  · have hpos : 0 < e.length := by
      obtain ⟨type, hh⟩ := he.header
      have := (Encrypt.lHeader_bounds hh).1
      omega
    obtain ⟨ins, hrun, hdue⟩ := he.run hl hlink (show Holds env (Ins.new type) none from rfl) hdata
      (show 0 < _ by omega)
    exact ⟨_, ins, hrun, hmsg ins hdue⟩

theorem Delivers.unique {env : Env N} {type : ℤ} {chunks : List Rds.Bytes}
    {ms ms' : List (Rds.Bytes × Rds.Bytes)}
    (h : Delivers env type chunks ms) (h' : Delivers env type chunks ms') : ms = ms' := by
  obtain ⟨err, ins, hrun, hms⟩ := h
  obtain ⟨err', ins', hrun', hms'⟩ := h'
  rw [hrun] at hrun'
  cases hrun'
  rw [hms] at hms'
  refine List.map_injective_iff.mpr ?_ hms'
  rintro ⟨a, b⟩ ⟨a', b'⟩ hab
  cases hab
  rfl

/-- The messages that were published arrive, in whatever pieces their bytes come, if and only if
    each topic is there and is not cut. -/
theorem publishes_delivered_iff {env : Env N} (hl : env.Lawful) {cs : List Call}
    (hp : ∀ c ∈ cs, c.Possible)
    {start : ℤ} {s : Sender} (hs : Sender.publishAll env cs (.start start) = .ok s) (type : ℤ)
    {chunks : List Rds.Bytes} (hc : chunks.flatten = s.wire) :
    Delivers env type chunks (cs.map fun c => (c.topic, c.payload)) ↔
      ∀ c ∈ cs, c.topic ≠ [] ∧ (c.topic.length < 100 → (0 : UInt8) ∉ c.topic) := by
  have harr := publishes_arrive hl hp hs type hc
  have hiff : Delivers env type chunks (cs.map fun c => (c.topic, c.payload)) ↔
      arriving cs = cs.map fun c => (c.topic, c.payload) := ⟨harr.unique, fun h => h ▸ harr⟩
  rw [hiff, arriving_eq_iff]
  exact forall₂_congr fun c _ => whole_iff c.topic

/-- The call of the example, for a topic that `%s` makes one letter. -/
def callT (topic : Rds.Bytes) : Call := ⟨0, ["id", "tp", "pl"], topic, payloadPx⟩

theorem publishAll_t {topic : Rds.Bytes} (ht : Sands.formatS topic = asciiBytes "t") :
    Sender.publishAll plain [callT topic] (.start 0) =
      .ok ⟨0, plainFrame queryT ++ plainFrame payloadPx, [], [(topic, payloadPx)], 0⟩ := by
  obtain ⟨hpl, -, htp⟩ := plain_encodes
  have hquery : plain.buildQuery (Sands.toarr (inOrder ["id", "tp", "pl"] (tpmap topic 18))) = queryT := by
    change plain.buildQuery (topicArr ["id", "tp", "pl"] topic 18) = queryT
    rw [← topicArr_formatS, ht]
    rfl
  have hpub : (Sender.start 0).step plain (.publish ["id", "tp", "pl"] topic payloadPx) =
      .ok ⟨0, plainFrame queryT, [⟨topic, payloadPx, plainFrame payloadPx⟩], [], 0⟩ := by
    change (Sender.start 0).publish plain ["id", "tp", "pl"] topic payloadPx = _
    unfold Sender.publish
    rw [show (Sender.start 0).encodeType = 0 from rfl, hpl]
    simp only [bind, Except.bind, plainFrame_payloadPx, hquery, htp]
    rfl
  have htype : (Sender.start 0).step plain (.setEncodeType 0) = .ok (.start 0) := rfl
  have hevents : [callT topic].flatMap Call.events =
      [.setEncodeType 0, .publish ["id", "tp", "pl"] topic payloadPx, .second 0] := rfl
  unfold Sender.publishAll
  rw [hevents, List.foldlM_cons, htype]
  simp only [bind, Except.bind, List.foldlM_cons, hpub, List.foldlM_nil]
  rfl

/-- One message, cut in the header of its topic. -/
theorem publishes_delivered_t : Delivers plain 1 [(plainFrame queryT).take 3,
    (plainFrame queryT).drop 3 ++ plainFrame payloadPx] [(asciiBytes "t", payloadPx)] :=
  (publishes_delivered_iff plain_lawful
    (show ∀ c ∈ [callT (asciiBytes "t")], c.Possible by
      intro c hc
      rw [List.mem_singleton.mp hc]
      exact .refl _)
    (publishAll_t (by decide)) 1
    (by rw [List.flatten_cons, List.flatten_cons, List.flatten_nil, List.append_nil, ← List.append_assoc,
      List.take_append_drop])).mpr
    (fun c hc => by
      rw [List.mem_singleton.mp hc]
      exact ⟨by decide, by decide⟩)

/-- A topic of three bytes, the second of which is zero, arrives as its first byte. -/
theorem zero_in_topic_cut : ∃ s, Sender.publishAll plain [callT [116, 0, 120]] (.start 0) = .ok s ∧
    s.published = [([116, 0, 120], payloadPx)] ∧ payloadPx ≠ [] ∧
    Delivers plain 0 [s.wire] [([116], payloadPx)] ∧ ¬ Delivers plain 0 [s.wire] [([116, 0, 120], payloadPx)] := by
  have hs := publishAll_t (show Sands.formatS [116, 0, 120] = asciiBytes "t" by decide)
  have hpossible : ∀ c ∈ [callT [116, 0, 120]], c.Possible := by
    intro c hc
    rw [List.mem_singleton.mp hc]
    exact .refl _
  have harr := publishes_arrive plain_lawful hpossible hs 0
    (show [plainFrame queryT ++ plainFrame payloadPx].flatten = _ by simp)
  have hmsg : arriving [callT [116, 0, 120]] = [([116], payloadPx)] := rfl
  rw [hmsg] at harr
  have hne : payloadPx ≠ [] := by
    intro hnil
    have := payloadPx_length
    rw [hnil] at this
    cases this
  refine ⟨_, hs, rfl, hne, harr, fun h => ?_⟩
  have := harr.unique h
  simp at this

end Sandc1
