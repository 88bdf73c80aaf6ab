/-
# The shared statistics

`statistic.c` keeps the nodes of users and of flows in two hash tables, and every few
seconds `stat_flush_fn` writes them into memory that a process reads: a header with two
counts and two offsets, and the records behind it.  The header is cleared before a flush;
the records, and the type of the node written last, are left from the flush before.
-/
import OpenwrtAc.NprotoRealtime
import OpenwrtAc.Outcome
import Mathlib.Data.List.Nodup

open MachineInt Outcome

namespace Nproto

/-! ## The hash tables -/

/-- `STAT_TYPE_FLOW`. -/
def statTypeFlow : ℕ := 0

/-- `STAT_TYPE_USER`. -/
def statTypeUser : ℕ := 1

/-- `STAT_HASH_WIDTH_FLOW`. -/
def statHashWidthFlow : ℕ := 512

/-- `STAT_HASH_WIDTH_USER`. -/
def statHashWidthUser : ℕ := 64

/-- `stat_hash`. -/
def statHash (a b w : ℕ) : ℕ := u32 ((a : ℤ) * b) % w

/-- What a node is found by. -/
def StatData.key (d : StatData) : ℕ × ℕ := (d.id, d.magic)

/-- `stat_t` for nodes of a type: each is in the list of its hash, and no other has its key. -/
structure StatT (type width : ℕ) where
  hash : ℕ → List StatData
  typed : ∀ i, ∀ d ∈ hash i, d.type = type
  placed : ∀ i, ∀ d ∈ hash i, statHash d.id d.magic width = i
  apart : ∀ i, ((hash i).map StatData.key).Nodup

variable {type width : ℕ}

/-- `stat_create`. -/
def StatT.empty : StatT type width where
  hash _ := []
  typed _ _ h := by cases h
  placed _ _ h := by cases h
  apart _ := .nil

/-- A table in which one list has changed. -/
def StatT.update (t : StatT type width) (i : ℕ) (l : List StatData) (ht : ∀ d ∈ l, d.type = type)
    (hp : ∀ d ∈ l, statHash d.id d.magic width = i) (ha : (l.map StatData.key).Nodup) : StatT type width where
  hash := Function.update t.hash i l
  typed j := by
    by_cases h : j = i
    · subst h
      simpa using ht
    · simpa [Function.update_of_ne h] using t.typed j
  placed j := by
    by_cases h : j = i
    · subst h
      simpa using hp
    · simpa [Function.update_of_ne h] using t.placed j
  apart j := by
    by_cases h : j = i
    · subst h
      simpa using ha
    · simpa [Function.update_of_ne h] using t.apart j

/-- `stat_node_find`, with memory for a node: one that is not there is made. -/
def StatT.statNodeFind (t : StatT type width) (id magic : ℕ) (mem : StatData) : StatT type width :=
  if h : ∃ d ∈ t.hash (statHash id magic width), d.key = (id, magic) then t
  else
    let node : StatData := { mem with id := id, magic := magic, type := type, activeStamp := 0 }
    t.update (statHash id magic width) (node :: t.hash (statHash id magic width))
      (by
        intro d hd
        obtain rfl | hd := List.mem_cons.mp hd
        · rfl
        · exact t.typed _ d hd)
      (by
        intro d hd
        obtain rfl | hd := List.mem_cons.mp hd
        · rfl
        · exact t.placed _ d hd)
      (by
        rw [List.map_cons, List.nodup_cons, List.mem_map]
        exact ⟨h, t.apart _⟩)

/-- `stat_node_release_nolock`. -/
def StatT.release (t : StatT type width) (id magic : ℕ) : StatT type width :=
  t.update (statHash id magic width) ((t.hash (statHash id magic width)).filter fun d => d.key ≠ (id, magic))
    (fun d hd => t.typed _ d (List.mem_of_mem_filter hd)) (fun d hd => t.placed _ d (List.mem_of_mem_filter hd))
    ((t.apart _).sublist (List.filter_sublist.map _))

/-- What `stat_realtime` writes into a node. -/
def StatT.store (t : StatT type width) (id magic activeStamp : ℕ) (hist rt : StatHdr) : StatT type width :=
  let f := fun d : StatData =>
    if d.key = (id, magic) then { d with activeStamp := activeStamp, hist := hist, rt := rt } else d
  have hf : ∀ d, (f d).id = d.id ∧ (f d).magic = d.magic ∧ (f d).type = d.type := by
    intro d
    simp only [f]
    split
    · exact ⟨rfl, rfl, rfl⟩
    · exact ⟨rfl, rfl, rfl⟩
  t.update (statHash id magic width) ((t.hash (statHash id magic width)).map f)
    (by
      intro d' hd'
      obtain ⟨d, hd, rfl⟩ := List.mem_map.mp hd'
      rw [(hf d).2.2]
      exact t.typed _ d hd)
    (by
      intro d' hd'
      obtain ⟨d, hd, rfl⟩ := List.mem_map.mp hd'
      rw [(hf d).1, (hf d).2.1]
      exact t.placed _ d hd)
    (by
      have hkey : StatData.key ∘ f = StatData.key := by
        funext d
        simp only [Function.comp, StatData.key, (hf d).1, (hf d).2.1]
      rw [List.map_map, hkey]
      exact t.apart _)

/-- The nodes, in the order in which the table is traversed. -/
def StatT.nodes (t : StatT type width) : List StatData := (List.range width).flatMap t.hash

theorem StatT.nodes_type (t : StatT type width) {d : StatData} (h : d ∈ t.nodes) :
    d.type = type := by
  obtain ⟨i, -, hd⟩ := List.mem_flatMap.mp h
  exact t.typed i d hd

/-- No node is met twice. -/
theorem StatT.nodes_nodup (t : StatT type width) : t.nodes.Nodup := by
  refine List.nodup_flatMap.mpr ⟨fun i _ => (t.apart i).of_map _, ?_⟩
  refine List.nodup_range.imp fun {i j} hne d hi hj => hne ?_
  rw [← t.placed i d hi, ← t.placed j d hj]

/-! ## The flush -/

/-- `stat_info_t`: the header, and the memory behind it. -/
structure StatInfo where
  nrActiveFlow : ℕ
  offsetStatFlow : ℕ
  nrActiveUser : ℕ
  offsetStatUser : ℕ
  data : ℕ → StatData

/-- `BUG`. -/
inductive Bug where
  | bug
deriving DecidableEq, Repr

/-- The shared memory and the static `type_prev`. -/
structure Flusher where
  info : StatInfo
  typePrev : ℤ

/-- The offsets where the type changes. -/
def storeOffset (info : StatInfo) : Except Bug StatInfo :=
  if info.nrActiveUser ≠ 0 then
    if info.nrActiveFlow ≠ 0 then .error .bug
    else .ok { info with offsetStatUser := 0, offsetStatFlow := info.nrActiveUser }
  else if info.nrActiveFlow ≠ 0 then
    if info.nrActiveUser ≠ 0 then .error .bug
    else .ok { info with offsetStatFlow := 0, offsetStatUser := info.nrActiveFlow }
  else .ok info

/-- The detection of a change; `type_prev` is -1 before the first node. -/
def Flusher.detect (s : Flusher) (node : StatData) : Except Bug StatInfo :=
  if 0 ≤ s.typePrev ∧ s.typePrev ≠ node.type then storeOffset s.info else .ok s.info

/-- `trav_flush_nodes_fn`. -/
def travFlushNodesFn (s : Flusher) (node : StatData) : Except Bug Flusher := do
  let info ← s.detect node
  if node.type = statTypeFlow then
    let idx := info.offsetStatFlow + info.nrActiveFlow
    return ⟨{ info with nrActiveFlow := info.nrActiveFlow + 1, data := Function.update info.data idx node }, node.type⟩
  else if node.type = statTypeUser then
    let idx := info.offsetStatUser + info.nrActiveUser
    return ⟨{ info with nrActiveUser := info.nrActiveUser + 1, data := Function.update info.data idx node }, node.type⟩
  else throw .bug

/-- `trav_node_locked_call`. -/
def StatT.travNodeLockedCall (t : StatT type width) (cb : Flusher → StatData → Except Bug Flusher) (s : Flusher) :
    Except Bug Flusher :=
  (List.range width).foldlM (fun s i => (t.hash i).foldlM cb s) s

/-- `stat_flush_fn`. -/
def statFlushFn (users : StatT statTypeUser statHashWidthUser) (flows : StatT statTypeFlow statHashWidthFlow)
    (s : Flusher) : Except Bug Flusher := do
  let s ← users.travNodeLockedCall travFlushNodesFn ⟨⟨0, 0, 0, 0, s.info.data⟩, s.typePrev⟩
  flows.travNodeLockedCall travFlushNodesFn s

/-! ## Runs -/

/-- The module: `pStatUser`, `pStatFlow` and what a flush leaves. -/
structure Statistics where
  users : StatT statTypeUser statHashWidthUser
  flows : StatT statTypeFlow statHashWidthFlow
  flusher : Flusher

/-- A node is looked for, written or released, in one of the tables; or there is a flush. -/
inductive StatEvent where
  | find (user : Bool) (id magic : ℕ) (mem : StatData)
  | store (user : Bool) (id magic activeStamp : ℕ) (hist rt : StatHdr)
  | release (user : Bool) (id magic : ℕ)
  | flush

/-- A step. -/
def Statistics.step (s : Statistics) : StatEvent → Except Bug Statistics
  | .find user id magic mem =>
    .ok (if user then { s with users := s.users.statNodeFind id magic mem }
      else { s with flows := s.flows.statNodeFind id magic mem })
  | .store user id magic stamp hist rt =>
    .ok (if user then { s with users := s.users.store id magic stamp hist rt }
      else { s with flows := s.flows.store id magic stamp hist rt })
  | .release user id magic =>
    .ok (if user then { s with users := s.users.release id magic } else { s with flows := s.flows.release id magic })
  | .flush => do
    let flusher ← statFlushFn s.users s.flows s.flusher
    return { s with flusher := flusher }

/-- `stat_init`, with what is in the memory. -/
def Statistics.init (data : ℕ → StatData) : Statistics := ⟨.empty, .empty, ⟨⟨0, 0, 0, 0, data⟩, -1⟩⟩

/-- A run. -/
def Statistics.run (data : ℕ → StatData) (events : List StatEvent) : Except Bug Statistics :=
  events.foldlM Statistics.step (.init data)

/-! ## What a reader finds -/

/-- The records of users. -/
def StatInfo.InUser (info : StatInfo) (i : ℕ) : Prop :=
  info.offsetStatUser ≤ i ∧ i < info.offsetStatUser + info.nrActiveUser

/-- The records of flows. -/
def StatInfo.InFlow (info : StatInfo) (i : ℕ) : Prop :=
  info.offsetStatFlow ≤ i ∧ i < info.offsetStatFlow + info.nrActiveFlow

/-- Each node is in one record of its range and the records are nodes; the ranges are apart and
    fill the front of the memory. -/
structure Layout (info : StatInfo) (users flows : List StatData) : Prop where
  users_count : info.nrActiveUser = users.length
  flows_count : info.nrActiveFlow = flows.length
  user : ∀ d ∈ users, ∃! i, info.InUser i ∧ info.data i = d
  flow : ∀ d ∈ flows, ∃! i, info.InFlow i ∧ info.data i = d
  inUser : ∀ i, info.InUser i → info.data i ∈ users
  inFlow : ∀ i, info.InFlow i → info.data i ∈ flows
  disjoint : ∀ i, ¬ (info.InUser i ∧ info.InFlow i)
  cover : ∀ i, info.InUser i ∨ info.InFlow i ↔ i < users.length + flows.length

/-! ## One node after the other -/

theorem foldlM_flatMap {α β σ ε : Type}
    (g : σ → β → Except ε σ) (f : α → List β) (l : List α) (s : σ) :
    l.foldlM (fun s a => (f a).foldlM g s) s = (l.flatMap f).foldlM g s := by
  induction l generalizing s with
  | nil => rfl
  | cons a l ih =>
    rw [List.foldlM_cons, List.flatMap_cons, List.foldlM_append]
    exact congrArg _ (funext ih)

/-- What one node does to a phase that has written some, all nodes do, one after the other. -/
theorem foldlM_phase {α σ ε : Type}
    {g : σ → α → Except ε σ} (phase : σ → List α → Prop) {good : α → Prop}
    (step : ∀ {s written a}, phase s written → good a → ∃ s', g s a = .ok s' ∧ phase s' (written ++ [a]))
    (l : List α) (hl : ∀ a ∈ l, good a) {s : σ} {written : List α} (h : phase s written) :
    ∃ s', l.foldlM g s = .ok s' ∧ phase s' (written ++ l) := by
  induction l generalizing s written with
  | nil => exact ⟨s, rfl, by rwa [List.append_nil]⟩
  | cons a l ih =>
    obtain ⟨s₁, hs₁, h₁⟩ := step h (hl a List.mem_cons_self)
    obtain ⟨s₂, hs₂, h₂⟩ := ih (fun b hb => hl b (List.mem_cons_of_mem a hb)) h₁
    refine ⟨s₂, ?_, by rwa [List.append_assoc] at h₂⟩
    rw [List.foldlM_cons, hs₁]
    exact hs₂

theorem travNodeLockedCall_eq (t : StatT type width)
    (cb : Flusher → StatData → Except Bug Flusher) (s : Flusher) :
    t.travNodeLockedCall cb s = t.nodes.foldlM cb s := foldlM_flatMap cb t.hash _ s

/-- The memory has records at its front. -/
def Holds (info : StatInfo) (records : List StatData) : Prop := ∀ i d, records[i]? = some d → info.data i = d

/-- One more record behind those that there are. -/
theorem Holds.snoc {data : ℕ → StatData} {info info' : StatInfo} {records : List StatData} (h : Holds info records)
    (hdata : info.data = data) {node : StatData} (hinfo : info'.data = Function.update data records.length node) :
    Holds info' (records ++ [node]) := by
  subst hdata
  intro i d hi
  rw [hinfo]
  by_cases hlt : i < records.length
  · rw [List.getElem?_append_left hlt] at hi
    rw [Function.update_of_ne (by omega)]
    exact h i d hi
  · have hilt := (List.getElem?_eq_some_iff.mp hi).1
    rw [List.length_append, List.length_singleton] at hilt
    obtain rfl : i = records.length := by omega
    rw [List.getElem?_append_right (le_refl _), Nat.sub_self] at hi
    rw [Function.update_self]
    exact Option.some.inj hi

/-- While users are written: there are no flows and no offsets yet, and a type is remembered only
    from the flush before until the first of them is there. -/
structure UserPhase (s : Flusher) (users : List StatData) : Prop where
  count : s.info.nrActiveUser = users.length
  noFlow : s.info.nrActiveFlow = 0
  noOffset : s.info.offsetStatUser = 0 ∧ s.info.offsetStatFlow = 0
  type : users ≠ [] → s.typePrev = statTypeUser
  holds : Holds s.info users

/-- While flows are written: the first of them has stored where they begin. -/
structure FlowPhase (s : Flusher) (users flows : List StatData) : Prop where
  users_count : s.info.nrActiveUser = users.length
  flows_count : s.info.nrActiveFlow = flows.length
  users_offset : s.info.offsetStatUser = 0
  flows_offset : flows ≠ [] → s.info.offsetStatFlow = users.length ∧ s.typePrev = statTypeFlow
  first : flows = [] → UserPhase s users
  holds : Holds s.info (users ++ flows)

/-- The type changes at the first user at most, with nothing written. -/
theorem UserPhase.step {s : Flusher} {users : List StatData} (h : UserPhase s users)
    {node : StatData}
    (hn : node.type = statTypeUser) :
    ∃ s', travFlushNodesFn s node = .ok s' ∧ UserPhase s' (users ++ [node]) := by
  have hinfo : s.detect node = .ok s.info := by
    unfold Flusher.detect
    by_cases hu : users = []
    · have h0 : s.info.nrActiveUser = 0 := by rw [h.count, hu, List.length_nil]
      have hsame : storeOffset s.info = .ok s.info := by
        rw [storeOffset, if_neg (not_not.mpr h0), if_neg (not_not.mpr h.noFlow)]
      rw [hsame, ite_self]
    · rw [if_neg (by rw [h.type hu, hn]; simp)]
  refine ⟨⟨{ s.info with
    nrActiveUser := s.info.nrActiveUser + 1
    data := Function.update s.info.data (s.info.offsetStatUser + s.info.nrActiveUser) node }, node.type⟩, ?_, ?_⟩
  · unfold travFlushNodesFn
    rw [hinfo, hn]
    rfl
  · refine ⟨?_, h.noFlow, h.noOffset, fun _ => ?_, h.holds.snoc rfl ?_⟩
    · simp [h.count]
    · rw [hn]
    · rw [h.noOffset.1, h.count, Nat.zero_add]

theorem users_written {s : Flusher} {users : List StatData} (h : UserPhase s users)
    (nodes : List StatData)
    (hn : ∀ d ∈ nodes, d.type = statTypeUser) :
    ∃ s', nodes.foldlM travFlushNodesFn s = .ok s' ∧ UserPhase s' (users ++ nodes) :=
  foldlM_phase UserPhase (fun h hn => h.step hn) nodes hn h

/-- The first flow finds the users counted, or nothing at all. -/
theorem FlowPhase.step {s : Flusher} {users flows : List StatData} (h : FlowPhase s users flows)
    {node : StatData}
    (hn : node.type = statTypeFlow) :
    ∃ s', travFlushNodesFn s node = .ok s' ∧ FlowPhase s' users (flows ++ [node]) := by
  obtain ⟨info, hinfo, hdata, huser, hflow, hoffu, hofff⟩ : ∃ info, s.detect node = .ok info ∧
      info.data = s.info.data ∧ info.nrActiveUser = users.length ∧ info.nrActiveFlow = flows.length ∧
      info.offsetStatUser = 0 ∧ info.offsetStatFlow = users.length := by
    unfold Flusher.detect
    by_cases hf : flows = []
    · have hphase := h.first hf
      have hflow := h.flows_count
      by_cases hu : users = []
      · have h0 : s.info.nrActiveUser = 0 := by rw [h.users_count, hu, List.length_nil]
        have hsame : storeOffset s.info = .ok s.info := by
          rw [storeOffset, if_neg (not_not.mpr h0), if_neg (not_not.mpr hphase.noFlow)]
        refine ⟨s.info, by rw [hsame, ite_self], rfl, h.users_count, hflow, h.users_offset, ?_⟩
        rw [hphase.noOffset.2, hu, List.length_nil]
      · have h0 : s.info.nrActiveUser ≠ 0 := by
          rw [h.users_count]
          exact fun h0 => hu (List.length_eq_zero_iff.mp h0)
        have hchange : 0 ≤ s.typePrev ∧ s.typePrev ≠ node.type := by
          rw [hphase.type hu, hn]
          decide
        refine ⟨{ s.info with offsetStatUser := 0, offsetStatFlow := s.info.nrActiveUser }, ?_, rfl,
          h.users_count, hflow, rfl, h.users_count⟩
        rw [if_pos hchange, storeOffset, if_pos h0, if_neg (not_not.mpr hphase.noFlow)]
    · obtain ⟨hoff, htype⟩ := h.flows_offset hf
      refine ⟨s.info, if_neg ?_, rfl, h.users_count, h.flows_count, h.users_offset, hoff⟩
      rw [htype, hn]
      simp
  refine ⟨⟨{ info with
    nrActiveFlow := info.nrActiveFlow + 1
    data := Function.update info.data (info.offsetStatFlow + info.nrActiveFlow) node }, node.type⟩, ?_, ?_⟩
  · unfold travFlushNodesFn
    rw [hinfo, hn]
    rfl
  · refine ⟨huser, ?_, hoffu, fun _ => ⟨hofff, by rw [hn]⟩, fun hnil => ?_, ?_⟩
    · simp [hflow]
    · simp at hnil
    · rw [← List.append_assoc]
      refine h.holds.snoc hdata.symm ?_
      rw [hofff, hflow, List.length_append]

theorem flows_written {s : Flusher} {users flows : List StatData} (h : FlowPhase s users flows)
    (nodes : List StatData) (hn : ∀ d ∈ nodes, d.type = statTypeFlow) :
    ∃ s', nodes.foldlM travFlushNodesFn s = .ok s' ∧ FlowPhase s' users (flows ++ nodes) :=
  foldlM_phase (FlowPhase · users) (fun h hn => h.step hn) nodes hn h

/-! ## The whole flush -/

/-- A record is in one place of its range. -/
theorem unique_place {data : ℕ → StatData} {records : List StatData} (hnodup : records.Nodup) (off : ℕ)
    (hdata : ∀ i d, records[i]? = some d → data (off + i) = d) {d : StatData} (hd : d ∈ records) :
    ∃! i, (off ≤ i ∧ i < off + records.length) ∧ data i = d := by
  obtain ⟨k, hk, rfl⟩ := List.mem_iff_getElem.mp hd
  refine ⟨off + k, ⟨⟨by omega, by omega⟩, hdata k _ (List.getElem?_eq_getElem hk)⟩, ?_⟩
  rintro i ⟨⟨hlo, hhi⟩, hi⟩
  have hj := hdata (i - off) _ (List.getElem?_eq_getElem (show i - off < records.length by omega))
  rw [Nat.add_sub_cancel' hlo, hi] at hj
  have := (List.Nodup.getElem_inj_iff hnodup).mp hj
  omega

theorem FlowPhase.layout {s : Flusher} {users flows : List StatData} (h : FlowPhase s users flows)
    (hu : users.Nodup) (hf : flows.Nodup) : Layout s.info users flows := by
  have hoff : flows ≠ [] → s.info.offsetStatFlow = users.length := fun hne => (h.flows_offset hne).1
  have hoff0 : flows = [] → s.info.offsetStatFlow = 0 := fun hnil => (h.first hnil).noOffset.2
  have hlen : flows = [] ↔ flows.length = 0 := List.length_eq_zero_iff.symm
  -- without flows their range is empty wherever it begins
  have hflow : ∀ i, s.info.InFlow i ↔ users.length ≤ i ∧ i < users.length + flows.length := by
    intro i
    unfold StatInfo.InFlow
    rw [h.flows_count]
    by_cases hnil : flows = []
    · rw [hoff0 hnil, hlen.mp hnil]
      omega
    · rw [hoff hnil]
  have huser : ∀ i, s.info.InUser i ↔ i < users.length := by
    intro i
    unfold StatInfo.InUser
    rw [h.users_count, h.users_offset]
    omega
  have hdu : ∀ i d, users[i]? = some d → s.info.data (0 + i) = d := by
    intro i d hi
    rw [Nat.zero_add]
    refine h.holds i d ?_
    rw [List.getElem?_append_left (List.getElem?_eq_some_iff.mp hi).1, hi]
  have hdf : ∀ i d, flows[i]? = some d → s.info.data (users.length + i) = d := by
    intro i d hi
    refine h.holds _ d ?_
    rw [List.getElem?_append_right (by omega), Nat.add_sub_cancel_left, hi]
  refine ⟨h.users_count, h.flows_count, fun d hd => ?_, fun d hd => ?_, fun i hi => ?_, fun i hi => ?_,
    fun i => ?_, fun i => ?_⟩
  · have := unique_place hu 0 hdu hd
    simpa only [huser, Nat.zero_le, true_and, Nat.zero_add] using this
  · have := unique_place hf users.length hdf hd
    simpa only [hflow] using this
  · have hlt := (huser i).mp hi
    have := hdu i _ (List.getElem?_eq_getElem hlt)
    rw [Nat.zero_add] at this
    rw [this]
    exact List.getElem_mem hlt
  · obtain ⟨hlo, hhi⟩ := (hflow i).mp hi
    have hlt : i - users.length < flows.length := by omega
    have := hdf (i - users.length) _ (List.getElem?_eq_getElem hlt)
    rw [Nat.add_sub_cancel' hlo] at this
    rw [this]
    exact List.getElem_mem hlt
  · rw [huser, hflow]
    omega
  · rw [huser, hflow]
    omega

/-- A flush, whatever the one before has left. -/
theorem statFlushFn_layout (users : StatT statTypeUser statHashWidthUser)
    (flows : StatT statTypeFlow statHashWidthFlow) (s : Flusher) :
    ∃ s', statFlushFn users flows s = .ok s' ∧ Layout s'.info users.nodes flows.nodes := by
  have hstart : UserPhase ⟨⟨0, 0, 0, 0, s.info.data⟩, s.typePrev⟩ [] :=
    ⟨rfl, rfl, ⟨rfl, rfl⟩, fun h => absurd rfl h, fun i d h => by simp at h⟩
  obtain ⟨s₁, hs₁, h₁⟩ := users_written hstart users.nodes fun d hd => users.nodes_type hd
  rw [List.nil_append] at h₁
  have hturn : FlowPhase s₁ users.nodes [] :=
    ⟨h₁.count, h₁.noFlow, h₁.noOffset.1, fun h => absurd rfl h, fun _ => h₁, by
      rw [List.append_nil]
      exact h₁.holds⟩
  obtain ⟨s₂, hs₂, h₂⟩ := flows_written hturn flows.nodes fun d hd => flows.nodes_type hd
  rw [List.nil_append] at h₂
  refine ⟨s₂, ?_, h₂.layout users.nodes_nodup flows.nodes_nodup⟩
  unfold statFlushFn
  simp only [travNodeLockedCall_eq]
  exact bind_eq_ok.mpr ⟨s₁, hs₁, hs₂⟩

theorem run_returns (data : ℕ → StatData) (events : List StatEvent) :
    ∃ s, Statistics.run data events = .ok s := by
  have hrun : ∀ s : Statistics, ∃ s', events.foldlM Statistics.step s = .ok s' := by
    induction events with
    | nil => exact fun s => ⟨s, rfl⟩
    | cons e events ih =>
      intro s
      obtain ⟨s₁, hs₁⟩ : ∃ s₁, s.step e = .ok s₁ := by
        cases e with
        | find user id magic mem => exact ⟨_, rfl⟩
        | store user id magic stamp hist rt => exact ⟨_, rfl⟩
        | release user id magic => exact ⟨_, rfl⟩
        | flush =>
          obtain ⟨f, hf, -⟩ := statFlushFn_layout s.users s.flows s.flusher
          exact ⟨{ s with flusher := f }, by simp only [Statistics.step, hf]; rfl⟩
      rw [List.foldlM_cons, hs₁]
      exact ih s₁
  exact hrun _

/-- After every flush of every run, with any numbers of users and flows, the header says where the
    records of each kind are, and no `BUG` is reached. -/
theorem flush_layout (data : ℕ → StatData) (events : List StatEvent) :
    ∃ s, Statistics.run data (events ++ [.flush]) = .ok s ∧
      Layout s.flusher.info s.users.nodes s.flows.nodes := by
  obtain ⟨s, hs⟩ := run_returns data events
  obtain ⟨f, hf, hlayout⟩ := statFlushFn_layout s.users s.flows s.flusher
  refine ⟨{ s with flusher := f }, ?_, hlayout⟩
  unfold Statistics.run at hs ⊢
  rw [List.foldlM_append, hs]
  change [StatEvent.flush].foldlM Statistics.step s = _
  simp only [List.foldlM_cons, List.foldlM_nil, Statistics.step, hf]
  rfl

end Nproto
