/-
# Runs of the proxy

A book of the queries, with their phases, tells the whole state of the proxy in runs in
which the callback and the coroutine of the timeouts do not both write to a channel.
-/
import OpenwrtAc.SandcQuery

open Ski

namespace Sandcproxy

variable {D : Type}

/-- The queries: the time, their number, the entries, the phases, the write of the callback and
    that of the timeouts that has not returned, and what was returned. -/
structure Book (D : Type) where
  now : ℕ
  seq : ℕ
  item : ℕ → SeqItem
  phase : ℕ → Phase D
  callback : Option (ℕ × Item D)
  timeout : Option ℕ
  results : List (ℕ × Item D)

def Book.blocked (b : Book D) : Tid → Option ℕ
  | .caller _ => none
  | .callback => b.callback.map Prod.fst
  | .timeout => b.timeout

/-- `out_seq_map`. -/
def entries (phase : ℕ → Phase D) (item : ℕ → SeqItem) (n : ℕ) : Option SeqItem :=
  if (phase n).entered then some (item n) else none

def places (phase : ℕ → Phase D) (n : ℕ) : At := (phase n).place

/-- The proxy that a book describes, while `cur` runs. -/
def Book.proxyAt (b : Book D) (cur : Option Tid) : Proxy D where
  now := b.now
  seq := b.seq
  outSeqMap := entries b.phase b.item
  ski := world b.phase b.blocked cur
  query := places b.phase
  callback := b.callback
  timeout := b.timeout.map fun n => (n, [])
  results := b.results

def Book.proxy (b : Book D) : Proxy D := b.proxyAt none

/-! ## What happens to a book -/

def Book.fill (b : Book D) (n : ℕ) (d : Item D) : Book D :=
  { b with phase := Function.update b.phase n ((b.phase n).fill d) }

def Book.finish (b : Book D) (n : ℕ) (d : Item D) : Book D :=
  { b with phase := Function.update b.phase n (.returned d), results := b.results ++ [(n, d)] }

def Book.timeouts : List ℕ → Book D → Book D
  | [], b => b
  | n :: rest, b =>
    match (b.phase n).slot with
    | none => timeouts rest (b.fill n .timeout)
    | some _ => { b with timeout := some n }

def Book.step (b : Book D) : Event D → Book D
  | .query m => { b with
      seq := b.seq + 1
      item := Function.update b.item b.seq ⟨m, b.now⟩
      phase := Function.update b.phase b.seq (.publishing none) }
  | .published n =>
    match (b.phase n).slot with
    | none => { b with phase := Function.update b.phase n (.reading none) }
    | some d => b.finish n d
  | .message n pld =>
    if (b.phase n).entered then
      match (b.phase n).slot with
      | none => b.fill n (.reply pld)
      | some _ => { b with callback := some (n, .reply pld) }
    else b
  | .scan del => b.timeouts del
  | .resume (.caller n) =>
    match (b.phase n).slot with
    | none => b
    | some d => b.finish n d
  | .resume .callback => { b with callback := none }
  | .resume .timeout => { b with timeout := none }
  | .tick d => { b with now := b.now + d }

/-! ## Updates -/

section

variable (phase : ℕ → Phase D) (item : ℕ → SeqItem) (n : ℕ)

/-- Where a query stands after its step. -/
theorem places_update (p : Phase D) :
    places (Function.update phase n p) = Function.update (places phase) n p.place := by
  funext k
  by_cases hk : k = n
  · subst hk
    simp [places]
  · simp [places, hk]

/-- A step that does not move the query. -/
theorem places_update_same {p : Phase D} (h : p.place = (phase n).place) :
    places (Function.update phase n p) = places phase := by
  rw [places_update, h]
  exact Function.update_eq_self n (places phase)

/-- A step that neither enters nor ends the query. -/
theorem entries_update_same {p : Phase D} (h : p.entered = (phase n).entered) :
    entries (Function.update phase n p) item = entries phase item := by
  funext k
  by_cases hk : k = n
  · subst hk
    simp [entries, h]
  · simp [entries, hk]

/-- A query that ends leaves the table. -/
theorem entries_update_done {p : Phase D} (h : p.entered = false) :
    entries (Function.update phase n p) item = Function.update (entries phase item) n none := by
  funext k
  by_cases hk : k = n
  · subst hk
    simp [entries, h]
  · simp [entries, hk]

/-- A query that is entered stands in the table. -/
theorem entries_update_new {p : Phase D} (h : p.entered = true) (v : SeqItem) :
    entries (Function.update phase n p) (Function.update item n v)
      = Function.update (entries phase item) n (some v) := by
  funext k
  by_cases hk : k = n
  · subst hk
    simp [entries, h]
  · simp [entries, hk]

end

/-- Filling a slot moves no query. -/
theorem fill_place (p : Phase D) (d : Item D) : (p.fill d).place = p.place := by cases p <;> rfl

/-- Filling a slot enters and ends no query. -/
theorem fill_entered (p : Phase D) (d : Item D) :
    (p.fill d).entered = p.entered := by cases p <;> rfl

/-- A filled slot holds the item. -/
theorem fill_slot {p : Phase D} (h : p.entered = true) (d : Item D) : (p.fill d).slot = some d := by
  cases p <;> first | rfl | cases h

/-- Which channel the callback is blocked at. -/
theorem blocked_callback (b : Book D) (w : Option (ℕ × Item D)) :
    ({ b with callback := w } : Book D).blocked
      = Function.update b.blocked .callback (w.map Prod.fst) := by
  funext th
  rcases th with _ | _ | _ <;> simp [Book.blocked]

/-- Which channel the timeout is blocked at. -/
theorem blocked_timeout (b : Book D) (w : Option ℕ) :
    ({ b with timeout := w } : Book D).blocked = Function.update b.blocked .timeout w := by
  funext th
  rcases th with _ | _ | _ <;> simp [Book.blocked]

/-- The proxy after a write to a free channel. -/
theorem fill_proxyAt (b : Book D) (n : ℕ) (d : Item D) (cur : Option Tid) :
    (b.fill n d).proxyAt cur = { b.proxyAt cur with
      ski := world (Function.update b.phase n ((b.phase n).fill d)) b.blocked cur } := by
  simp only [Book.proxyAt, Book.fill, entries_update_same _ _ _ (fill_entered _ d),
    places_update_same _ _ (fill_place _ d)]
  rfl

/-- The proxy after the end of a query. -/
theorem finish_proxy (b : Book D) (n : ℕ) (d : Item D) {ski : World Tid (Item D)}
    (h : ski.close n = world (Function.update b.phase n (.returned d)) b.blocked none) (cur : Option Tid) :
    Proxy.finish { b.proxyAt cur with ski := ski } n d = (b.finish n d).proxy := by
  simp only [Proxy.finish, Book.proxy, Book.proxyAt, Book.finish, h, places_update,
    entries_update_done _ _ _ (show (Phase.returned d).entered = false from rfl)]
  rfl

/-! ## The proxy does what the book says -/

/-- The proxy with one thread picked. -/
theorem clear_proxy (b : Book D) (th : Tid) : b.proxy.clear th = b.proxyAt (some th) := by
  unfold Proxy.clear
  change { b.proxyAt none with ski := (world b.phase b.blocked none).clearSig th } = _
  rw [clearSig_world]
  rfl

/-- A writer that waits for no channel parks. -/
theorem park_proxyAt (b : Book D) (d : Item D) (h : b.blocked d.writer = none) :
    (b.proxyAt (some d.writer)).park d.writer = .ok b.proxy := by
  have hthread : parked b.phase b.blocked d.writer = writerThread b.phase d.writer none := by
    rw [parked_writer, h]
  unfold Proxy.park
  change (onSki ((world b.phase b.blocked (some d.writer)).yieldCommon d.writer .self) >>= _) = _
  rw [yieldCommon_world (by rw [hthread]; rfl) (by rw [hthread]; rfl)]
  rfl

/-- A query starts with a channel of its own. -/
theorem start_world {phase : ℕ → Phase D} {blocked : Tid → Option ℕ} {n : ℕ} (hn : phase n = .absent) :
    ((world phase blocked none).newChan n).yieldCommon (.caller n) .self
      = .ok (world (Function.update phase n (.publishing none)) blocked none) := by
  have hthread : (world phase blocked none).threads (.caller n) = ⟨none, .none, false, fun _ => false⟩ := by
    rw [world_none]
    change callerThread n (phase n) = _
    rw [hn]
    rfl
  unfold World.yieldCommon World.newChan
  rw [onChan_threads, hthread, if_pos ⟨rfl, rfl⟩]
  congr 1
  refine world_ext (fun t => ?_) fun c => ?_
  · by_cases ht : t = .caller n
    · subst ht
      rw [onThread_self, onChan_threads, hthread, world_none]
      change _ = callerThread n (Function.update phase n _ n)
      rw [Function.update_self]
      rfl
    · rw [onThread_of_ne _ _ ht, onChan_threads, world_none, world_none,
        parked_update ht (by rw [hn]; rfl) (by rw [hn]; rfl)]
  · rw [onThread_chans]
    by_cases hc : c = n
    · subst hc
      rw [onChan_self, world_chans, Function.update_self]
      rfl
    · rw [onChan_of_ne _ _ hc, world_chans, world_chans, Function.update_of_ne hc]

/-- The code on a query is the step of the book. -/
theorem step_query (b : Book D) (h : b.phase b.seq = .absent) (m : ℕ) :
    b.proxy.step (.query m) = .ok (b.step (.query m)).proxy := by
  change (onSki (((world b.phase b.blocked none).newChan b.seq).yieldCommon (.caller b.seq) .self)
    >>= _) = _
  rw [start_world h]
  simp only [Book.step, Book.proxy, Book.proxyAt, places_update, entries_update_new _ _ _
    (show (Phase.publishing (none : Option (Item D))).entered = true from rfl)]
  rfl

/-- The code behind the publish is the step of the book. -/
theorem step_published (b : Book D) {n : ℕ} {slot : Option (Item D)}
    (h : b.phase n = .publishing slot)
    (hb : ∀ d, slot = some d → ∀ th, b.blocked th = some n → th = d.writer) :
    b.proxy.step (.published n) = .ok (b.step (.published n)).proxy := by
  have hslot : (b.phase n).slot = slot := by rw [h]; rfl
  rw [Proxy.step, clear_proxy, Book.step, hslot]
  cases slot with
  | none =>
    change (onSki ((world b.phase b.blocked (some (.caller n))).read (.caller n) n) >>= _) = _
    rw [read_none h]
    simp only [Book.proxy, Book.proxyAt, places_update, entries_update_same _ _ _
      (show (Phase.reading (none : Option (Item D))).entered = (b.phase n).entered by rw [h]; rfl)]
    rfl
  | some d =>
    obtain ⟨s, hread, hclose⟩ := read_some h (hb d rfl)
    change (onSki ((world b.phase b.blocked (some (.caller n))).read (.caller n) n) >>= _) = _
    rw [hread]
    exact congrArg Except.ok (finish_proxy b n d hclose _)

/-- The caller that is resumed takes its item. -/
theorem step_resume_caller (b : Book D) {n : ℕ} {d : Item D} (h : b.phase n = .reading (some d))
    (hb : ∀ th, b.blocked th = some n → th = d.writer) :
    b.proxy.step (.resume (.caller n)) = .ok (b.step (.resume (.caller n))).proxy := by
  have hslot : (b.phase n).slot = some d := by rw [h]; rfl
  obtain ⟨s, hread, hclose⟩ := readOn_some h hb
  rw [Proxy.step, clear_proxy, Book.step, hslot]
  change (onSki ((world b.phase b.blocked (some (.caller n))).readOn (.caller n) n) >>= _) = _
  rw [hread]
  exact congrArg Except.ok (finish_proxy b n d hclose _)

/-- The code on a reply is the step of the book. -/
theorem step_message (b : Book D) {n : ℕ} {pld : D} (hc : b.callback = none)
    (hw : ∀ e, (b.phase n).slot = some e → e.writer = .callback) :
    b.proxy.step (.message n pld) = .ok (b.step (.message n pld)).proxy := by
  have hblocked : b.blocked (Item.reply pld).writer = none := by
    change b.callback.map Prod.fst = none
    rw [hc]
    rfl
  have hmap : (b.proxyAt (some .callback)).outSeqMap n = entries b.phase b.item n := rfl
  rw [Proxy.step, clear_proxy, Book.step, Proxy.onMessage, hmap]
  by_cases hent : (b.phase n).entered = true
  · rw [entries, if_pos hent, if_pos hent]
    change (onSki ((world b.phase b.blocked (some (Item.reply pld).writer)).write (Item.reply pld).writer n
      (.reply pld)) >>= _) = _
    cases hslot : (b.phase n).slot with
    | none =>
      rw [write_free hent hslot]
      have hpark := park_proxyAt (b.fill n (.reply pld)) (.reply pld) hblocked
      rw [fill_proxyAt] at hpark
      exact hpark
    | some e =>
      rw [write_full (d := .reply pld) hent hslot (hw e hslot) hblocked]
      simp only [Book.proxy, Book.proxyAt, blocked_callback]
      rfl
  · rw [entries, if_neg hent, if_neg hent]
    exact park_proxyAt b (.reply pld) hblocked

/-- What holds of all queries of a scan but the last: it holds of the first if there are more, and
    so on. -/
theorem dropLast_cons_forall {P : ℕ → Prop} {n : ℕ} {rest : List ℕ} (h : ∀ k ∈ (n :: rest).dropLast, P k) :
    (rest ≠ [] → P n) ∧ ∀ k ∈ rest.dropLast, P k := by
  refine ⟨fun hne => ?_, fun k hk => ?_⟩
  · rw [List.dropLast_cons_of_ne_nil hne] at h
    exact h n List.mem_cons_self
  · rw [List.dropLast_cons_of_ne_nil (by rintro rfl; cases hk)] at h
    exact h k (List.mem_cons_of_mem n hk)

/-- The loop over queries that are in `out_seq_map`, of which only the last may have its channel
    full. -/
theorem writeTimeouts_proxyAt (del : List ℕ) (b : Book D)
    (hb : b.timeout = none) (hnodup : del.Nodup)
    (hent : ∀ n ∈ del, (b.phase n).entered = true)
    (hw : ∀ n ∈ del, ∀ e, (b.phase n).slot = some e → e.writer = .timeout)
    (hfree : ∀ n ∈ del.dropLast, (b.phase n).slot = none) :
    (b.proxyAt (some .timeout)).writeTimeouts del = .ok (b.timeouts del).proxy := by
  induction del generalizing b with
  | nil =>
    have hpark := park_proxyAt b .timeout hb
    unfold Proxy.writeTimeouts
    change Proxy.park { b.proxyAt (some .timeout) with timeout := none } .timeout = _
    have hsame : ({ b.proxyAt (some .timeout) with timeout := none } : Proxy D)
        = b.proxyAt (some .timeout) := by
      simp only [Book.proxyAt, hb, Option.map_none]
    rw [hsame]
    exact hpark
  | cons n rest ih =>
    obtain ⟨hn, hnodup⟩ := List.nodup_cons.1 hnodup
    obtain ⟨hfirst, hfree⟩ := dropLast_cons_forall hfree
    have hentn := hent n (List.mem_cons_self ..)
    have hmap : (b.proxyAt (some .timeout)).outSeqMap n = entries b.phase b.item n := rfl
    rw [Proxy.writeTimeouts, hmap, entries, if_pos hentn, Book.timeouts]
    change (onSki ((world b.phase b.blocked (some (Item.timeout (D := D)).writer)).write
      (Item.timeout (D := D)).writer n .timeout) >>= _) = _
    cases hslot : (b.phase n).slot with
    | none =>
      rw [write_free hentn hslot]
      have hphase : ∀ k ∈ rest, (b.fill n .timeout).phase k = b.phase k := fun k hk =>
        Function.update_of_ne (fun h : k = n => hn (h ▸ hk)) _ _
      have hrest := ih (b.fill n .timeout) hb hnodup
        (fun k hk => by rw [hphase k hk]; exact hent k (List.mem_cons_of_mem n hk))
        (fun k hk => by rw [hphase k hk]; exact hw k (List.mem_cons_of_mem n hk))
        (fun k hk => by
          rw [hphase k (List.dropLast_subset _ hk)]
          exact hfree k hk)
      rw [fill_proxyAt] at hrest
      exact hrest
    -- only the last of the channels can be full, and there the coroutine stays
    | some e =>
      have hnil : rest = [] := by
        by_contra hne
        rw [hfirst hne] at hslot
        cases hslot
      subst hnil
      rw [write_full (d := .timeout) hentn hslot (hw n (List.mem_cons_self ..) e hslot) hb]
      simp only [Book.proxy, Book.proxyAt, blocked_timeout]
      rfl

/-- The code on a scan of the timeouts is the step of the book. -/
theorem step_scan (b : Book D) {del : List ℕ} (hb : b.timeout = none) (hnodup : del.Nodup)
    (hent : ∀ n ∈ del, (b.phase n).entered = true)
    (hw : ∀ n ∈ del, ∀ e, (b.phase n).slot = some e → e.writer = .timeout)
    (hfree : ∀ n ∈ del.dropLast, (b.phase n).slot = none) :
    b.proxy.step (.scan del) = .ok (b.step (.scan del)).proxy := by
  rw [Proxy.step, clear_proxy, Book.step]
  exact writeTimeouts_proxyAt del b hb hnodup hent hw hfree

/-- The callback that is resumed behind its query. -/
theorem step_resume_callback (b : Book D) {n : ℕ} {d : Item D} (hc : b.callback = some (n, d))
    (hd : d.writer = .callback) (hn : (b.phase n).done = true) :
    b.proxy.step (.resume .callback) = .ok (b.step (.resume .callback)).proxy := by
  have hblocked : b.blocked d.writer = some n := by
    rw [hd]
    change b.callback.map Prod.fst = some n
    rw [hc]
    rfl
  have hwrite := writeOn_world hblocked hn
  have hpark := park_proxyAt { b with callback := none } d (by rw [hd]; rfl)
  rw [hd] at hwrite hpark
  have hcallback : (b.proxyAt (some .callback)).callback = some (n, d) := hc
  rw [Proxy.step, clear_proxy, Book.step]
  unfold Proxy.resume
  simp only [hcallback]
  change (onSki ((world b.phase b.blocked (some .callback)).writeOn .callback n d) >>= _) = _
  rw [hwrite]
  simp only [Book.proxyAt, blocked_callback] at hpark
  exact hpark

/-- The timeout that is resumed behind its query. -/
theorem step_resume_timeout (b : Book D) {n : ℕ} (ht : b.timeout = some n)
    (hn : (b.phase n).done = true) :
    b.proxy.step (.resume .timeout) = .ok (b.step (.resume .timeout)).proxy := by
  have hwrite := writeOn_world (d := .timeout) (show b.blocked .timeout = some n from ht) hn
  have hpark := park_proxyAt { b with timeout := none } .timeout rfl
  have htimeout : (b.proxyAt (some .timeout)).timeout = some (n, []) := by
    change b.timeout.map _ = _
    rw [ht]
    rfl
  rw [Proxy.step, clear_proxy, Book.step]
  unfold Proxy.resume
  simp only [htimeout]
  change (onSki ((world b.phase b.blocked (some (Item.timeout (D := D)).writer)).writeOn
    (Item.timeout (D := D)).writer n .timeout) >>= _) = _
  rw [hwrite]
  simp only [Book.proxyAt, blocked_timeout] at hpark
  exact hpark

end Sandcproxy
