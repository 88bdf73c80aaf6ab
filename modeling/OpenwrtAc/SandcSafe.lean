/-
# What holds in the runs of the proxy

In runs in which each channel has one writer no assertion fails, and a query returns once,
with a reply that came for it or with a timeout that was due.
-/
import OpenwrtAc.SandcRuns

open Ski

namespace Sandcproxy

variable {D : Type}

/-- The callback writes to no channel to which the timeouts have written; the timeouts write to
    none to which the callback has written, and but for the last of a scan find no channel that is
    full. -/
def Gentle (s : Proxy D) : Event D → Prop
  | .message seq _ => s.outSeqMap seq ≠ none → (s.ski.chans seq).w ≠ some .timeout
  | .scan del => (∀ seq ∈ del, (s.ski.chans seq).w ≠ some .callback)
      ∧ ∀ seq ∈ del.dropLast, (s.ski.chans seq).list = []
  | _ => True

/-- Where an item for a query comes from: a message with its `seq`, or a scan that found it
    expired. -/
def Source (hist : List (Event D)) (n : ℕ) : Item D → Prop
  | .reply pld => .message n pld ∈ hist
  | .timeout => ∃ del, .scan del ∈ hist ∧ n ∈ del

/-- What has happened has still happened later. -/
theorem Source.mono {hist hist' : List (Event D)} (h : hist ⊆ hist') {n : ℕ} {d : Item D}
    (hs : Source hist n d) : Source hist' n d := by
  cases d with
  | reply pld => exact h hs
  | timeout =>
    obtain ⟨del, hdel, hn⟩ := hs
    exact ⟨del, h hdel, hn⟩

/-- What holds of a book: the queries made have a phase; a writer that waits has written to the
    channel before, or the query is back; the results are those of the queries that are back. -/
structure Inv (b : Book D) (hist : List (Event D)) : Prop where
  fresh : ∀ n, b.phase n = .absent ↔ b.seq ≤ n
  callback : ∀ n d, b.callback = some (n, d) → d.writer = .callback
    ∧ ((b.phase n).done = true ∨ ∃ e, (b.phase n).slot = some e ∧ e.writer = .callback)
  timeout : ∀ n, b.timeout = some n →
    (b.phase n).done = true ∨ ∃ e, (b.phase n).slot = some e ∧ e.writer = .timeout
  nodup : (b.results.map Prod.fst).Nodup
  results_iff : ∀ n d, (n, d) ∈ b.results ↔ b.phase n = .returned d
  source : ∀ n d, (b.phase n).slot = some d ∨ b.phase n = .returned d → Source hist n d

/-- A longer history keeps the invariant. -/
theorem Inv.mono {b : Book D} {hist hist' : List (Event D)} (h : Inv b hist) (hsub : hist ⊆ hist') :
    Inv b hist' :=
  { h with source := fun n d hd => (h.source n d hd).mono hsub }

/-- The writer that waits for a query is the one of its channel. -/
theorem Inv.blocked {b : Book D} {hist : List (Event D)} (h : Inv b hist) {n : ℕ} {d : Item D}
    (hd : (b.phase n).slot = some d) : ∀ th, b.blocked th = some n → th = d.writer := by
  have hdone : (b.phase n).done = false := by
    cases hp : b.phase n <;> first | rfl | (rw [hp] at hd; cases hd)
  rintro (m | _ | _) hth
  · cases hth
  · obtain ⟨⟨k, e⟩, hc, rfl⟩ := Option.map_eq_some_iff.1 hth
    rcases (h.callback _ _ hc).2 with hdone' | ⟨e', he', hw⟩
    · rw [hdone] at hdone'
      cases hdone'
    · rw [hd] at he'
      cases he'
      exact hw.symm
  · rcases h.timeout n hth with hdone' | ⟨e', he', hw⟩
    · rw [hdone] at hdone'
      cases hdone'
    · rw [hd] at he'
      cases he'
      exact hw.symm

/-- The next query is not there yet. -/
theorem absent_of_fresh {b : Book D} {hist : List (Event D)} (h : Inv b hist) :
    b.phase b.seq = .absent :=
  (h.fresh b.seq).2 (Nat.le_refl _)

/-- A query that goes on but does not end; what is in its channel stays there. -/
theorem Inv.change {b : Book D} {hist : List (Event D)} (h : Inv b hist) {n : ℕ} {p : Phase D}
    (hn : (b.phase n).entered = true) (hp : p.entered = true)
    (hslot : ∀ e, (b.phase n).slot = some e → p.slot = some e)
    (hsource : ∀ d, p.slot = some d → Source hist n d) :
    Inv { b with phase := Function.update b.phase n p } hist := by
  have hne : b.phase n ≠ .absent := by
    intro habs
    rw [habs] at hn
    cases hn
  have hkeep : ∀ m th, ((b.phase m).done = true ∨ ∃ e, (b.phase m).slot = some e ∧ e.writer = th) →
      (Function.update b.phase n p m).done = true
        ∨ ∃ e, (Function.update b.phase n p m).slot = some e ∧ e.writer = th := by
    intro m th hm
    by_cases hmn : m = n
    · subst hmn
      rw [Function.update_self]
      rcases hm with hm | ⟨e, he, hw⟩
      · rw [done_of_entered hn] at hm
        cases hm
      · exact .inr ⟨e, hslot e he, hw⟩
    · rw [Function.update_of_ne hmn]
      exact hm
  refine ⟨fun m => ?_, fun m d hc => ⟨(h.callback m d hc).1, hkeep m _ (h.callback m d hc).2⟩,
    fun m hm => hkeep m _ (h.timeout m hm), h.nodup, fun m d => ?_, fun m d hd => ?_⟩
  · by_cases hmn : m = n
    · subst hmn
      change Function.update b.phase m p m = _ ↔ _
      rw [Function.update_self, ← h.fresh m]
      refine ⟨fun habs => ?_, fun habs => absurd habs hne⟩
      rw [habs] at hp
      cases hp
    · change Function.update b.phase n p m = _ ↔ _
      rw [Function.update_of_ne hmn]
      exact h.fresh m
  · rw [h.results_iff]
    by_cases hmn : m = n
    · subst hmn
      change _ ↔ Function.update b.phase m p m = _
      rw [Function.update_self]
      refine ⟨fun hret => ?_, fun hret => ?_⟩
      · rw [hret] at hn
        cases hn
      · rw [hret] at hp
        cases hp
    · change _ ↔ Function.update b.phase n p m = _
      rw [Function.update_of_ne hmn]
  · by_cases hmn : m = n
    · subst hmn
      simp only [Function.update_self] at hd
      rcases hd with hd | hd
      · exact hsource d hd
      · rw [hd] at hp
        cases hp
    · simp only [Function.update_of_ne hmn] at hd
      exact h.source m d hd

/-- A query that ends with what is in its channel. -/
theorem Inv.finish {b : Book D} {hist : List (Event D)} (h : Inv b hist) {n : ℕ} {d : Item D}
    (hd : (b.phase n).slot = some d) : Inv (b.finish n d) hist := by
  have hent : (b.phase n).entered = true := by
    cases hp : b.phase n <;> first | rfl | (rw [hp] at hd; cases hd)
  have hnot : ∀ e, b.phase n ≠ .returned e := by
    intro e he
    rw [he] at hent
    cases hent
  -- what a writer waits for is done now or as it was
  have hkeep : ∀ m th, ((b.phase m).done = true ∨ ∃ e, (b.phase m).slot = some e ∧ e.writer = th) →
      ((b.finish n d).phase m).done = true
        ∨ ∃ e, ((b.finish n d).phase m).slot = some e ∧ e.writer = th := by
    intro m th hm
    unfold Book.finish
    by_cases hmn : m = n
    · subst hmn
      simp [Phase.done]
    · simpa [Function.update_of_ne hmn] using hm
  refine ⟨fun m => ?_, fun m e hc => ⟨(h.callback m e hc).1, hkeep m _ (h.callback m e hc).2⟩,
    fun m hm => hkeep m _ (h.timeout m hm), ?_, fun m e => ?_, fun m e he => ?_⟩
  · unfold Book.finish
    by_cases hmn : m = n
    · subst hmn
      simp only [Function.update_self, ← h.fresh m]
      refine ⟨nofun, fun habs => ?_⟩
      rw [habs] at hent
      cases hent
    · simpa [Function.update_of_ne hmn] using h.fresh m
  · change ((b.results ++ [(n, d)]).map Prod.fst).Nodup
    rw [List.map_append, List.map_singleton, List.nodup_append]
    refine ⟨h.nodup, by simp, fun m hm k hk => ?_⟩
    obtain ⟨⟨m, e⟩, hme, rfl⟩ := List.mem_map.1 hm
    rw [List.mem_singleton.1 hk]
    rintro rfl
    exact hnot e ((h.results_iff _ e).1 hme)
  · change (m, e) ∈ b.results ++ [(n, d)] ↔ Function.update b.phase n (.returned d) m = .returned e
    rw [List.mem_append, List.mem_singleton, h.results_iff, Prod.mk.injEq]
    by_cases hmn : m = n
    · subst hmn
      rw [Function.update_self, Phase.returned.injEq]
      refine ⟨fun he => ?_, fun he => .inr ⟨rfl, he.symm⟩⟩
      rcases he with he | ⟨-, he⟩
      · -- no query returns twice
        exact absurd he (hnot e)
      · exact he.symm
    · rw [Function.update_of_ne hmn]
      exact ⟨fun he => he.resolve_right fun hc => hmn hc.1, .inl⟩
  · by_cases hmn : m = n
    · subst hmn
      simp only [Book.finish, Function.update_self, Phase.slot, Phase.returned.injEq] at he
      rcases he with he | rfl
      · cases he
      · exact h.source m d (.inl hd)
    · simp only [Book.finish, Function.update_of_ne hmn] at he
      exact h.source m e he

/-- The timeouts of a scan. -/
theorem Inv.timeouts {hist : List (Event D)} (del : List ℕ) {b : Book D} (h : Inv b hist)
    (hb : b.timeout = none) (hent : ∀ n ∈ del, (b.phase n).entered = true)
    (hw : ∀ n ∈ del, ∀ e, (b.phase n).slot = some e → e.writer = .timeout)
    (hsource : ∀ n ∈ del, Source hist n (.timeout : Item D)) : Inv (b.timeouts del) hist := by
  induction del generalizing b with
  | nil => exact h
  | cons n rest ih =>
    have hentn := hent n (List.mem_cons_self ..)
    rw [Book.timeouts]
    cases hslot : (b.phase n).slot with
    | some e =>
      refine { h with timeout := fun m hm => ?_ }
      cases hm
      exact .inr ⟨e, hslot, hw n (List.mem_cons_self ..) e hslot⟩
    | none =>
      have hfill : ((b.phase n).fill .timeout).slot = some .timeout := fill_slot hentn _
      have hinv : Inv (b.fill n .timeout) hist := by
        refine h.change hentn ((fill_entered _ _).trans hentn) (fun e he => ?_) fun d hd => ?_
        · rw [hslot] at he
          cases he
        · rw [hfill] at hd
          cases hd
          exact hsource n (List.mem_cons_self ..)
      refine ih hinv hb (fun m hm => ?_) (fun m hm e he => ?_)
        fun m hm => hsource m (List.mem_cons_of_mem n hm)
      · by_cases hmn : m = n
        · subst hmn
          simp only [Book.fill, Function.update_self]
          exact (fill_entered _ _).trans hentn
        · simp only [Book.fill, Function.update_of_ne hmn]
          exact hent m (List.mem_cons_of_mem n hm)
      · by_cases hmn : m = n
        · subst hmn
          simp only [Book.fill, Function.update_self] at he
          rw [hfill] at he
          cases he
          rfl
        · simp only [Book.fill, Function.update_of_ne hmn] at he
          exact hw m (List.mem_cons_of_mem n hm) e he

/-! ## Steps -/

/-- Items come from the callback or the timeout. -/
theorem writer_cases (d : Item D) : d.writer = .callback ∨ d.writer = .timeout := by
  cases d
  · exact .inl rfl
  · exact .inr rfl

/-- A query in `publish`. -/
theorem publishing_of_place {p : Phase D} (h : p.place = .publishing) :
    ∃ slot, p = .publishing slot := by
  cases p <;> first | exact ⟨_, rfl⟩ | cases h

/-- A query that stands at its read reads. -/
theorem reading_of_place {p : Phase D} (h : p.place = .reading) : ∃ slot, p = .reading slot := by
  cases p <;> first | exact ⟨_, rfl⟩ | cases h

/-- A query in the table is entered. -/
theorem entered_of_entries {phase : ℕ → Phase D} {item : ℕ → SeqItem} {n : ℕ} {v : SeqItem}
    (h : entries phase item n = some v) : (phase n).entered = true ∧ v = item n := by
  unfold entries at h
  split at h
  next hent => exact ⟨hent, (Option.some.inj h).symm⟩
  next => cases h

/-- What can happen, said of the book. -/
theorem expired_iff (b : Book D) (n : ℕ) :
    b.proxy.expired n ↔ (b.phase n).entered = true ∧ (b.item n).m + (b.item n).t < b.now := by
  constructor
  · rintro ⟨v, hv, hlt⟩
    obtain ⟨hent, rfl⟩ := entered_of_entries hv
    exact ⟨hent, hlt⟩
  · rintro ⟨hent, hlt⟩
    exact ⟨b.item n, if_pos hent, hlt⟩

/-- A coroutine that waits on a channel and was woken. -/
theorem woken_caller {b : Book D} {n : ℕ} (hon : b.proxy.onChannel (.caller n))
    (hwoken : (b.proxy.ski.threads (.caller n)).woken = true) :
    ∃ d, b.phase n = .reading (some d) := by
  obtain ⟨slot, hslot⟩ := reading_of_place (show (b.phase n).place = .reading from hon)
  change (callerThread n (b.phase n)).woken = true at hwoken
  rw [hslot] at hwoken
  obtain ⟨d, rfl⟩ := Option.isSome_iff_exists.1 hwoken
  exact ⟨d, hslot⟩

/-- The callback is woken where its query is done. -/
theorem woken_callback {b : Book D} (hon : b.proxy.onChannel .callback)
    (hwoken : (b.proxy.ski.threads .callback).woken = true) :
    ∃ n d, b.callback = some (n, d) ∧ (b.phase n).done = true := by
  obtain ⟨⟨n, d⟩, hc⟩ := Option.ne_none_iff_exists'.1 hon
  have hblocked : b.blocked .callback = some n := by
    change b.callback.map _ = _
    rw [show b.callback = some (n, d) from hc]
    rfl
  change (writerThread b.phase .callback (b.blocked .callback)).woken = true at hwoken
  rw [hblocked] at hwoken
  exact ⟨n, d, hc, hwoken⟩

/-- The timeout is woken where its query is done. -/
theorem woken_timeout {b : Book D} (hon : b.proxy.onChannel .timeout)
    (hwoken : (b.proxy.ski.threads .timeout).woken = true) :
    ∃ n, b.timeout = some n ∧ (b.phase n).done = true := by
  obtain ⟨⟨n, rest⟩, ht⟩ := Option.ne_none_iff_exists'.1 hon
  obtain ⟨k, hk, heq⟩ := Option.map_eq_some_iff.1 ht
  cases heq
  change (writerThread b.phase .timeout b.timeout).woken = true at hwoken
  rw [hk] at hwoken
  exact ⟨n, hk, hwoken⟩

/-- A query with an item is entered. -/
theorem entered_of_slot {p : Phase D} {e : Item D} (h : p.slot = some e) : p.entered = true := by
  cases p <;> first | rfl | cases h

/-- The channel has the item's writer. -/
theorem w_of_slot {p : Phase D} {e : Item D} (h : p.slot = some e) (n : ℕ) :
    (p.chan n).w = some e.writer := by
  rw [chan_w, h]
  rfl

/-- What a gentle message finds in the channel. -/
theorem writer_of_message {b : Book D} {n : ℕ} {pld : D} (hok : Gentle b.proxy (.message n pld)) :
    ∀ e, (b.phase n).slot = some e → e.writer = .callback := by
  intro e he
  have hent : entries b.phase b.item n ≠ none := by
    rw [entries, if_pos (entered_of_slot he)]
    exact Option.some_ne_none _
  refine (writer_cases e).resolve_right fun hw => hok hent ?_
  change ((b.phase n).chan n).w = _
  rw [w_of_slot he, hw]

/-- What a gentle scan finds in the channels. -/
theorem writer_of_scan {b : Book D} {del : List ℕ} (hok : Gentle b.proxy (.scan del)) :
    (∀ n ∈ del, ∀ e, (b.phase n).slot = some e → e.writer = .timeout)
      ∧ ∀ n ∈ del.dropLast, (b.phase n).slot = none := by
  refine ⟨fun n hn e he => (writer_cases e).resolve_left fun hw => hok.1 n hn ?_, fun n hn => ?_⟩
  · change ((b.phase n).chan n).w = _
    rw [w_of_slot he, hw]
  · have hlist : ((b.phase n).chan n).list = [] := hok.2 n hn
    rw [chan_list] at hlist
    cases hslot : (b.phase n).slot with
    | none => rfl
    | some e =>
      rw [hslot] at hlist
      cases hlist

/-- A new query keeps the invariant. -/
theorem Inv.query {b : Book D} {hist : List (Event D)} (h : Inv b hist) (m : ℕ) :
    Inv (b.step (.query m)) hist := by
  have habs := absent_of_fresh h
  have hne : ∀ n, (b.phase n ≠ .absent) → n ≠ b.seq := by
    rintro n hn rfl
    exact hn habs
  have hkeep : ∀ n th, ((b.phase n).done = true ∨ ∃ e, (b.phase n).slot = some e ∧ e.writer = th) →
      ((b.step (.query m)).phase n).done = true
        ∨ ∃ e, ((b.step (.query m)).phase n).slot = some e ∧ e.writer = th := by
    intro n th hn
    have hns : n ≠ b.seq := by
      rintro rfl
      rw [habs] at hn
      rcases hn with hn | ⟨e, he, -⟩
      · cases hn
      · cases he
    simpa [Book.step, Function.update_of_ne hns] using hn
  refine ⟨fun n => ?_, fun n d hc => ⟨(h.callback n d hc).1, hkeep n _ (h.callback n d hc).2⟩,
    fun n hn => hkeep n _ (h.timeout n hn), h.nodup, fun n d => ?_, fun n d hd => ?_⟩
  · by_cases hn : n = b.seq
    · subst hn
      simp [Book.step]
    · simp only [Book.step, Function.update_of_ne hn, h.fresh n]
      omega
  · rw [show (b.step (.query m)).results = b.results from rfl, h.results_iff]
    by_cases hn : n = b.seq
    · subst hn
      simp [Book.step, habs]
    · simp [Book.step, Function.update_of_ne hn]
  · by_cases hn : n = b.seq
    · subst hn
      simp [Book.step, Phase.slot] at hd
    · simp only [Book.step, Function.update_of_ne hn] at hd
      exact h.source n d hd

/-- A gentle step does not fail, and does what the book says. -/
theorem Inv.step {b : Book D} {hist : List (Event D)} (h : Inv b hist) {ev : Event D}
    (hev : b.proxy.Possible ev) (hok : Gentle b.proxy ev) :
    b.proxy.step ev = .ok (b.step ev).proxy ∧ Inv (b.step ev) (hist ++ [ev]) := by
  have hmono : Inv b (hist ++ [ev]) := h.mono (List.subset_append_left _ _)
  have hlast : ev ∈ hist ++ [ev] := List.mem_append_right _ (List.mem_singleton_self ev)
  cases ev with
  | query m => exact ⟨step_query b (absent_of_fresh h) m, hmono.query m⟩
  | tick d =>
    exact ⟨rfl, { hmono with }⟩
  | published n =>
    obtain ⟨slot, hn⟩ := publishing_of_place (show (b.phase n).place = .publishing from hev)
    have hslot : (b.phase n).slot = slot := by rw [hn]; rfl
    refine ⟨step_published b hn fun d hd => h.blocked (hslot.trans hd), ?_⟩
    rw [Book.step]
    split
    next hnone =>
      refine hmono.change (by rw [hn]; rfl) rfl (fun e he => ?_) fun d hd => by cases hd
      rw [hnone] at he
      cases he
    next d hd => exact hmono.finish hd
  | message n pld =>
    -- a gentle message is for a query whose item no other coroutine has written
    have hw := writer_of_message hok
    refine ⟨step_message b hev hw, ?_⟩
    rw [Book.step]
    split
    next hent =>
      split
      next hnone =>
        refine hmono.change hent ((fill_entered _ _).trans hent) (fun e he => ?_) fun d hd => ?_
        · rw [hnone] at he
          cases he
        · rw [fill_slot hent] at hd
          cases hd
          exact hlast
      next e he =>
        refine { hmono with callback := fun m d hm => ?_ }
        cases hm
        exact ⟨rfl, .inr ⟨e, he, hw e he⟩⟩
    next => exact hmono
  | scan del =>
    obtain ⟨htimeout, hnodup, hdel⟩ := hev
    obtain ⟨hw, hfree⟩ := writer_of_scan hok
    have hb : b.timeout = none := Option.map_eq_none_iff.1 htimeout
    have hent : ∀ n ∈ del, (b.phase n).entered = true := fun n hn =>
      ((expired_iff b n).1 ((hdel n).1 hn)).1
    exact ⟨step_scan b hb hnodup hent hw hfree,
      hmono.timeouts del hb hent hw fun n hn => ⟨del, hlast, hn⟩⟩
  | resume th =>
    obtain ⟨hon, hwoken⟩ := hev
    rcases th with n | _ | _
    · obtain ⟨d, hn⟩ := woken_caller hon hwoken
      have hslot : (b.phase n).slot = some d := by rw [hn]; rfl
      refine ⟨step_resume_caller b hn (h.blocked hslot), ?_⟩
      rw [Book.step, hslot]
      exact hmono.finish hslot
    · obtain ⟨n, d, hc, hdone⟩ := woken_callback hon hwoken
      exact ⟨step_resume_callback b hc (h.callback n d hc).1 hdone, { hmono with callback := fun m d hm => by cases hm }⟩
    · obtain ⟨n, ht, hdone⟩ := woken_timeout hon hwoken
      exact ⟨step_resume_timeout b ht hdone, { hmono with timeout := fun m hm => by cases hm }⟩

/-- The book before the first query. -/
def Book.init : Book D := ⟨0, 0, fun _ => ⟨0, 0⟩, fun _ => .absent, none, none, []⟩

/-- The proxy at the start. -/
theorem init_proxy : (Book.init : Book D).proxy = Proxy.init := by
  have hski : world (fun _ => (Phase.absent : Phase D)) (Book.init : Book D).blocked none
      = (Proxy.init : Proxy D).ski := by
    refine world_ext (fun t => ?_) fun c => rfl
    rcases t with m | _ | _ <;> rfl
  unfold Book.proxy Book.proxyAt
  change Proxy.mk _ _ _ (world (fun _ => (Phase.absent : Phase D)) (Book.init : Book D).blocked none)
    _ _ _ _ = _
  rw [hski]
  rfl

/-- The invariant at the start. -/
theorem inv_init : Inv (Book.init : Book D) [] := by
  refine ⟨fun n => ?_, nofun, nofun, List.nodup_nil, fun n d => ?_, fun n d hd => ?_⟩
  · simp [Book.init]
  · simp [Book.init]
  · simp [Book.init, Phase.slot] at hd

/-- The states of gentle runs are those of books. -/
theorem Reached.book {hist : List (Event D)} {s : Proxy D} (h : Reached Gentle hist s) :
    ∃ b : Book D, s = b.proxy ∧ Inv b hist := by
  induction h with
  | init => exact ⟨Book.init, init_proxy.symm, inv_init⟩
  | step _ hev hok hs ih =>
    obtain ⟨b, rfl, hinv⟩ := ih
    obtain ⟨hstep, hinv'⟩ := hinv.step hev hok
    cases hs.symm.trans hstep
    exact ⟨_, rfl, hinv'⟩

end Sandcproxy
