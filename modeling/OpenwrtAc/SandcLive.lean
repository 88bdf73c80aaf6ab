/-
# Every query of the proxy returns

Of infinite runs: when each channel has one writer, what was woken is resumed, what is
published is published in the end, the timeouts go on and time goes on, every query comes
back and no coroutine waits on a channel for ever.
-/
import Mathlib.Tactic.IntervalCases
import OpenwrtAc.LeadsTo
import OpenwrtAc.SandcSafe

open Ski LeadsTo

namespace Sandcproxy

variable {D : Type}

/-- An infinite gentle run. -/
structure GentleRun (σ : ℕ → Proxy D) (ev : ℕ → Event D) : Prop where
  init : σ 0 = Proxy.init
  possible : ∀ n, (σ n).Possible (ev n)
  gentle : ∀ n, Gentle (σ n) (ev n)
  step : ∀ n, (σ n).step (ev n) = .ok (σ (n + 1))

/-- What the scheduler, the network and the clock do in the end. -/
structure Fair (σ : ℕ → Proxy D) (ev : ℕ → Event D) : Prop where
  published : ∀ n q, (σ n).query q = .publishing → ∃ k, n ≤ k ∧ ev k = .published q
  resumed : ∀ n th, (σ n).onChannel th → ((σ n).ski.threads th).woken = true →
    ∃ k, n ≤ k ∧ ev k = .resume th
  scanned : ∀ n, (σ n).timeout = none → ∃ k, n ≤ k ∧ ∃ del, ev k = .scan del
  time : ∀ n t, ∃ k, n ≤ k ∧ t ≤ (σ k).now

/-! ## What a step does to a query -/

/-- How a query goes on in one step: it is made, its caller begins to wait, something is written,
    or it ends with what was written. -/
inductive Next : Phase D → Phase D → Prop
  | same (p : Phase D) : Next p p
  | made : Next .absent (.publishing none)
  | read : Next (.publishing none) (.reading none)
  | fill {p : Phase D} (d : Item D) (h : p.entered = true) (hslot : p.slot = none) : Next p (p.fill d)
  | finish {p : Phase D} {d : Item D} (h : p.slot = some d) : Next p (.returned d)

/-- A query that takes a step, and the others none. -/
theorem next_update {phase : ℕ → Phase D} {n : ℕ} {p : Phase D} (h : Next (phase n) p) (q : ℕ) :
    Next (phase q) (Function.update phase n p q) := by
  by_cases hq : q = n
  · subst hq
    rw [Function.update_self]
    exact h
  · rw [Function.update_of_ne hq]
    exact .same _

/-- Filling one query's slot leaves the other queries. -/
theorem fill_of_ne (b : Book D) {n q : ℕ} (h : q ≠ n) (d : Item D) :
    (b.fill n d).phase q = b.phase q :=
  Function.update_of_ne h _ _

/-- A timeout leaves the queries it does not delete. -/
theorem timeouts_of_not_mem (del : List ℕ) (b : Book D) {q : ℕ} (hq : q ∉ del) :
    (b.timeouts del).phase q = b.phase q := by
  induction del generalizing b with
  | nil => rfl
  | cons n rest ih =>
    rw [List.mem_cons, not_or] at hq
    rw [Book.timeouts]
    split
    next => rw [ih _ hq.2, fill_of_ne b hq.1]
    next => rfl

/-- A scan writes to a query at most once, when its channel is free. -/
theorem timeouts_next (del : List ℕ) (b : Book D) (hnodup : del.Nodup)
    (hent : ∀ n ∈ del, (b.phase n).entered = true) (q : ℕ) :
    Next (b.phase q) ((b.timeouts del).phase q) := by
  induction del generalizing b with
  | nil => exact .same _
  | cons n rest ih =>
    obtain ⟨hn, hnodup⟩ := List.nodup_cons.1 hnodup
    rw [Book.timeouts]
    cases hslot : (b.phase n).slot with
    | some e => exact .same _
    | none =>
      by_cases hq : q = n
      · subst hq
        rw [timeouts_of_not_mem _ _ hn]
        change Next _ (Function.update b.phase q _ q)
        rw [Function.update_self]
        exact .fill _ (hent q (List.mem_cons_self ..)) hslot
      · have hnext := ih (b.fill n .timeout) hnodup fun k hk => by
          rw [fill_of_ne b fun h : k = n => hn (h ▸ hk)]
          exact hent k (List.mem_cons_of_mem n hk)
        rw [fill_of_ne b hq] at hnext
        exact hnext

/-- Behind a scan the channels of its queries are full, if but for the last they were free. -/
theorem timeouts_full (del : List ℕ) (b : Book D) (hnodup : del.Nodup)
    (hent : ∀ n ∈ del, (b.phase n).entered = true) (hfree : ∀ n ∈ del.dropLast, (b.phase n).slot = none) :
    ∀ q ∈ del, ∃ d, ((b.timeouts del).phase q).slot = some d := by
  induction del generalizing b with
  | nil => nofun
  | cons n rest ih =>
    intro q hq
    obtain ⟨hn, hnodup⟩ := List.nodup_cons.1 hnodup
    obtain ⟨hfirst, hfree⟩ := dropLast_cons_forall hfree
    rw [Book.timeouts]
    cases hslot : (b.phase n).slot with
    | some e =>
      have hnil : rest = [] := by
        by_contra hne
        rw [hfirst hne] at hslot
        cases hslot
      subst hnil
      rw [List.mem_singleton.1 hq]
      exact ⟨e, hslot⟩
    | none =>
      rcases List.mem_cons.1 hq with rfl | hq
      · rw [timeouts_of_not_mem _ _ hn]
        refine ⟨.timeout, ?_⟩
        change (Function.update b.phase q _ q).slot = _
        rw [Function.update_self]
        exact fill_slot (hent q (List.mem_cons_self ..)) _
      · refine ih (b.fill n .timeout) hnodup (fun k hk => ?_) (fun k hk => ?_) q hq
        · rw [fill_of_ne b fun h : k = n => hn (h ▸ hk)]
          exact hent k (List.mem_cons_of_mem n hk)
        · rw [fill_of_ne b fun h : k = n => hn (h ▸ List.dropLast_subset _ hk)]
          exact hfree k hk

/-- Every event moves every query along its phases. -/
theorem step_next {b : Book D} {hist : List (Event D)} (h : Inv b hist) {ev : Event D}
    (hev : b.proxy.Possible ev) (q : ℕ) : Next (b.phase q) ((b.step ev).phase q) := by
  cases ev with
  | query m =>
    refine next_update ?_ q
    rw [absent_of_fresh h]
    exact .made
  | tick d => exact .same _
  | published n =>
    obtain ⟨slot, hn⟩ := publishing_of_place (show (b.phase n).place = .publishing from hev)
    rw [Book.step]
    split
    next hnone =>
      refine next_update ?_ q
      rw [hn] at hnone ⊢
      cases hnone
      exact .read
    next d hd => exact next_update (.finish hd) q
  | message n pld =>
    rw [Book.step]
    split
    next hent =>
      split
      next hnone => exact next_update (.fill _ hent hnone) q
      next => exact .same _
    next => exact .same _
  | scan del =>
    obtain ⟨-, hnodup, hdel⟩ := hev
    exact timeouts_next del b hnodup (fun n hn => ((expired_iff b n).1 ((hdel n).1 hn)).1) q
  | resume th =>
    rcases th with n | _ | _
    · rw [Book.step]
      split
      next => exact .same _
      next d hd => exact next_update (.finish hd) q
    · exact .same _
    · exact .same _

/-- A query that is done stays done. -/
theorem Next.done {p p' : Phase D} (h : Next p p') (hp : p.done = true) : p'.done = true := by
  cases h with
  | same => exact hp
  | made => cases hp
  | read => cases hp
  | fill d hent _ =>
    rw [done_of_entered hent] at hp
    cases hp
  | finish hslot => rfl

/-- What is in a channel stays there until the query ends. -/
theorem Next.full {p p' : Phase D} (h : Next p p') {d : Item D} (hp : p.slot = some d) :
    p' = p ∨ p'.done = true := by
  cases h with
  | same => exact .inl rfl
  | made => cases hp
  | read => cases hp
  | fill e hent hslot =>
    rw [hslot] at hp
    cases hp
  | finish hslot => exact .inr rfl

/-- Behind the publish a query reads, or is done. -/
theorem Next.publishing {p p' : Phase D} (h : Next p p') {slot : Option (Item D)}
    (hp : p = .publishing slot) :
    (∃ slot, p' = .publishing slot) ∨ (∃ slot, p' = .reading slot) ∨ p'.done = true := by
  cases h with
  | same => exact .inl ⟨slot, hp⟩
  | made => cases hp
  | read => exact .inr (.inl ⟨none, rfl⟩)
  | fill e hent hslot =>
    rw [hp]
    exact .inl ⟨some e, rfl⟩
  | finish hslot => exact .inr (.inr rfl)

/-- A query that reads an empty slot goes on reading or gets its item. -/
theorem Next.waiting {p p' : Phase D} (h : Next p p') (hp : p = .reading none) :
    p' = .reading none ∨ ∃ d, p'.slot = some d := by
  cases h with
  | same => exact .inl hp
  | made => cases hp
  | read => cases hp
  | fill e hent hslot => exact .inr ⟨e, fill_slot hent e⟩
  | finish hslot =>
    rw [hp] at hslot
    cases hslot

/-- What a scan leaves alone. -/
theorem timeouts_frame (del : List ℕ) (b : Book D) : (b.timeouts del).callback = b.callback
    ∧ (b.timeouts del).item = b.item ∧ (b.timeouts del).now = b.now := by
  induction del generalizing b with
  | nil => exact ⟨rfl, rfl, rfl⟩
  | cons n rest ih =>
    rw [Book.timeouts]
    split
    next => exact ih _
    next => exact ⟨rfl, rfl, rfl⟩

/-- A writer that waits goes on waiting for the same channel until it is resumed. -/
theorem blocked_step {b : Book D} {ev : Event D} (hev : b.proxy.Possible ev) {th : Tid} {q : ℕ}
    (h : b.blocked th = some q) :
    (b.step ev).blocked th = some q ∨ (b.step ev).blocked th = none := by
  rcases th with n | _ | _
  · cases h
  · change (b.step ev).callback.map Prod.fst = some q ∨ (b.step ev).callback.map Prod.fst = none
    change b.callback.map Prod.fst = some q at h
    cases ev with
    | query m => exact .inl h
    | tick d => exact .inl h
    | published n =>
      left
      rw [Book.step]
      -- whether the query returns or goes on to read, the callback stays where it is
      split <;> exact h
    | message n pld =>
      rw [show b.callback = none from hev] at h
      cases h
    | scan del =>
      left
      rw [Book.step, (timeouts_frame del b).1]
      exact h
    | resume th =>
      rcases th with n | _ | _
      · left
        rw [Book.step]
        split <;> exact h
      · exact .inr rfl
      · exact .inl h
  · change (b.step ev).timeout = some q ∨ (b.step ev).timeout = none
    change b.timeout = some q at h
    cases ev with
    | query m => exact .inl h
    | tick d => exact .inl h
    | published n =>
      left
      rw [Book.step]
      split <;> exact h
    | message n pld =>
      left
      rw [Book.step]
      split
      next =>
        split
        next => exact h
        next => exact h
      next => exact h
    | scan del =>
      have hnone : b.timeout = none := Option.map_eq_none_iff.1 hev.1
      rw [hnone] at h
      cases h
    | resume th =>
      rcases th with n | _ | _
      · left
        rw [Book.step]
        split <;> exact h
      · exact .inl h
      · exact .inr rfl

/-! ## Runs -/

/-- The books of a run. -/
def books (ev : ℕ → Event D) : ℕ → Book D
  | 0 => Book.init
  | n + 1 => (books ev n).step (ev n)

/-- The states of a gentle run are those of the books. -/
theorem GentleRun.book {σ : ℕ → Proxy D} {ev : ℕ → Event D} (h : GentleRun σ ev) (n : ℕ) :
    σ n = (books ev n).proxy ∧ Inv (books ev n) ((List.range n).map ev) := by
  induction n with
  | zero => exact ⟨h.init.trans init_proxy.symm, inv_init⟩
  | succ n ih =>
    obtain ⟨hσ, hinv⟩ := ih
    obtain ⟨hstep, hinv'⟩ := hinv.step (hσ ▸ h.possible n) (hσ ▸ h.gentle n)
    refine ⟨?_, ?_⟩
    · have hs := h.step n
      rw [hσ] at hs
      exact Except.ok.inj (hs.symm.trans hstep)
    · rw [List.range_succ, List.map_append]
      exact hinv'

section

variable {σ : ℕ → Proxy D} {ev : ℕ → Event D}

/-- Along a run every query moves along its phases. -/
theorem GentleRun.next (h : GentleRun σ ev) (n q : ℕ) :
    Next ((books ev n).phase q) ((books ev (n + 1)).phase q) :=
  step_next (h.book n).2 ((h.book n).1 ▸ h.possible n) q

/-- A query is back. -/
def Done (q : ℕ) (b : Book D) : Prop := (b.phase q).done = true

/-- A query that is finished is done. -/
theorem finish_done (b : Book D) (q : ℕ) (d : Item D) : Done q (b.finish q d) := by
  simp [Done, Book.finish, Phase.done]

/-- Something is in the channel of a query. -/
def Full (q : ℕ) (b : Book D) : Prop := ∃ d, (b.phase q).slot = some d

/-- Along a run a query that is done stays done. -/
theorem GentleRun.done (h : GentleRun σ ev) {q n k : ℕ} (hnk : n ≤ k) (hn : Done q (books ev n)) :
    Done q (books ev k) :=
  stable (P := Done q) (fun i hi => (h.next i q).done hi) hnk hn

/-- A query of which something is in the channel comes back. -/
theorem full_leads (h : GentleRun σ ev) (hf : Fair σ ev) (q : ℕ) :
    Leads (books ev) (Full q) (Done q) := by
  rintro n ⟨d, hd⟩
  -- a query that has an item keeps its phase until it is done
  have hpersist : ∀ p : Phase D, p.slot = some d → ∀ i, (books ev i).phase q = p →
      (books ev (i + 1)).phase q = p ∨ Done q (books ev (i + 1)) := by
    intro p hp i hi
    rcases (h.next i q).full (hi ▸ hp) with hsame | hdone
    · exact .inl (hsame.trans hi)
    · exact .inr hdone
  cases hphase : (books ev n).phase q with
  | absent => rw [hphase] at hd; cases hd
  | returned _ => rw [hphase] at hd; cases hd
  | publishing slot =>
    rw [hphase] at hd
    refine leads_of_step (P := fun b => b.phase q = .publishing slot) (hpersist _ hd) (fun i hi => ?_) n hphase
    have hplace : (σ i).query q = .publishing := by
      rw [(h.book i).1]
      change ((books ev i).phase q).place = _
      rw [hi]
      rfl
    -- fairness lets the publishing come to its end
    obtain ⟨k, hik, hk⟩ := hf.published i q hplace
    refine ⟨k, hik, fun hpk => ?_⟩
    cases hd
    rw [books, hk, Book.step, hpk]
    exact finish_done _ q d
  | reading slot =>
    rw [hphase] at hd
    cases hd
    refine leads_of_step (P := fun b => b.phase q = .reading (some d)) (hpersist _ rfl) (fun i hi => ?_) n
      hphase
    have hon : (σ i).onChannel (.caller q) := by
      rw [(h.book i).1]
      change ((books ev i).phase q).place = _
      rw [hi]
      rfl
    have hwoken : ((σ i).ski.threads (.caller q)).woken = true := by
      rw [(h.book i).1]
      change (callerThread q ((books ev i).phase q)).woken = true
      rw [hi]
      rfl
    -- the item woke the reader, and fairness resumes it
    obtain ⟨k, hik, hk⟩ := hf.resumed i _ hon hwoken
    refine ⟨k, hik, fun hpk => ?_⟩
    rw [books, hk, Book.step, hpk]
    exact finish_done _ q d

/-- The state of a writer. -/
theorem onChannel_of_blocked (b : Book D) {th : Tid} {q : ℕ} (hb : b.blocked th = some q) :
    b.proxy.onChannel th ∧ (b.proxy.ski.threads th).woken = (b.phase q).done := by
  rcases th with n | _ | _
  · cases hb
  · refine ⟨?_, ?_⟩
    · obtain ⟨w, hw, -⟩ := Option.map_eq_some_iff.1 hb
      change b.callback ≠ none
      rw [hw]
      exact Option.some_ne_none w
    · change (writerThread b.phase .callback (b.blocked .callback)).woken = _
      rw [hb]
      rfl
  · refine ⟨?_, ?_⟩
    · change b.timeout.map _ ≠ none
      rw [show b.timeout = some q from hb]
      exact Option.some_ne_none _
    · change (writerThread b.phase .timeout (b.blocked .timeout)).woken = _
      rw [hb]
      rfl

/-- A writer that waits is free again. -/
theorem writer_leads (h : GentleRun σ ev) (hf : Fair σ ev) (th : Tid) (q : ℕ) :
    Leads (books ev) (fun b => b.blocked th = some q) fun b => b.blocked th = none := by
  have hunless : ∀ i, (books ev i).blocked th = some q →
      (books ev (i + 1)).blocked th = some q ∨ (books ev (i + 1)).blocked th = none := fun i hi =>
    blocked_step ((h.book i).1 ▸ h.possible i) hi
  refine leads_of_step hunless fun n hn => ?_
  have hdone : ∃ k, n ≤ k ∧ Done q (books ev k) := by
    have hinv := (h.book n).2
    have hwait : ((books ev n).phase q).done = true ∨ Full q (books ev n) := by
      rcases th with m | _ | _
      · cases hn
      · obtain ⟨⟨_, d⟩, hc, rfl⟩ := Option.map_eq_some_iff.1 hn
        exact (hinv.callback _ d hc).2.imp_right fun ⟨e, he, _⟩ => ⟨e, he⟩
      · exact (hinv.timeout q hn).imp_right fun ⟨e, he, _⟩ => ⟨e, he⟩
    rcases hwait with hdone | hfull
    · exact ⟨n, Nat.le_refl n, hdone⟩
    · exact full_leads h hf q n hfull
  obtain ⟨k, hnk, hk⟩ := hdone
  by_cases hb : (books ev k).blocked th = some q
  · -- the query is back, so the writer was woken
    obtain ⟨hon, hwoken⟩ := onChannel_of_blocked _ hb
    rw [← (h.book k).1] at hon hwoken
    obtain ⟨j, hkj, hj⟩ := hf.resumed k th hon (hwoken.trans hk)
    refine ⟨j, hnk.trans hkj, fun _ => ?_⟩
    rw [books, hj]
    rcases th with m | _ | _ <;> rfl
  · exact ⟨k, hnk, fun hb' => absurd hb' hb⟩

/-- The coroutine of the timeouts is free again and again. -/
theorem timeout_free (h : GentleRun σ ev) (hf : Fair σ ev) (n : ℕ) :
    ∃ k, n ≤ k ∧ (books ev k).timeout = none := by
  cases ht : (books ev n).timeout with
  | none => exact ⟨n, Nat.le_refl n, ht⟩
  | some q => exact writer_leads h hf .timeout q n ht

/-- The entry of a query stays as it was made. -/
theorem item_step {b : Book D} {hist : List (Event D)} (h : Inv b hist) (e : Event D) {q : ℕ}
    (hq : (b.phase q).entered = true) : (b.step e).item q = b.item q := by
  cases e with
  | query m =>
    have hne : q ≠ b.seq := by
      rintro rfl
      rw [absent_of_fresh h] at hq
      cases hq
    exact Function.update_of_ne hne _ _
  | scan del => exact congrFun (timeouts_frame del b).2.1 q
  | tick d => rfl
  | published n =>
    rw [Book.step]
    split <;> rfl
  | message n pld =>
    rw [Book.step]
    split
    next => split <;> rfl
    next => rfl
  | resume th =>
    rcases th with n | _ | _
    · rw [Book.step]
      split <;> rfl
    · rfl
    · rfl

/-- The clock does not run back. -/
theorem now_step (b : Book D) (e : Event D) : b.now ≤ (b.step e).now := by
  cases e with
  | tick d => exact Nat.le_add_right _ _
  | query m => exact Nat.le_refl _
  | scan del => exact (timeouts_frame del b).2.2.ge
  | published n =>
    rw [Book.step]
    split <;> exact Nat.le_refl _
  | message n pld =>
    rw [Book.step]
    split
    next => split <;> exact Nat.le_refl _
    next => exact Nat.le_refl _
  | resume th =>
    rcases th with n | _ | _
    · rw [Book.step]
      split <;> exact Nat.le_refl _
    · exact Nat.le_refl _
    · exact Nat.le_refl _

/-- A query that waits is written to. -/
theorem waiting_leads (h : GentleRun σ ev) (hf : Fair σ ev) (q : ℕ) :
    Leads (books ev) (fun b => b.phase q = .reading none) (Full q) := by
  intro n hn
  -- the time at which it is expired, and the first scan from then on
  obtain ⟨k, hnk, hk⟩ := hf.time n (((books ev n).item q).m + ((books ev n).item q).t + 1)
  obtain ⟨j, hkj, hj⟩ := timeout_free h hf k
  have hfree : (σ j).timeout = none := by
    rw [(h.book j).1]
    change (books ev j).timeout.map _ = none
    rw [hj]
    rfl
  obtain ⟨i, hji, del, hi⟩ := hf.scanned j hfree
  have hni : n ≤ i := hnk.trans (hkj.trans hji)
  have hkept := until_reached (σ := books ev) (Q := Full q)
    (P := fun b => b.phase q = .reading none ∧ b.item q = (books ev n).item q) ?_ hni ⟨hn, rfl⟩
  · rcases hkept with ⟨hphase, hitem⟩ | hfull
    · have hev := h.possible i
      have hok := h.gentle i
      rw [(h.book i).1, hi] at hev hok
      obtain ⟨-, hnodup, hdel⟩ := hev
      have hlate : ((books ev n).item q).m + ((books ev n).item q).t < (books ev i).now := by
        have hmono := stable (P := fun b : Book D => (books ev k).now ≤ b.now)
          (fun l hl => hl.trans (now_step _ _)) (hkj.trans hji) (Nat.le_refl _)
        have hnow : (σ k).now = (books ev k).now := by rw [(h.book k).1]; rfl
        omega
      have hq : q ∈ del := by
        refine (hdel q).2 ((expired_iff _ q).2 ⟨by rw [hphase]; rfl, ?_⟩)
        rw [hitem]
        exact hlate
      have hent : ∀ m ∈ del, ((books ev i).phase m).entered = true := fun m hm =>
        ((expired_iff _ m).1 ((hdel m).1 hm)).1
      refine ⟨i + 1, hni.trans (Nat.le_succ i), ?_⟩
      rw [books, hi]
      exact timeouts_full del _ hnodup hent (writer_of_scan hok).2 q hq
    · exact hfull
  · rintro l ⟨hphase, hitem⟩
    rcases (h.next l q).waiting hphase with hsame | hfull
    · refine .inl ⟨hsame, ?_⟩
      rw [books, item_step (h.book l).2 _ (by rw [hphase]; rfl)]
      exact hitem
    · exact .inr hfull

/-- A query whose caller reads comes back. -/
theorem reading_leads (h : GentleRun σ ev) (hf : Fair σ ev) (q : ℕ) :
    Leads (books ev) (fun b => ∃ slot, b.phase q = .reading slot) (Done q) := by
  rintro n ⟨slot, hn⟩
  cases slot with
  | none => exact (waiting_leads h hf q).trans (full_leads h hf q) n hn
  | some d => exact full_leads h hf q n ⟨d, by rw [hn]; rfl⟩

/-- A query in `publish` is read from, or back. -/
theorem publishing_leads (h : GentleRun σ ev) (hf : Fair σ ev) (q : ℕ) :
    Leads (books ev) (fun b => ∃ slot, b.phase q = .publishing slot)
      fun b => (∃ slot, b.phase q = .reading slot) ∨ Done q b := by
  refine leads_of_step (fun n ⟨slot, hn⟩ => (h.next n q).publishing hn) fun n ⟨slot, hn⟩ => ?_
  have hplace : (σ n).query q = .publishing := by
    rw [(h.book n).1]
    change ((books ev n).phase q).place = _
    rw [hn]
    rfl
  obtain ⟨k, hnk, hk⟩ := hf.published n q hplace
  refine ⟨k, hnk, fun ⟨slot, hpk⟩ => ?_⟩
  rw [books, hk, Book.step, hpk]
  cases slot with
  | none => exact .inl ⟨none, Function.update_self ..⟩
  | some d => exact .inr (finish_done _ q d)

/-- Every query that is entered is done in the end. -/
theorem entered_leads (h : GentleRun σ ev) (hf : Fair σ ev) (q : ℕ) :
    Leads (books ev) (fun b => (b.phase q).entered = true) (Done q) := by
  intro n hn
  cases hphase : (books ev n).phase q with
  | absent => rw [hphase] at hn; cases hn
  | returned _ => rw [hphase] at hn; cases hn
  | publishing slot =>
    exact (publishing_leads h hf q).trans
      ((reading_leads h hf q).or (leads_of_imp fun _ hd => hd)) n ⟨slot, hphase⟩
  | reading slot => exact reading_leads h hf q n ⟨slot, hphase⟩

end

/-! ## The outcome of queries -/

/-- What holds in a state: what can happen does not fail; a query has returned once, with an item
    that came for it, and then has no entry. -/
structure Safe (hist : List (Event D)) (s : Proxy D) : Prop where
  steps : ∀ ev, s.Possible ev → Gentle s ev → ∃ s', s.step ev = .ok s'
  once : (s.results.map Prod.fst).Nodup
  source : ∀ q d, (q, d) ∈ s.results → Source hist q d
  returned : ∀ q, s.query q = .returned ↔ ∃ d, (q, d) ∈ s.results
  cleared : ∀ q, s.query q = .returned → s.outSeqMap q = none

/-- What happens in the end: every query returns, and no coroutine waits on a channel for ever. -/
structure Live (σ : ℕ → Proxy D) : Prop where
  returns : ∀ n q, q < (σ n).seq → ∃ k, n ≤ k ∧ (σ k).query q = .returned
  unblocked : ∀ n th, (σ n).onChannel th → ∃ k, n ≤ k ∧ ¬ (σ k).onChannel th

/-- A query stands at its end exactly in the phase that has returned. -/
theorem place_returned {p : Phase D} : p.place = .returned ↔ ∃ d, p = .returned d := by
  cases p <;> simp [Phase.place]

/-- The invariant implies the safety statement. -/
theorem Inv.safe {b : Book D} {hist : List (Event D)} (h : Inv b hist) : Safe hist b.proxy := by
  refine ⟨fun ev hev hok => ⟨_, (h.step hev hok).1⟩, h.nodup, fun q d hd => ?_, fun q => ?_, fun q hq => ?_⟩
  · exact h.source q d (.inr ((h.results_iff q d).1 hd))
  · refine place_returned.trans (exists_congr fun d => ?_)
    exact (h.results_iff q d).symm
  · obtain ⟨d, hd⟩ := place_returned.1 (show (b.phase q).place = .returned from hq)
    refine if_neg ?_
    rw [hd]
    exact Bool.false_ne_true

/-- A query that is done has returned. -/
theorem place_of_done {b : Book D} {q : ℕ} (h : Done q b) : b.proxy.query q = .returned := by
  change (b.phase q).place = .returned
  unfold Done at h
  cases hp : b.phase q <;> first | rfl | (rw [hp] at h; cases h)

/-- In a fair run every query returns. -/
theorem GentleRun.live {σ : ℕ → Proxy D} {ev : ℕ → Event D} (h : GentleRun σ ev) (hf : Fair σ ev) :
    Live σ := by
  have hback : ∀ n q, (books ev n).phase q ≠ .absent → ∃ k, n ≤ k ∧ (σ k).query q = .returned := by
    intro n q hq
    have hdone : ∃ k, n ≤ k ∧ Done q (books ev k) := by
      cases hp : (books ev n).phase q with
      | absent => exact absurd hp hq
      | returned d => exact ⟨n, Nat.le_refl n, by rw [Done, hp]; rfl⟩
      | publishing slot =>
        have hent : ((books ev n).phase q).entered = true := by rw [hp]; rfl
        exact entered_leads h hf q n hent
      | reading slot =>
        have hent : ((books ev n).phase q).entered = true := by rw [hp]; rfl
        exact entered_leads h hf q n hent
    obtain ⟨k, hnk, hk⟩ := hdone
    refine ⟨k, hnk, ?_⟩
    rw [(h.book k).1]
    exact place_of_done hk
  refine ⟨fun n q hq => hback n q fun habs => ?_, fun n th hth => ?_⟩
  · rw [(h.book n).1] at hq
    exact absurd (((h.book n).2.fresh q).1 habs) (Nat.not_le.2 hq)
  · rw [(h.book n).1] at hth
    rcases th with q | _ | _
    · -- a caller leaves the channel when it returns; a writer when its query takes the item
      obtain ⟨slot, hslot⟩ := reading_of_place (show ((books ev n).phase q).place = .reading from hth)
      obtain ⟨k, hnk, hk⟩ := hback n q (by rw [hslot]; nofun)
      exact ⟨k, hnk, fun hon => nomatch hk.symm.trans hon⟩
    · obtain ⟨w, hw⟩ := Option.ne_none_iff_exists'.1 hth
      obtain ⟨k, hnk, hk⟩ := writer_leads h hf .callback w.1 n
        (show (books ev n).callback.map Prod.fst = some w.1 by
          rw [show (books ev n).callback = some w from hw]; rfl)
      refine ⟨k, hnk, fun hon => hon ?_⟩
      rw [(h.book k).1]
      exact Option.map_eq_none_iff.1 hk
    · obtain ⟨w, hw⟩ := Option.ne_none_iff_exists'.1 hth
      obtain ⟨q, hq, -⟩ := Option.map_eq_some_iff.1 hw
      obtain ⟨k, hnk, hk⟩ := writer_leads h hf .timeout q n hq
      refine ⟨k, hnk, fun hon => hon ?_⟩
      rw [(h.book k).1]
      change (books ev k).timeout.map _ = none
      rw [show (books ev k).timeout = none from hk]
      rfl

/-- **The outcome of queries.**  In gentle runs no assertion of the channels fails, a query
    returns at most once, with a reply or a timeout that came for it, and is out of `out_seq_map`
    then; and if the run is fair, every query returns and no coroutine waits on a channel for
    ever. -/
theorem queries_return :
    (∀ (hist : List (Event D)) (s : Proxy D), Reached Gentle hist s → Safe hist s)
      ∧ ∀ (σ : ℕ → Proxy D) (ev : ℕ → Event D), GentleRun σ ev → Fair σ ev → Live σ := by
  refine ⟨fun hist s h => ?_, fun σ ev h hf => h.live hf⟩
  obtain ⟨b, rfl, hinv⟩ := h.book
  exact hinv.safe

/-! ## A query with a reply -/

/-- A query that waits, a reply, and then time and the timeouts in turn. -/
def oneReply : ℕ → Event ℕ
  | 0 => .query 0
  | 1 => .published 0
  | 2 => .message 0 5
  | 3 => .resume (.caller 0)
  | n + 4 => if n % 2 = 0 then .tick 1 else .scan []

def replied : ℕ → Phase ℕ
  | 0 => .absent
  | 1 => .publishing none
  | 2 => .reading none
  | 3 => .reading (some (.reply 5))
  | _ => .returned (.reply 5)

/-- The sample run, state by state. -/
theorem books_oneReply (n : ℕ) :
    (books oneReply n).phase = Function.update (fun _ => .absent) 0 (replied n)
    ∧ (books oneReply n).callback = none ∧ (books oneReply n).timeout = none := by
  have hback : ∀ n, (books oneReply (n + 4)).phase = Function.update (fun _ => .absent) 0 (replied 4)
      ∧ (books oneReply (n + 4)).callback = none ∧ (books oneReply (n + 4)).timeout = none := by
    intro n
    induction n with
    | zero =>
      refine ⟨?_, rfl, rfl⟩
      funext q
      by_cases hq : q = 0
      · subst hq
        rfl
      · simp [books, oneReply, Book.step, Book.fill, Book.finish, Book.init, Phase.slot, Phase.fill,
          Phase.entered, hq]
    | succ n ih =>
      rw [show n + 1 + 4 = (n + 4) + 1 from rfl, books, oneReply]
      split
      · exact ih
      · exact ih
  have hearly : ∀ q, q ≠ 0 → ∀ n, n < 4 → (books oneReply n).phase q = .absent := by
    intro q hq n hn
    interval_cases n <;>
      simp [books, oneReply, Book.step, Book.fill, Book.init, Phase.slot, Phase.entered, hq]
  rcases n with _ | _ | _ | _ | n
  pick_goal 5
  · exact hback n
  all_goals
    refine ⟨?_, rfl, rfl⟩
    funext q
    by_cases hq : q = 0
    · subst hq
      rfl
    · rw [Function.update_of_ne hq]
      exact hearly q hq _ (by omega)

/-- The sample run has one query. -/
theorem phase_oneReply {n q : ℕ} (hq : q ≠ 0) : (books oneReply n).phase q = .absent := by
  rw [(books_oneReply n).1, Function.update_of_ne hq]

/-- The phases of this query. -/
theorem phase_oneReply_zero (n : ℕ) : (books oneReply n).phase 0 = replied n := by
  rw [(books_oneReply n).1, Function.update_self]

/-- Time goes on in that run. -/
theorem now_oneReply (n : ℕ) : (books oneReply (4 + 2 * n)).now = n := by
  induction n with
  | zero => rfl
  | succ n ih =>
    have htick : oneReply (4 + 2 * n) = .tick 1 := by
      rw [show 4 + 2 * n = 2 * n + 4 from Nat.add_comm _ _, oneReply, if_pos (by omega)]
    have hscan : oneReply (4 + 2 * n + 1) = .scan [] := by
      rw [show 4 + 2 * n + 1 = 2 * n + 1 + 4 by omega, oneReply, if_neg (by omega)]
    rw [show 4 + 2 * (n + 1) = (4 + 2 * n) + 1 + 1 by omega, books, books, hscan, htick]
    exact congrArg (· + 1) ih

/-- A run of the books whose events are possible and gentle. -/
theorem gentleRun_of_books {ev : ℕ → Event D} (hev : ∀ n, (books ev n).proxy.Possible (ev n))
    (hok : ∀ n, Gentle (books ev n).proxy (ev n)) : GentleRun (fun n => (books ev n).proxy) ev := by
  have hinv : ∀ n, Inv (books ev n) ((List.range n).map ev) := by
    intro n
    induction n with
    | zero => exact inv_init
    | succ n ih =>
      rw [List.range_succ, List.map_append]
      exact (ih.step (hev n) (hok n)).2
  exact ⟨init_proxy, hev, hok, fun n => ((hinv n).step (hev n) (hok n)).1⟩

/-- From the fourth event on it is no longer entered. -/
theorem not_entered_oneReply {n q : ℕ} (hn : 4 ≤ n) :
    ((books oneReply n).phase q).entered = false := by
  by_cases hq : q = 0
  · subst hq
    obtain ⟨k, rfl⟩ := Nat.exists_eq_add_of_le hn
    rw [phase_oneReply_zero, Nat.add_comm]
    rfl
  · rw [phase_oneReply hq]
    rfl

/-- The sample is a run that meets the condition. -/
theorem gentleRun_oneReply : GentleRun (fun n => (books oneReply n).proxy) oneReply := by
  refine gentleRun_of_books (fun n => ?_) fun n => ?_
  · rcases n with _ | _ | _ | _ | n
    · exact trivial
    · exact rfl
    · exact rfl
    · exact ⟨rfl, rfl⟩
    · rw [oneReply]
      split
      · exact trivial
      · refine ⟨?_, List.nodup_nil, fun q => ⟨fun hq => (by cases hq), fun hq => ?_⟩⟩
        · change (books oneReply (n + 4)).timeout.map _ = none
          rw [(books_oneReply _).2.2]
          rfl
        · have hent := ((expired_iff _ q).1 hq).1
          rw [not_entered_oneReply (Nat.le_add_left 4 n)] at hent
          cases hent
  · rcases n with _ | _ | _ | _ | n
    · exact trivial
    · exact trivial
    · intro e he
      cases he
    · exact trivial
    · rw [oneReply]
      split
      · exact trivial
      · exact ⟨fun q hq => (by cases hq), fun q hq => by cases hq⟩

/-- The sample run is fair. -/
theorem fair_oneReply : Fair (fun n => (books oneReply n).proxy) oneReply := by
  have hplace : ∀ n q, (books oneReply n).proxy.query q = (if q = 0 then replied n else .absent).place := by
    intro n q
    change ((books oneReply n).phase q).place = _
    by_cases hq : q = 0
    · subst hq
      rw [phase_oneReply_zero]
      rfl
    · rw [phase_oneReply hq, if_neg hq]
  refine ⟨fun n q hq => ?_, fun n th hon hwoken => ?_, fun n _ => ?_, fun n t => ?_⟩
  · rw [hplace] at hq
    by_cases h0 : q = 0
    · subst h0
      -- the query is publishing after the first event only, and event 1 publishes it
      rcases n with _ | _ | _ | _ | n
      · cases hq
      · exact ⟨1, Nat.le_refl 1, rfl⟩
      · cases hq
      · cases hq
      · cases hq
    · rw [if_neg h0] at hq
      cases hq
  · rcases th with q | _ | _
    · have hreading : (books oneReply n).proxy.query q = .reading := hon
      rw [hplace] at hreading
      by_cases h0 : q = 0
      · subst h0
        rcases n with _ | _ | _ | _ | n
        · cases hreading
        · cases hreading
        · exact ⟨3, by omega, rfl⟩
        · exact ⟨3, Nat.le_refl 3, rfl⟩
        · cases hreading
      · rw [if_neg h0] at hreading
        cases hreading
    · exact absurd (books_oneReply n).2.1 hon
    · refine absurd ?_ hon
      change (books oneReply n).timeout.map _ = none
      rw [(books_oneReply n).2.2]
      rfl
  · -- the even events behind the reply are ticks, the odd ones scans
    refine ⟨2 * n + 1 + 4, by omega, [], ?_⟩
    rw [oneReply, if_neg (by omega)]
  · exact ⟨4 + 2 * (n + t), by omega, (Nat.le_add_left t n).trans (now_oneReply (n + t)).ge⟩

/-- The reply is written, and the caller has not been resumed. -/
theorem reached_reply :
    Reached Gentle [.query 0, .published 0, .message 0 5] (books oneReply 3).proxy := by
  have hrun := gentleRun_oneReply
  have h0 : Reached Gentle [] (books oneReply 0).proxy := by
    rw [books, init_proxy]
    exact .init
  have h1 := h0.step (hrun.possible 0) (hrun.gentle 0) (hrun.step 0)
  have h2 := h1.step (hrun.possible 1) (hrun.gentle 1) (hrun.step 1)
  exact h2.step (hrun.possible 2) (hrun.gentle 2) (hrun.step 2)

theorem queries_return_oneReply :
    (∃ hist, ∃ s : Proxy ℕ, s.results = [(0, .reply 5)] ∧ Safe hist s)
      ∧ Live fun n => (books oneReply n).proxy := by
  have hrun := gentleRun_oneReply
  have hreached := reached_reply.step (hrun.possible 3) (hrun.gentle 3) (hrun.step 3)
  exact ⟨⟨_, _, rfl, queries_return.1 _ _ hreached⟩, queries_return.2 _ _ hrun fair_oneReply⟩

/-- What is reached under a stronger condition is reached under a weaker one. -/
theorem Reached.weaken {ok ok' : Proxy D → Event D → Prop} (hok : ∀ s ev, ok s ev → ok' s ev)
    {hist : List (Event D)} {s : Proxy D} (h : Reached ok hist s) : Reached ok' hist s := by
  induction h with
  | init => exact .init
  | step _ hev hstep hs ih => exact ih.step hev (hok _ _ hstep) hs

/-- A reply is written, and a timeout before the caller is resumed: the channel has two writers. -/
theorem reply_and_timeout_fail :
    ¬ ∀ (hist : List (Event ℕ)) (s : Proxy ℕ), Reached (fun _ _ => True) hist s →
      ∀ ev, s.Possible ev → ∃ s', s.step ev = .ok s' := by
  intro h
  have hreply : Reached (fun _ _ => True) _ (books oneReply 3).proxy :=
    reached_reply.weaken fun _ _ _ => trivial
  have hlate : Reached (fun _ _ => True) ([.query 0, .published 0, .message 0 5] ++ [.tick 1])
      ({ books oneReply 3 with now := 1 } : Book ℕ).proxy := hreply.step trivial trivial rfl
  have hscan : ({ books oneReply 3 with now := 1 } : Book ℕ).proxy.Possible (.scan [0]) := by
    refine ⟨rfl, by decide, fun q => ?_⟩
    rw [List.mem_singleton, expired_iff]
    change q = 0 ↔ ((books oneReply 3).phase q).entered = true ∧ _
    by_cases hq : q = 0
    · subst hq
      exact ⟨fun _ => ⟨rfl, by decide⟩, fun _ => rfl⟩
    · rw [phase_oneReply hq]
      exact ⟨fun heq => absurd heq hq, fun hent => by cases hent.1⟩
  obtain ⟨s', hs'⟩ := h _ _ hlate _ hscan
  have hfail : ({ books oneReply 3 with now := 1 } : Book ℕ).proxy.step (.scan [0])
      = .error (.channel .oneWriter) := rfl
  rw [hfail] at hs'
  cases hs'

end Sandcproxy
