/-
# What gets through the gate

Over a run, a packet of a user that has to log in goes on only if it can carry nothing to its
destination, or if its connection has gone to a place that is open to all.  A connection
that was refused once stays so: of what comes later nothing gets through while the hooks
are on.
-/
import OpenwrtAc.NosGate

namespace Nos

variable {w : ℕ} {hz : ℕ} {s : Kernel w}

/-! ## What the gate does -/

/-- The user has to log in. -/
def UserHdr.Waits (ui : UserHdr) : Prop := ui.status = .req ∧ ui.type = .web

/-- What the gate makes of a packet, a user and a connection. -/
structure GateSpec (bypassDst : Option ℕ) (p : Packet) (ui : User w) (ct : Conn) (v : Verdict)
    (ct' : Conn) : Prop where
  waits : ui.hdr.Waits → excused bypassDst p = true ∨ v = webVerdict p.transport
  bypass : ct'.bypass = true → ct.bypass = true ∨
    (ui.hdr.Waits ∧ excused bypassDst p = true ∧ v.passes = true)
  drop : ct.drop = true → ct'.drop = true
  refused : v.passes = false → ct'.drop = true

/-- What the gate answers and what it leaves of the user and the connection. -/
theorem nosAuthGate_spec {bypassDst : Option ℕ} {jiffies : BitVec w} {p : Packet} {ui ui' : User w}
    {ct ct' : Conn} {v : Verdict} {msg : Bool}
    (h : nosAuthGate bypassDst hz jiffies p ui ct = (v, ui', ct', msg)) :
    GateSpec bypassDst p ui ct v ct' := by
  -- a user that does not have to log in
  have haccept : ¬ ui.hdr.Waits → GateSpec bypassDst p ui ct .accept ct := fun hw =>
    ⟨fun hw' => absurd hw' hw, Or.inl, id, fun hv => by cases hv⟩
  unfold nosAuthGate at h
  split at h
  · rename_i hreq
    split at h
    · rename_i hweb
      split at h
      · rename_i hex
        cases h
        refine ⟨fun _ => Or.inl hex, fun _ => Or.inr ⟨⟨hreq, hweb⟩, hex, rfl⟩, id, ?_⟩
        intro hv
        cases hv
      · cases h
        refine ⟨fun _ => Or.inr rfl, Or.inl, ?_, ?_⟩
        · intro hd
          simp only [hd, Bool.true_or]
        · intro hv
          simp only [hv, Bool.not_false, Bool.or_true]
    · rename_i hauto
      cases h
      exact haccept fun hw => by rw [hw.2] at hauto; cases hauto
    · rename_i hunknown
      cases h
      exact haccept fun hw => by rw [hw.2] at hunknown; cases hunknown
  · rename_i hok
    have hw : ¬ ui.hdr.Waits := fun hw => by rw [hw.1] at hok; cases hok
    split at h
    · cases h
      exact haccept hw
    · cases h
      exact haccept hw
  · rename_i hreq _
    cases h
    exact haccept fun hw => hreq hw.1

/-! ## Reasons to pass -/

/-- The gate was asked: the packet is of the direction in which the connection was opened, the hooks
    were on, and the connection was not marked to be left alone. -/
def Passed.Asked (e : Passed w) : Prop :=
  e.enabled = true ∧ e.pkt.tracked = true ∧ e.pkt.original = true ∧ e.conn.bypass = false

/-- A packet of a user that has to log in went to a place that is open to all. -/
def Passed.Excuses (e : Passed w) : Prop :=
  e.Asked ∧ e.user.hdr.Waits ∧ excused e.bypassDst e.pkt = true

/-- Nothing reaches the destination: the packet is turned into a reset, or it is of TCP, has no
    data, and is no acknowledgement that could complete a handshake. -/
def Passed.Bare (e : Passed w) : Prop :=
  e.verdict = .reset ∨ ∃ t, e.pkt.transport = .tcp t ∧ t.dataLen ≤ 0 ∧ (t.ack = true → t.syn = true)

/-- Every packet that was let through while the hooks were on, in the direction in which its
    connection was opened: the user did not have to log in, or the packet is bare, or its connection
    has gone to a place that is open to all. -/
def Gated (passed : List (Passed w)) : Prop :=
  ∀ e ∈ passed, e.enabled = true → e.pkt.tracked = true → e.pkt.original = true →
    ¬ e.user.hdr.Waits ∨ e.Bare ∨ ∃ e' ∈ passed, e'.pkt.conn = e.pkt.conn ∧ e'.Excuses

/-- What the web verdict lets through is bare. -/
theorem bare_of_webVerdict {e : Passed w} (hv : e.verdict = webVerdict e.pkt.transport)
    (hp : e.verdict.passes = true) : e.Bare := by
  rw [hv] at hp
  unfold webVerdict at hv hp
  split at hp
  · rename_i t ht
    rw [ht] at hv
    simp only at hv
    split at hp
    · cases hp
    · rename_i hhttp
      rw [if_neg hhttp] at hv
      split at hp
      · cases hp
      · rename_i hlen
        rw [if_neg hlen] at hv
        split at hv
        · exact Or.inl hv
        · rename_i hack
          right
          refine ⟨t, ht, Int.not_lt.1 hlen, ?_⟩
          intro ha
          simpa [ha] using hack
  · cases hp

/-! ## What a run keeps -/

structure Kernel.Inv (s : Kernel w) : Prop where
  gated : Gated s.passed
  bypass : ∀ c, (s.conns c).bypass = true → ∃ e ∈ s.passed, e.pkt.conn = c ∧ e.Excuses
  refused : ∀ r ∈ s.refused, (s.conns r.1.conn).drop = true

/-- The reasons of the packets that went before stay. -/
theorem Gated.snoc {passed : List (Passed w)} {e : Passed w} (h : Gated passed)
    (he : e.enabled = true → e.pkt.tracked = true → e.pkt.original = true →
      ¬ e.user.hdr.Waits ∨ e.Bare ∨ ∃ e' ∈ passed ++ [e], e'.pkt.conn = e.pkt.conn ∧ e'.Excuses) :
    Gated (passed ++ [e]) := by
  intro x hx hen htr hor
  rcases List.mem_append.1 hx with hx | hx
  · refine (h x hx hen htr hor).imp_right (Or.imp_right ?_)
    rintro ⟨e', he', hex⟩
    exact ⟨e', List.mem_append_left _ he', hex⟩
  · rw [List.mem_singleton.1 hx] at hen htr hor ⊢
    exact he hen htr hor

/-- The hook does not look at a packet that it should look at only if its connection is marked. -/
theorem looks_or_bypass {p : Packet} (hen : s.disabled = false) (htr : p.tracked = true)
    (hor : p.original = true) : s.looks p = true ∨ (s.conns p.conn).bypass = true := by
  unfold Kernel.looks
  cases hb : (s.conns p.conn).bypass with
  | true => exact Or.inr rfl
  | false =>
    left
    simp [hen, htr, hor]

/-- When the hook looks at a packet. -/
theorem looks_iff {p : Packet} : s.looks p = true ↔
    s.disabled = false ∧ p.tracked = true ∧ (s.conns p.conn).bypass = false ∧
      p.original = true := by
  simp [Kernel.looks, and_assoc]

/-- The hook on a packet it looks at. -/
theorem fwHook_looks {p : Packet} {entered msg : Bool} {v : Verdict} {ui : User w} {ct : Conn}
    (hl : s.looks p = true)
    (hgate : nosAuthGate s.config.bypassDst hz s.jiffies p (s.lookups p p.user) (s.conns p.conn)
      = (v, ui, ct, msg)) :
    s.fwHook hz p entered = { s with
      users := Function.update (s.lookups p) p.user ui
      conns := Function.update s.conns p.conn ct
      passed := s.pass p entered v (s.lookups p)
      refused := if v.passes then s.refused else s.refused ++ [(p, v)]
      sent := if msg then s.sent ++ [(p.user, s.now)] else s.sent } := by
  simp only [Kernel.fwHook, hl, if_true, hgate]

/-- The hook on a packet it passes over. -/
theorem fwHook_skips {p : Packet} {entered : Bool} (hl : ¬ s.looks p = true) :
    s.fwHook hz p entered = { s with passed := s.pass p entered .accept s.users } := by
  simp only [Kernel.fwHook, hl]
  rfl

/-- The hook keeps the invariant. -/
theorem Kernel.Inv.fwHook (h : s.Inv) (p : Packet) (entered : Bool) :
    (s.fwHook hz p entered).Inv := by
  by_cases hlooks : s.looks p = true
  · obtain ⟨hen, htr, hby, hor⟩ := looks_iff.1 hlooks
    rcases hgate : nosAuthGate s.config.bypassDst hz s.jiffies p (s.lookups p p.user)
      (s.conns p.conn) with ⟨v, ui, ct, msg⟩
    have hspec := nosAuthGate_spec hgate
    rw [fwHook_looks hlooks hgate]
    -- the entry that the packet gets if it passes
    set e : Passed w :=
      ⟨p, entered, !s.disabled, v, s.conns p.conn, s.lookups p p.user, s.config.bypassDst⟩
    have hasked : e.Asked := ⟨by simp [e, hen], htr, hor, hby⟩
    have hpass : s.pass p entered v (s.lookups p)
        = if v.passes then s.passed ++ [e] else s.passed := rfl
    constructor
    · change Gated (s.pass p entered v (s.lookups p))
      rw [hpass]
      split
      · rename_i hv
        apply h.gated.snoc
        intro _ _ _
        by_cases hw : e.user.hdr.Waits
        · right
          rcases hspec.waits hw with hex | hweb
          · exact Or.inr ⟨e, List.mem_append_right _ List.mem_cons_self, rfl, hasked, hw, hex⟩
          · exact Or.inl (bare_of_webVerdict hweb hv)
        · exact Or.inl hw
      · exact h.gated
    · intro c hc
      change (Function.update s.conns p.conn ct c).bypass = true at hc
      change ∃ x ∈ s.pass p entered v (s.lookups p), _
      rw [hpass]
      have hold : (s.conns c).bypass = true →
          ∃ x ∈ (if v.passes then s.passed ++ [e] else s.passed), x.pkt.conn = c ∧ x.Excuses := by
        intro hc
        obtain ⟨x, hx, hxe⟩ := h.bypass c hc
        refine ⟨x, ?_, hxe⟩
        split
        · exact List.mem_append_left _ hx
        · exact hx
      by_cases hcc : c = p.conn
      · subst hcc
        rw [Function.update_self] at hc
        rcases hspec.bypass hc with hc | ⟨hw, hex, hv⟩
        · exact hold hc
        · rw [if_pos hv]
          exact ⟨e, List.mem_append_right _ List.mem_cons_self, rfl, hasked, hw, hex⟩
      · rw [Function.update_of_ne hcc] at hc
        exact hold hc
    · intro r hr
      change (Function.update s.conns p.conn ct r.1.conn).drop = true
      by_cases hcc : r.1.conn = p.conn
      · rw [hcc, Function.update_self]
        by_cases hv : v.passes = true
        · simp only [hv, if_true] at hr
          exact hspec.drop (hcc ▸ h.refused r hr)
        · exact hspec.refused (by simpa using hv)
      · rw [Function.update_of_ne hcc]
        apply h.refused r
        change r ∈ (if v.passes then s.refused else s.refused ++ [(p, v)]) at hr
        split at hr
        · exact hr
        · rcases List.mem_append.1 hr with hr | hr
          · exact hr
          · rw [List.mem_singleton.1 hr] at hcc
            exact absurd rfl hcc
  · rw [fwHook_skips hlooks]
    constructor
    · apply h.gated.snoc
      intro hen htr hor
      rcases looks_or_bypass (by simpa using hen) htr hor with hl | hb
      · exact absurd hl hlooks
      · obtain ⟨x, hx, hxe⟩ := h.bypass _ hb
        exact Or.inr (Or.inr ⟨x, List.mem_append_left _ hx, hxe⟩)
    · intro c hc
      obtain ⟨x, hx, hxe⟩ := h.bypass c hc
      exact ⟨x, List.mem_append_left _ hx, hxe⟩
    · exact h.refused

/-- Every event keeps the invariant. -/
theorem Kernel.Inv.step (h : s.Inv) (ev : Event) : (s.step hz ev).Inv := by
  cases ev with
  | arrive p =>
    simp only [Kernel.step]
    split
    · exact { h with }
    · exact h
  | forward n =>
    simp only [Kernel.step]
    split
    · have h' : Kernel.Inv { s with inside := s.inside.eraseIdx n } := { h with }
      exact h'.fwHook _ _
    · exact h
  | setStatus u st => exact { h with }
  | disable b => exact { h with }
  | configure cfg => exact { h with }
  | tick d => exact { h with }

/-- Every run keeps the invariant. -/
theorem Kernel.Inv.run (h : s.Inv) (evs : List Event) : (s.run hz evs).Inv := by
  induction evs generalizing s with
  | nil => exact h
  | cons ev evs ih => exact ih (h.step ev)

/-- The invariant at the start. -/
theorem inv_init (now : ℕ) (cfg : Config) (users : ℕ → User w) :
    (Kernel.init now cfg users).Inv where
  gated := fun e he => by cases he
  bypass := fun c hc => by cases hc
  refused := fun r hr => by cases hr

/-! ## A connection that was refused -/

/-- Which packet is recorded as passed. -/
theorem mem_pass {p : Packet} {entered : Bool} {v : Verdict} {users : ℕ → User w} {e : Passed w}
    (h : e ∈ s.pass p entered v users) : e ∈ s.passed ∨ (e.pkt = p ∧ e.entered = entered) := by
  unfold Kernel.pass at h
  split at h
  · rcases List.mem_append.1 h with h | h
    · exact Or.inl h
    · rw [List.mem_singleton.1 h]
      exact Or.inr ⟨rfl, rfl⟩
  · exact Or.inl h

/-- The connection `c` is refused, of its packets that came with the hooks on only those of `inside`
    are between the hooks, and only those or the ones of `old` have passed. -/
structure Kernel.Shut (c : ℕ) (inside : List (Packet × Bool)) (old : List (Passed w))
    (s : Kernel w) : Prop where
  drop : (s.conns c).drop = true
  waiting : ∀ q ∈ s.inside, q.1.conn = c → q.1.tracked = true → q.2 = true → q ∈ inside
  passed : ∀ e ∈ s.passed, e.pkt.conn = c → e.pkt.tracked = true → e.entered = true →
    e ∈ old ∨ (e.pkt, true) ∈ inside

variable {c : ℕ} {inside : List (Packet × Bool)} {old : List (Passed w)}

/-- The hook keeps a connection shut. -/
theorem Kernel.Shut.fwHook (h : s.Shut c inside old) {p : Packet} {entered : Bool}
    (hp : p.conn = c → p.tracked = true → entered = true → (p, true) ∈ inside) :
    (s.fwHook hz p entered).Shut c inside old := by
  have hpassed : ∀ (v : Verdict) (users : ℕ → User w), ∀ e ∈ s.pass p entered v users,
      e.pkt.conn = c → e.pkt.tracked = true → e.entered = true →
        e ∈ old ∨ (e.pkt, true) ∈ inside := by
    intro v users e he hc htr hen
    rcases mem_pass he with he | ⟨hpkt, hent⟩
    · exact h.passed e he hc htr hen
    · rw [hpkt] at hc htr ⊢
      exact Or.inr (hp hc htr (hent ▸ hen))
  by_cases hlooks : s.looks p = true
  · rcases hgate : nosAuthGate s.config.bypassDst hz s.jiffies p (s.lookups p p.user)
      (s.conns p.conn) with ⟨v, ui, ct, msg⟩
    rw [fwHook_looks hlooks hgate]
    refine ⟨?_, h.waiting, hpassed _ _⟩
    change (Function.update s.conns p.conn ct c).drop = true
    by_cases hc : c = p.conn
    · subst hc
      rw [Function.update_self]
      exact (nosAuthGate_spec hgate).drop h.drop
    · rw [Function.update_of_ne hc]
      exact h.drop
  · rw [fwHook_skips hlooks]
    exact ⟨h.drop, h.waiting, hpassed .accept s.users⟩

/-- Every event keeps a connection shut. -/
theorem Kernel.Shut.step (h : s.Shut c inside old) (ev : Event) :
    (s.step hz ev).Shut c inside old := by
  cases ev with
  | arrive p =>
    simp only [Kernel.step]
    split
    · rename_i hpre
      refine ⟨h.drop, ?_, h.passed⟩
      intro q hq hc htr hen
      rcases List.mem_append.1 hq with hq | hq
      · exact h.waiting q hq hc htr hen
      · -- with the hooks on, the first hook drops it
        rw [List.mem_singleton.1 hq] at hc htr hen
        have hdrop := h.drop
        rw [← hc] at hdrop
        simp [Kernel.preHook, hdrop] at hpre
        simp_all
    · exact h
  | forward n =>
    simp only [Kernel.step]
    split
    · rename_i p entered hn
      have hmem : (p, entered) ∈ s.inside := List.mem_of_getElem? hn
      have h' : Kernel.Shut c inside old { s with inside := s.inside.eraseIdx n } :=
        ⟨h.drop, fun q hq => h.waiting q (List.mem_of_mem_eraseIdx hq), h.passed⟩
      apply h'.fwHook
      intro hc htr hen
      subst hen
      exact h.waiting _ hmem hc htr rfl
    · exact h
  | setStatus u st => exact { h with }
  | disable b => exact { h with }
  | configure cfg => exact { h with }
  | tick d => exact { h with }

/-- Every run keeps a connection shut. -/
theorem Kernel.Shut.run (h : s.Shut c inside old) (evs : List Event) :
    (s.run hz evs).Shut c inside old := by
  induction evs generalizing s with
  | nil => exact h
  | cons ev evs ih => exact ih (h.step ev)

/-- From `s` to `s'` nothing more of a connection that was refused gets through, but for what was
    between the hooks and what came while they were off. -/
def Refuses (s s' : Kernel w) : Prop :=
  ∀ r ∈ s.refused, ∀ e ∈ s'.passed, e.pkt.conn = r.1.conn → e.pkt.tracked = true →
    e.entered = true → e ∈ s.passed ∨ (e.pkt, true) ∈ s.inside

/-- Whatever comes, whoever logs in or out and however the rules change: at any point of a run all
    that was let through is gated, and after it a connection that was refused stays refused. -/
theorem run_portal (hz now : ℕ) (cfg : Config) (users : ℕ → User w) (evs evs' : List Event) :
    Gated ((Kernel.init now cfg users).run hz evs).passed ∧
      Refuses ((Kernel.init now cfg users).run hz evs)
        ((Kernel.init now cfg users).run hz (evs ++ evs')) := by
  have hinv : ((Kernel.init now cfg users).run hz evs).Inv := (inv_init now cfg users).run evs
  refine ⟨hinv.gated, ?_⟩
  intro r hr e he hc htr hen
  have hshut : ((Kernel.init now cfg users).run hz evs).Shut r.1.conn
      ((Kernel.init now cfg users).run hz evs).inside
      ((Kernel.init now cfg users).run hz evs).passed :=
    ⟨hinv.refused r hr, fun q hq _ _ _ => hq, fun x hx _ _ _ => Or.inl hx⟩
  have hsplit : (Kernel.init now cfg users).run hz (evs ++ evs')
      = ((Kernel.init now cfg users).run hz evs).run hz evs' := List.foldl_append
  rw [hsplit] at he
  exact (hshut.run evs').passed e he hc htr hen

end Nos
