/-
# Lines of the control files

The write functions of `nos_ipgrp_ctl`, `nos_auth_ctl` and `nos_zone_ctl` collect what is
written in a buffer until a line is complete, and hand the line to a handler.  A caller
writes a stream in pieces; what a write has not taken is written again.  The commands do
not depend on the pieces.
-/
import OpenwrtAc.NosCtl

open CString SlotStore Nos

namespace NosCtl

/-! ## Zones -/

/-- `MAX_IF_INDEX`. -/
def maxIfIndex : ℕ := 4096

/-- `IFNAMSIZ`. -/
def ifNamSiz : ℕ := 16

/-- Why a line of zones is not done: an error, or a name that is written behind `if_name`. -/
inductive ZoneErr where
  | errno (e : Errno)
  | overflow
deriving DecidableEq, Repr

/-- `if_zone_map` and the static data of `nos_zone.c`. -/
structure ZoneCtl where
  ifZoneMap : ℕ → ℕ
  magic : UInt16
  line : LineBuf

/-- `nos_zone_set`, where `dev` has the index of the interface of a name. -/
def nosZoneSet (dev : List UInt8 → Option ℕ) (st : ZoneCtl) (id : ℕ) (ifName : List UInt8) :
    Except Errno ZoneCtl :=
  if invalidZoneId ≤ id then .error .einval
  else
    match dev ifName with
    | none => .error .einval
    | some ifindex =>
      if maxIfIndex ≤ ifindex then .error .einval
      else .ok { st with ifZoneMap := Function.update st.ifZoneMap ifindex id }

/-- `nos_zone_delete`. -/
def nosZoneDelete (st : ZoneCtl) (id : ℕ) : Except Errno ZoneCtl :=
  if (List.range maxIfIndex).any fun i => st.ifZoneMap i == id then
    .ok { st with ifZoneMap := fun i =>
      if i < maxIfIndex ∧ st.ifZoneMap i = id then invalidZoneId else st.ifZoneMap i }
  else .error .enoent

/-- `nos_zone_cleanup`. -/
def nosZoneCleanup (st : ZoneCtl) : ZoneCtl :=
  { st with ifZoneMap := fun i => if i < maxIfIndex then invalidZoneId else st.ifZoneMap i }

/-- What a command leaves: its new state, or the old one behind an error. -/
def orError {σ ε : Type} (st : σ) : Except ε σ → Option ε × σ
  | .ok st => (none, st)
  | .error e => (some e, st)

/-- The second half of `nos_zone_write`. -/
def zoneLine (dev : List UInt8 → Option ℕ) (st : ZoneCtl) (data : List UInt8) : Option ZoneErr × ZoneCtl :=
  if startsWith data "clean" then (none, nosZoneCleanup st)
  else if startsWith data "zone " then
    match sscanf "zone %u=%s\n".toList data with
    | [.u id, .s name] =>
      if ifNamSiz ≤ name.length then (some .overflow, st)
      else orError st ((nosZoneSet dev st id.toNat name).mapError .errno)
    | _ => (none, st)
  else if startsWith data "delete " then
    match sscanf "delete %u\n".toList data with
    | [.u id] => orError st ((nosZoneDelete st id.toNat).mapError .errno)
    | _ => (none, st)
  else if startsWith data "update magic" then (none, { st with magic := st.magic + 1 })
  else (none, st)

/-! ## Devices -/

/-- A control file: where its state has the line buffer, its handler, which is told what the rest
    of the kernel answers at the time, and the error for a line that is too long.  The handler
    does not look at the buffer. -/
structure Device (σ ι ε : Type) where
  line : σ → LineBuf
  withLine : LineBuf → σ → σ
  handler : ι → σ → List UInt8 → Option ε × σ
  tooLong : ε
  line_withLine : ∀ lb s, line (withLine lb s) = lb
  handler_withLine : ∀ i lb s data,
    handler i (withLine lb s) data = ((handler i s data).1, withLine lb (handler i s data).2)

variable {σ ι ε : Type}

/-- A write: the bytes that it takes or its error, the command that it dispatches, and the state. -/
def Device.write (d : Device σ ι ε) (i : ι) (st : σ) (buf : List UInt8) :
    Except ε ℕ × Option (List UInt8) × σ :=
  match readLine (d.line st) buf with
  | (.blank n, lb) => (.ok n, none, d.withLine lb st)
  | (.tooLong, lb) => (.error d.tooLong, none, d.withLine lb st)
  | (.more l, lb) => (.ok l, none, d.withLine lb st)
  | (.line data l, lb) =>
    let r := d.handler i (d.withLine lb st) data
    (r.1.elim (.ok l) .error, some data, r.2)

/-- The group commands do not look at the line buffer. -/
theorem ipgrpCommand_withLine
    (ipset : List UInt8 → Option ℕ) (lb : LineBuf) (st : IpgrpCtl) (id : ℕ)
    (name : List UInt8) : ipgrpCommand ipset { st with line := lb } id name =
      ((ipgrpCommand ipset st id name).1, { (ipgrpCommand ipset st id name).2 with line := lb }) := by
  unfold ipgrpCommand
  split
  · cases nosIpgrpSet st.conf ⟨id, none⟩ <;> rfl
  · cases ipset name with
    | none => rfl
    | some k => cases hset : nosIpgrpSet st.conf ⟨id, some k⟩ <;> simp only [hset]

/-- Nor does a line of the group file. -/
theorem ipgrpLine_withLine (ipset : List UInt8 → Option ℕ) (lb : LineBuf) (st : IpgrpCtl) (data : List UInt8) :
    ipgrpLine ipset { st with line := lb } data =
      ((ipgrpLine ipset st data).1, { (ipgrpLine ipset st data).2 with line := lb }) := by
  unfold ipgrpLine
  split
  · rfl
  · split
    · split
      · exact ipgrpCommand_withLine ipset lb st _ _
      · rfl
    · split
      · split
        next id _ =>
          unfold nosIpgrpDelete
          cases st.conf.findSlot fun e => e.id == id.toNat <;> rfl
        · rfl
      · split <;> rfl

/-- The rule command does not look at the line buffer. -/
theorem authCommand_withLine (ipset : List UInt8 → Option ℕ) (lb : LineBuf) (st : AuthCtl) (data : List UInt8)
    (id zone ipgrp : ℕ) : authCommand ipset { st with line := lb } data id zone ipgrp =
      ((authCommand ipset st data id zone ipgrp).1,
        { (authCommand ipset st data id zone ipgrp).2 with line := lb }) := by
  unfold authCommand
  rcases fillAuth ipset st.held data ⟨id, zone, ipgrp, .unknown, none, none⟩ with ⟨_ | e, auth, held⟩
  · cases hset : nosAuthSet st.conf auth <;> simp only [hset]
  · rfl

/-- Nor does a line of the rule file. -/
theorem authLine_withLine (ipset : List UInt8 → Option ℕ) (lb : LineBuf) (st : AuthCtl) (data : List UInt8) :
    authLine ipset { st with line := lb } data =
      ((authLine ipset st data).1, { (authLine ipset st data).2 with line := lb }) := by
  unfold authLine
  split
  · rfl
  split
  · split
    · exact authCommand_withLine ipset lb st data _ _ _
    · rfl
  split
  · split
    next id _ =>
      unfold nosAuthDelete
      cases st.conf.findSlot fun e => e.id == id.toNat <;> rfl
    · rfl
  split
  · split
    · split <;> rfl
    · rfl
  split
  · split <;> rfl
  split
  · rfl
  split
  · split
    next name _ =>
      split
      · rfl
      · unfold bypassCommand
        cases hset : ipset name <;> rfl
    · rfl
  · rfl

/-- Nor does a line of the zone file. -/
theorem zoneLine_withLine (dev : List UInt8 → Option ℕ) (lb : LineBuf) (st : ZoneCtl) (data : List UInt8) :
    zoneLine dev { st with line := lb } data =
      ((zoneLine dev st data).1, { (zoneLine dev st data).2 with line := lb }) := by
  unfold zoneLine
  split
  · rfl
  split
  · split
    next id name _ =>
      split
      · rfl
      · unfold nosZoneSet
        split
        · rfl
        · cases dev name with
          | none => rfl
          | some ifindex =>
            dsimp only
            split <;> rfl
    · rfl
  split
  · split
    · unfold nosZoneDelete
      dsimp only
      split <;> rfl
    · rfl
  split <;> rfl

/-- `nos_ipgrp_ctl`. -/
def ipgrpDevice : Device IpgrpCtl (List UInt8 → Option ℕ) Errno where
  line := IpgrpCtl.line
  withLine lb st := { st with line := lb }
  handler := ipgrpLine
  tooLong := .einval
  line_withLine _ _ := rfl
  handler_withLine := ipgrpLine_withLine

/-- `nos_auth_ctl`. -/
def authDevice : Device AuthCtl (List UInt8 → Option ℕ) Errno where
  line := AuthCtl.line
  withLine lb st := { st with line := lb }
  handler := authLine
  tooLong := .einval
  line_withLine _ _ := rfl
  handler_withLine := authLine_withLine

/-- `nos_zone_ctl`. -/
def zoneDevice : Device ZoneCtl (List UInt8 → Option ℕ) ZoneErr where
  line := ZoneCtl.line
  withLine lb st := { st with line := lb }
  handler := zoneLine
  tooLong := .errno .einval
  line_withLine _ _ := rfl
  handler_withLine := zoneLine_withLine

/-- What a write returns to its caller. -/
def writeRet (r : Except Errno ℕ) : ℤ :=
  match r with
  | .ok n => n
  | .error e => errnoRet e

theorem writeRet_elim (e : Option Errno) (l : ℕ) :
    writeRet (e.elim (.ok l) .error) = e.elim (l : ℤ) errnoRet := by
  cases e <;> rfl

/-- The device of ip groups writes as `nos_ipgrp_write` does. -/
theorem nosIpgrpWrite_eq (ipset : List UInt8 → Option ℕ) (st : IpgrpCtl) (buf : List UInt8) :
    nosIpgrpWrite ipset st buf =
      (writeRet (ipgrpDevice.write ipset st buf).1, (ipgrpDevice.write ipset st buf).2.2) := by
  unfold nosIpgrpWrite Device.write ipgrpDevice
  rcases readLine st.line buf with ⟨_ | _ | _ | ⟨data, l⟩, lb⟩
  · rfl
  · rfl
  · rfl
  · simp only [writeRet_elim]

/-- The device of rules writes as `nos_auth_write` does. -/
theorem nosAuthWrite_eq (ipset : List UInt8 → Option ℕ) (st : AuthCtl) (buf : List UInt8) :
    nosAuthWrite ipset st buf =
      (writeRet (authDevice.write ipset st buf).1, (authDevice.write ipset st buf).2.2) := by
  unfold nosAuthWrite Device.write authDevice
  rcases readLine st.line buf with ⟨_ | _ | _ | ⟨data, l⟩, lb⟩
  · rfl
  · rfl
  · rfl
  · simp only [writeRet_elim]

/-! ## A stream in pieces -/

/-- The state of a device, and the commands that it has dispatched. -/
structure Session (σ : Type) where
  st : σ
  sent : List (List UInt8)

/-- A caller that has a piece to write: it writes again what was not taken, and gives up at an
    error. What the rest of the kernel answers to the `k`-th command is `ω k`. -/
def Device.submit (d : Device σ ι ε) (ω : ℕ → ι) : ℕ → Session σ → List UInt8 → Option (Session σ)
  | _, s, [] => some s
  | 0, _, _ :: _ => none
  | fuel + 1, s, c :: buf =>
    match d.write (ω s.sent.length) s.st (c :: buf) with
    | (.ok n, cmd, st) => d.submit ω fuel ⟨st, s.sent ++ cmd.toList⟩ ((c :: buf).drop n)
    | (.error _, _, _) => none

/-- All pieces; a write takes at least one byte. -/
def Device.submitAll (d : Device σ ι ε) (ω : ℕ → ι) (s : Session σ) (pieces : List (List UInt8)) :
    Option (Session σ) :=
  pieces.foldlM (fun s piece => d.submit ω piece.length s piece) s

/-- Lines with their ends. -/
def stream (lines : List (List UInt8)) : List UInt8 := lines.flatMap fun l => l ++ [10]

/-- A line without the spaces and tabs at its start. -/
def trim (line : List UInt8) : List UInt8 := line.dropWhile fun c => c == 0x20 || c == 9

/-- The commands in lines: those that are not blank. -/
def commands (lines : List (List UInt8)) : List (List UInt8) := (lines.map trim).filter (· ≠ [])

/-- No command makes the handler return an error, one after the other. -/
def Device.Accepts (d : Device σ ι ε) (ω : ℕ → ι) : ℕ → σ → List (List UInt8) → Prop
  | _, _, [] => True
  | k, st, c :: cs => (d.handler (ω k) st c).1 = none ∧ d.Accepts ω (k + 1) (d.handler (ω k) st c).2 cs

/-- Lines that fit: of at most 255 bytes, without the end of a line or a zero in them. -/
def Fitting (lines : List (List UInt8)) : Prop :=
  ∀ l ∈ lines, l.length ≤ 255 ∧ (0 : UInt8) ∉ l ∧ (10 : UInt8) ∉ l

/-- Whatever a stream of lines is cut into, and in whatever state the device is with no part of a
    line in its buffer: all of it is taken, and the commands in it are dispatched in order. -/
def Device.Assembles (d : Device σ ι ε) : Prop :=
  ∀ (ω : ℕ → ι) (st : σ) (lines pieces : List (List UInt8)),
    (d.line st).data.length = 256 → (d.line st).dataLeft = 0 → Fitting lines → pieces.flatten = stream lines →
    d.Accepts ω 0 st (commands lines) →
    ∃ st', d.submitAll ω ⟨st, []⟩ pieces = some ⟨st', commands lines⟩ ∧ (d.line st').dataLeft = 0

/-! ## One write -/

/-- What is skipped at the start of a line. -/
def isBlank (c : UInt8) : Bool := c == 0x20 || c == 10 || c == 9

/-- The buffer holds a part of a line. -/
structure LineBuf.Holds (lb : LineBuf) (part : List UInt8) : Prop where
  length : lb.data.length = 256
  left : lb.dataLeft = part.length
  take : lb.data.take part.length = part

/-- A line has begun with something else than a blank. -/
def Started (s : List UInt8) : Prop := ∀ c, s.head? = some c → isBlank c = false

/-- The newline that ends the first of several lines. -/
theorem stream_cons (l : List UInt8) (lines : List (List UInt8)) :
    stream (l :: lines) = l ++ 10 :: stream lines := by
  simp [stream]

/-- What comes before the first newline is the start of the first line. -/
theorem part_of_line {q r l rest : List UInt8} (hq : (10 : UInt8) ∉ q)
    (h : q ++ r = l ++ 10 :: rest) :
    ∃ t, l = q ++ t := by
  obtain ⟨t, ht, -⟩ | ⟨t, ht, hr⟩ := List.append_eq_append_iff.mp h
  · exact ⟨t, ht⟩
  · obtain _ | ⟨c, t⟩ := t
    · exact ⟨[], by rw [ht, List.append_nil, List.append_nil]⟩
    · -- then the newline is in `q`
      exfalso
      rw [List.cons_append] at hr
      obtain ⟨rfl, -⟩ := List.cons.inj hr
      exact hq (by rw [ht]; simp)

/-- What comes before the first newline is the first line. -/
theorem line_of_newline {q r l rest : List UInt8} (hq : (10 : UInt8) ∉ q) (hl : (10 : UInt8) ∉ l)
    (h : q ++ 10 :: r = l ++ 10 :: rest) : q = l := by
  obtain ⟨t, ht⟩ := part_of_line hq h
  obtain _ | ⟨c, t⟩ := t
  · rw [ht, List.append_nil]
  · rw [ht, List.append_assoc, List.append_cancel_left_eq, List.cons_append] at h
    obtain ⟨rfl, -⟩ := List.cons.inj h
    exact absurd (by rw [ht]; simp) hl

/-- A blank in front of lines: they are lines without it, with the same commands. -/
theorem drop_blank {c : UInt8} (hc : isBlank c = true) {s : List UInt8} {lines : List (List UInt8)}
    (hfit : Fitting lines) (h : c :: s = stream lines) :
    ∃ lines', s = stream lines' ∧ Fitting lines' ∧ commands lines' = commands lines := by
  obtain _ | ⟨l, lines⟩ := lines
  · cases h
  rw [stream_cons] at h
  obtain _ | ⟨b, l⟩ := l
  · obtain ⟨rfl, rfl⟩ := List.cons.inj h
    exact ⟨lines, rfl, fun x hx => hfit x (List.mem_cons_of_mem _ hx), by simp [commands, trim]⟩
  · rw [List.cons_append] at h
    obtain ⟨rfl, rfl⟩ := List.cons.inj h
    obtain ⟨hlen, h0, h10⟩ := hfit _ List.mem_cons_self
    refine ⟨l :: lines, (stream_cons l lines).symm, ?_, ?_⟩
    · intro x hx
      obtain rfl | hx := List.mem_cons.mp hx
      · rw [List.length_cons] at hlen
        exact ⟨by omega, fun h => h0 (List.mem_cons_of_mem _ h), fun h => h10 (List.mem_cons_of_mem _ h)⟩
      · exact hfit x (List.mem_cons_of_mem _ hx)
    · have hspace : (c == 0x20 || c == 9) = true := by
        have hne : c ≠ 10 := fun h => h10 (h ▸ List.mem_cons_self)
        simpa [isBlank, hne] using hc
      have htrim : trim (c :: l) = trim l := by
        unfold trim
        rw [List.dropWhile_cons]
        simp only [hspace, if_true]
      simp only [commands, List.map_cons, htrim]

/-- Blanks in front of the lines belong to the first of them. -/
theorem drop_blanks {b s : List UInt8} (hb : ∀ c ∈ b, isBlank c = true) {lines : List (List UInt8)}
    (hfit : Fitting lines) (h : b ++ s = stream lines) :
    ∃ lines', s = stream lines' ∧ Fitting lines' ∧ commands lines' = commands lines := by
  induction b generalizing lines with
  | nil => exact ⟨lines, h, hfit, rfl⟩
  | cons c b ih =>
    obtain ⟨lines₁, h₁, hfit₁, hcmd₁⟩ := drop_blank (hb c List.mem_cons_self) hfit h
    obtain ⟨lines₂, h₂, hfit₂, hcmd₂⟩ := ih (fun x hx => hb x (List.mem_cons_of_mem c hx)) hfit₁ h₁
    exact ⟨lines₂, h₂, hfit₂, hcmd₂.trans hcmd₁⟩

/-- What a write does with a part of a stream: it takes blanks, all of it, or the rest of the
    first line. -/
inductive Takes (part buf : List UInt8) : CtlInput → LineBuf → Prop
  | blank {n : ℕ} {lb : LineBuf} (hpart : part = []) (hn : 0 < n) (hle : n ≤ buf.length)
      (hblank : ∀ c ∈ buf.take n, isBlank c = true) (hlb : lb.Holds []) : Takes part buf (.blank n) lb
  | more {lb : LineBuf} (hs : Started (part ++ buf)) (h10 : (10 : UInt8) ∉ buf) (hlb : lb.Holds (part ++ buf)) :
      Takes part buf (.more buf.length) lb
  | line {x rest : List UInt8} {lb : LineBuf} (hbuf : buf = x ++ 10 :: rest) (h10 : (10 : UInt8) ∉ x)
      (hs : Started (part ++ x)) (hne : part ++ x ≠ []) (hlb : lb.Holds []) :
      Takes part buf (.line (part ++ x) (x.length + 1)) lb

theorem LineBuf.holds_nil {data : List UInt8} (h : data.length = 256) :
    LineBuf.Holds ⟨data, 0⟩ [] :=
  ⟨h, rfl, rfl⟩

/-- What a write does with the bytes that it copies behind a part of a line. -/
theorem readLine_eq {lb : LineBuf} {part : List UInt8} (hlb : lb.Holds part) (buf : List UInt8) :
    ∃ tail, (part ++ buf.take (256 - part.length) ++ tail).length = 256 ∧
      readLine lb buf =
        let got := buf.take (256 - part.length)
        let data := part ++ got ++ tail
        let n := ((data.take got.length).takeWhile isBlank).length
        if n ≠ 0 then (.blank n, ⟨data, 0⟩)
        else
          let l := (got.takeWhile fun c => c != 10).length
          if got.length ≤ l then
            if 256 ≤ part.length + l then (.tooLong, ⟨data, 0⟩) else (.more l, ⟨data, part.length + l⟩)
          else (.line (cstr (data.set (l + part.length) 0)) (l + 1), ⟨data.set (l + part.length) 0, 0⟩) := by
  have hcut : buf.take (min buf.length (256 - part.length)) = buf.take (256 - part.length) := by
    rw [List.take_eq_take_iff]
    omega
  have hlen : (buf.take (256 - part.length)).length = min buf.length (256 - part.length) := by
    rw [List.length_take, min_comm]
  refine ⟨lb.data.drop (part.length + min buf.length (256 - part.length)), ?_, ?_⟩
  · have hpart : part.length ≤ 256 := by
      rw [← hlb.take, List.length_take, hlb.length]
      exact min_le_right _ _
    rw [List.length_append, List.length_append, hlen, List.length_drop, hlb.length]
    omega
  · unfold readLine
    have hgot : ∀ tail, ((part ++ buf.take (256 - part.length) ++ tail).drop part.length).take
        (min buf.length (256 - part.length)) = buf.take (256 - part.length) := by
      intro tail
      rw [List.append_assoc, List.drop_left, List.take_left' hlen]
    simp only [hlb.left, hlb.take, hcut, hlen, hgot]
    rfl

/-- The blanks are those at the start of a line. -/
theorem blanks_of_started {part got : List UInt8} (tail : List UInt8) (hstart : Started part)
    (hgot : got ≠ []) :
    ((part ++ got ++ tail).take got.length).takeWhile isBlank = if part = [] then got.takeWhile isBlank else [] := by
  by_cases hp : part = []
  · rw [if_pos hp, hp, List.nil_append, List.take_left' rfl]
  · rw [if_neg hp]
    obtain ⟨c, part, rfl⟩ := List.exists_cons_of_ne_nil hp
    obtain ⟨b, got, rfl⟩ := List.exists_cons_of_ne_nil hgot
    rw [List.cons_append, List.cons_append, List.length_cons, List.take_succ_cons,
      List.takeWhile_cons_of_neg (by rw [hstart c rfl]; exact Bool.false_ne_true)]

/-- Where nothing is skipped, a line begins or goes on. -/
theorem started_append {part got : List UInt8} (hstart : Started part)
    (h : (if part = [] then got.takeWhile isBlank else []) = []) : Started (part ++ got) := by
  obtain _ | ⟨b, part⟩ := part
  · intro c hc
    obtain _ | ⟨b, got⟩ := got
    · cases hc
    · cases hc
      by_contra hblank
      rw [if_pos rfl, List.takeWhile_cons_of_pos (by simpa using hblank)] at h
      cases h
  · exact fun c hc => hstart c hc

theorem Started.of_append {s t : List UInt8} (h : Started (s ++ t)) : Started s := by
  intro c hc
  obtain _ | ⟨b, s⟩ := s
  · cases hc
  · exact h c hc

/-- Bytes up to the first newline, if there is one. -/
theorem split_newline (s : List UInt8) :
    let y := s.takeWhile fun c => c != 10
    (10 : UInt8) ∉ y ∧ (y = s ∨ ∃ rest, s = y ++ 10 :: rest) := by
  refine ⟨fun hmem => by simpa using List.all_eq_true.mp (List.all_takeWhile (l := s)) 10 hmem, ?_⟩
  have happ := List.takeWhile_append_dropWhile (p := fun c : UInt8 => c != 10) (l := s)
  cases hd : s.dropWhile fun c => c != 10 with
  | nil =>
    rw [hd, List.append_nil] at happ
    exact .inl happ
  | cons c rest =>
    have hc := List.head_dropWhile_not (p := fun c : UInt8 => c != 10) (l := s) (by rw [hd]; simp)
    simp only [hd, List.head_cons, bne_eq_false_iff_eq] at hc
    rw [hd, hc] at happ
    exact .inr ⟨rest, happ.symm⟩

/-- The end that is put where the newline was. -/
theorem set_newline {a b tail : List UInt8} {n : ℕ} (hn : n = a.length) :
    (a ++ 10 :: b ++ tail).set n 0 = a ++ 0 :: (b ++ tail) := by
  rw [List.append_assoc, List.set_append_right _ _ hn.ge, hn, Nat.sub_self]
  rfl

/-- A C string ends at its zero. -/
theorem cstr_append_zero {a : List UInt8} (b : List UInt8) (h : (0 : UInt8) ∉ a) :
    cstr (a ++ 0 :: b) = a := by
  unfold cstr
  rw [List.takeWhile_append_of_pos]
  · simp
  · intro c hc
    rw [bne_iff_ne]
    exact fun h0 => h (h0 ▸ hc)

/-- One reading takes what is left of a line, or the piece that there is. -/
theorem readLine_takes {lb : LineBuf} {part buf later : List UInt8} {lines : List (List UInt8)}
    (hlb : lb.Holds part) (hstart : Started part) (hpart : (10 : UInt8) ∉ part) (hne : buf ≠ [])
    (hfit : Fitting lines) (h : part ++ (buf ++ later) = stream lines) :
    Takes part buf (readLine lb buf).1 (readLine lb buf).2 := by
  -- the part belongs to the first line, so that there is room for one byte at least
  obtain ⟨l, ls, rfl⟩ : ∃ l ls, lines = l :: ls := by
    cases lines with
    | nil => simp [stream, hne] at h
    | cons l ls => exact ⟨l, ls, rfl⟩
  rw [stream_cons] at h
  obtain ⟨hlen, h0, h10⟩ := hfit l List.mem_cons_self
  obtain ⟨t, ht⟩ := part_of_line hpart h
  have hlt : part.length ≤ 255 := by
    rw [ht, List.length_append] at hlen
    omega
  obtain ⟨tail, hdlen, hread⟩ := readLine_eq hlb buf
  rw [hread]
  have hbuf := List.take_append_drop (256 - part.length) buf
  have hglen : (buf.take (256 - part.length)).length = min (256 - part.length) buf.length := List.length_take
  have hbpos := List.length_pos_iff.mpr hne
  generalize buf.take (256 - part.length) = got at hdlen hbuf hglen
  have hgot : got ≠ [] := List.length_pos_iff.mp (by omega)
  dsimp only
  rw [blanks_of_started tail hstart hgot]
  by_cases hn : (if part = [] then got.takeWhile isBlank else []) = []
  · rw [hn, List.length_nil, if_neg (by simp)]
    have hs := started_append hstart hn
    obtain ⟨hy10, hall | ⟨rest, hrest⟩⟩ := split_newline got
    · -- no newline in what is copied: it is part of the first line, and therefore all there was
      rw [hall] at hy10 ⊢
      obtain ⟨t', ht'⟩ := part_of_line (q := part ++ got) (r := buf.drop (256 - part.length) ++ later)
        (by simpa using ⟨hpart, hy10⟩) (by rw [← h, ← hbuf, List.append_assoc, List.append_assoc, hbuf])
      have hwhole : got.length = buf.length := by
        rw [ht', List.length_append, List.length_append] at hlen
        omega
      have hsame : got = buf := by
        rw [← hbuf]
        exact (List.prefix_append got _).eq_of_length (by rw [hbuf, hwhole])
      rw [if_pos (le_refl _), if_neg (by rw [ht', List.length_append, List.length_append] at hlen; omega)]
      rw [hsame] at hs hy10 hdlen ⊢
      exact .more hs hy10 ⟨hdlen, (List.length_append).symm, List.take_left' rfl⟩
    · -- the first line ends in what is copied
      generalize got.takeWhile (fun c => c != 10) = y at hy10 hrest
      have hwhole : buf = y ++ 10 :: (rest ++ buf.drop (256 - part.length)) := by
        rw [← List.cons_append, ← List.append_assoc, ← hrest, hbuf]
      have hq : (10 : UInt8) ∉ part ++ y := by simpa using ⟨hpart, hy10⟩
      have hline : part ++ y = l := by
        rw [hwhole, List.append_assoc, List.cons_append, ← List.append_assoc part] at h
        exact line_of_newline hq h10 h
      have hset : (part ++ got ++ tail).set (y.length + part.length) 0 = part ++ y ++ 0 :: (rest ++ tail) := by
        rw [hrest, ← List.append_assoc]
        exact set_newline (by rw [List.length_append, Nat.add_comm])
      have hshort : ¬ got.length ≤ y.length := by
        rw [hrest, List.length_append, List.length_cons]
        omega
      rw [if_neg hshort, hset, cstr_append_zero _ (by rw [hline]; exact h0)]
      rw [hrest, ← List.append_assoc] at hs
      refine .line hwhole hy10 hs.of_append ?_ (LineBuf.holds_nil ?_)
      · -- a line that has begun is not empty, for its newline is a blank
        intro hnil
        rw [hnil] at hs
        exact absurd (hs 10 rfl) (by decide)
      · rw [← hset, List.length_set, hdlen]
  · rw [if_pos (fun h => hn (List.length_eq_zero_iff.mp h))]
    have hp : part = [] := by
      by_contra hp
      exact hn (if_neg hp)
    rw [if_pos hp] at hn ⊢
    have hle := (List.takeWhile_prefix (l := got) isBlank).length_le
    refine .blank hp (List.length_pos_iff.mpr hn) (by omega) ?_ (LineBuf.holds_nil hdlen)
    intro c hc
    rw [← hbuf, List.take_append_of_le_length hle,
      ← List.prefix_iff_eq_take.mp (List.takeWhile_prefix isBlank)] at hc
    exact List.all_eq_true.mp List.all_takeWhile c hc

/-! ## All writes -/

/-- Whether the lines are accepted does not depend on the buffer. -/
theorem Device.accepts_withLine (d : Device σ ι ε) (ω : ℕ → ι) (lb : LineBuf) (k : ℕ) (st : σ)
    (cs : List (List UInt8)) : d.Accepts ω k (d.withLine lb st) cs ↔ d.Accepts ω k st cs := by
  induction cs generalizing k st with
  | nil => exact Iff.rfl
  | cons c cs ih =>
    unfold Device.Accepts
    rw [d.handler_withLine]
    exact and_congr_right fun _ => ih (k + 1) _

/-- Between two writes: the buffer holds the part of the stream that was taken and not dispatched,
    the lines are those of this part and of what is still to come. -/
structure Device.Pending (d : Device σ ι ε) (ω : ℕ → ι) (s : Session σ) (part : List UInt8)
    (lines : List (List UInt8)) : Prop where
  holds : (d.line s.st).Holds part
  started : Started part
  newline : (10 : UInt8) ∉ part
  fitting : Fitting lines
  accepts : d.Accepts ω s.sent.length s.st (commands lines)

/-- What a line is that has begun is its command. -/
theorem commands_cons {l : List UInt8} (lines : List (List UInt8)) (hs : Started l) (hne : l ≠ []) :
    commands (l :: lines) = l :: commands lines := by
  have htrim : trim l = l := by
    obtain _ | ⟨c, l⟩ := l
    · rfl
    · have hc := hs c rfl
      simp only [isBlank, Bool.or_eq_false_iff] at hc
      unfold trim
      rw [List.dropWhile_cons]
      simp only [hc, Bool.or_self, Bool.false_eq_true, if_false]
  unfold commands
  rw [List.map_cons, htrim, List.filter_cons_of_pos (by simpa using hne)]

/-- A write takes something, and dispatches the next command if it dispatches one. -/
theorem Device.write_pending (d : Device σ ι ε)
    {ω : ℕ → ι} {s : Session σ} {part buf later : List UInt8}
    {lines : List (List UInt8)} (hp : d.Pending ω s part lines) (hne : buf ≠ [])
    (h : part ++ (buf ++ later) = stream lines) :
    ∃ n cmd st part' lines', d.write (ω s.sent.length) s.st buf = (.ok n, cmd, st) ∧ 0 < n ∧ n ≤ buf.length ∧
      part' ++ (buf.drop n ++ later) = stream lines' ∧ d.Pending ω ⟨st, s.sent ++ cmd.toList⟩ part' lines' ∧
      cmd.toList ++ commands lines' = commands lines := by
  have htakes := readLine_takes hp.holds hp.started hp.newline hne hp.fitting h
  unfold Device.write
  rcases hread : readLine (d.line s.st) buf with ⟨input, lb⟩
  rw [hread] at htakes
  cases htakes with
  | @blank n _ hpart hn hle hblank hlb =>
    subst hpart
    obtain ⟨lines', hstream, hfit, hcmd⟩ := drop_blanks (s := buf.drop n ++ later) hblank hp.fitting
      (by rw [← List.append_assoc, List.take_append_drop]; exact h)
    refine ⟨n, none, _, [], lines', rfl, hn, hle, hstream, ?_, hcmd⟩
    exact { holds := by rw [d.line_withLine]; exact hlb
            started := hp.started
            newline := hp.newline
            fitting := hfit
            accepts := by
              rw [Option.toList_none, List.append_nil, d.accepts_withLine, hcmd]
              exact hp.accepts }
  | more hs h10 hlb =>
    refine ⟨buf.length, none, _, part ++ buf, lines, rfl, List.length_pos_iff.mpr hne, le_refl _, ?_, ?_, rfl⟩
    · rw [List.drop_length, List.nil_append, List.append_assoc]
      exact h
    · exact { holds := by rw [d.line_withLine]; exact hlb
              started := hs
              newline := by simpa using ⟨hp.newline, h10⟩
              fitting := hp.fitting
              accepts := by
                rw [Option.toList_none, List.append_nil, d.accepts_withLine]
                exact hp.accepts }
  | @line x rest _ hbuf h10 hs hnil hlb =>
    -- the line is the first one, and its command the next
    obtain ⟨l, lines, rfl⟩ : ∃ l ls, lines = l :: ls := by
      cases lines with
      | nil => simp [stream, hne] at h
      | cons l ls => exact ⟨l, ls, rfl⟩
    rw [stream_cons, hbuf, List.append_assoc, List.cons_append, ← List.append_assoc part] at h
    have hl : part ++ x = l := line_of_newline (by simpa using ⟨hp.newline, h10⟩)
      (hp.fitting l List.mem_cons_self).2.2 h
    rw [hl] at h hs hnil
    have hcmd := commands_cons lines hs hnil
    have hacc := hp.accepts
    rw [hcmd] at hacc
    obtain ⟨hok, hacc⟩ := hacc
    dsimp only
    rw [hl, d.handler_withLine, hok]
    refine ⟨x.length + 1, some l, _, [], lines, rfl, by omega, ?_, ?_, ?_, hcmd.symm⟩
    · rw [hbuf, List.length_append, List.length_cons]
      omega
    · rw [hbuf, List.nil_append, ← List.drop_drop, List.drop_left, List.drop_succ_cons, List.drop_zero]
      exact (List.cons.inj (List.append_cancel_left h)).2
    · exact { holds := by rw [d.line_withLine]; exact hlb
              started := fun c hc => by cases hc
              newline := List.not_mem_nil
              fitting := fun y hy => hp.fitting y (List.mem_cons_of_mem _ hy)
              accepts := by
                rw [Option.toList_some, List.length_append, List.length_singleton, d.accepts_withLine]
                exact hacc }

/-- A caller gets rid of a piece in as many writes as it has bytes. -/
theorem Device.submit_pending (d : Device σ ι ε) {ω : ℕ → ι} {later : List UInt8} :
    ∀ (fuel : ℕ) (buf : List UInt8) {s : Session σ} {part : List UInt8} {lines : List (List UInt8)},
      buf.length ≤ fuel → d.Pending ω s part lines → part ++ (buf ++ later) = stream lines →
      ∃ s' part' lines', d.submit ω fuel s buf = some s' ∧ part' ++ later = stream lines' ∧
        d.Pending ω s' part' lines' ∧ s'.sent ++ commands lines' = s.sent ++ commands lines := by
  intro fuel
  induction fuel with
  | zero =>
    intro buf s part lines hle hp h
    obtain rfl := List.length_eq_zero_iff.mp (Nat.le_zero.mp hle)
    exact ⟨s, part, lines, rfl, h, hp, rfl⟩
  | succ fuel ih =>
    intro buf s part lines hle hp h
    obtain _ | ⟨c, buf⟩ := buf
    · exact ⟨s, part, lines, rfl, h, hp, rfl⟩
    obtain ⟨n, cmd, st, part', lines', hwrite, hn, hnle, h', hp', hcmd⟩ :=
      d.write_pending hp (List.cons_ne_nil c buf) h
    obtain ⟨s'', part'', lines'', hsub, h'', hp'', hcmd''⟩ :=
      ih ((c :: buf).drop n) (by rw [List.length_drop]; omega) hp' h'
    refine ⟨s'', part'', lines'', ?_, h'', hp'', ?_⟩
    · unfold Device.submit
      rw [hwrite]
      exact hsub
    · rw [hcmd'', List.append_assoc, hcmd]

/-- Pieces that are submitted are taken as the lines they make up. -/
theorem Device.submitAll_pending (d : Device σ ι ε)
    {ω : ℕ → ι} (pieces : List (List UInt8)) {s : Session σ}
    {part : List UInt8} {lines : List (List UInt8)} (hp : d.Pending ω s part lines)
    (h : part ++ pieces.flatten = stream lines) :
    ∃ s' part' lines', d.submitAll ω s pieces = some s' ∧ part' = stream lines' ∧
      d.Pending ω s' part' lines' ∧ s'.sent ++ commands lines' = s.sent ++ commands lines := by
  induction pieces generalizing s part lines with
  | nil => exact ⟨s, part, lines, rfl, by simpa using h, hp, rfl⟩
  | cons piece pieces ih =>
    obtain ⟨s', part', lines', hsub, h', hp', hcmd⟩ := d.submit_pending piece.length piece le_rfl hp h
    obtain ⟨s'', part'', lines'', hall, h'', hp'', hcmd'⟩ := ih hp' h'
    refine ⟨s'', part'', lines'', ?_, h'', hp'', hcmd'.trans hcmd⟩
    unfold Device.submitAll at hall ⊢
    rw [List.foldlM_cons, hsub]
    exact hall

/-- Every device assembles its lines. -/
theorem Device.assembles (d : Device σ ι ε) : d.Assembles := by
  intro ω st lines pieces hlen hleft hfit hflat hacc
  have hp : d.Pending ω ⟨st, []⟩ [] lines :=
    { holds := ⟨hlen, hleft, rfl⟩
      started := fun c hc => by cases hc
      newline := List.not_mem_nil
      fitting := hfit
      accepts := hacc }
  obtain ⟨s', part, lines', hall, hpart, hp', hcmd⟩ := d.submitAll_pending pieces hp hflat
  -- what is left over has no newline, and is therefore nothing
  obtain _ | ⟨l, lines'⟩ := lines'
  · refine ⟨s'.st, ?_, ?_⟩
    · rw [hall]
      congr 1
      have hsent : s'.sent = commands lines := by simpa [commands] using hcmd
      rw [← hsent]
    · rw [hp'.holds.left, hpart]
      rfl
  · refine absurd ?_ hp'.newline
    rw [hpart, stream_cons]
    simp

/-- The commands of the three control files do not depend on the pieces that they are written in. -/
theorem control_files_assemble :
    ipgrpDevice.Assembles ∧ authDevice.Assembles ∧ zoneDevice.Assembles :=
  ⟨ipgrpDevice.assembles, authDevice.assembles, zoneDevice.assembles⟩

-- cut in the blanks, in a line and before a newline
example : (zoneDevice.submitAll (fun _ _ => none) ⟨⟨fun _ => 0, 0, ⟨List.replicate 256 0, 0⟩⟩, []⟩
    [asciiBytes " ", asciiBytes "\tupd", asciiBytes "ate magic",
      asciiBytes "\n \nclean\n"]).map Session.sent =
    some [asciiBytes "update magic", asciiBytes "clean"] := by decide +kernel

end NosCtl
