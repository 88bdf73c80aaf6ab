/-
# The control files of ip groups and authentication

`nos_ipgrp_ctl` and `nos_auth_ctl`: what is written to them is collected in lines,
and a line is a command on the store of ip groups or of authentication rules.  An
entry of a store can refer to ipsets, for which the driver holds references.  Which
ipset has a name, an oracle says for every write anew.
-/
import OpenwrtAc.CString
import OpenwrtAc.NosIpgrp
import OpenwrtAc.Outcome
import OpenwrtAc.SlotStore

open CString SlotStore Nos Outcome

namespace NosCtl

/-! ## Lines -/

/-- The static variables `data` and `data_left` of a write function. -/
structure LineBuf where
  data : List UInt8
  dataLeft : ℕ

/-- The buffer of a driver just loaded. -/
def LineBuf.init : LineBuf := ⟨List.replicate 256 0, 0⟩

/-- What a write brings: blanks at the start, which are taken alone; a line that is too long; a
    part of a line; or the end of a line, with the number of bytes taken. -/
inductive CtlInput where
  | blank (n : ℕ)
  | tooLong
  | more (l : ℕ)
  | line (text : List UInt8) (l : ℕ)

/-- The first half of the write functions.  The blanks are looked for at the start of the
    buffer, also when it holds a part of a line. -/
def readLine (lb : LineBuf) (buf : List UInt8) : CtlInput × LineBuf :=
  let cnt := min buf.length (256 - lb.dataLeft)
  let data := lb.data.take lb.dataLeft ++ buf.take cnt ++ lb.data.drop (lb.dataLeft + cnt)
  let n := ((data.take cnt).takeWhile fun c => c == 0x20 || c == 10 || c == 9).length
  if n ≠ 0 then (.blank n, ⟨data, 0⟩)
  else
    let l := (((data.drop lb.dataLeft).take cnt).takeWhile fun c => c != 10).length
    if cnt ≤ l then
      if 256 ≤ lb.dataLeft + l then (.tooLong, ⟨data, 0⟩) else (.more l, ⟨data, lb.dataLeft + l⟩)
    else
      let data := data.set (l + lb.dataLeft) 0
      (.line (cstr data) (l + 1), ⟨data, 0⟩)

/-- The value that a write function returns for an error. -/
def errnoRet : Errno → ℤ
  | .einval => -22
  | .eexist => -17
  | .enospc => -28
  | .enoent => -2

/-! ## References to ipsets -/

/-- How many references the driver holds, by ipset. -/
abbrev Held := ℕ → ℤ

/-- `ip_set_get_byname` has found a set. -/
def Held.get (held : Held) (k : ℕ) : Held := Function.update held k (held k + 1)

/-- `ip_set_put_byindex`. -/
def Held.put (held : Held) (k : ℕ) : Held := Function.update held k (held k - 1)

/-- One put after the other. -/
def Held.putAll (held : Held) (ks : List ℕ) : Held := ks.foldl Held.put held

/-! ## Ip groups -/

/-- The ipset of a group, which `@all` has not. -/
def grpRefs (g : IpGrp) : List ℕ := g.ipset.toList

/-- `ipgrp_conf`, the references held for it and the static data of `nos_ipgrp.c`. -/
structure IpgrpCtl where
  conf : Slots IpGrp
  held : Held
  magic : UInt16
  line : LineBuf

/-- `nos_ipgrp_set`. -/
def nosIpgrpSet (conf : Slots IpGrp) (g : IpGrp) : Except Errno (Slots IpGrp) :=
  if maxIpgrp ≤ g.id then .error .einval
  else if (conf.findSlot fun e => e.id == g.id).isSome then .error .eexist
  else if conf.num = maxIpgrp then .error .enospc
  else .ok (conf.push g)

/-- `nos_ipgrp_delete`. -/
def nosIpgrpDelete (st : IpgrpCtl) (id : ℕ) : Except Errno IpgrpCtl :=
  match st.conf.findSlot fun e => e.id == id with
  | none => .error .enoent
  | some i => .ok { st with
      conf := st.conf.removeAt i, held := st.held.putAll (grpRefs (st.conf.slot i)) }

/-- `nos_ipgrp_cleanup`. -/
def nosIpgrpCleanup (st : IpgrpCtl) : IpgrpCtl :=
  { st with
    conf := ⟨0, fun _ => ⟨0, none⟩⟩, held := st.held.putAll (st.conf.entries.flatMap grpRefs) }

/-- The command `ipgrp`: the error, or the new state. -/
def ipgrpCommand (ipset : List UInt8 → Option ℕ) (st : IpgrpCtl) (id : ℕ) (name : List UInt8) :
    Option Errno × IpgrpCtl :=
  if name == asciiBytes "@all" then
    match nosIpgrpSet st.conf ⟨id, none⟩ with
    | .ok conf => (none, { st with conf := conf })
    | .error e => (some e, st)
  else
    match ipset name with
    | none => (some .einval, st)
    | some k =>
      let held := st.held.get k
      match nosIpgrpSet st.conf ⟨id, some k⟩ with
      | .ok conf => (none, { st with conf := conf, held := held })
      | .error e => (some e, { st with held := held.put k })

/-- The second half of `nos_ipgrp_write`. -/
def ipgrpLine (ipset : List UInt8 → Option ℕ) (st : IpgrpCtl) (data : List UInt8) :
    Option Errno × IpgrpCtl :=
  if startsWith data "clean" then (none, nosIpgrpCleanup st)
  else if startsWith data "ipgrp " then
    match sscanf "ipgrp %u=%s\n".toList data with
    | [.u id, .s name] => ipgrpCommand ipset st id.toNat name
    | _ => (none, st)
  else if startsWith data "delete " then
    match sscanf "delete %u\n".toList data with
    | [.u id] =>
      match nosIpgrpDelete st id.toNat with
      | .ok st => (none, st)
      | .error e => (some e, st)
    | _ => (none, st)
  else if startsWith data "update magic" then (none, { st with magic := st.magic + 1 })
  else (none, st)

/-- `nos_ipgrp_write`. -/
def nosIpgrpWrite (ipset : List UInt8 → Option ℕ) (st : IpgrpCtl) (buf : List UInt8) :
    ℤ × IpgrpCtl :=
  match readLine st.line buf with
  | (.blank n, line) => (n, { st with line := line })
  | (.tooLong, line) => (errnoRet .einval, { st with line := line })
  | (.more l, line) => (l, { st with line := line })
  | (.line data l, line) =>
    let r := ipgrpLine ipset { st with line := line } data
    (r.1.elim l errnoRet, r.2)

/-! ## Authentication rules -/

/-- The white lists of a rule. -/
def authRefs (r : AuthRule) : List ℕ := r.ipWhiteList.toList ++ r.macWhiteList.toList

/-- `auth_conf`, the references held for it and the other variables that a command of `nos_auth.c`
    sets; `redirect_ip` is in the order of the host. -/
structure AuthCtl where
  conf : Slots AuthRule
  bypassDstList : Option ℕ
  held : Held
  redirectIp : UInt32
  noFlowTimeout : UInt32
  magic : UInt16
  line : LineBuf

/-- `nos_auth_set`. -/
def nosAuthSet (conf : Slots AuthRule) (auth : AuthRule) : Except Errno (Slots AuthRule) :=
  if maxAuth ≤ auth.id then .error .einval
  else if invalidZoneId ≤ auth.srcZoneId then .error .einval
  else if maxIpgrp ≤ auth.srcIpgrpId then .error .einval
  else if (conf.findSlot fun e => e.id == auth.id).isSome then .error .eexist
  else if conf.num = maxAuth then .error .enospc
  else .ok (conf.push auth)

/-- `nos_auth_delete`. -/
def nosAuthDelete (st : AuthCtl) (id : ℕ) : Except Errno AuthCtl :=
  match st.conf.findSlot fun e => e.id == id with
  | none => .error .enoent
  | some i => .ok { st with
      conf := st.conf.removeAt i, held := st.held.putAll (authRefs (st.conf.slot i)) }

/-- `nos_auth_cleanup`. -/
def nosAuthCleanup (st : AuthCtl) : AuthCtl :=
  { st with
    conf := ⟨0, fun _ => ⟨0, 0, 0, .unknown, none, none⟩⟩
    bypassDstList := none
    held := (st.held.putAll st.bypassDstList.toList).putAll (st.conf.entries.flatMap authRefs) }

/-- A white list of the line, by the key before its name; without a name there is none. -/
def whiteList (ipset : List UInt8 → Option ℕ) (data : List UInt8) (key : String) :
    Except Errno (Option ℕ) :=
  match (strstr (asciiBytes key) data).map fun p =>
    (p.drop (asciiBytes key).length).takeWhile fun c => c != 44 with
  | none => .ok none
  | some [] => .ok none
  | some name =>
    match ipset name with
    | none => .error .einval
    | some k => .ok (some k)

/-- The type of the line. -/
def lineType (data : List UInt8) : Option AuthType :=
  (strstr (asciiBytes ",type=") data).bind fun p =>
    if startsWith (p.drop 6) "web" then some .web
    else if startsWith (p.drop 6) "auto" then some .auto
    else none

/-- The rest of the line of a rule, up to the first error: the rule as far as it is filled, and
    the references with those it has taken. -/
def fillAuth (ipset : List UInt8 → Option ℕ) (held : Held) (data : List UInt8) (auth : AuthRule) :
    Option Errno × AuthRule × Held :=
  match lineType data with
  | none => (some .einval, auth, held)
  | some type =>
    let auth := { auth with authType := type }
    match whiteList ipset data ",ipwhite=" with
    | .error e => (some e, auth, held)
    | .ok ip =>
      let auth := { auth with ipWhiteList := ip }
      let held := ip.elim held held.get
      match whiteList ipset data ",macwhite=" with
      | .error e => (some e, auth, held)
      | .ok mac => (none, { auth with macWhiteList := mac }, mac.elim held held.get)

/-- The command `auth`: whatever fails, the references of the rule are put back. -/
def authCommand (ipset : List UInt8 → Option ℕ) (st : AuthCtl) (data : List UInt8)
    (id srcZoneId srcIpgrpId : ℕ) : Option Errno × AuthCtl :=
  match fillAuth ipset st.held data ⟨id, srcZoneId, srcIpgrpId, .unknown, none, none⟩ with
  | (some e, auth, held) => (some e, { st with held := held.putAll (authRefs auth) })
  | (none, auth, held) =>
    match nosAuthSet st.conf auth with
    | .ok conf => (none, { st with conf := conf, held := held })
    | .error e => (some e, { st with held := held.putAll (authRefs auth) })

/-- The command `auth_global_bypass_dst_ip`. -/
def bypassCommand (ipset : List UInt8 → Option ℕ) (st : AuthCtl) (name : List UInt8) :
    Option Errno × AuthCtl :=
  match ipset name with
  | none => (some .einval, st)
  | some k => (none, { st with
      bypassDstList := some k, held := (st.held.get k).putAll st.bypassDstList.toList })

/-- The second half of `nos_auth_write`. -/
def authLine (ipset : List UInt8 → Option ℕ) (st : AuthCtl) (data : List UInt8) :
    Option Errno × AuthCtl :=
  if startsWith data "clean" then (none, nosAuthCleanup st)
  else if startsWith data "auth id=" then
    match sscanf "auth id=%u,szone=%u,sipgrp=%u".toList data with
    | [.u id, .u zone, .u ipgrp] => authCommand ipset st data id.toNat zone.toNat ipgrp.toNat
    | _ => (none, st)
  else if startsWith data "delete " then
    match sscanf "delete %u\n".toList data with
    | [.u id] =>
      match nosAuthDelete st id.toNat with
      | .ok st => (none, st)
      | .error e => (some e, st)
    | _ => (none, st)
  else if startsWith data "redirect_ip=" then
    match sscanf "redirect_ip=%u.%u.%u.%u".toList data with
    | [.u a, .u b, .u c, .u d] =>
      if a < 256 ∧ b < 256 ∧ c < 256 ∧ d < 256 then
        (none, { st with redirectIp := a <<< 24 ||| b <<< 16 ||| c <<< 8 ||| d })
      else (none, st)
    | _ => (none, st)
  else if startsWith data "no_flow_timeout=" then
    match sscanf "no_flow_timeout=%u".toList data with
    | [.u a] => (none, { st with noFlowTimeout := a })
    | _ => (none, st)
  else if startsWith data "update magic" then (none, { st with magic := st.magic + 1 })
  else if startsWith data "auth_global_bypass_dst_ip=" then
    match sscanf "auth_global_bypass_dst_ip=%s\n".toList data with
    | [.s name] => if name.isEmpty then (none, st) else bypassCommand ipset st name
    | _ => (none, st)
  else (none, st)

/-- `nos_auth_write`. -/
def nosAuthWrite (ipset : List UInt8 → Option ℕ) (st : AuthCtl) (buf : List UInt8) : ℤ × AuthCtl :=
  match readLine st.line buf with
  | (.blank n, line) => (n, { st with line := line })
  | (.tooLong, line) => (errnoRet .einval, { st with line := line })
  | (.more l, line) => (l, { st with line := line })
  | (.line data l, line) =>
    let r := authLine ipset { st with line := line } data
    (r.1.elim l errnoRet, r.2)

/-! ## Runs -/

/-- Both drivers. -/
structure Ctl where
  auth : AuthCtl
  ipgrp : IpgrpCtl

/-- After `auth_conf_init` and `ipgrp_conf_init`; the first timeout is not set here. -/
def Ctl.init (noFlowTimeout : UInt32) : Ctl where
  auth := ⟨⟨0, fun _ => ⟨0, 0, 0, .unknown, none, none⟩⟩, none, fun _ => 0, 0x01000008,
    noFlowTimeout, 50855, .init⟩
  ipgrp := ⟨⟨0, fun _ => ⟨0, none⟩⟩, fun _ => 0, 50855, .init⟩

/-- A write to one of the control files, with what the ipset module knows at the time, or one from
    an address that cannot be read, which can change the bytes of the line buffer. -/
inductive CtlEvent where
  | auth (ipset : List UInt8 → Option ℕ) (buf : List UInt8)
  | ipgrp (ipset : List UInt8 → Option ℕ) (buf : List UInt8)
  | authFault (data : List UInt8)
  | ipgrpFault (data : List UInt8)

/-- One write. -/
def Ctl.step (st : Ctl) : CtlEvent → Ctl
  | .auth ipset buf => { st with auth := (nosAuthWrite ipset st.auth buf).2 }
  | .ipgrp ipset buf => { st with ipgrp := (nosIpgrpWrite ipset st.ipgrp buf).2 }
  | .authFault data => { st with auth := { st.auth with line := ⟨data, st.auth.line.dataLeft⟩ } }
  | .ipgrpFault data => { st with ipgrp := { st.ipgrp with line := ⟨data, st.ipgrp.line.dataLeft⟩ } }

/-- A run. -/
def Ctl.run (noFlowTimeout : UInt32) (events : List CtlEvent) : Ctl :=
  events.foldl Ctl.step (.init noFlowTimeout)

/-! ## The invariant -/

/-- Giving up a list of references lowers each count by its occurrences. -/
theorem Held.putAll_apply (held : Held) (ks : List ℕ) (k : ℕ) :
    held.putAll ks k = held k - ks.count k := by
  induction ks generalizing held with
  | nil => simp [Held.putAll]
  | cons j ks ih =>
    have hrest := ih (held.put j)
    unfold Held.putAll at hrest ⊢
    rw [List.foldl_cons, hrest, Held.put, List.count_cons]
    by_cases hk : k = j
    · subst hk
      rw [Function.update_self]
      simp
      omega
    · rw [Function.update_of_ne hk]
      simp [Ne.symm hk]

/-- Taking a reference raises the count of its set alone. -/
theorem Held.get_apply (held : Held) (j k : ℕ) : held.get j k = held k + [j].count k := by
  unfold Held.get
  by_cases hk : k = j
  · subst hk
    rw [Function.update_self]
    simp
  · rw [Function.update_of_ne hk]
    simp [Ne.symm hk]

/-- Taking an optional reference raises the count of its set, if there is one. -/
theorem Held.elim_get_apply (held : Held) (o : Option ℕ) (k : ℕ) :
    o.elim held held.get k = held k + o.toList.count k := by
  cases o with
  | none => simp
  | some j => exact held.get_apply j k

/-- The store of ip groups is in order: distinct ids, no more entries than slots, and the
    references held are those of the entries. -/
structure IpgrpCtl.Good (st : IpgrpCtl) : Prop where
  kept : st.conf.Kept maxIpgrp IpGrp.id
  held : ∀ k, st.held k = st.conf.recorded grpRefs k

/-- The store of rules is in order. -/
structure AuthCtl.Good (st : AuthCtl) : Prop where
  kept : st.conf.Kept maxAuth AuthRule.id
  held : ∀ k, st.held k = st.conf.recorded authRefs k + st.bypassDstList.toList.count k

/-- A group that is stored keeps the ids apart and has its references recorded. -/
theorem nosIpgrpSet_spec {conf conf' : Slots IpGrp} {g : IpGrp}
    (h : nosIpgrpSet conf g = .ok conf') (hkept : conf.Kept maxIpgrp IpGrp.id) :
    conf'.Kept maxIpgrp IpGrp.id
      ∧ ∀ k, conf'.recorded grpRefs k = conf.recorded grpRefs k + (grpRefs g).count k := by
  unfold nosIpgrpSet at h
  split at h
  · cases h
  · split at h
    · cases h
    next hnew =>
      split at h
      · cases h
      next hroom =>
        cases h
        exact ⟨hkept.push hroom (by simpa using hnew), recorded_push grpRefs conf g⟩

/-- The `ipgrp` command keeps its file's state good, refused or not. -/
theorem ipgrpCommand_good {ipset : List UInt8 → Option ℕ} {st : IpgrpCtl} (h : st.Good) (id : ℕ)
    (name : List UInt8) : (ipgrpCommand ipset st id name).2.Good := by
  unfold ipgrpCommand
  split
  · split
    next conf hset =>
      obtain ⟨hkept, hrec⟩ := nosIpgrpSet_spec hset h.kept
      refine ⟨hkept, fun k => ?_⟩
      rw [hrec k, h.held k]
      rfl
    · exact h
  · split
    · exact h
    next j _ =>
      dsimp only
      split
      next conf hset =>
        obtain ⟨hkept, hrec⟩ := nosIpgrpSet_spec hset h.kept
        refine ⟨hkept, fun k => ?_⟩
        dsimp only
        rw [hrec k, Held.get_apply, h.held k]
        rfl
      next e _ =>
        -- what was taken for the entry is put back
        refine ⟨h.kept, fun k => ?_⟩
        have hput := (st.held.get j).putAll_apply [j] k
        rw [Held.get_apply, h.held k] at hput
        refine hput.trans ?_
        dsimp only
        omega

/-- Deleting a group gives its references back. -/
theorem nosIpgrpDelete_good {st st' : IpgrpCtl} (h : st.Good) {id : ℕ}
    (hdel : nosIpgrpDelete st id = .ok st') : st'.Good := by
  unfold nosIpgrpDelete at hdel
  split at hdel
  · cases hdel
  next i hi =>
    cases hdel
    have hlt := (findSlot_eq_some hi).1
    refine ⟨h.kept.removeAt hlt, fun k => ?_⟩
    have := recorded_removeAt grpRefs hlt k
    dsimp only
    rw [Held.putAll_apply, h.held k]
    omega

/-- The cleanup gives back what every group holds. -/
theorem nosIpgrpCleanup_good {st : IpgrpCtl} (h : st.Good) : (nosIpgrpCleanup st).Good := by
  refine ⟨kept_empty _, fun k => ?_⟩
  unfold nosIpgrpCleanup
  dsimp only
  rw [Held.putAll_apply, h.held k, recorded_empty, Slots.recorded]
  omega

/-- One line of the group file keeps the state good. -/
theorem ipgrpLine_good {ipset : List UInt8 → Option ℕ} {st : IpgrpCtl} (h : st.Good)
    (data : List UInt8) : (ipgrpLine ipset st data).2.Good := by
  unfold ipgrpLine
  split
  · exact nosIpgrpCleanup_good h
  · split
    · split
      · exact ipgrpCommand_good h _ _
      · exact h
    · split
      · split
        · split
          next hdel => exact nosIpgrpDelete_good h hdel
          · exact h
        · exact h
      · split
        · exact ⟨h.kept, h.held⟩
        · exact h

/-- A write to the group file keeps the state good, however it is cut into lines. -/
theorem nosIpgrpWrite_good {ipset : List UInt8 → Option ℕ} {st : IpgrpCtl} (h : st.Good)
    (buf : List UInt8) : (nosIpgrpWrite ipset st buf).2.Good := by
  unfold nosIpgrpWrite
  split
  · exact ⟨h.kept, h.held⟩
  · exact ⟨h.kept, h.held⟩
  · exact ⟨h.kept, h.held⟩
  next data l line _ =>
    have hline : ({ st with line := line } : IpgrpCtl).Good := ⟨h.kept, h.held⟩
    exact ipgrpLine_good hline data

/-! ## Rules -/

/-- A rule that is stored keeps the ids apart and has its references recorded. -/
theorem nosAuthSet_spec {conf conf' : Slots AuthRule} {a : AuthRule}
    (h : nosAuthSet conf a = .ok conf') (hkept : conf.Kept maxAuth AuthRule.id) :
    conf'.Kept maxAuth AuthRule.id
      ∧ ∀ k, conf'.recorded authRefs k = conf.recorded authRefs k + (authRefs a).count k := by
  simp only [nosAuthSet, ite_error_eq_ok, Except.ok.injEq] at h
  obtain ⟨-, -, -, hnew, hroom, rfl⟩ := h
  exact ⟨hkept.push hroom (by simpa using hnew), recorded_push authRefs conf a⟩

/-- The references that a line takes are those of the rule it fills, whether it fails or not. -/
theorem fillAuth_held {ipset : List UInt8 → Option ℕ} {held held' : Held} {data : List UInt8}
    {auth auth' : AuthRule} {e : Option Errno} (hnew : authRefs auth = [])
    (h : fillAuth ipset held data auth = (e, auth', held')) (k : ℕ) :
    held' k = held k + (authRefs auth').count k := by
  have hnone : auth.ipWhiteList = none ∧ auth.macWhiteList = none := by
    simpa [authRefs] using hnew
  unfold fillAuth at h
  split at h
  · cases h
    simp [hnew]
  · dsimp only at h
    split at h
    · cases h
      simp [authRefs, hnone]
    next ip _ =>
      split at h
      · cases h
        rw [Held.elim_get_apply]
        simp [authRefs, hnone]
      next mac _ =>
        cases h
        rw [Held.elim_get_apply, Held.elim_get_apply]
        simp only [authRefs, List.count_append]
        omega

/-- The `auth` command keeps its file's state good, refused or not. -/
theorem authCommand_good {ipset : List UInt8 → Option ℕ} {st : AuthCtl} (h : st.Good)
    (data : List UInt8) (id zone ipgrp : ℕ) :
    (authCommand ipset st data id zone ipgrp).2.Good := by
  unfold authCommand
  -- the references of a rule that is not stored are put back
  have hback : ∀ {e auth held}, fillAuth ipset st.held data ⟨id, zone, ipgrp, .unknown, none, none⟩ =
      (e, auth, held) → ({ st with held := held.putAll (authRefs auth) } : AuthCtl).Good := by
    intro e auth held hfill
    refine ⟨h.kept, fun k => ?_⟩
    have hheld := fillAuth_held rfl hfill k
    dsimp only
    rw [Held.putAll_apply, hheld, h.held k]
    omega
  split
  next e auth held hfill => exact hback hfill
  next auth held hfill =>
    split
    next conf hset =>
      obtain ⟨hkept, hrec⟩ := nosAuthSet_spec hset h.kept
      refine ⟨hkept, fun k => ?_⟩
      have hheld := fillAuth_held rfl hfill k
      dsimp only
      rw [hheld, hrec k, h.held k]
      push_cast
      omega
    · exact hback hfill

/-- Deleting a rule gives its references back. -/
theorem nosAuthDelete_good {st st' : AuthCtl} (h : st.Good) {id : ℕ}
    (hdel : nosAuthDelete st id = .ok st') : st'.Good := by
  unfold nosAuthDelete at hdel
  split at hdel
  · cases hdel
  next i hi =>
    cases hdel
    have hlt := (findSlot_eq_some hi).1
    refine ⟨h.kept.removeAt hlt, fun k => ?_⟩
    have := recorded_removeAt authRefs hlt k
    dsimp only
    rw [Held.putAll_apply, h.held k]
    omega

/-- The cleanup gives back what every rule holds. -/
theorem nosAuthCleanup_good {st : AuthCtl} (h : st.Good) : (nosAuthCleanup st).Good := by
  refine ⟨kept_empty _, fun k => ?_⟩
  unfold nosAuthCleanup
  dsimp only
  rw [Held.putAll_apply, Held.putAll_apply, h.held k, recorded_empty, Slots.recorded]
  simp

/-- The bypass commands exchange one reference for another. -/
theorem bypassCommand_good {ipset : List UInt8 → Option ℕ} {st : AuthCtl} (h : st.Good)
    (name : List UInt8) : (bypassCommand ipset st name).2.Good := by
  unfold bypassCommand
  split
  · exact h
  next j _ =>
    refine ⟨h.kept, fun k => ?_⟩
    dsimp only
    rw [Held.putAll_apply, Held.get_apply, h.held k]
    simp only [Option.toList_some]
    omega

/-- One line of the rule file keeps the state good. -/
theorem authLine_good {ipset : List UInt8 → Option ℕ} {st : AuthCtl} (h : st.Good)
    (data : List UInt8) : (authLine ipset st data).2.Good := by
  have hsame : ∀ {ip timeout magic}, ({ st with
      redirectIp := ip, noFlowTimeout := timeout, magic := magic } : AuthCtl).Good :=
    ⟨h.kept, h.held⟩
  unfold authLine
  split
  · exact nosAuthCleanup_good h
  split
  · split
    · exact authCommand_good h data _ _ _
    · exact h
  split
  · split
    · split
      next hdel => exact nosAuthDelete_good h hdel
      · exact h
    · exact h
  split
  · split
    · split
      · exact hsame
      · exact h
    · exact h
  split
  · split
    · exact hsame
    · exact h
  split
  · exact hsame
  split
  · split
    · split
      · exact h
      · exact bypassCommand_good h _
    · exact h
  · exact h

/-- A write to the rule file keeps the state good, however it is cut into lines. -/
theorem nosAuthWrite_good {ipset : List UInt8 → Option ℕ} {st : AuthCtl} (h : st.Good)
    (buf : List UInt8) : (nosAuthWrite ipset st buf).2.Good := by
  unfold nosAuthWrite
  split
  · exact ⟨h.kept, h.held⟩
  · exact ⟨h.kept, h.held⟩
  · exact ⟨h.kept, h.held⟩
  next data l line _ =>
    have hline : ({ st with line := line } : AuthCtl).Good := ⟨h.kept, h.held⟩
    exact authLine_good hline data

/-! ## In every run -/

/-- One write to either file keeps both states good. -/
theorem step_good {st : Ctl} (ha : st.auth.Good) (hi : st.ipgrp.Good) (ev : CtlEvent) :
    (st.step ev).auth.Good ∧ (st.step ev).ipgrp.Good := by
  cases ev with
  | auth ipset buf => exact ⟨nosAuthWrite_good ha buf, hi⟩
  | ipgrp ipset buf => exact ⟨ha, nosIpgrpWrite_good hi buf⟩
  | authFault data => exact ⟨⟨ha.kept, ha.held⟩, hi⟩
  | ipgrpFault data => exact ⟨ha, ⟨hi.kept, hi.held⟩⟩

/-- After any sequence of writes both states are good. -/
theorem run_good (noFlowTimeout : UInt32) (events : List CtlEvent) :
    (Ctl.run noFlowTimeout events).auth.Good ∧ (Ctl.run noFlowTimeout events).ipgrp.Good := by
  have hrun : ∀ st : Ctl, st.auth.Good → st.ipgrp.Good →
      (events.foldl Ctl.step st).auth.Good ∧ (events.foldl Ctl.step st).ipgrp.Good := by
    induction events with
    | nil => exact fun st ha hi => ⟨ha, hi⟩
    | cons ev events ih =>
      intro st ha hi
      obtain ⟨ha', hi'⟩ := step_good ha hi ev
      exact ih _ ha' hi'
  exact hrun _ ⟨kept_empty _, fun k => rfl⟩ ⟨kept_empty _, fun k => rfl⟩

/-- Whatever is written to the control files, in both stores the ids of the entries, which are the
    first `num` slots, are distinct, they fit into the array, and the references held are those
    of the entries and of the global bypass list. -/
theorem stores_good (noFlowTimeout : UInt32) (events : List CtlEvent) :
    let ipgrp := (Ctl.run noFlowTimeout events).ipgrp
    let auth := (Ctl.run noFlowTimeout events).auth
    (ipgrp.conf.num ≤ maxIpgrp ∧ auth.conf.num ≤ maxAuth)
      ∧ (∀ i < ipgrp.conf.num, ∀ j < ipgrp.conf.num,
        (ipgrp.conf.slot i).id = (ipgrp.conf.slot j).id → i = j)
      ∧ (∀ i < auth.conf.num, ∀ j < auth.conf.num,
        (auth.conf.slot i).id = (auth.conf.slot j).id → i = j)
      ∧ (∀ k, ipgrp.held k =
        (((List.range ipgrp.conf.num).map ipgrp.conf.slot).flatMap grpRefs).count k)
      ∧ ∀ k, auth.held k =
        (((List.range auth.conf.num).map auth.conf.slot).flatMap authRefs).count k
          + auth.bypassDstList.toList.count k := by
  obtain ⟨ha, hi⟩ := run_good noFlowTimeout events
  exact ⟨⟨hi.kept.num_le, ha.kept.num_le⟩, fun i hlt j hlt' => hi.kept.slot_inj hlt hlt',
    fun i hlt j hlt' => ha.kept.slot_inj hlt hlt', hi.held, ha.held⟩

end NosCtl
