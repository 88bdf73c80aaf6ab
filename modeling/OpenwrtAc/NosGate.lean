/-
# The gate in front of users that have not logged in

The hooks of `nos_main.c` and the second half of `nos_auth_hook`.  A packet of a user that has
to log in is let through, turned into a reset, answered with a redirect or dropped; a
connection may be marked, and then no hook looks at its packets again.  Packets pass the
two hooks one after the other, with those of other connections in between.
-/
import OpenwrtAc.NosIpgrp
import Mathlib.Logic.Function.Basic

namespace Nos

/-! ## Packets -/

/-- The fields of the IP and TCP headers that are read, and the bytes behind them. -/
structure Tcp where
  totLen : ℕ
  ihl : ℕ
  doff : ℕ
  syn : Bool
  ack : Bool
  data : List ℕ

inductive Transport where
  | tcp (t : Tcp)
  | udp (dest : ℕ)
  | other

/-- A packet with what it leads to: the connection, the user and the peer of the connection, the
    interfaces, and what the ip sets say of it.  A packet is not tracked if it has no connection, or
    one without user and peer. -/
structure Packet where
  tracked : Bool
  conn : ℕ
  original : Bool
  user : ℕ
  peer : ℕ
  inDev : ℕ
  outDev : ℕ
  ipset : IpSetOracle
  transport : Transport

/-- `data_len`, which is negative where the headers say more than the packet has. -/
def Tcp.dataLen (t : Tcp) : ℤ := t.totLen - (t.ihl * 4 + t.doff * 4)

/-- `tolower` of a byte, on the letters of ASCII. -/
def toLower (c : ℕ) : ℕ := if 65 ≤ c ∧ c ≤ 90 then c + 32 else c

/-- `strncasecmp` with a literal is 0. -/
def startsWithNoCase (data : List ℕ) (s : List ℕ) : Bool :=
  (data.take s.length).map toLower = s.map toLower

/-- A request of HTTP: `GET ` or `POST ` with something behind it. -/
def Tcp.isHttp (t : Tcp) : Bool :=
  (4 < t.dataLen && startsWithNoCase t.data [71, 69, 84, 32]) ||
    (5 < t.dataLen && startsWithNoCase t.data [80, 79, 83, 84, 32])

/-! ## Users and connections -/

/-- A user: what the lookups write, and the time of the last message about the user. -/
structure User (w : ℕ) where
  hdr : UserHdr
  zoneMagic : ℕ
  ipgrpMagic : ℕ
  timeStamp : BitVec w

/-- The bits of a connection. -/
structure Conn where
  bypass : Bool
  drop : Bool

/-- What becomes of a packet: it goes on, as it is or as a reset, or it is dropped, with a redirect
    to the login page or without. -/
inductive Verdict where
  | accept
  | reset
  | redirect
  | drop
  deriving DecidableEq

/-- The packet goes on. -/
def Verdict.passes : Verdict → Bool
  | .accept | .reset => true
  | .redirect | .drop => false

/-- The packet goes to where users may go without login: `nos_auth_match_bypass_dst`, or the ports
    of DNS and DHCP. -/
def excused (bypassDst : Option ℕ) (p : Packet) : Bool :=
  (bypassDst.any fun s => 0 < p.ipset.testDstIp s) ||
    match p.transport with
    | .udp dest => dest = 53 || dest = 67
    | _ => false

/-- What a user that has to log in is let through. -/
def webVerdict : Transport → Verdict
  | .tcp t =>
    if t.isHttp then .redirect
    else if 0 < t.dataLen then .drop
    else if t.ack && !t.syn then .reset
    else .accept
  | _ => .drop

variable {w : ℕ}

/-- `time_after`. -/
def timeAfter (a b : BitVec w) : Bool := (b - a).msb

/-- The second half of `nos_auth_hook`: the verdict, the user and the connection, and whether a
    message about the user is sent. -/
def nosAuthGate (bypassDst : Option ℕ) (hz : ℕ) (jiffies : BitVec w) (p : Packet) (ui : User w)
    (ct : Conn) : Verdict × User w × Conn × Bool :=
  match ui.hdr.status with
  | .req =>
    match ui.hdr.type with
    | .web =>
      if excused bypassDst p then (.accept, ui, { ct with bypass := true }, false)
      else
        let v := webVerdict p.transport
        (v, ui, { ct with drop := ct.drop || !v.passes }, false)
    | .auto => (.accept, { ui with hdr := { ui.hdr with status := .ok } }, ct, false)
    | .unknown => (.accept, ui, ct, false)
  | .ok =>
    if timeAfter jiffies (ui.timeStamp + BitVec.ofNat w (30 * hz)) then
      (.accept, { ui with timeStamp := jiffies }, ct, true)
    else (.accept, ui, ct, false)
  | _ => (.accept, ui, ct, false)

/-! ## The hooks -/

/-- What the control files set. -/
structure Config where
  auth : AuthConf
  bypassDst : Option ℕ
  ipgrp : IpgrpConf
  zoneMap : ℕ → ℕ
  authMagic : ℕ
  zoneMagic : ℕ
  ipgrpMagic : ℕ

/-- A packet that the last hook let through, with what the hook saw: whether the hooks were on when
    the packet came and when it went, the bits of the connection, and the user after the lookups. -/
structure Passed (w : ℕ) where
  pkt : Packet
  entered : Bool
  enabled : Bool
  verdict : Verdict
  conn : Conn
  user : User w
  bypassDst : Option ℕ

/-- The state: the time, the configuration, users and connections, the packets between the hooks
    with whether the hooks were on when they came, the packets that the last hook let through and
    those that it refused, and the messages that were sent, by user and time. -/
structure Kernel (w : ℕ) where
  now : ℕ
  disabled : Bool
  config : Config
  users : ℕ → User w
  conns : ℕ → Conn
  inside : List (Packet × Bool)
  passed : List (Passed w)
  refused : List (Packet × Verdict)
  sent : List (ℕ × ℕ)

/-- `jiffies`. -/
def Kernel.jiffies (s : Kernel w) : BitVec w := BitVec.ofNat w s.now

/-- `nos_pre_hook` lets the packet in. -/
def Kernel.preHook (s : Kernel w) (p : Packet) : Bool :=
  s.disabled || !p.tracked || !(s.conns p.conn).drop

/-- The lookups of zones and groups in `nos_fw_hook`, of the user or of the peer. -/
def User.lookup (cfg : Config) (dev : ℕ) (bits : BitVec 64) (ui : User w) : User w :=
  let ui := if ui.zoneMagic ≠ cfg.zoneMagic then
      { ui with hdr := { ui.hdr with zoneId := cfg.zoneMap dev }, zoneMagic := cfg.zoneMagic }
    else ui
  if ui.ipgrpMagic ≠ cfg.ipgrpMagic then
    { ui with hdr := { ui.hdr with ipgrpBits := bits }, ipgrpMagic := cfg.ipgrpMagic }
  else ui

/-- The users after the lookups of the peer and of the user. -/
def Kernel.lookups (s : Kernel w) (p : Packet) : ℕ → User w :=
  let users := Function.update s.users p.peer
    ((s.users p.peer).lookup s.config p.outDev (nosIpgrpMatchDst p.ipset s.config.ipgrp))
  let users := Function.update users p.user
    ((users p.user).lookup s.config p.inDev (nosIpgrpMatchSrc p.ipset s.config.ipgrp))
  Function.update users p.user
    { users p.user with
      hdr := nosAuthHook p.ipset s.config.auth s.config.authMagic (users p.user).hdr }

/-- `nos_fw_hook` looks at the packet. -/
def Kernel.looks (s : Kernel w) (p : Packet) : Bool :=
  !s.disabled && p.tracked && !(s.conns p.conn).bypass && p.original

/-- A packet that is let through. -/
def Kernel.pass (s : Kernel w) (p : Packet) (entered : Bool) (v : Verdict) (users : ℕ → User w) :
    List (Passed w) :=
  if v.passes then
    s.passed ++ [⟨p, entered, !s.disabled, v, s.conns p.conn, users p.user, s.config.bypassDst⟩]
  else s.passed

/-- `nos_fw_hook` on a packet that was let in. -/
def Kernel.fwHook (hz : ℕ) (s : Kernel w) (p : Packet) (entered : Bool) : Kernel w :=
  if s.looks p then
    let users := s.lookups p
    let (v, ui, ct, msg) :=
      nosAuthGate s.config.bypassDst hz s.jiffies p (users p.user) (s.conns p.conn)
    { s with
      users := Function.update users p.user ui
      conns := Function.update s.conns p.conn ct
      passed := s.pass p entered v users
      refused := if v.passes then s.refused else s.refused ++ [(p, v)]
      sent := if msg then s.sent ++ [(p.user, s.now)] else s.sent }
  else { s with passed := s.pass p entered .accept s.users }

/-! ## Runs -/

/-- What happens: a packet comes, one that was let in gets to the last hook, `authd` sets the status
    of a user, a control file is written, which turns the hooks off and on again, and time. -/
inductive Event where
  | arrive (p : Packet)
  | forward (n : ℕ)
  | setStatus (u : ℕ) (st : AuthStatus)
  | disable (b : Bool)
  | configure (cfg : Config)
  | tick (d : ℕ)

def Kernel.step (hz : ℕ) (s : Kernel w) : Event → Kernel w
  | .arrive p => if s.preHook p then { s with inside := s.inside ++ [(p, !s.disabled)] } else s
  | .forward n =>
    match s.inside[n]? with
    | some (p, entered) => Kernel.fwHook hz { s with inside := s.inside.eraseIdx n } p entered
    | none => s
  | .setStatus u st =>
    let ui := { s.users u with hdr := { (s.users u).hdr with status := st } }
    { s with users := Function.update s.users u ui }
  | .disable b => { s with disabled := b }
  | .configure cfg => { s with config := cfg }
  | .tick d => { s with now := s.now + d }

def Kernel.run (hz : ℕ) (s : Kernel w) (evs : List Event) : Kernel w := evs.foldl (Kernel.step hz) s

/-- No connection is marked, nothing is under way. -/
def Kernel.init (now : ℕ) (cfg : Config) (users : ℕ → User w) : Kernel w where
  now := now
  disabled := false
  config := cfg
  users := users
  conns := fun _ => ⟨false, false⟩
  inside := []
  passed := []
  refused := []
  sent := []

end Nos
