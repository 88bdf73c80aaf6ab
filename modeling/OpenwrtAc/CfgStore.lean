/-
# The configuration that cfgmgr keeps

The commands of cfgmgr on ip groups, time groups, user groups, users, access rules and
authentication rules.  A command runs as one call in the database process: it reads the
tables, refuses with a text, or writes one table.
-/
import OpenwrtAc.KeyedRows

open KeyedRows

namespace CfgMgr

/-! ## Requests and rows -/

/-- An id in a list of a request: a number of the JSON text, or a string that spells one.  In SQL
    both are the number, in Lua they differ. -/
inductive Id where
  | num (n : ℤ)
  | text (n : ℤ)
  deriving DecidableEq, Repr

def Id.value : Id → ℤ
  | .num n => n
  | .text n => n

/-- `type(v) == "number"`. -/
def Id.isNum : Id → Bool
  | .num _ => true
  | .text _ => false

/-- The numbers that stand in `in (...)`. -/
def inPart (ids : List Id) : List ℤ := ids.map Id.value

/-- What admin-web lets through to a deletion: every id spells a number below `max`. -/
def idsBelow (max : ℤ) (ids : List Id) : Bool := ids.all fun i => 0 ≤ i.value ∧ i.value < max

structure Ipgroup where
  ipgid : ℤ
  ipgrpname : String
  ipgrpdesc : String
  ranges : String
  deriving DecidableEq, Repr

structure Timegroup where
  tmgid : ℤ
  tmgrpname : String
  tmgrpdesc : String
  days : String
  tmlist : String
  deriving DecidableEq, Repr

structure Acgroup where
  gid : ℤ
  groupname : String
  groupdesc : String
  pid : ℤ
  deriving DecidableEq, Repr

structure User where
  uid : ℤ
  username : String
  password : String
  userdesc : String
  enable : ℤ
  multi : ℤ
  bindip : String
  bindmac : String
  expire : String
  register : String
  gid : ℤ
  deriving DecidableEq, Repr

/-- The lists are the decoded texts of their columns. -/
structure Acrule where
  ruleid : ℤ
  rulename : String
  ruletype : String
  ruledesc : String
  src_zids : List Id
  src_ipgids : List Id
  dest_zids : List Id
  dest_ipgids : List Id
  proto_ids : List String
  tmgrp_ids : List Id
  actions : String
  enable : ℤ
  priority : ℤ
  deriving DecidableEq, Repr

structure Authrule where
  rid : ℤ
  rulename : String
  ruledesc : String
  zid : ℤ
  ipgid : ℤ
  authtype : String
  enable : ℤ
  modules : String
  iscloud : ℤ
  priority : ℤ
  white_ip : String
  white_mac : String
  wechat : String
  sms : String
  redirect : String
  deriving DecidableEq, Repr

/-- What the commands read and write.  They write neither the zones nor the protocols. -/
structure Store where
  zones : List ℤ
  protos : List String
  ipgroups : List Ipgroup
  timegroups : List Timegroup
  acgroups : List Acgroup
  users : List User
  acrules : List Acrule
  authrules : List Authrule

/-! ## What the commands have in common -/

/-- The loop of `next_id`: the first place, from `i` on, whose id is above the place less one. -/
def nextIdLoop : ℤ → List ℤ → Option ℤ
  | _, [] => none
  | i, v :: vs => if v > i - 1 then some (i - 1) else nextIdLoop (i + 1) vs

def nextId (ids : List ℤ) (max : ℕ) : Except String ℤ :=
  let ids := ids.insertionSort (· ≤ ·)
  if ids.length = max then .error "full"
  else if ids.length = 0 then .ok 0
  else
    match nextIdLoop 1 ids with
    | some vv => .ok vv
    | none => .ok ids.length

/-- One more than the last of the sorted priorities. -/
def nextPriority (priorities : List ℤ) : ℤ :=
  match (priorities.insertionSort (· ≤ ·)).getLast? with
  | some priority => priority + 1
  | none => 0

/-- The columns that the commands of a table go by.  `fill r p` is the row that an update of `r`
    by the request `p` leaves. -/
structure Table (α : Type) where
  id : α → ℤ
  name : α → String
  setId : α → ℤ → α
  fill : α → α → α
  id_setId : ∀ r i, id (setId r i) = i
  name_setId : ∀ r i, name (setId r i) = name r
  id_fill : ∀ r p, id (fill r p) = id p
  name_fill : ∀ r p, name (fill r p) = name p

/-- A table whose rows are read in the order of a priority. -/
structure RankTable (α : Type) extends Table α where
  rank : α → ℤ
  setRank : α → ℤ → α
  rank_setRank : ∀ r n, rank (setRank r n) = n
  id_setRank : ∀ r n, id (setRank r n) = id r
  name_setRank : ∀ r n, name (setRank r n) = name r

section

variable {α : Type}

/-- An update: the one row of the id or the name must have the id, and nothing is written where
    nothing changes. -/
def Table.setRow [DecidableEq α] (t : Table α) (invalid : String) (p : α) (rows : List α) :
    Except String (List α) :=
  match pick t.id t.name rows (t.id p) (t.name p) with
  | none => .error invalid
  | some r =>
    if t.fill r p = r then .ok rows
    else .ok (rewrite t.id (t.id p) (fun r => t.fill r p) rows)

/-- The id of a new row, where no row has its name. -/
def Table.newId (t : Table α) (exists_ : String) (max : ℕ) (p : α) (rows : List α) :
    Except String ℤ :=
  if rows.any fun r => t.name r = t.name p then .error exists_
  else nextId (rows.map t.id) max

def Table.addRow (t : Table α) (exists_ : String) (max : ℕ) (p : α) (rows : List α) :
    Except String (List α) := do
  let id ← t.newId exists_ max p rows
  .ok (rows ++ [t.setId p id])

def Table.delRows (t : Table α) (ids : List Id) (rows : List α) : List α :=
  rows.filter fun r => t.id r ∉ inPart ids

/-- A new row behind all others. -/
def RankTable.addLast (t : RankTable α) (exists_ : String) (max : ℕ) (p : α) (rows : List α) :
    Except String (List α) := do
  let id ← t.newId exists_ max p rows
  .ok (rows ++ [t.setRank (t.setId p id) (nextPriority (rows.map t.rank))])

/-- Two rows change their priorities, in one transaction. -/
def RankTable.adjust (t : RankTable α) (invalid : String) (ids : List Id) (rows : List α) :
    Except String (List α) :=
  match rows.filter fun r => t.id r ∈ inPart ids with
  | [r₁, r₂] =>
    .ok (rewrite t.id (t.id r₂) (fun r => t.setRank r (t.rank r₁))
      (rewrite t.id (t.id r₁) (fun r => t.setRank r (t.rank r₂)) rows))
  | _ => .error invalid

end

def ipgroup : Table Ipgroup where
  id := (·.ipgid)
  name := (·.ipgrpname)
  setId := fun r i => { r with ipgid := i }
  fill := fun _ p => p
  id_setId := fun _ _ => rfl
  name_setId := fun _ _ => rfl
  id_fill := fun _ _ => rfl
  name_fill := fun _ _ => rfl

def timegroup : Table Timegroup where
  id := (·.tmgid)
  name := (·.tmgrpname)
  setId := fun r i => { r with tmgid := i }
  fill := fun _ p => p
  id_setId := fun _ _ => rfl
  name_setId := fun _ _ => rfl
  id_fill := fun _ _ => rfl
  name_fill := fun _ _ => rfl

def acgroup : Table Acgroup where
  id := (·.gid)
  name := (·.groupname)
  setId := fun r i => { r with gid := i }
  fill := fun _ p => p
  id_setId := fun _ _ => rfl
  name_setId := fun _ _ => rfl
  id_fill := fun _ _ => rfl
  name_fill := fun _ _ => rfl

def user : Table User where
  id := (·.uid)
  name := (·.username)
  setId := fun r i => { r with uid := i }
  fill := fun _ p => p
  id_setId := fun _ _ => rfl
  name_setId := fun _ _ => rfl
  id_fill := fun _ _ => rfl
  name_fill := fun _ _ => rfl

/-- A request has no `ruletype`: an update leaves it, and a new row gets the default of the
    column. -/
def acrule : RankTable Acrule where
  id := (·.ruleid)
  name := (·.rulename)
  setId := fun r i => { r with ruleid := i, ruletype := "control" }
  fill := fun r p => { p with ruletype := r.ruletype }
  rank := (·.priority)
  setRank := fun r n => { r with priority := n }
  id_setId := fun _ _ => rfl
  name_setId := fun _ _ => rfl
  id_fill := fun _ _ => rfl
  name_fill := fun _ _ => rfl
  rank_setRank := fun _ _ => rfl
  id_setRank := fun _ _ => rfl
  name_setRank := fun _ _ => rfl

def authrule : RankTable Authrule where
  id := (·.rid)
  name := (·.rulename)
  setId := fun r i => { r with rid := i }
  fill := fun _ p => p
  rank := (·.priority)
  setRank := fun r n => { r with priority := n }
  id_setId := fun _ _ => rfl
  name_setId := fun _ _ => rfl
  id_fill := fun _ _ => rfl
  name_fill := fun _ _ => rfl
  rank_setRank := fun _ _ => rfl
  id_setRank := fun _ _ => rfl
  name_setRank := fun _ _ => rfl

/-- The command goes on where the check holds. -/
def require (ok : Bool) (e : String) : Except String Unit := if ok then .ok () else .error e

/-! ## Ip groups -/

def ipgroupSet (p : Ipgroup) (s : Store) : Except String Store := do
  let rows ← ipgroup.setRow "invalid ipgid or dup ipgrpname" p s.ipgroups
  .ok { s with ipgroups := rows }

def ipgroupAdd (p : Ipgroup) (s : Store) : Except String Store := do
  let rows ← ipgroup.addRow "exists ipgrpname" 64 p s.ipgroups
  .ok { s with ipgroups := rows }

/-- `#` of a table whose values are all `true`, by its keys in the order in which they were set:
    an index with nothing behind it, and where there are several any of them. -/
structure Length where
  of : List Id → ℕ
  border : ∀ keys, (of keys = 0 ∨ .num (of keys) ∈ keys) ∧ .num (of keys + 1) ∉ keys

/-- `table.sort` of such a table, which first compares the last element with the first one. -/
def sortMarks (len : Length) (keys : List Id) : Except String Unit :=
  require (len.of keys < 2)
    (if .num 1 ∈ keys then "attempt to compare two boolean values"
    else "attempt to compare boolean with nil")

/-- The check of one of the two lists of ids of the rules.  They are compared by the JSON value. -/
def checkCited (len : Length) (ids keys : List Id) : Except String Unit := do
  sortMarks len keys
  require (ids.all fun i => i ∉ keys) "referenced"

/-- The authentication rules are looked up by the number, in SQL. -/
def ipgroupDel (len : Length) (ids : List Id) (s : Store) : Except String Store := do
  let count := (s.authrules.filter fun r => r.ipgid ∈ inPart ids).length
  require (count + count = 0) "referenced"
  checkCited len ids (s.acrules.flatMap (·.src_ipgids))
  checkCited len ids (s.acrules.flatMap (·.dest_ipgids))
  .ok { s with ipgroups := ipgroup.delRows ids s.ipgroups }

/-! ## Time groups -/

def timegroupSet (p : Timegroup) (s : Store) : Except String Store := do
  let rows ← timegroup.setRow "invalid tmgid or dup tmgrpname" p s.timegroups
  .ok { s with timegroups := rows }

def timegroupAdd (p : Timegroup) (s : Store) : Except String Store := do
  let rows ← timegroup.addRow "exists tmgrpname" 256 p s.timegroups
  .ok { s with timegroups := rows }

def timegroupDel (ids : List Id) (s : Store) : Except String Store := do
  require (ids.all fun i => i ∉ s.acrules.flatMap (·.tmgrp_ids)) "referenced"
  .ok { s with timegroups := timegroup.delRows ids s.timegroups }

/-! ## User groups -/

def pidExists (pid : ℤ) (s : Store) : Bool := pid = -1 || s.acgroups.any fun r => r.gid = pid

def acgroupSet (p : Acgroup) (s : Store) : Except String Store := do
  require (pidExists p.pid s) "invalid pid"
  let rows ← acgroup.setRow "invalid gid or dup groupname" p s.acgroups
  .ok { s with acgroups := rows }

def acgroupAdd (p : Acgroup) (s : Store) : Except String Store := do
  require (pidExists p.pid s) "invalid pid"
  let rows ← acgroup.addRow "dup groupname" 64 p s.acgroups
  .ok { s with acgroups := rows }

def acgroupDel (ids : List Id) (s : Store) : Except String Store := do
  let parents := (s.acgroups.filter fun r => r.pid ∈ inPart ids).length
  let members := (s.users.filter fun r => r.gid ∈ inPart ids).length
  require (parents + members = 0) "referenced"
  .ok { s with acgroups := acgroup.delRows ids s.acgroups }

/-! ## Users -/

def gidExists (gid : ℤ) (s : Store) : Bool := s.acgroups.any fun r => r.gid = gid

def userSet (p : User) (s : Store) : Except String Store := do
  require (gidExists p.gid s) "invalid gid"
  let rows ← user.setRow "invalid rid or dup username" p s.users
  .ok { s with users := rows }

/-- `now` is the date that the command writes. -/
def userAdd (p : User) (now : String) (s : Store) : Except String Store := do
  require (gidExists p.gid s) "invalid gid"
  require (s.users.all fun r => r.username ≠ p.username) "dup username"
  let maxUid := (s.users.map (·.uid)).max?
  .ok { s with users := s.users ++ [{ p with uid := maxUid.getD (-1) + 1, register := now }] }

def userDel (ids : List Id) (s : Store) : Except String Store :=
  .ok { s with users := user.delRows ids s.users }

/-! ## Access rules -/

/-- The ids of a list are numbers and each names a row of its own. -/
def checkIds (invalid missing : String) (ids : List Id) (keys : List ℤ) : Except String Unit := do
  require (ids.all Id.isNum) invalid
  require (ids.length ≤ (keys.filter fun k => k ∈ inPart ids).length) missing

def checkRule (p : Acrule) (s : Store) : Except String Unit := do
  require (p.src_zids.all Id.isNum) "invalid src_zids"
  require (p.dest_zids.all Id.isNum) "invalid dest_zids"
  checkIds "invalid src_ipgids" "invalid src_ipgroup" p.src_ipgids (s.ipgroups.map (·.ipgid))
  checkIds "invalid dest_ipgids" "invalid dest_ipgroup" p.dest_ipgids (s.ipgroups.map (·.ipgid))
  require (p.proto_ids.length ≤ (s.protos.filter fun k => k ∈ p.proto_ids).length)
    "invalid protocol"
  checkIds "invalid tmgrp_ids" "invalid timegroup" p.tmgrp_ids (s.timegroups.map (·.tmgid))

def acruleSet (p : Acrule) (s : Store) : Except String Store := do
  checkRule p s
  let rows ← acrule.setRow "invalid ruleid or dup rulename" p s.acrules
  .ok { s with acrules := rows }

def acruleAdd (p : Acrule) (s : Store) : Except String Store := do
  checkRule p s
  let rows ← acrule.addLast "exists rulename" 64 p s.acrules
  .ok { s with acrules := rows }

def acruleDel (ids : List Id) (s : Store) : Except String Store :=
  .ok { s with acrules := acrule.delRows ids s.acrules }

def acruleAdjust (ids : List Id) (s : Store) : Except String Store := do
  let rows ← acrule.adjust "invalid ruleids" ids s.acrules
  .ok { s with acrules := rows }

/-! ## Authentication rules -/

/-- The rows with the ip group and the rows with the zone are two. -/
def checkReference (p : Authrule) (s : Store) : Except String Unit :=
  let ipgroups := (s.ipgroups.filter fun r => r.ipgid = p.ipgid).length
  let zones := (s.zones.filter fun zid => zid = p.zid).length
  require (ipgroups + zones = 2) "invalid reference"

def authruleSet (p : Authrule) (s : Store) : Except String Store := do
  checkReference p s
  let rows ← authrule.setRow "invalid rid or dup rulename" p s.authrules
  .ok { s with authrules := rows }

def authruleAdd (p : Authrule) (s : Store) : Except String Store := do
  checkReference p s
  let rows ← authrule.addLast "exists rulename" 16 p s.authrules
  .ok { s with authrules := rows }

def authruleDel (ids : List Id) (s : Store) : Except String Store :=
  .ok { s with authrules := authrule.delRows ids s.authrules }

def authruleAdjust (ids : List Id) (s : Store) : Except String Store := do
  let rows ← authrule.adjust "invalid rids" ids s.authrules
  .ok { s with authrules := rows }

/-! ## Runs -/

inductive Cmd where
  | ipgroupSet (p : Ipgroup)
  | ipgroupAdd (p : Ipgroup)
  | ipgroupDel (ids : List Id)
  | timegroupSet (p : Timegroup)
  | timegroupAdd (p : Timegroup)
  | timegroupDel (ids : List Id)
  | acgroupSet (p : Acgroup)
  | acgroupAdd (p : Acgroup)
  | acgroupDel (ids : List Id)
  | userSet (p : User)
  | userAdd (p : User) (now : String)
  | userDel (ids : List Id)
  | acruleSet (p : Acrule)
  | acruleAdd (p : Acrule)
  | acruleDel (ids : List Id)
  | acruleAdjust (ids : List Id)
  | authruleSet (p : Authrule)
  | authruleAdd (p : Authrule)
  | authruleDel (ids : List Id)
  | authruleAdjust (ids : List Id)

def exec (len : Length) (s : Store) : Cmd → Except String Store
  | .ipgroupSet p => ipgroupSet p s
  | .ipgroupAdd p => ipgroupAdd p s
  | .ipgroupDel ids => ipgroupDel len ids s
  | .timegroupSet p => timegroupSet p s
  | .timegroupAdd p => timegroupAdd p s
  | .timegroupDel ids => timegroupDel ids s
  | .acgroupSet p => acgroupSet p s
  | .acgroupAdd p => acgroupAdd p s
  | .acgroupDel ids => acgroupDel ids s
  | .userSet p => userSet p s
  | .userAdd p now => userAdd p now s
  | .userDel ids => userDel ids s
  | .acruleSet p => acruleSet p s
  | .acruleAdd p => acruleAdd p s
  | .acruleDel ids => acruleDel ids s
  | .acruleAdjust ids => acruleAdjust ids s
  | .authruleSet p => authruleSet p s
  | .authruleAdd p => authruleAdd p s
  | .authruleDel ids => authruleDel ids s
  | .authruleAdjust ids => authruleAdjust ids s

/-- The tables after a command: a command that refuses has written nothing. -/
def step (len : Length) (s : Store) (c : Cmd) : Store :=
  match exec len s c with
  | .ok s' => s'
  | .error _ => s

def run (len : Length) (s : Store) (cs : List Cmd) : Store := cs.foldl (step len) s

/-- The rows that the database starts with, with the texts of the days and the times of all week. -/
def defaults (protos : List String) (days tmlist : String) : Store where
  zones := [0, 1, 255]
  protos := protos
  ipgroups := [⟨63, "ALL", "ALL", "[\"0.0.0.0-255.255.255.255\"]"⟩]
  timegroups := [⟨255, "ALL", "ALL", days, tmlist⟩]
  acgroups := [⟨63, "default", "default", -1⟩]
  users := []
  acrules := []
  authrules := []

end CfgMgr
