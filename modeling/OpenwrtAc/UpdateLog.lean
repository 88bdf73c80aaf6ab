/-
# Transactions, the log and the snapshots of the configuration database

`simplesql.lua` executes the statements of a transaction and has them logged before it
commits; `updatelog.lua` writes the log and, when it has grown too large, has `db.sh`
make a snapshot of the database file and remove the log.  sqlite writes the changes of a
transaction to the file only when it commits.
-/
import OpenwrtAc.Outcome
import OpenwrtAc.DbRestore

open Rds

namespace ConfigDb

variable {S : Type}

/-- `disk.db.tgz`, if there is one, and the bytes of `log.bin`. -/
structure Disk (S : Type) where
  snapshot : Option S
  log : Bytes
deriving DecidableEq, Repr

/-- `max_log_size`, what `fp:seek` says of a log of some length that was just opened, the database
    without a snapshot, and what a statement does to a database. -/
structure Config (S : Type) where
  maxLogSize : ℕ
  opened : ℕ → ℕ
  init : S
  exec : S → Bytes → Except SqlError S

/-- The database as it was committed, which is in its file, the disk, the statements that wait for
    being logged, and what `fp:seek` says. -/
structure Store (S : Type) where
  db : S
  disk : Disk S
  cache : List Bytes
  pos : ℕ
deriving DecidableEq, Repr

/-- What `db.sh backup` does to the disk, in steps: the snapshot there is moved away, the new one
    put in its place, and the log removed. -/
def Disk.unhooked (d : Disk S) : Disk S := { d with snapshot := none }

def Disk.installed (d : Disk S) (db : S) : Disk S := { d with snapshot := some db }

def Disk.backedUp (db : S) : Disk S := ⟨some db, []⟩

/-- The bytes that `save` writes: the records of the statements that wait.  `rds_encode` ends the
    process for a statement that has none. -/
def cached (sqls : List Bytes) : Except Stop Bytes := do
  let arr ← sqls.mapM record
  return arr.flatten

/-- The first part of `save`: the records are written. -/
def Store.flush (s : Store S) : Except Stop (Store S) := do
  let data ← cached s.cache
  return if s.cache = [] then s
    else { s with cache := [], disk := { s.disk with log := s.disk.log ++ data },
                  pos := (s.disk.log ++ data).length }

/-- `save` makes a snapshot. -/
def Store.full (cfg : Config S) (force : Bool) (s : Store S) : Bool := force || cfg.maxLogSize ≤ s.pos

/-- The second part of `save`: the snapshot is made of the file. -/
def Store.shrink (cfg : Config S) (force : Bool) (s : Store S) : Store S :=
  if s.full cfg force then { s with disk := Disk.backedUp s.db, pos := cfg.opened 0 } else s

/-- `save`. -/
def Store.save (cfg : Config S) (force : Bool) (s : Store S) : Except Stop (Store S) := do
  return (← s.flush).shrink cfg force

/-- The statements of a transaction; one that fails makes the transaction fail. -/
def runAll (exec : S → Bytes → Except SqlError S) : List Bytes → S → Option S
  | [], db => some db
  | sql :: rest, db =>
    match exec db sql with
    | .ok db => runAll exec rest db
    | .error _ => none

/-- What is done to the database: a transaction, of which `memo` says that it is not logged, the
    end of the time after which the log is saved, and a backup that is asked for. -/
inductive Op where
  | transaction (param : List Bytes) (memo : Bool)
  | timeout
  | backup
deriving DecidableEq, Repr

/-- The transaction of `simplesql.lua`: the statements are executed, `save_log` saves them, and the
    transaction is committed or rolled back. -/
def Store.transaction (cfg : Config S) (param : List Bytes) (memo : Bool) (s : Store S) :
    Except Stop (Store S) :=
  match runAll cfg.exec param s.db with
  | none => .ok s
  | some db => do
    let s ← if memo then pure s else Store.save cfg false { s with cache := s.cache ++ param }
    return { s with db := db }

def Store.apply (cfg : Config S) (s : Store S) : Op → Except Stop (Store S)
  | .transaction param memo => s.transaction cfg param memo
  | .timeout => s.save cfg false
  | .backup => s.save cfg true

/-! ## Crashes -/

/-- When the power goes: before anything is written, with a part of the records written, behind
    the records, with the old snapshot moved away, with the new one in place, or at the end of
    `save`. -/
inductive Moment where
  | before
  | writing (n : ℕ)
  | written
  | unhooked
  | installed
  | saved
deriving DecidableEq, Repr

/-- The disk at a moment of `save`, if the moment comes. -/
def Store.duringSave (cfg : Config S) (force : Bool) (s : Store S) : Moment → Option (Disk S)
  | .before => some s.disk
  | .writing n =>
    match cached s.cache with
    | .ok data => some { s.disk with log := s.disk.log ++ data.take n }
    | .error _ => none
  | .written => s.flush.toOption.map Store.disk
  | .unhooked => (s.flush.toOption.filter (Store.full cfg force)).map fun s => s.disk.unhooked
  | .installed => (s.flush.toOption.filter (Store.full cfg force)).map fun s => s.disk.installed s.db
  | .saved => (s.save cfg force).toOption.map Store.disk

/-- The disk at a moment of an operation, before it has committed. -/
def Store.during (cfg : Config S) (s : Store S) : Op → Moment → Option (Disk S)
  | .transaction param memo, t =>
    if memo || (runAll cfg.exec param s.db).isNone then some s.disk
    else Store.duringSave cfg false { s with cache := s.cache ++ param } t
  | .timeout, t => s.duringSave cfg false t
  | .backup, t => s.duringSave cfg true t

/-- What is there after a crash: the snapshot is unpacked and the log recovered. -/
def Disk.restore (cfg : Config S) (d : Disk S) : Recovery S :=
  recover cfg.exec d.log (d.snapshot.getD cfg.init)

/-- A crash leaves the committed state: the log is read to its end and gives it. -/
def Disk.Restores (cfg : Config S) (d : Disk S) (db : S) : Prop :=
  (d.restore cfg).ending = .closed ∧ (d.restore cfg).db = db

/-! ## What is logged -/

/-- Two lists of statements, one behind the other. -/
theorem runAll_append (exec : S → Bytes → Except SqlError S) (l l' : List Bytes) (db : S) :
    runAll exec (l ++ l') db = (runAll exec l db).bind (runAll exec l') := by
  induction l generalizing db with
  | nil => rfl
  | cons sql l ih =>
    rw [List.cons_append, runAll, runAll]
    split
    · exact ih _
    · rfl

/-- Statements that succeed can be executed again. -/
theorem execAll_of_runAll {exec : S → Bytes → Except SqlError S} {l : List Bytes} {db db' : S}
    (h : runAll exec l db = some db') : execAll exec l db = some db' := by
  induction l generalizing db with
  | nil => exact h
  | cons sql l ih =>
    rw [runAll] at h
    rw [execAll]
    split at h
    next db₁ hexec =>
      simp only [hexec]
      exact ih h
    · cases h

/-- Records come of statements that can be logged. -/
theorem mapM_record {sqls arr : List Bytes} (h : sqls.mapM record = .ok arr) :
    ∃ l : List Stmt, l.map Stmt.sql = sqls ∧ arr.flatten = records l := by
  induction sqls generalizing arr with
  | nil =>
    cases h
    exact ⟨[], rfl, rfl⟩
  | cons sql sqls ih =>
    rw [List.mapM_cons] at h
    obtain ⟨out, hout, h⟩ := Outcome.bind_eq_ok.1 h
    obtain ⟨outs, houts, h⟩ := Outcome.bind_eq_ok.1 h
    cases Outcome.pure_eq_ok.1 h
    obtain ⟨l, rfl, hl⟩ := ih houts
    have hsql := (record_ok_iff sql).1 ⟨out, hout⟩
    have hrec := record_eq ⟨sql, hsql⟩
    refine ⟨⟨sql, hsql⟩ :: l, rfl, ?_⟩
    rw [List.flatten_cons, hl, Except.ok.inj (hout.symm.trans hrec)]
    rfl

/-- What is cached are records of the statements. -/
theorem cached_ok {sqls : List Bytes} {data : Bytes} (h : cached sqls = .ok data) :
    ∃ l : List Stmt, l.map Stmt.sql = sqls ∧ data = records l := by
  obtain ⟨arr, harr, hdata⟩ := Outcome.bind_eq_ok.1 h
  obtain ⟨l, hl, hflat⟩ := mapM_record harr
  exact ⟨l, hl, (Outcome.pure_eq_ok.1 hdata).symm.trans hflat⟩

/-! ## Runs -/

/-- A transaction that changes the database is logged, and its records do not make the log reach the
    size at which a snapshot is made. -/
def Gentle (cfg : Config S) (s : Store S) : Op → Prop
  | .transaction param memo => ∀ db, runAll cfg.exec param s.db = some db → db ≠ s.db →
      memo = false ∧ ∀ data, cached (s.cache ++ param) = .ok data →
        (s.disk.log ++ data).length < cfg.maxLogSize
  | _ => True

/-- Moments of `save` at which the disk still has the database, if the statements that wait do not
    change it: not between moving a snapshot away and removing a log, and not within a record. -/
structure Settled (s : Store S) (t : Moment) : Prop where
  unhooked : t = .unhooked → s.disk.snapshot = none
  installed : t = .installed → s.disk.log = [] ∧ s.cache = []
  writing : ∀ n, t = .writing n → s.cache = []

/-- Moments that do no harm.  In a transaction that changes the database and is logged, there is
    only the one before the first record is written. -/
def Harmless (cfg : Config S) (s : Store S) : Op → Moment → Prop
  | .transaction param memo, t => memo = true ∨ runAll cfg.exec param s.db = none ∨ t = .before
      ∨ (runAll cfg.exec param s.db = some s.db ∧ Settled { s with cache := s.cache ++ param } t)
  | _, t => Settled s t

/-- The transactions that are committed behind an operation. -/
def commits (cfg : Config S) (s : Store S) (committed : List (List Bytes)) : Op → List (List Bytes)
  | .transaction param _ =>
    if (runAll cfg.exec param s.db).isSome then committed ++ [param] else committed
  | _ => committed

/-- The stores of runs whose operations all meet `ok`, with the transactions that were committed. -/
inductive Reached (cfg : Config S) (ok : Store S → Op → Prop) : List (List Bytes) → Store S → Prop
  | start : Reached cfg ok [] ⟨cfg.init, ⟨none, []⟩, [], cfg.opened 0⟩
  | step {committed : List (List Bytes)} {s s' : Store S} {op : Op} (h : Reached cfg ok committed s)
      (hok : ok s op) (hs : s.apply cfg op = .ok s') : Reached cfg ok (commits cfg s committed op) s'

/-- The log holds the statements that lead from the snapshot to the database. -/
def Disk.Logs (cfg : Config S) (d : Disk S) (db : S) : Prop :=
  ∃ l : List Stmt, d.log = records l
    ∧ runAll cfg.exec (l.map Stmt.sql) (d.snapshot.getD cfg.init) = some db

/-- A disk that logs the database restores it. -/
theorem Disk.Logs.restores {cfg : Config S} {d : Disk S} {db : S} (h : d.Logs cfg db) :
    d.Restores cfg db := by
  obtain ⟨l, hlog, hrun⟩ := h
  unfold Disk.Restores Disk.restore
  rw [hlog, recover_records (execAll_of_runAll hrun)]
  exact ⟨rfl, rfl⟩

/-- A backup logs the database. -/
theorem logs_backedUp (cfg : Config S) (db : S) : (Disk.backedUp db).Logs cfg db := ⟨[], rfl, rfl⟩

/-- The records of statements behind a log. -/
theorem Disk.Logs.append {cfg : Config S} {d : Disk S} {db db' : S} {sqls : List Bytes}
    {data : Bytes}
    (h : d.Logs cfg db) (hdata : cached sqls = .ok data) (hrun : runAll cfg.exec sqls db = some db') :
    Disk.Logs cfg { d with log := d.log ++ data } db' := by
  obtain ⟨l, hlog, hl⟩ := h
  obtain ⟨l', rfl, rfl⟩ := cached_ok hdata
  refine ⟨l ++ l', ?_, ?_⟩
  · rw [hlog, records, records, records, List.flatMap_append]
  · rw [List.map_append, runAll_append, hl]
    exact hrun

/-- What writing the records does. -/
theorem flush_spec {s s' : Store S} (h : s.flush = .ok s') :
    ∃ data, cached s.cache = .ok data ∧ s'.disk = { s.disk with log := s.disk.log ++ data }
      ∧ s'.db = s.db ∧ s'.cache = [] ∧ (s.cache ≠ [] → s'.pos = (s.disk.log ++ data).length) := by
  unfold Store.flush at h
  obtain ⟨data, hdata, h⟩ := Outcome.bind_eq_ok.1 h
  refine ⟨data, hdata, ?_⟩
  cases Outcome.pure_eq_ok.1 h
  by_cases hc : s.cache = []
  · rw [hc] at hdata
    cases hdata
    rw [if_pos hc]
    refine ⟨?_, rfl, hc, fun hne => absurd hc hne⟩
    change s.disk = { s.disk with log := s.disk.log ++ [] }
    rw [List.append_nil]
  · rw [if_neg hc]
    exact ⟨rfl, rfl, rfl, fun _ => rfl⟩

/-- The records of the statements that wait are what the log lacks. -/
theorem Disk.Logs.flush {cfg : Config S} {s s' : Store S} {db db' : S} (h : s.disk.Logs cfg db)
    (hrun : runAll cfg.exec s.cache db = some db') (hs : s.flush = .ok s') :
    s'.disk.Logs cfg db' := by
  obtain ⟨data, hdata, hdisk, -, -, -⟩ := flush_spec hs
  rw [hdisk]
  exact h.append hdata hrun

/-- A save flushes the log, and shortens it. -/
theorem save_ok {cfg : Config S} {s s' : Store S} {force : Bool} (h : s.save cfg force = .ok s') :
    ∃ s₁, s.flush = .ok s₁ ∧ s' = s₁.shrink cfg force := by
  obtain ⟨s₁, h₁, h⟩ := Outcome.bind_eq_ok.1 h
  exact ⟨s₁, h₁, (Outcome.pure_eq_ok.1 h).symm⟩

@[simp] theorem shrink_db (cfg : Config S) (force : Bool) (s : Store S) :
    (s.shrink cfg force).db = s.db := by
  unfold Store.shrink
  split <;> rfl

@[simp] theorem shrink_cache (cfg : Config S) (force : Bool) (s : Store S) :
    (s.shrink cfg force).cache = s.cache := by
  unfold Store.shrink
  split <;> rfl

/-- A snapshot of the database in its file does no harm if the log leads to that database. -/
theorem Disk.Logs.shrink {cfg : Config S} {s : Store S} {force : Bool} {db : S}
    (h : s.disk.Logs cfg db) (hdb : s.full cfg force = true → db = s.db) :
    (s.shrink cfg force).disk.Logs cfg db := by
  unfold Store.shrink
  split
  next hfull =>
    rw [hdb hfull]
    exact logs_backedUp cfg s.db
  next => exact h

/-- Between operations: nothing waits for being logged, the disk has what was committed, and that is
    what the committed transactions make of the database at the beginning. -/
structure Kept (cfg : Config S) (committed : List (List Bytes)) (s : Store S) : Prop where
  cache : s.cache = []
  logs : s.disk.Logs cfg s.db
  history : runAll cfg.exec committed.flatten cfg.init = some s.db

/-- `save` when nothing waits. -/
theorem Kept.save {cfg : Config S} {committed : List (List Bytes)} {s s' : Store S} {force : Bool}
    (h : Kept cfg committed s) (hs : s.save cfg force = .ok s') : Kept cfg committed s' := by
  obtain ⟨s₁, h₁, rfl⟩ := save_ok hs
  obtain ⟨-, -, -, hdb, hcache, -⟩ := flush_spec h₁
  have hrun : runAll cfg.exec s.cache s.db = some s.db := by
    rw [h.cache]
    rfl
  have hlogs : s₁.disk.Logs cfg s₁.db := hdb ▸ h.logs.flush hrun h₁
  refine ⟨?_, ?_, ?_⟩
  · rw [shrink_cache]
    exact hcache
  · rw [shrink_db]
    exact hlogs.shrink fun _ => rfl
  · rw [shrink_db, hdb]
    exact h.history

/-- A transaction that is logged and does not make the log too large. -/
theorem Kept.logged {cfg : Config S} {committed : List (List Bytes)} {s s₁ : Store S}
    {param : List Bytes} {db : S} (h : Kept cfg committed s)
    (hok : Gentle cfg s (.transaction param false)) (hrun : runAll cfg.exec param s.db = some db)
    (hs : Store.save cfg false { s with cache := s.cache ++ param } = .ok s₁) :
    s₁.cache = [] ∧ s₁.disk.Logs cfg db := by
  obtain ⟨s₂, h₂, rfl⟩ := save_ok hs
  obtain ⟨data, hdata, -, hdb, hcache, hpos⟩ := flush_spec h₂
  rw [shrink_cache]
  refine ⟨hcache, Disk.Logs.shrink ?_ fun hfull => ?_⟩
  · refine Disk.Logs.flush (s := { s with cache := s.cache ++ param }) h.logs ?_ h₂
    rw [h.cache]
    exact hrun
  · -- a snapshot is only made when the transaction has changed nothing
    rw [hdb]
    by_contra hne
    have hlt := (hok db hrun hne).2 data hdata
    have hparam : s.cache ++ param ≠ [] := by
      intro hnil
      rw [(List.append_eq_nil_iff.1 hnil).2] at hrun
      exact hne (Option.some.inj hrun).symm
    have hle : cfg.maxLogSize ≤ s₂.pos := by simpa [Store.full] using hfull
    rw [hpos hparam] at hle
    exact absurd hle (Nat.not_le.2 hlt)

/-- Every operation keeps the disk. -/
theorem Kept.step {cfg : Config S} {committed : List (List Bytes)} {s s' : Store S} {op : Op}
    (h : Kept cfg committed s) (hok : Gentle cfg s op) (hs : s.apply cfg op = .ok s') :
    Kept cfg (commits cfg s committed op) s' := by
  cases op with
  | timeout => exact h.save hs
  | backup => exact h.save hs
  | transaction param memo =>
    rw [Store.apply, Store.transaction] at hs
    rw [commits]
    cases hrun : runAll cfg.exec param s.db with
    | none =>
      rw [hrun] at hs
      cases hs
      exact h
    | some db =>
      rw [hrun] at hs
      have hist : runAll cfg.exec (committed ++ [param]).flatten cfg.init = some db := by
        rw [List.flatten_append, List.flatten_singleton, runAll_append, h.history]
        exact hrun
      cases memo with
      | false =>
        obtain ⟨s₁, h₁, hs⟩ := Outcome.bind_eq_ok.1 hs
        cases Outcome.pure_eq_ok.1 hs
        obtain ⟨hcache, hlogs⟩ := h.logged hok hrun h₁
        exact ⟨hcache, hlogs, hist⟩
      | true =>
        cases hs
        have hdb : db = s.db := by
          by_contra hne
          exact Bool.noConfusion (hok db hrun hne).1
        subst hdb
        exact ⟨h.cache, h.logs, hist⟩

/-- The disk of every state reached so. -/
theorem Reached.kept {cfg : Config S} {committed : List (List Bytes)} {s : Store S}
    (h : Reached cfg (Gentle cfg) committed s) : Kept cfg committed s := by
  induction h with
  | start => exact ⟨rfl, ⟨[], rfl, rfl⟩, rfl⟩
  | step _ hok hs ih => exact ih.step hok hs

/-! ## What a crash leaves -/

theorem eq_ok_of_toOption {ε α : Type} {x : Except ε α} {a : α} (h : x.toOption = some a) :
    x = .ok a := by
  cases x with
  | error e => cases h
  | ok b => exact congrArg Except.ok (Option.some.inj h)

/-- The disk at a settled moment of `save`. -/
theorem Disk.Logs.duringSave {cfg : Config S} {s : Store S} {force : Bool} {t : Moment} {d : Disk S}
    (h : s.disk.Logs cfg s.db) (hrun : runAll cfg.exec s.cache s.db = some s.db)
    (ht : Settled s t) (hd : s.duringSave cfg force t = some d) : d.Logs cfg s.db := by
  cases t with
  | before =>
    cases hd
    exact h
  | writing n =>
    rw [Store.duringSave, ht.writing n rfl] at hd
    cases hd
    change Disk.Logs cfg { s.disk with log := s.disk.log ++ List.take n [] } s.db
    rw [List.take_nil, List.append_nil]
    exact h
  | written =>
    obtain ⟨s₁, h₁, rfl⟩ := Option.map_eq_some_iff.1 hd
    exact h.flush hrun (eq_ok_of_toOption h₁)
  | unhooked =>
    obtain ⟨s₁, h₁, rfl⟩ := Option.map_eq_some_iff.1 hd
    have hflush := eq_ok_of_toOption (Option.filter_eq_some_iff.1 h₁).1
    obtain ⟨data, -, hdisk, -⟩ := flush_spec hflush
    have hsame : s₁.disk.unhooked = s₁.disk := by
      rw [hdisk]
      change (⟨none, s.disk.log ++ data⟩ : Disk S) = ⟨s.disk.snapshot, s.disk.log ++ data⟩
      rw [ht.unhooked rfl]
    rw [hsame]
    exact h.flush hrun hflush
  | installed =>
    obtain ⟨s₁, h₁, rfl⟩ := Option.map_eq_some_iff.1 hd
    obtain ⟨data, hdata, hdisk, hdb, -⟩ := flush_spec (eq_ok_of_toOption (Option.filter_eq_some_iff.1 h₁).1)
    obtain ⟨hlog, hcache⟩ := ht.installed rfl
    rw [hcache] at hdata
    cases hdata
    have hsame : s₁.disk.installed s₁.db = Disk.backedUp s.db := by
      rw [hdisk, hdb, hlog]
      rfl
    rw [hsame]
    exact logs_backedUp cfg s.db
  | saved =>
    obtain ⟨s', h', rfl⟩ := Option.map_eq_some_iff.1 hd
    obtain ⟨s₁, h₁, rfl⟩ := save_ok (eq_ok_of_toOption h')
    obtain ⟨-, -, -, hdb, -⟩ := flush_spec h₁
    exact (h.flush hrun h₁).shrink fun _ => hdb.symm

/-- A crash at a harmless moment. -/
theorem Kept.during {cfg : Config S} {committed : List (List Bytes)} {s : Store S} {op : Op}
    {t : Moment} {d : Disk S} (h : Kept cfg committed s) (ht : Harmless cfg s op t)
    (hd : s.during cfg op t = some d) : d.Logs cfg s.db := by
  have hnone : runAll cfg.exec s.cache s.db = some s.db := by
    rw [h.cache]
    rfl
  cases op with
  | timeout => exact h.logs.duringSave hnone ht hd
  | backup => exact h.logs.duringSave hnone ht hd
  | transaction param memo =>
    rw [Store.during] at hd
    split at hd
    next =>
      cases hd
      exact h.logs
    next hlogged =>
      rcases ht with rfl | hfail | rfl | ⟨hrun, ht⟩
      · exact absurd rfl hlogged
      · rw [hfail] at hlogged
        exact absurd (Bool.or_true memo) hlogged
      · cases hd
        exact h.logs
      · refine Disk.Logs.duringSave (s := { s with cache := s.cache ++ param }) h.logs ?_ ht hd
        rw [h.cache]
        exact hrun

/-- **Durability.**  In runs in which no transaction that changes the database is left out of the
    log or makes a snapshot, the disk has what the committed transactions made of the database,
    and so it is after a crash at a moment that does no harm. -/
theorem reached_restores {cfg : Config S} {committed : List (List Bytes)} {s : Store S}
    (h : Reached cfg (Gentle cfg) committed s) :
    runAll cfg.exec committed.flatten cfg.init = some s.db
      ∧ s.disk.Restores cfg s.db
      ∧ ∀ op t d, Harmless cfg s op t → s.during cfg op t = some d → d.Restores cfg s.db := by
  have hkept := h.kept
  refine ⟨hkept.history, hkept.logs.restores, fun op t d ht hd => ?_⟩
  exact (hkept.during ht hd).restores

/-- A database that keeps the statements executed, with a snapshot from a size of `n` bytes on. -/
def journal (n : ℕ) : Config (List Bytes) :=
  { maxLogSize := n, opened := id, init := [], exec := fun db sql => .ok (db ++ [sql]) }

/-- What one transaction with the statement `a` leaves below that size. -/
def onceLogged : Store (List Bytes) :=
  ⟨[[97]], ⟨none, [42, 50, 13, 10, 36, 56, 13, 10, 97, 101, 102, 53, 48, 48, 52, 100, 13, 10, 36, 49,
    13, 10, 97, 13, 10]⟩, [], 25⟩

/-- One statement, logged and then backed up with a crash in between. -/
theorem reached_restores_journal :
    onceLogged.disk.Restores (journal 100) [[97]]
      ∧ ∀ d, onceLogged.during (journal 100) .backup .saved = some d → d.Restores (journal 100) [[97]] := by
  have hcached : (cached [[97]]).toOption = some onceLogged.disk.log := by decide +kernel
  have hs : (Store.apply (journal 100) ⟨[], ⟨none, []⟩, [], 0⟩ (.transaction [[97]] false)).toOption
      = some onceLogged := by decide +kernel
  have hok : Gentle (journal 100) ⟨[], ⟨none, []⟩, [], 0⟩ (.transaction [[97]] false) := by
    intro db _ _
    refine ⟨rfl, fun data hdata => ?_⟩
    cases hdata.symm.trans (eq_ok_of_toOption hcached)
    decide
  have hrun : Reached (journal 100) (Gentle (journal 100)) _ onceLogged :=
    .step .start hok (eq_ok_of_toOption hs)
  obtain ⟨-, hdisk, hcrash⟩ := reached_restores hrun
  exact ⟨hdisk, fun d hd => hcrash .backup .saved d ⟨nofun, nofun, nofun⟩ hd⟩

/-- A snapshot is made before the transaction commits, and the log with its statement removed. -/
theorem snapshot_not_restores :
    ¬ ∀ committed s, Reached (journal 1) (fun _ _ => True) committed s →
      s.disk.Restores (journal 1) s.db := by
  intro h
  have hs : (Store.apply (journal 1) ⟨[], ⟨none, []⟩, [], 0⟩ (.transaction [[97]] false)).toOption
      = some ⟨[[97]], ⟨some [], []⟩, [], 0⟩ := by decide +kernel
  have hrestores := h _ _ (.step .start trivial (eq_ok_of_toOption hs))
  exact absurd hrestores.2 (by decide +kernel)

end ConfigDb
