/-
# The log of the configuration database and its recovery

`updatelog.lua` writes a record for each statement, with a hash in front of it;
`disk_91_restore.lua` reads the log in pieces of 8192 bytes and executes what the decoder
gives.  The database itself is a parameter: what a statement does to it, or how it fails.
-/
import OpenwrtAc.LuaTable
import OpenwrtAc.RdsTail

open Rds

namespace ConfigDb

/-- How a statement fails: "no such table", or otherwise. -/
inductive SqlError where
  | noSuchTable
  | other
deriving DecidableEq, Repr

/-- The record of a statement that `save` puts into the log. -/
def record (sql : Bytes) : Except Stop Bytes := rdsEncode [lHex sql, sql]

/-- A statement that can be put into the log. -/
structure Stmt where
  sql : Bytes
  loggable : 0 < sql.length ∧ sql.length ≤ 128 * 1024

/-- The array in the record of a statement. -/
def Stmt.cmd (q : Stmt) : List Bytes := [lHex q.sql, q.sql]

/-- The bytes of records. -/
def records (l : List Stmt) : Bytes := l.flatMap fun q => writeMsg q.cmd

variable {S : Type}

/-- Why the recovery script comes to its end: the log is read, bytes of a record are missing, the
    decoder fails, an array is no record, a statement fails, or the decoder stops the process. -/
inductive Ending where
  | closed
  | notEmpty
  | decodeFail
  | invalidCmd
  | sqlFail
  | stopped (e : Stop)
deriving DecidableEq, Repr

/-- The statements that were executed, the database, and the end. -/
structure Recovery (S : Type) where
  executed : List Bytes
  db : S
  ending : Ending

/-- The arrays of one piece: the statements executed, the database and, if the script ends there,
    the end. -/
def runCmds (exec : S → Bytes → Except SqlError S) :
    List (List Bytes) → List Bytes → S → List Bytes × S × Option Ending
  | [], done, db => (done, db, none)
  | narr :: arr, done, db =>
    match narr with
    | ohex :: sql :: _ =>
      if ohex.length ≠ 8 then (done, db, some .invalidCmd)
      else if ohex ≠ lHex sql then (done, db, some .invalidCmd)
      else
        match exec db sql with
        | .ok db => runCmds exec arr (done ++ [sql]) db
        | .error .noSuchTable => runCmds exec arr (done ++ [sql]) db
        | .error .other => (done ++ [sql], db, some .sqlFail)
    | _ => (done, db, some .invalidCmd)

/-- `fp:read(8192)` until the end. -/
def pieces : ℕ → Bytes → List Bytes
  | 0, _ => []
  | n + 1, log => if log = [] then [] else log.take 8192 :: pieces n (log.drop 8192)

/-- The loop of `main`. -/
def recoverLoop (exec : S → Bytes → Except SqlError S) :
    List Bytes → Decoder → List Bytes → S → Recovery S
  | [], decoder, done, db => ⟨done, db, if decoder.buff = [] then .closed else .notEmpty⟩
  | data :: rest, decoder, done, db =>
    match lDecode decoder data with
    | .error e => ⟨done, db, .stopped e⟩
    | .ok (none, _) => ⟨done, db, .decodeFail⟩
    | .ok (some arr, decoder) =>
      match runCmds exec arr done db with
      | (done, db, none) => recoverLoop exec rest decoder done db
      | (done, db, some why) => ⟨done, db, why⟩

/-- `main`, with the bytes of log.bin. -/
def recover (exec : S → Bytes → Except SqlError S) (log : Bytes) (db : S) : Recovery S :=
  recoverLoop exec (pieces log.length log) rdsNew [] db

/-! ## Records -/

/-- A checksum has eight digits. -/
theorem length_lHex (s : Bytes) : (lHex s).length = 8 := by simp [lHex]

/-- The record of a statement. -/
theorem record_eq (q : Stmt) : record q.sql = .ok (writeMsg q.cmd) := by
  refine rdsEncode_eq (by simp) (fun s hs => ?_) ?_
  · rcases List.mem_cons.1 hs with rfl | hs
    · rw [length_lHex]
      decide
    · rw [List.mem_singleton.1 hs]
      exact q.loggable
  · have := q.loggable
    simp only [encodeTotal, List.length_cons, List.length_nil, List.map_cons, List.map_nil,
      List.sum_cons, List.sum_nil, length_lHex]
    omega

/-- A statement has a record exactly if it is not empty and not longer than 128 KiB. -/
theorem record_ok_iff (sql : Bytes) :
    (∃ out, record sql = .ok out) ↔ 0 < sql.length ∧ sql.length ≤ 128 * 1024 := by
  constructor
  · rintro ⟨out, h⟩
    exact (rdsEncode_ok h).2.2.1 sql (by simp)
  · intro h
    exact ⟨_, record_eq ⟨sql, h⟩⟩

/-- A record can be read back. -/
theorem readable_cmd (q : Stmt) : Readable q.cmd := by
  refine ⟨List.cons_ne_nil _ _, by simp [Stmt.cmd], fun s hs => ?_⟩
  have := q.loggable
  rcases List.mem_cons.1 hs with rfl | hs
  · rw [length_lHex]
    decide
  · rw [List.mem_singleton.1 hs]
    omega

/-- A record is within the limit of the buffer. -/
theorem limit_cmd (q : Stmt) : Limit (128 * 1024 + 11) q.cmd := by
  refine ⟨?_, fun s hs => ?_⟩
  · have : (header star q.cmd.length).length = 4 := by
      rw [show q.cmd.length = 2 from rfl]
      decide
    omega
  · have hlen : s.length ≤ 128 * 1024 := by
      rcases List.mem_cons.1 hs with rfl | hs
      · rw [length_lHex]
        decide
      · rw [List.mem_singleton.1 hs]
        exact q.loggable.2
    have := writeParam_length_le hlen
    omega

/-- The records of a list of statements. -/
theorem records_eq (l : List Stmt) : records l = (l.map Stmt.cmd).flatMap writeMsg := by
  rw [records, List.flatMap_map]

/-- All records can be read back. -/
theorem readable_map {l : List Stmt} : ∀ m ∈ l.map Stmt.cmd, Readable m := by
  intro m hm
  obtain ⟨q, -, rfl⟩ := List.mem_map.1 hm
  exact readable_cmd q

/-! ## Statements -/

/-- The statements one after the other: the database, unless one fails otherwise than for a missing
    table. -/
def execAll (exec : S → Bytes → Except SqlError S) : List Bytes → S → Option S
  | [], db => some db
  | sql :: rest, db =>
    match exec db sql with
    | .ok db => execAll exec rest db
    | .error .noSuchTable => execAll exec rest db
    | .error .other => none

/-- Two lists of statements, one behind the other. -/
theorem execAll_append (exec : S → Bytes → Except SqlError S) (l l' : List Bytes) (db : S) :
    execAll exec (l ++ l') db = (execAll exec l db).bind (execAll exec l') := by
  induction l generalizing db with
  | nil => rfl
  | cons sql l ih =>
    rw [List.cons_append, execAll, execAll]
    split
    · exact ih _
    · exact ih _
    · rfl

/-- Records of statements are executed, as long as none fails. -/
theorem runCmds_append {exec : S → Bytes → Except SqlError S} {l : List Stmt} {db db' : S}
    (h : execAll exec (l.map Stmt.sql) db = some db') (arr : List (List Bytes)) (done : List Bytes) :
    runCmds exec (l.map Stmt.cmd ++ arr) done db = runCmds exec arr (done ++ l.map Stmt.sql) db' := by
  induction l generalizing db done with
  | nil =>
    cases h
    simp
  | cons q l ih =>
    rw [List.map_cons, execAll] at h
    rw [List.map_cons, List.cons_append, Stmt.cmd, runCmds, if_neg (by simp [length_lHex]),
      if_neg (by simp)]
    have hdone : done ++ (q :: l).map Stmt.sql = done ++ [q.sql] ++ l.map Stmt.sql := by simp
    rw [hdone]
    cases hexec : exec db q.sql with
    | ok db₁ =>
      rw [hexec] at h
      exact ih h (done ++ [q.sql])
    | error e =>
      rw [hexec] at h
      cases e with
      | noSuchTable => exact ih h (done ++ [q.sql])
      | other => cases h

/-- A statement that fails is the last one. -/
theorem runCmds_fail {exec : S → Bytes → Except SqlError S} {l : List Stmt} {db : S}
    (h : execAll exec (l.map Stmt.sql) db = none) (arr : List (List Bytes)) (done : List Bytes) :
    ∃ i db', i < l.length ∧ runCmds exec (l.map Stmt.cmd ++ arr) done db
      = (done ++ (l.map Stmt.sql).take (i + 1), db', some .sqlFail) := by
  induction l generalizing db done with
  | nil => cases h
  | cons q l ih =>
    rw [List.map_cons, execAll] at h
    have hrun : runCmds exec ((q :: l).map Stmt.cmd ++ arr) done db
        = match exec db q.sql with
          | .ok db => runCmds exec (l.map Stmt.cmd ++ arr) (done ++ [q.sql]) db
          | .error .noSuchTable => runCmds exec (l.map Stmt.cmd ++ arr) (done ++ [q.sql]) db
          | .error .other => (done ++ [q.sql], db, some .sqlFail) := by
      rw [List.map_cons, List.cons_append, Stmt.cmd, runCmds, if_neg (by simp [length_lHex]),
        if_neg (by simp)]
    have hnext : ∀ db, execAll exec (l.map Stmt.sql) db = none →
        ∃ i db', i < (q :: l).length ∧ runCmds exec (l.map Stmt.cmd ++ arr) (done ++ [q.sql]) db
          = (done ++ ((q :: l).map Stmt.sql).take (i + 1), db', some .sqlFail) := by
      intro db hdb
      obtain ⟨i, db', hi, hrun⟩ := ih hdb (done ++ [q.sql])
      refine ⟨i + 1, db', Nat.succ_lt_succ hi, hrun.trans ?_⟩
      simp
    rw [hrun]
    cases hexec : exec db q.sql with
    | ok db₁ =>
      rw [hexec] at h
      exact hnext db₁ h
    | error e =>
      rw [hexec] at h
      cases e with
      | noSuchTable => exact hnext db h
      | other => exact ⟨0, db, Nat.succ_pos _, by simp⟩

/-- What was executed stays executed. -/
theorem runCmds_prefix (exec : S → Bytes → Except SqlError S) (arr : List (List Bytes))
    (done : List Bytes) (db : S) : done <+: (runCmds exec arr done db).1 := by
  induction arr generalizing done db with
  | nil => exact List.prefix_rfl
  | cons narr arr ih =>
    match narr with
    | [] => exact List.prefix_rfl
    | [ohex] => exact List.prefix_rfl
    | ohex :: sql :: _ =>
      rw [runCmds]
      split
      · exact List.prefix_rfl
      · split
        · exact List.prefix_rfl
        · split
          · exact (List.prefix_append done [sql]).trans (ih _ _)
          · exact (List.prefix_append done [sql]).trans (ih _ _)
          · exact List.prefix_append done [sql]

/-- A record is executed, whatever comes of it. -/
theorem runCmds_cons_prefix (exec : S → Bytes → Except SqlError S) (q : Stmt) (arr : List (List Bytes))
    (done : List Bytes) (db : S) : done ++ [q.sql] <+: (runCmds exec (q.cmd :: arr) done db).1 := by
  rw [Stmt.cmd, runCmds, if_neg (by simp [length_lHex]), if_neg (by simp)]
  split
  · exact runCmds_prefix _ _ _ _
  · exact runCmds_prefix _ _ _ _
  · exact List.prefix_rfl

/-- The recovery only executes more. -/
theorem recoverLoop_begins (exec : S → Bytes → Except SqlError S) (data : List Bytes)
    (decoder : Decoder) (done : List Bytes) (db : S) :
    done <+: (recoverLoop exec data decoder done db).executed := by
  induction data generalizing decoder done db with
  | nil => exact List.prefix_rfl
  | cons data rest ih =>
    rw [recoverLoop]
    split
    · exact List.prefix_rfl
    · exact List.prefix_rfl
    next arr decoder' _ =>
      have hcmds := runCmds_prefix exec arr done db
      split
      next heq =>
        rw [heq] at hcmds
        exact hcmds.trans (ih _ _ _)
      next heq =>
        rw [heq] at hcmds
        exact hcmds

/-! ## Which statements are recovered -/

/-- The number of bytes behind the first `n` that come in the same piece as the last of them. -/
def slack (n : ℕ) : ℕ := (8192 - n % 8192) % 8192

/-- The slack of the last piece does not depend on the pieces before. -/
theorem slack_sub {n : ℕ} (h : 8192 ≤ n) : slack (n - 8192) = slack n := by
  unfold slack
  rw [← Nat.mod_eq_sub_mod h]

/-- A decoder with bytes to come expects messages. -/
theorem expects_ne_nil {rds : Decoder} {s : Bytes} {msgs : List (List Bytes)}
    (h : Expects rds s msgs)
    (hne : s ≠ []) : msgs ≠ [] := by
  rintro rfl
  rcases h.2 with ⟨-, -, hb⟩ | ⟨-, _, _, _, hnil, -⟩
  · exact hne (List.append_eq_nil_iff.1 hb).2
  · cases hnil

/-- A longer list is no prefix of a shorter one. -/
theorem not_prefix_of_lt {done l out : List Bytes} (hlt : out.length < l.length)
    (h : done ++ l <+: done ++ out) : False := by
  have := h.length_le
  simp only [List.length_append] at this
  omega

/-- A list with something behind it is no prefix of itself. -/
theorem not_append_begins {done l : List Bytes} (hne : l ≠ []) : ¬ done ++ l <+: done := by
  intro hpre
  have hlen := hpre.length_le
  have hpos := List.length_pos_of_ne_nil hne
  simp only [List.length_append] at hlen
  omega

/-- A piece from inside the records gives some of the statements, and the decoder still expects
    the others. -/
theorem lDecode_inside {decoder : Decoder} {valid : Bytes} {l : List Stmt}
    (h : Expects decoder valid (l.map Stmt.cmd)) (hlong : 8192 < valid.length)
    (hbuff : decoder.buff.length ≤ 128 * 1024 + 11) :
    ∃ l₁ l₂ decoder', l = l₁ ++ l₂ ∧ l₂ ≠ []
      ∧ lDecode decoder (valid.take 8192) = .ok (some (l₁.map Stmt.cmd), decoder')
      ∧ Expects decoder' (valid.drop 8192) (l₂.map Stmt.cmd)
      ∧ decoder'.buff.length ≤ 128 * 1024 + 11 := by
  have hne : valid.drop 8192 ≠ [] := by
    rw [Ne, List.drop_eq_nil_iff]
    omega
  have hsplit : Expects decoder (valid.take 8192 ++ valid.drop 8192) (l.map Stmt.cmd) := by
    rwa [List.take_append_drop]
  obtain ⟨got, rest, decoder', hrun, hmsgs, hexp, -, hlimit⟩ := lDecode_readsAll hsplit
    (by rw [List.length_take]; omega)
  obtain ⟨l₁, l₂, rfl, rfl, rfl⟩ := List.map_eq_append_iff.1 hmsgs
  refine ⟨l₁, l₂, decoder', rfl, fun hnil => expects_ne_nil hexp hne (by rw [hnil]; rfl), hrun,
    hexp, hlimit _ fun m hm => ?_⟩
  obtain ⟨q, -, rfl⟩ := List.mem_map.1 hm
  exact limit_cmd q

/-- The piece with the end of the records: the statements are executed exactly if the decoder
    takes what comes behind them and none but the last one fails. -/
theorem recoverLoop_last (exec : S → Bytes → Except SqlError S) (rest : List Bytes) (tail : Bytes)
    {decoder : Decoder} {valid : Bytes} {l : List Stmt} (done : List Bytes) (db : S)
    (h : Expects decoder valid (l.map Stmt.cmd)) (hvalid : valid ≠ [])
    (hroom : decoder.buff.length + (valid ++ tail).length ≤ 512 * 1024) :
    done ++ l.map Stmt.sql <+: (recoverLoop exec ((valid ++ tail) :: rest) decoder done db).executed ↔
      (execAll exec (l.dropLast.map Stmt.sql) db).isSome ∧ reads tail = true := by
  have hl : l ≠ [] := fun hnil => expects_ne_nil h hvalid (by rw [hnil]; rfl)
  obtain ⟨hfine, hout⟩ := lDecode_tail h hvalid hroom
  obtain ⟨l, q, rfl⟩ : ∃ l₁ q, l = l₁ ++ [q] := ⟨_, _, (List.dropLast_append_getLast hl).symm⟩
  rw [recoverLoop, ← hfine, List.dropLast_concat]
  cases hrun : lDecode decoder (valid ++ tail) with
  | error e =>
    exact iff_of_false (not_append_begins (by simp)) (by simp [fine])
  | ok ret =>
    obtain ⟨out, decoder'⟩ := ret
    cases out with
    | none =>
      exact iff_of_false (not_append_begins (by simp)) (by simp [fine])
    | some out =>
      obtain ⟨more, rfl⟩ := hout out decoder' hrun
      have hgot : (l ++ [q]).map Stmt.cmd ++ more = l.map Stmt.cmd ++ (q.cmd :: more) := by simp
      dsimp only
      rw [hgot]
      cases hexec : execAll exec (l.map Stmt.sql) db with
      | none =>
        obtain ⟨i, db', hi, hcmds⟩ := runCmds_fail hexec (q.cmd :: more) done
        simp only [hcmds]
        refine iff_of_false (fun hpre => not_prefix_of_lt ?_ hpre) (by simp)
        simp only [List.length_take, List.length_map, List.length_append, List.length_cons]
        omega
      | some db' =>
        -- the last statement is handed on, whatever comes of it
        refine iff_of_true ?_ ⟨rfl, rfl⟩
        rw [runCmds_append hexec, List.map_append, ← List.append_assoc]
        have hcmds := runCmds_cons_prefix exec q more (done ++ l.map Stmt.sql) db'
        split
        next heq =>
          rw [heq] at hcmds
          exact hcmds.trans (recoverLoop_begins _ _ _ _ _)
        next heq =>
          rw [heq] at hcmds
          exact hcmds

/-- The loop from a state in which the bytes `valid` of the statements `l` are still to be read,
    with `junk` behind them. -/
theorem recoverLoop_iff (exec : S → Bytes → Except SqlError S) (junk : Bytes) (n : ℕ)
    {decoder : Decoder} {valid : Bytes} {l : List Stmt} (done : List Bytes) (db : S)
    (hn : (valid ++ junk).length ≤ n) (h : Expects decoder valid (l.map Stmt.cmd))
    (hidle : valid = [] → l = []) (hbuff : decoder.buff.length ≤ 128 * 1024 + 11) :
    done ++ l.map Stmt.sql <+: (recoverLoop exec (pieces n (valid ++ junk)) decoder done db).executed ↔
      (execAll exec (l.dropLast.map Stmt.sql) db).isSome ∧ reads (junk.take (slack valid.length)) = true := by
  induction n generalizing decoder valid l done db with
  | zero =>
    have hnil : valid = [] := List.length_eq_zero_iff.1 (by rw [List.length_append] at hn; omega)
    obtain rfl := hidle hnil
    subst hnil
    refine iff_of_true ?_ ⟨rfl, rfl⟩
    simpa using recoverLoop_begins exec _ decoder done db
  | succ n ih =>
    by_cases hvalid : valid = []
    · obtain rfl := hidle hvalid
      subst hvalid
      refine iff_of_true ?_ ⟨rfl, rfl⟩
      simpa using recoverLoop_begins exec _ decoder done db
    rw [pieces, if_neg (by simp [hvalid])]
    by_cases hlong : 8192 < valid.length
    · -- the piece is a part of the records
      have hdata : (valid ++ junk).take 8192 = valid.take 8192 :=
        List.take_append_of_le_length hlong.le
      have hrest : (valid ++ junk).drop 8192 = valid.drop 8192 ++ junk :=
        List.drop_append_of_le_length hlong.le
      have hslack : slack valid.length = slack (valid.drop 8192).length := by
        rw [List.length_drop, slack_sub hlong.le]
      obtain ⟨l₁, l₂, decoder', rfl, hl₂, hrun, hexp, hbuff'⟩ := lDecode_inside h hlong hbuff
      rw [hdata, hrest, recoverLoop]
      simp only [hrun]
      have hlast : (l₁ ++ l₂).dropLast.map Stmt.sql = l₁.map Stmt.sql ++ l₂.dropLast.map Stmt.sql := by
        rw [List.dropLast_append_of_ne_nil hl₂, List.map_append]
      rw [hlast, execAll_append]
      cases hexec : execAll exec (l₁.map Stmt.sql) db with
      | some db' =>
        have hcmds := runCmds_append hexec [] done
        rw [List.append_nil, runCmds] at hcmds
        simp only [hcmds, Option.bind_some]
        have hshort : (valid.drop 8192 ++ junk).length ≤ n := by
          rw [← hrest, List.length_drop]
          omega
        have hne : valid.drop 8192 ≠ [] := by
          rw [Ne, List.drop_eq_nil_iff]
          omega
        rw [hslack, List.map_append, ← List.append_assoc]
        exact ih _ _ hshort hexp (fun hnil => absurd hnil hne) hbuff'
      | none =>
        -- the loop ends at a statement before the last one
        obtain ⟨i, db', hi, hcmds⟩ := runCmds_fail hexec [] done
        rw [List.append_nil] at hcmds
        simp only [hcmds, Option.bind_none]
        refine iff_of_false (fun hpre => not_prefix_of_lt ?_ hpre) (by simp)
        have := List.length_pos_of_ne_nil hl₂
        simp only [List.length_take, List.length_map, List.length_append]
        omega
    · -- the piece ends behind the records
      have hpos := List.length_pos_of_ne_nil hvalid
      have hslack : slack valid.length = 8192 - valid.length := by
        rcases Nat.lt_or_ge valid.length 8192 with hlt | hge
        · rw [slack, Nat.mod_eq_of_lt hlt, Nat.mod_eq_of_lt (by omega)]
        · rw [show valid.length = 8192 by omega]
          rfl
      have hdata : (valid ++ junk).take 8192 = valid ++ junk.take (slack valid.length) := by
        rw [hslack, List.take_append, List.take_of_length_le (by omega)]
      rw [hdata]
      refine recoverLoop_last exec _ _ done db h hvalid ?_
      rw [hslack, List.length_append, List.length_take]
      omega

/-- A new decoder expects the records. -/
theorem expects_records (l : List Stmt) : Expects rdsNew (records l) (l.map Stmt.cmd) := by
  rw [records_eq]
  exact expects_rdsNew readable_map

/-- Only the empty list has no bytes. -/
theorem records_eq_nil {l : List Stmt} (h : records l = []) : l = [] := by
  cases l with
  | nil => rfl
  | cons q l => exact absurd h (by simp [records, writeMsg, header])

/-- Of a log that begins with records, all of them are executed exactly if no statement but the last
    one fails, other than for a missing table, and the decoder takes what comes behind them in the
    same piece. -/
theorem recover_iff (exec : S → Bytes → Except SqlError S) (db : S) (l : List Stmt) (junk : Bytes) :
    l.map Stmt.sql <+: (recover exec (records l ++ junk) db).executed ↔
      (execAll exec (l.dropLast.map Stmt.sql) db).isSome ∧
        reads (junk.take (slack (records l).length)) = true := by
  have hempty : rdsNew.buff.length ≤ 128 * 1024 + 11 := by simp [rdsNew]
  have hloop := recoverLoop_iff exec junk _ [] db (Nat.le_refl _) (expects_records l)
    records_eq_nil hempty
  rw [List.nil_append] at hloop
  exact hloop

/-- A log of records, and nothing else, is read to its end. -/
theorem recoverLoop_records {exec : S → Bytes → Except SqlError S} (n : ℕ) {decoder : Decoder}
    {valid : Bytes} {l : List Stmt} (done : List Bytes) {db db' : S} (hn : valid.length ≤ n)
    (h : Expects decoder valid (l.map Stmt.cmd)) (hidle : valid = [] → l = [] ∧ decoder.buff = [])
    (hbuff : decoder.buff.length ≤ 128 * 1024 + 11)
    (hexec : execAll exec (l.map Stmt.sql) db = some db') :
    recoverLoop exec (pieces n valid) decoder done db = ⟨done ++ l.map Stmt.sql, db', .closed⟩ := by
  induction n generalizing decoder valid l done db with
  | zero =>
    obtain ⟨rfl, hb⟩ := hidle (List.length_eq_zero_iff.1 (by omega))
    cases hexec
    simp [pieces, recoverLoop, hb]
  | succ n ih =>
    by_cases hvalid : valid = []
    · obtain ⟨rfl, hb⟩ := hidle hvalid
      cases hexec
      simp [pieces, recoverLoop, hb, hvalid]
    have hpos := List.length_pos_of_ne_nil hvalid
    have hsplit : Expects decoder (valid.take 8192 ++ valid.drop 8192) (l.map Stmt.cmd) := by
      rwa [List.take_append_drop]
    obtain ⟨got, rest, decoder', hrun, hmsgs, hexp, hend, hlimit⟩ := lDecode_readsAll hsplit
      (by rw [List.length_take]; omega)
    obtain ⟨l₁, l₂, rfl, rfl, rfl⟩ := List.map_eq_append_iff.1 hmsgs
    have hbuff' : decoder'.buff.length ≤ 128 * 1024 + 11 := by
      refine hlimit _ fun m hm => ?_
      obtain ⟨q, -, rfl⟩ := List.mem_map.1 hm
      exact limit_cmd q
    rw [List.map_append, execAll_append] at hexec
    obtain ⟨db₁, hexec₁, hexec₂⟩ := Option.bind_eq_some_iff.1 hexec
    have hcmds := runCmds_append hexec₁ [] done
    rw [List.append_nil, runCmds] at hcmds
    rw [pieces, if_neg hvalid, recoverLoop]
    simp only [hrun, List.nil_append, hcmds]
    rw [List.map_append, ← List.append_assoc]
    refine ih _ (by rw [List.length_drop]; omega) hexp (fun hnil => ?_) hbuff' hexec₂
    obtain ⟨hrest, hbuff, -⟩ := hend hnil
    exact ⟨List.map_eq_nil_iff.1 hrest, hbuff⟩

/-- Recovering whole records executes every statement. -/
theorem recover_records {exec : S → Bytes → Except SqlError S} {l : List Stmt} {db db' : S}
    (hexec : execAll exec (l.map Stmt.sql) db = some db') :
    recover exec (records l) db = ⟨l.map Stmt.sql, db', .closed⟩ :=
  recoverLoop_records _ [] (Nat.le_refl _) (expects_records l) (fun h => ⟨records_eq_nil h, rfl⟩)
    (by simp [rdsNew]) hexec

/-- One record and a byte that no record begins with. -/
theorem torn_not_recovered :
    ¬ ∀ (exec : Unit → Bytes → Except SqlError Unit) (l : List Stmt) (junk : Bytes),
      l.map Stmt.sql <+: (recover exec (records l ++ junk) ()).executed := by
  intro h
  have hexec := h (fun _ _ => .ok ()) [⟨[97], by decide⟩] [120]
  exact absurd hexec (by decide +kernel)

end ConfigDb
