/-
# The logins of WeChat users (`authd/wechat.lua`)

`on_login` folds a batch of logins into tables.  The table of the logins to insert is
keyed by the name of the user, so it has the last login of each; the rows that say who is
online already have a `ukey` and no name, and making a table of them by name raises.
-/
import OpenwrtAc.AuthCache
import Mathlib.Data.List.Count
import Mathlib.Data.List.Dedup
import Mathlib.Data.List.Induction

namespace AuthWechat

open LuaTable AuthOnline AuthCache

/-- A write to the entry `nil` of a table. -/
inductive LuaError
  | indexNil
  deriving DecidableEq, Repr

/-- `fp.tomap(arr, k)`, where `key` reads the field `k`. -/
def tomap {β : Type} (key : β → Option String) :
    List β → Table String β → Except LuaError (Table String β)
  | [], m => .ok m
  | v :: arr, m =>
    match key v with
    | none => .error .indexNil
    | some k => tomap key arr (set m k v)

/-- A login that `/weixin2_login` has answered and emitted. -/
structure Login where
  uid : ℤ
  magic : ℤ
  ip : String
  mac : String
  username : String
  rid : ℤ
  gid : ℤ
  ssid : Option String
  deriving DecidableEq

/-- `string.format("%s_%s", r.uid, r.magic)`. -/
def Login.ukey (r : Login) : String :=
  toString r.uid ++ "_" ++ toString r.magic

/-- The columns of the table `user` that `insert_new` writes, beside the name. -/
structure UserRow where
  password : String
  register : String
  gid : ℤ
  deriving DecidableEq

/-- A row of a query's result. -/
abbrev Row := Table String String

structure State where
  users : Table String UserRow
  online : Online
  /-- `online_cache`. -/
  modules : Option (Table String String)
  /-- The calls of `set_online`. -/
  setOnline : List (ℤ × ℤ × ℤ × String)
  /-- The calls of `bypass_cancel`. -/
  cancelled : List String

/-! ## `insert_new` -/

/-- `select username from user where username in (...)`. -/
def selectUsername (users : Table String UserRow) (names : List String) : List Row :=
  (users.filter fun e => e.1 ∈ names).map fun e => [("username", e.1)]

/-- `insert into user` of some rows.  A name that would be there twice fails the whole
statement. -/
def insertUsers (users rows : Table String UserRow) : Option (Table String UserRow) :=
  if ((users ++ rows).map Prod.fst).Nodup then some (users ++ rows) else none

/-- The users behind it, or nothing where the insertion has failed. -/
def insertNew (date : String) (users : Table String UserRow) (arr : List Login) :
    Except LuaError (Option (Table String UserRow)) := do
  let rs := selectUsername users (arr.map Login.username)
  let exist ← tomap (fun r => get r "username") rs []
  let miss := (arr.map Login.username).filter fun u => (get exist u).isNone
  if miss = [] then
    return some users
  let tmap ← tomap (fun r => some r.username) arr []
  let parts := miss.map fun u => (u, ⟨"1234", date, ((get tmap u).map Login.gid).getD 0⟩)
  return insertUsers users parts

/-! ## `on_login` -/

/-- `select ukey from memo.online where ukey in (...)`. -/
def selectUkey (online : Online) (ukeys : List String) : List Row :=
  (online.filter fun e => e.1 ∈ ukeys).map fun e => [("ukey", e.1)]

/-- The logins of users that `rs_map` does not have, by their names. -/
def newUsers (rsMap : Table String Row) (arr : List Login) : Table String Login :=
  arr.foldl (fun t r => if (get rsMap r.username).isSome then t else set t r.username r) []

section Login

variable (encode : Option String → String) (date : String) (now : ℤ)
  (pairs : Table String Login → Table String Login)

/-- The entry of a login for `insert_online`; its `ext` is `js.encode({ssid = r.ssid})`. -/
def Login.client (r : Login) : Client where
  ukey := r.ukey
  username := r.username
  ip := r.ip
  mac := r.mac
  ext := some (encode r.ssid)
  rid := r.rid
  gid := r.gid

/-- `insert_online(simple, user_map, "wechat")`, in the order of `pairs`. -/
def insertOnline (s : State) (userMap : Table String Login) : State :=
  let arr := (pairs userMap).map Prod.snd
  let online := insertRows "wechat" now s.online (arr.map (Login.client encode))
  { s with
    online
    modules := some ((arr.map Login.ukey).foldl (setModule (some "wechat"))
      (s.modules.getD (loadRows online)))
    setOnline := s.setOnline ++ arr.map fun r => (r.uid, r.magic, r.gid, r.username)
    cancelled := s.cancelled ++ arr.map Login.mac }

def onLogin (s : State) (arr : List Login) : Except LuaError State := do
  match ← insertNew date s.users arr with
  | none => return s
  | some users =>
    let s := { s with users }
    let rs := selectUkey s.online (arr.map Login.ukey)
    let rsMap ← tomap (fun r => get r "username") rs []
    let new := newUsers rsMap arr
    if new = [] then
      return s
    return insertOnline encode now pairs s new

end Login

/-! ## Tables made by `tomap` -/

theorem tomap_some {β : Type} (f : β → String) (arr : List β) (m : Table String β) :
    tomap (fun r => some (f r)) arr m = .ok (arr.foldl (fun m r => set m (f r) r) m) := by
  induction arr generalizing m with
  | nil => rfl
  | cons r arr ih => exact ih _

/-- A table by a field that each row has. -/
theorem tomap_map {β : Type} (l : List β) (f : β → Row) (key : Row → Option String)
    (g : β → String) (h : ∀ b, key (f b) = some (g b)) (m : Table String Row) :
    tomap key (l.map f) m = .ok (l.foldl (fun m b => set m (g b) (f b)) m) := by
  induction l generalizing m with
  | nil => rfl
  | cons b l ih =>
    rw [List.map_cons, tomap, h]
    exact ih _

theorem isSome_get_foldl_set {β γ : Type} (l : List β) (g : β → String) (f : β → γ)
    (m : Table String γ) (k : String) :
    (get (l.foldl (fun m b => set m (g b) (f b)) m) k).isSome =
      (decide (k ∈ l.map g) || (get m k).isSome) := by
  induction l generalizing m with
  | nil => simp
  | cons b l ih =>
    rw [List.foldl_cons, ih, get_set, List.map_cons]
    by_cases hk : k = g b
    · simp [hk]
    · simp [hk]

/-- Where some client of the batch is online, the table by name cannot be made. -/
theorem tomap_selectUkey (online : Online) (ukeys : List String) :
    tomap (fun r => get r "username") (selectUkey online ukeys) [] =
      if ∃ e ∈ online, e.1 ∈ ukeys then .error .indexNil else .ok [] := by
  cases hl : online.filter fun e => e.1 ∈ ukeys with
  | nil =>
    rw [selectUkey, hl, if_neg]
    · rfl
    · rintro ⟨e, he, hu⟩
      have hmem : e ∈ online.filter fun e => e.1 ∈ ukeys :=
        List.mem_filter.mpr ⟨he, decide_eq_true hu⟩
      rw [hl] at hmem
      cases hmem
  | cons e l =>
    have hmem : e ∈ online.filter fun e => e.1 ∈ ukeys := hl ▸ List.mem_cons_self
    obtain ⟨he, hu⟩ := List.mem_filter.mp hmem
    rw [selectUkey, hl, if_pos ⟨e, he, of_decide_eq_true hu⟩]
    rfl

/-! ## The users that are missing -/

/-- The names of the batch that have no row in `user`, as often as they are there. -/
def missing (users : Table String UserRow) (arr : List Login) : List String :=
  (arr.map Login.username).filter fun u => (get users u).isNone

theorem missing_count (users : Table String UserRow) (arr : List Login) (u : String) :
    (missing users arr).count u =
      if get users u = none then (arr.map Login.username).count u else 0 := by
  split_ifs with h
  · exact List.count_filter (by simp [h])
  · refine List.count_eq_zero.mpr fun hmem => ?_
    simpa [h] using (List.mem_filter.mp hmem).2

/-- What `insert_new` inserts, and with which names. -/
theorem insertNew_eq (date : String) {users : Table String UserRow} (arr : List Login)
    (hnd : (users.map Prod.fst).Nodup) :
    ∃ parts, parts.map Prod.fst = missing users arr ∧
      insertNew date users arr = .ok (insertUsers users parts) := by
  have hsel := tomap_map (users.filter fun e => e.1 ∈ arr.map Login.username)
    (fun e => [("username", e.1)]) (fun r => get r "username") Prod.fst (fun _ => rfl) []
  have hmiss : ((arr.map Login.username).filter fun u =>
      (get ((users.filter fun e => e.1 ∈ arr.map Login.username).foldl
        (fun m b => set m b.1 [("username", b.1)]) ([] : Table String Row)) u).isNone) =
      missing users arr := by
    apply List.filter_congr
    intro u hu
    rw [← Option.not_isSome, isSome_get_foldl_set, ← Option.not_isSome]
    congr 1
    rw [get_nil, Option.isSome_none, Bool.or_false, Bool.eq_iff_iff, decide_eq_true_eq,
      Option.isSome_iff_ne_none, Ne, get_eq_none, List.mem_map]
    push Not
    constructor
    · rintro ⟨e, he, rfl⟩
      exact ⟨e, (List.mem_filter.mp he).1, rfl⟩
    · rintro ⟨e, he, rfl⟩
      exact ⟨e, List.mem_filter.mpr ⟨he, decide_eq_true hu⟩, rfl⟩
  by_cases hnil : missing users arr = []
  · refine ⟨[], hnil.symm, ?_⟩
    have hins : insertUsers users [] = some users := by
      rw [insertUsers, List.append_nil, if_pos hnd]
    simp only [insertNew, selectUsername, hsel, bind, Except.bind, hmiss, hnil, hins]
    rfl
  · refine ⟨(missing users arr).map fun u => (u, ⟨"1234", date, ((get (arr.foldl
      (fun m r => set m r.username r) []) u).map Login.gid).getD 0⟩), ?_, ?_⟩
    · rw [List.map_map]
      exact List.map_id _
    · simp only [insertNew, selectUsername, hsel, bind, Except.bind, hmiss, hnil, if_false,
        tomap_some, pure, Except.pure]

/-- The insertion succeeds if no missing name is twice in the batch. -/
theorem insertUsers_isSome_iff {users parts : Table String UserRow} {arr : List Login}
    (hnd : (users.map Prod.fst).Nodup) (hparts : parts.map Prod.fst = missing users arr) :
    (insertUsers users parts).isSome ↔
      ∀ u, get users u = none → (arr.map Login.username).count u ≤ 1 := by
  have hdisj : (users.map Prod.fst).Disjoint (parts.map Prod.fst) := by
    intro u hu hp
    rw [hparts] at hp
    obtain ⟨e, he, rfl⟩ := List.mem_map.mp hu
    have hnone : get users e.1 = none := by simpa using (List.mem_filter.mp hp).2
    exact get_eq_none.mp hnone e he rfl
  have hiff : ((users ++ parts).map Prod.fst).Nodup ↔ (missing users arr).Nodup := by
    rw [List.map_append, List.nodup_append', ← hparts]
    exact ⟨fun h => h.2.1, fun h => ⟨hnd, h, hdisj⟩⟩
  rw [insertUsers]
  by_cases hnodup : ((users ++ parts).map Prod.fst).Nodup
  · rw [if_pos hnodup]
    refine ⟨fun _ u hu => ?_, fun _ => rfl⟩
    have hcount := List.nodup_iff_count_le_one.mp (hiff.mp hnodup) u
    rwa [missing_count, if_pos hu] at hcount
  · rw [if_neg hnodup]
    refine ⟨fun h => (by cases h), fun h => absurd (hiff.mpr ?_) hnodup⟩
    rw [List.nodup_iff_count_le_one]
    intro u
    rw [missing_count]
    split_ifs with hu
    · exact h u hu
    · exact Nat.zero_le 1

/-- Each missing user is there once behind a successful insertion, and the others are as
before. -/
theorem count_insertUsers {users parts users' : Table String UserRow} {arr : List Login}
    (hparts : parts.map Prod.fst = missing users arr)
    (hins : insertUsers users parts = some users')
    (honce : ∀ u, get users u = none → (arr.map Login.username).count u ≤ 1) (u : String) :
    (users'.map Prod.fst).count u = (users.map Prod.fst).count u +
      if u ∈ arr.map Login.username ∧ get users u = none then 1 else 0 := by
  rw [insertUsers] at hins
  split_ifs at hins
  obtain rfl := Option.some.inj hins
  rw [List.map_append, List.count_append, hparts, missing_count]
  congr 1
  by_cases hu : get users u = none
  · rw [if_pos hu]
    have := honce u hu
    by_cases hmem : u ∈ arr.map Login.username
    · rw [if_pos ⟨hmem, hu⟩]
      have := List.count_pos_iff.mpr hmem
      omega
    · rw [if_neg fun h => hmem h.1]
      exact List.count_eq_zero.mpr hmem
  · rw [if_neg hu, if_neg fun h => hu h.2]

/-! ## The logins that are inserted -/

/-- The last login of the batch with a name. -/
def lastOf (arr : List Login) (username : String) : Option Login :=
  (arr.filter fun r => r.username = username).getLast?

theorem lastOf_mem {arr : List Login} {u : String} {q : Login} (h : lastOf arr u = some q) :
    q ∈ arr ∧ q.username = u := by
  have hmem := List.mem_filter.mp (List.mem_of_getLast? h)
  exact ⟨hmem.1, of_decide_eq_true hmem.2⟩

theorem newUsers_append (arr : List Login) (r : Login) :
    newUsers [] (arr ++ [r]) = set (newUsers [] arr) r.username r := by
  rw [newUsers, List.foldl_append]
  rfl

/-- Of the logins with one name the last is inserted. -/
theorem get_newUsers (arr : List Login) (u : String) :
    get (newUsers [] arr) u = lastOf arr u := by
  induction arr using List.reverseRecOn with
  | nil => rfl
  | append_singleton arr r ih =>
    rw [newUsers_append, get_set, ih, lastOf, lastOf, List.filter_append]
    by_cases hu : u = r.username
    · subst hu
      simp
    · rw [if_neg hu, List.filter_cons_of_neg (by simpa using Ne.symm hu), List.filter_nil,
        List.append_nil]

theorem nodup_newUsers (arr : List Login) : ((newUsers [] arr).map Prod.fst).Nodup := by
  induction arr using List.reverseRecOn with
  | nil => exact List.nodup_nil
  | append_singleton arr r ih =>
    rw [newUsers_append]
    exact nodup_set ih _ _

theorem mem_newUsers {arr : List Login} {e : String × Login} :
    e ∈ newUsers [] arr ↔ lastOf arr e.1 = some e.2 := by
  rw [← get_newUsers]
  exact ⟨fun h => get_of_mem (nodup_newUsers arr) h, fun h => mem_of_get h⟩

section Served

variable {encode : Option String → String} {date : String} {now : ℤ}
  {pairs : Table String Login → Table String Login}

/-- What a batch of logins is to come to: each missing user has been created once and the
others are kept; each client that was not online has exactly one row, of a login of the
batch with its `ukey`; and the other rows are as before. -/
structure Served (encode : Option String → String) (now : ℤ) (arr : List Login)
    (s s' : State) : Prop where
  created : ∀ u, (s'.users.map Prod.fst).count u = (s.users.map Prod.fst).count u +
    if u ∈ arr.map Login.username ∧ get s.users u = none then 1 else 0
  users : ∀ e ∈ s.users, e ∈ s'.users
  online : ∀ r ∈ arr, get s.online r.ukey = none →
    (s'.online.map Prod.fst).count r.ukey = 1 ∧
    ∃ q ∈ arr, q.ukey = r.ukey ∧
      get s'.online r.ukey = some ((q.client encode).row "wechat" now)
  kept : ∀ k, (k ∉ arr.map Login.ukey ∨ get s.online k ≠ none) →
    get s'.online k = get s.online k

/-- No client of the batch is online; each client has a login that is the last of its name;
and no name that `user` does not have is twice in the batch. -/
structure Plain (s : State) (arr : List Login) : Prop where
  offline : ∀ r ∈ arr, get s.online r.ukey = none
  last : ∀ r ∈ arr, ∃ u q, lastOf arr u = some q ∧ q.ukey = r.ukey
  once : ∀ u, get s.users u = none → (arr.map Login.username).count u ≤ 1

theorem mem_map_ukey (encode : Option String → String) {arr : List Login}
    (hpairs : ∀ t, (pairs t).Perm t) {k : String} :
    k ∈ (((pairs (newUsers [] arr)).map Prod.snd).map (Login.client encode)).map Client.ukey ↔
      ∃ u q, lastOf arr u = some q ∧ q.ukey = k := by
  rw [List.map_map, List.map_map, List.mem_map]
  constructor
  · rintro ⟨e, he, rfl⟩
    exact ⟨e.1, e.2, mem_newUsers.mp ((hpairs _).mem_iff.mp he), rfl⟩
  · rintro ⟨u, q, hq, rfl⟩
    exact ⟨(u, q), (hpairs _).mem_iff.mpr (mem_newUsers.mpr hq), rfl⟩

/-- `memo.online` behind a batch whose clients are all offline. -/
theorem insertOnline_online (encode : Option String → String) (now : ℤ) (s : State)
    (arr : List Login) (hpairs : ∀ t, (pairs t).Perm t) :
    (if newUsers [] arr = [] then s else insertOnline encode now pairs s (newUsers [] arr)).online =
      insertRows "wechat" now s.online
        (((pairs (newUsers [] arr)).map Prod.snd).map (Login.client encode)) := by
  split_ifs with h
  · rw [h, (hpairs []).eq_nil]
    rfl
  · rfl

/-- How `on_login` goes: a failed insertion ends it, a client that is online raises. -/
theorem onLogin_cases (encode : Option String → String) (date : String) (now : ℤ)
    (pairs : Table String Login → Table String Login) (s : State) (arr : List Login) (hnd : (s.users.map Prod.fst).Nodup) :
    ∃ parts, parts.map Prod.fst = missing s.users arr ∧
      onLogin encode date now pairs s arr =
        match insertUsers s.users parts with
        | none => .ok s
        | some users =>
          if ∃ e ∈ s.online, e.1 ∈ arr.map Login.ukey then .error .indexNil
          else .ok (if newUsers [] arr = [] then { s with users }
            else insertOnline encode now pairs { s with users } (newUsers [] arr)) := by
  obtain ⟨parts, hparts, hnew⟩ := insertNew_eq date arr hnd
  refine ⟨parts, hparts, ?_⟩
  simp only [onLogin, hnew, bind, Except.bind, pure, Except.pure]
  cases insertUsers s.users parts with
  | none => rfl
  | some users =>
    dsimp only
    rw [tomap_selectUkey]
    by_cases hon : ∃ e ∈ s.online, e.1 ∈ arr.map Login.ukey
    · rw [if_pos hon, if_pos hon]
    · rw [if_neg hon, if_neg hon]
      dsimp only
      split_ifs <;> rfl

theorem online_iff {s : State} {arr : List Login} :
    (∃ e ∈ s.online, e.1 ∈ arr.map Login.ukey) ↔ ∃ r ∈ arr, get s.online r.ukey ≠ none := by
  constructor
  · rintro ⟨e, he, hk⟩
    obtain ⟨r, hr, hrk⟩ := List.mem_map.mp hk
    exact ⟨r, hr, fun hnone => get_eq_none.mp hnone e he hrk.symm⟩
  · rintro ⟨r, hr, hon⟩
    rw [Ne, get_eq_none] at hon
    push Not at hon
    obtain ⟨e, he, hk⟩ := hon
    exact ⟨e, he, List.mem_map.mpr ⟨r, hr, hk.symm⟩⟩

/-- A client of the batch that is online makes the handler raise. -/
theorem onLogin_raises {s : State} {arr : List Login} (hnu : (s.users.map Prod.fst).Nodup)
    (honce : ∀ u, get s.users u = none → (arr.map Login.username).count u ≤ 1)
    {r : Login} (hr : r ∈ arr) (hon : get s.online r.ukey ≠ none) :
    onLogin encode date now pairs s arr = .error .indexNil := by
  obtain ⟨parts, hparts, hlogin⟩ := onLogin_cases encode date now pairs s arr hnu
  obtain ⟨users, hins⟩ := Option.isSome_iff_exists.mp
    ((insertUsers_isSome_iff hnu hparts).mpr honce)
  rw [hlogin, hins]
  dsimp only
  rw [if_pos (online_iff.mpr ⟨r, hr, hon⟩)]

/-- A plain batch comes to what it is to come to. -/
theorem served_of_plain {s : State} {arr : List Login} (hpairs : ∀ t, (pairs t).Perm t)
    (hno : (s.online.map Prod.fst).Nodup) (hnu : (s.users.map Prod.fst).Nodup)
    (h : Plain s arr) :
    ∃ s', onLogin encode date now pairs s arr = .ok s' ∧ Served encode now arr s s' := by
  obtain ⟨parts, hparts, hlogin⟩ := onLogin_cases encode date now pairs s arr hnu
  obtain ⟨users, hins⟩ := Option.isSome_iff_exists.mp
    ((insertUsers_isSome_iff hnu hparts).mpr h.once)
  have hoff : ¬ ∃ e ∈ s.online, e.1 ∈ arr.map Login.ukey := by
    rw [online_iff]
    rintro ⟨r, hr, hon⟩
    exact hon (h.offline r hr)
  rw [hins] at hlogin
  dsimp only at hlogin
  rw [if_neg hoff] at hlogin
  refine ⟨_, hlogin, ?_⟩
  have honline := insertOnline_online encode now { s with users } arr hpairs
  have husers : (if newUsers [] arr = [] then { s with users }
      else insertOnline encode now pairs { s with users } (newUsers [] arr)).users = users := by
    split_ifs <;> rfl
  refine ⟨?_, ?_, ?_, ?_⟩
  · rw [husers]
    exact count_insertUsers hparts hins h.once
  · rw [husers]
    rw [insertUsers] at hins
    split_ifs at hins
    rw [← Option.some.inj hins]
    exact fun e he => List.mem_append_left _ he
  · intro r hr _
    have hk := (mem_map_ukey encode hpairs).mpr (h.last r hr)
    obtain ⟨p, hp, hpk, hrow⟩ := get_insertRows_of_mem "wechat" now s.online hk
    obtain ⟨q, hq, rfl⟩ := List.mem_map.mp hp
    obtain ⟨e, he, rfl⟩ := List.mem_map.mp hq
    have hmem := (lastOf_mem (mem_newUsers.mp ((hpairs _).mem_iff.mp he))).1
    rw [honline]
    refine ⟨List.count_eq_one_of_mem (nodup_insertRows hno _) ?_, e.2, hmem, hpk, hrow⟩
    exact List.mem_map_of_mem (f := Prod.fst) (mem_of_get hrow)
  · intro k hk
    rw [honline]
    apply get_insertRows_of_not_mem
    rw [mem_map_ukey encode hpairs]
    rintro ⟨u, q, hq, rfl⟩
    have hmem := (lastOf_mem hq).1
    rcases hk with hk | hk
    · exact hk (List.mem_map_of_mem hmem)
    · exact hk (h.offline q hmem)

/-- A batch comes to what it is to come to only if it is plain. -/
theorem plain_of_served {s s' : State} {arr : List Login} (hpairs : ∀ t, (pairs t).Perm t)
    (hnu : (s.users.map Prod.fst).Nodup)
    (hok : onLogin encode date now pairs s arr = .ok s') (h : Served encode now arr s s') :
    Plain s arr := by
  obtain ⟨parts, hparts, hlogin⟩ := onLogin_cases encode date now pairs s arr hnu
  rw [hlogin] at hok
  have honce : ∀ u, get s.users u = none → (arr.map Login.username).count u ≤ 1 := by
    intro u hu
    by_contra hmany
    -- the insertion fails, so nothing has been created
    have hnone : insertUsers s.users parts = none := by
      rw [← Option.not_isSome_iff_eq_none, insertUsers_isSome_iff hnu hparts]
      exact fun hall => hmany (hall u hu)
    rw [hnone] at hok
    obtain rfl := Except.ok.inj hok
    have hcount := h.created u
    rw [if_pos ⟨List.count_pos_iff.mp (by omega), hu⟩] at hcount
    omega
  obtain ⟨users, hins⟩ := Option.isSome_iff_exists.mp
    ((insertUsers_isSome_iff hnu hparts).mpr honce)
  rw [hins] at hok
  dsimp only at hok
  have hoff : ¬ ∃ e ∈ s.online, e.1 ∈ arr.map Login.ukey := by
    intro hon
    rw [if_pos hon] at hok
    cases hok
  rw [if_neg hoff] at hok
  have hoffline : ∀ r ∈ arr, get s.online r.ukey = none := by
    intro r hr
    by_contra hon
    exact hoff (online_iff.mpr ⟨r, hr, hon⟩)
  refine ⟨hoffline, fun r hr => ?_, honce⟩
  obtain ⟨-, q, -, -, hrow⟩ := h.online r hr (hoffline r hr)
  rw [← Except.ok.inj hok, insertOnline_online _ _ _ _ hpairs] at hrow
  rw [← mem_map_ukey encode hpairs]
  by_contra hk
  rw [get_insertRows_of_not_mem _ hk] at hrow
  exact absurd ((hoffline r hr).symm.trans hrow) nofun

end Served

/-! ## Batches that are not plain -/

def sampleLogin (uid : ℤ) (username : String) : Login :=
  ⟨uid, 1510, "172.16.24.186", "28:a0:2b:65:4d:62", username, 1, 63, some "shop"⟩

def sampleState : State :=
  ⟨[("aaa", ⟨"1234", "2016-08-19 11:50:29", 63⟩)], [], none, [], []⟩

/-- A user that `user` has logs in twice from one device, and a new one in between. -/
def twoUsers : List Login :=
  [sampleLogin 754 "aaa", sampleLogin 755 "bbb", sampleLogin 754 "aaa"]

theorem plain_twoUsers : Plain sampleState twoUsers where
  offline _ _ := rfl
  last := by
    intro r hr
    simp only [twoUsers, List.mem_cons, List.not_mem_nil, or_false] at hr
    rcases hr with rfl | rfl | rfl
    · exact ⟨"aaa", sampleLogin 754 "aaa", by decide, rfl⟩
    · exact ⟨"bbb", sampleLogin 755 "bbb", by decide, rfl⟩
    · exact ⟨"aaa", sampleLogin 754 "aaa", by decide, rfl⟩
  once := by
    intro u hu
    have hne : u ≠ "aaa" := by
      rintro rfl
      cases hu
    have hle : (["aaa", "bbb", "aaa"].count u) ≤ 1 := by
      rw [List.count_cons_of_ne hne.symm, List.count_cons, List.count_cons_of_ne hne.symm]
      simp
      split <;> simp
    exact hle

end AuthWechat
