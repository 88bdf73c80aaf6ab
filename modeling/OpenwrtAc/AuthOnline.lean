/-
# The table of the clients that are online (`authd/authlib.lua`)

`memo.online` has a row for each client, by its `ukey`, which is its primary key: an
`insert or replace` puts a row in the place of one with the same key.
-/
import OpenwrtAc.LuaTable
import Mathlib.Data.Int.Notation
import Mathlib.Data.List.Nodup

namespace AuthOnline

open LuaTable

/-- A row of `memo.online`, without its key. -/
structure OnlineRow where
  type : String
  username : String
  ip : String
  mac : String
  ext : String
  rid : ℤ
  gid : ℤ
  login : ℤ
  active : ℤ
  deriving DecidableEq

/-- `memo.online`, by `ukey`. -/
abbrev Online := Table String OnlineRow

/-- An entry of the `user_map` of `insert_online`. -/
structure Client where
  ukey : String
  username : String
  ip : String
  mac : String
  ext : Option String
  rid : ℤ
  gid : ℤ

/-- The values that `insert_online` writes of a client. -/
def Client.row (p : Client) (authtype : String) (now : ℤ) : OnlineRow where
  type := authtype
  username := p.username
  ip := p.ip
  mac := p.mac
  ext := p.ext.getD "\x7b\x7d"
  rid := p.rid
  gid := p.gid
  login := now
  active := now

/-- `insert or replace into memo.online` of `insert_online`. -/
def insertRows (authtype : String) (now : ℤ) (online : Online) (arr : List Client) : Online :=
  arr.foldl (fun t p => set t p.ukey (p.row authtype now)) online

/-- `delete from memo.online` of `offline_ukeys`. -/
def deleteRows (online : Online) (ukeys : List String) : Online :=
  online.filter fun e => e.1 ∉ ukeys

variable {authtype : String} {now : ℤ}

@[simp] theorem insertRows_nil (online : Online) : insertRows authtype now online [] = online :=
  rfl

@[simp] theorem insertRows_cons (online : Online) (p : Client) (arr : List Client) :
    insertRows authtype now online (p :: arr) =
      insertRows authtype now (set online p.ukey (p.row authtype now)) arr := rfl

/-- Of clients with different keys, each has its row, and the rows with other keys stay. -/
theorem mem_insertRows {online : Online} {arr : List Client}
    (hnd : (arr.map Client.ukey).Nodup) {e : String × OnlineRow} :
    e ∈ insertRows authtype now online arr ↔
      (∃ p ∈ arr, e = (p.ukey, p.row authtype now)) ∨
        e ∈ online ∧ ∀ p ∈ arr, p.ukey ≠ e.1 := by
  induction arr generalizing online with
  | nil => simp
  | cons p arr ih =>
    rw [List.map_cons, List.nodup_cons] at hnd
    rw [insertRows_cons, ih hnd.2, mem_set]
    constructor
    · rintro (⟨q, hq, rfl⟩ | ⟨rfl | ⟨he, hp⟩, hall⟩)
      · exact .inl ⟨q, List.mem_cons_of_mem _ hq, rfl⟩
      · exact .inl ⟨p, List.mem_cons_self, rfl⟩
      · refine .inr ⟨he, fun q hq => ?_⟩
        rcases List.mem_cons.1 hq with rfl | hq
        · exact hp.symm
        · exact hall q hq
    · rintro (⟨q, hq, rfl⟩ | ⟨he, hall⟩)
      · rcases List.mem_cons.1 hq with rfl | hq
        · refine .inr ⟨.inl rfl, fun q' hq' hk => ?_⟩
          exact hnd.1 (List.mem_map.2 ⟨q', hq', hk⟩)
        · exact .inl ⟨q, hq, rfl⟩
      · exact .inr ⟨.inr ⟨he, (hall p List.mem_cons_self).symm⟩,
          fun q hq => hall q (List.mem_cons_of_mem _ hq)⟩

/-- The type stored for a key after an insertion. -/
theorem get_insertRows_type (online : Online) (arr : List Client) (k : String) :
    (get (insertRows authtype now online arr) k).map OnlineRow.type =
      if k ∈ arr.map Client.ukey then some authtype else (get online k).map OnlineRow.type := by
  induction arr generalizing online with
  | nil => simp
  | cons p arr ih =>
    rw [insertRows_cons, ih, List.map_cons]
    by_cases hk : k ∈ arr.map Client.ukey
    · rw [if_pos hk, if_pos (List.mem_cons_of_mem _ hk)]
    · rw [if_neg hk, get_set]
      by_cases hp : k = p.ukey
      · rw [if_pos hp, if_pos (hp ▸ List.mem_cons_self)]
        rfl
      · rw [if_neg hp, if_neg]
        exact fun hmem => hk ((List.mem_cons.1 hmem).resolve_left hp)

theorem get_insertRows_of_not_mem (online : Online) {arr : List Client} {k : String}
    (hk : k ∉ arr.map Client.ukey) :
    get (insertRows authtype now online arr) k = get online k := by
  induction arr generalizing online with
  | nil => rfl
  | cons p arr ih =>
    rw [List.map_cons, List.mem_cons, not_or] at hk
    rw [insertRows_cons, ih _ hk.2, get_set_of_ne _ _ hk.1]

/-- The row of a key that is inserted is that of a client with the key. -/
theorem get_insertRows_of_mem (authtype : String) (now : ℤ) (online : Online) {arr : List Client}
    {k : String}
    (hk : k ∈ arr.map Client.ukey) :
    ∃ p ∈ arr, p.ukey = k ∧ get (insertRows authtype now online arr) k = some (p.row authtype now) := by
  induction arr generalizing online with
  | nil => cases hk
  | cons p arr ih =>
    rw [insertRows_cons]
    by_cases hmem : k ∈ arr.map Client.ukey
    · obtain ⟨q, hq, hqk, hrow⟩ := ih (set online p.ukey (p.row authtype now)) hmem
      exact ⟨q, List.mem_cons_of_mem _ hq, hqk, hrow⟩
    · have hp : k = p.ukey := (List.mem_cons.1 hk).resolve_right hmem
      refine ⟨p, List.mem_cons_self, hp.symm, ?_⟩
      rw [get_insertRows_of_not_mem _ hmem, hp, get_set_self]

theorem nodup_insertRows {online : Online} (hnd : (online.map Prod.fst).Nodup)
    (arr : List Client) : ((insertRows authtype now online arr).map Prod.fst).Nodup := by
  induction arr generalizing online with
  | nil => exact hnd
  | cons p arr ih => exact ih (nodup_set hnd _ _)

theorem get_deleteRows (online : Online) (ukeys : List String) (k : String) :
    get (deleteRows online ukeys) k = if k ∈ ukeys then none else get online k := by
  induction online with
  | nil => simp [deleteRows]
  | cons e online ih =>
    by_cases he : e.1 ∈ ukeys
    · rw [deleteRows, List.filter_cons_of_neg (by simpa using he), ← deleteRows, ih, get_cons]
      by_cases hk : k ∈ ukeys
      · rw [if_pos hk, if_pos hk]
      · rw [if_neg hk, if_neg hk, if_neg fun h : e.1 = k => hk (h ▸ he)]
    · rw [deleteRows, List.filter_cons_of_pos (by simpa using he), ← deleteRows, get_cons, ih,
        get_cons]
      by_cases hk : k ∈ ukeys
      · rw [if_pos hk, if_pos hk, if_neg fun h : e.1 = k => he (h ▸ hk)]
      · rw [if_neg hk, if_neg hk]

end AuthOnline
