/-
# The cache of the modules of the clients online (`authd/cache.lua`, `authlib.lua`, `auto.lua`)

`online_cache` maps the clients online to the modules that have put them there.  It is loaded
from `memo.online` by the first call that needs it, which waits for the database; whoever
comes meanwhile starts a load of his own.  Rows are put in and taken out by calls that wait
too, and that change the cache once they are answered.
-/
import OpenwrtAc.AuthOnline

namespace AuthCache

open LuaTable AuthOnline

/-! ## The calls that wait -/

/-- A call that waits for the database, which serves and answers them in their order. -/
inductive Pending where
  /-- `insert_online`. -/
  | insert (arr : List Client) (authtype : String) (now : ℤ)
  /-- `offline_ukeys`. -/
  | delete (ukeys : List String)
  /-- The query of `check_module`, inside `set_module` for the first of these clients (or
  inside `get_module`, for none). -/
  | load (ukeys : List String) (mod : Option String)
  /-- The query of `on_keepalive_batch` for the clients of a slice. -/
  | check (alive : List Client) (now : ℤ)
  /-- Its update of those online, with those to insert. -/
  | update (ukeys : List String) (offline : List Client) (now : ℤ)

/-- The daemon, and the table of the database as it is once the calls answered are served. -/
structure State where
  online : Online
  /-- `online_cache`. -/
  cache : Option (Table String String)
  queue : List Pending

def State.init : State := ⟨[], none, []⟩

/-- `select ukey,type from memo.online`, as a table. -/
def loadRows (online : Online) : Table String String := online.map fun e => (e.1, e.2.type)

/-- `set_module` of a cache that is loaded. -/
def setModule (mod : Option String) (cache : Table String String) (ukey : String) :
    Table String String :=
  match mod with
  | none => erase cache ukey
  | some m => if (get cache ukey).isNone then set cache ukey m else cache

/-- `set_module` for each of the clients; the first call may wait for the cache. -/
def setModules (s : State) (ukeys : List String) (mod : Option String) : State :=
  match ukeys, s.cache with
  | [], _ => s
  | _ :: _, some cache => { s with cache := some (ukeys.foldl (setModule mod) cache) }
  | _ :: _, none => { s with queue := s.queue ++ [.load ukeys mod] }

/-- `update memo.online set active` of `on_keepalive_batch`. -/
def touch (online : Online) (ukeys : List String) (now : ℤ) : Online :=
  online.map fun e => if e.1 ∈ ukeys then (e.1, { e.2 with active := now }) else e

/-- The clients of a slice that are not online, by their `ukey`. -/
def offlineOf (online : Online) (alive : List Client) : Table String Client :=
  alive.foldl (fun t r => if (get online r.ukey).isSome then t else set t r.ukey r) []

/-- The last part of the loop of `on_keepalive_batch`. -/
def insertAuto (s : State) (offline : List Client) (now : ℤ) : State :=
  if offline = [] then s
  else
    let arr := offline.map fun r => { r with gid := 0, username := r.mac }
    { s with queue := s.queue ++ [.insert arr "auto" now] }

/-- The first call that waits is answered and goes on to where it waits again or ends. -/
def answer (s : State) : Option State :=
  match s.queue with
  | [] => none
  | .insert arr authtype now :: queue =>
    some (setModules { s with online := insertRows authtype now s.online arr, queue }
      (arr.map Client.ukey) (some authtype))
  | .delete ukeys :: queue =>
    some (setModules { s with online := deleteRows s.online ukeys, queue } ukeys none)
  | .load ukeys mod :: queue =>
    some { s with cache := some (ukeys.foldl (setModule mod) (loadRows s.online)), queue }
  | .check alive now :: queue =>
    let rs := (alive.map Client.ukey).filter fun k => (get s.online k).isSome
    let offline := (offlineOf s.online alive).map Prod.snd
    some (if rs = [] then insertAuto { s with queue } offline now
      else { s with queue := queue ++ [.update rs offline now] })
  | .update ukeys offline now :: queue =>
    some (insertAuto { s with online := touch s.online ukeys now, queue } offline now)

inductive Event where
  /-- `insert_online` by one of the modules. -/
  | insert (arr : List Client) (authtype : String) (now : ℤ)
  /-- A slice of `on_keepalive_batch`. -/
  | keepalive (alive : List Client) (now : ℤ)
  /-- `offline_ukeys`. -/
  | delete (ukeys : List String)
  /-- `get_module`. -/
  | get (ukey : String)
  | answer

def step (s : State) : Event → Option State
  | .insert arr authtype now => some { s with queue := s.queue ++ [.insert arr authtype now] }
  | .keepalive alive now => some { s with queue := s.queue ++ [.check alive now] }
  | .delete ukeys => some { s with queue := s.queue ++ [.delete ukeys] }
  | .get _ =>
    match s.cache with
    | some _ => some s
    | none => some { s with queue := s.queue ++ [.load [] none] }
  | .answer => answer s

/-- The states of the runs whose steps are all `Good`. -/
inductive Reached (Good : State → Event → Prop) : State → Prop
  | init : Reached Good State.init
  | step {s s' : State} {e : Event} (h : Reached Good s) (hs : step s e = some s')
      (hg : Good s e) : Reached Good s'

/-! ## What the cache has after a call -/

/-- The type that the table stores for a client. -/
def typeOf (online : Online) (k : String) : Option String :=
  (get online k).map OnlineRow.type

theorem get_loadRows (online : Online) (k : String) :
    get (loadRows online) k = typeOf online k := by
  induction online with
  | nil => rfl
  | cons e online ih =>
    rw [loadRows, List.map_cons, ← loadRows, get_cons, ih, typeOf, typeOf, get_cons]
    split <;> rfl

theorem typeOf_touch (online : Online) (ukeys : List String) (now : ℤ) (k : String) :
    typeOf (touch online ukeys now) k = typeOf online k := by
  induction online with
  | nil => rfl
  | cons e online ih =>
    have hkey : (if e.1 ∈ ukeys then (e.1, { e.2 with active := now }) else e).1 = e.1 := by
      split <;> rfl
    have htype : (if e.1 ∈ ukeys then (e.1, { e.2 with active := now }) else e).2.type =
        e.2.type := by split <;> rfl
    rw [touch, List.map_cons, ← touch, typeOf, typeOf, get_cons, get_cons, hkey]
    split
    · exact congrArg some htype
    · exact ih

/-- The entry of a client after `set_module` for some. -/
theorem get_setModules (mod : Option String) (cache : Table String String)
    (ukeys : List String) (k : String) :
    get (ukeys.foldl (setModule mod) cache) k =
      if k ∈ ukeys then mod.map fun m => (get cache k).getD m else get cache k := by
  have hone (cache : Table String String) (u : String) :
      get (setModule mod cache u) k =
        if k = u then mod.map fun m => (get cache k).getD m else get cache k := by
    cases mod with
    | none =>
      rw [setModule, get_erase]
      rfl
    | some m =>
      rw [setModule]
      by_cases hk : k = u
      · subst hk
        cases hc : get cache k with
        | none => simp
        | some m' => simp [hc]
      · rw [if_neg hk]
        split
        · exact get_set_of_ne _ _ hk
        · rfl
  induction ukeys generalizing cache with
  | nil => rfl
  | cons u ukeys ih =>
    rw [List.foldl_cons, ih, hone]
    by_cases hk : k ∈ ukeys
    · rw [if_pos hk, if_pos (List.mem_cons_of_mem _ hk)]
      split
      · cases mod with
        | none => rfl
        | some m => simp
      · rfl
    · rw [if_neg hk]
      by_cases hu : k = u
      · rw [if_pos hu, if_pos (hu ▸ List.mem_cons_self)]
      · rw [if_neg hu, if_neg fun h => hk ((List.mem_cons.1 h).resolve_left hu)]

/-! ## The cache and the table -/

/-- A loaded cache maps the clients online to their types. -/
def Coherent (s : State) : Prop :=
  ∀ cache, s.cache = some cache → ∀ k, get cache k = typeOf s.online k

/-- A load is to be answered. -/
def LoadPending (queue : List Pending) : Prop := ∃ ukeys mod, .load ukeys mod ∈ queue

/-- The answers that do not part the cache from the table: clients are inserted with the
type that they are online with, if any, and what a call goes on to note after its own load
is still so. Where another load is to come, nothing needs to be so. -/
structure Kept (s : State) : Prop where
  insert : ∀ {arr authtype now queue}, s.queue = .insert arr authtype now :: queue →
    s.cache ≠ none → ¬ LoadPending queue → ∀ k ∈ arr.map Client.ukey, ∀ m,
      typeOf s.online k = some m → m = authtype
  load : ∀ {ukeys mod queue}, s.queue = .load ukeys mod :: queue → ¬ LoadPending queue →
    ∀ k ∈ ukeys, mod = none ↔ typeOf s.online k = none

theorem LoadPending.append {queue : List Pending} (h : LoadPending queue) (p : Pending) :
    LoadPending (queue ++ [p]) := by
  obtain ⟨ukeys, mod, hmem⟩ := h
  exact ⟨ukeys, mod, List.mem_append_left _ hmem⟩

theorem LoadPending.tail {p : Pending} {queue : List Pending} (h : LoadPending (p :: queue))
    (hp : ∀ ukeys mod, p ≠ .load ukeys mod) : LoadPending queue := by
  obtain ⟨ukeys, mod, hmem⟩ := h
  exact ⟨ukeys, mod, (List.mem_cons.1 hmem).resolve_left fun he => hp ukeys mod he.symm⟩

/-- The cache is right, or is about to be loaded again. -/
def Inv (s : State) : Prop := LoadPending s.queue ∨ Coherent s

theorem Inv.push {s : State} (h : Inv s) (p : Pending) :
    Inv { s with queue := s.queue ++ [p] } :=
  h.imp (fun hl => hl.append p) id

theorem inv_setModules {s : State} {ukeys : List String} {mod : Option String}
    (h : LoadPending s.queue ∨ ∀ cache, s.cache = some cache → ∀ k,
      get (ukeys.foldl (setModule mod) cache) k = typeOf s.online k) :
    Inv (setModules s ukeys mod) := by
  unfold setModules
  split
  · exact h
  next u us cache hc =>
    refine h.imp id fun hk => ?_
    rintro _ ⟨⟩ k
    exact hk cache hc k
  next u us hc => exact .inl ⟨u :: us, mod, by simp⟩

theorem inv_insertAuto {s : State} (h : Inv s) (offline : List Client) (now : ℤ) :
    Inv (insertAuto s offline now) := by
  unfold insertAuto
  split
  · exact h
  · exact h.push _

/-- The answer to a call keeps the cache right, where it has to be. -/
theorem Inv.answer {s s' : State} (hi : Inv s) (h : answer s = some s') (hk : Kept s) :
    Inv s' := by
  unfold AuthCache.answer at h
  split at h
  · cases h
  next arr authtype now queue hq =>
    cases h
    refine inv_setModules ?_
    by_cases hl : LoadPending queue
    · exact .inl hl
    refine .inr fun cache hc k => ?_
    have hcoh : Coherent s := hi.resolve_left fun h => hl ((hq ▸ h).tail (by simp))
    rw [get_setModules, typeOf, get_insertRows_type]
    split
    next hmem =>
      rw [hcoh cache hc k, Option.map_some]
      cases ht : typeOf s.online k with
      | none => rfl
      | some m =>
        exact congrArg some (hk.insert hq (by simp only at hc; simp [hc]) hl k hmem m ht)
    · exact hcoh cache hc k
  next ukeys queue hq =>
    cases h
    refine inv_setModules ?_
    by_cases hl : LoadPending queue
    · exact .inl hl
    refine .inr fun cache hc k => ?_
    have hcoh : Coherent s := hi.resolve_left fun h => hl ((hq ▸ h).tail (by simp))
    rw [get_setModules, typeOf, get_deleteRows]
    split
    · rfl
    · exact hcoh cache hc k
  next ukeys mod queue hq =>
    cases h
    by_cases hl : LoadPending queue
    · exact .inl hl
    refine .inr ?_
    rintro _ ⟨⟩ k
    rw [get_setModules, get_loadRows]
    split
    next hmem =>
      -- what the call notes is what the load has brought already
      have hiff := hk.load hq hl k hmem
      cases mod with
      | none => exact (hiff.1 rfl).symm
      | some m =>
        obtain ⟨m', hm'⟩ := Option.ne_none_iff_exists'.1 (mt hiff.2 (by simp))
        rw [hm']
        rfl
    · rfl
  next alive now queue hq =>
    cases h
    have hi' : Inv { s with queue } :=
      hi.imp (fun h => (hq ▸ h).tail (by simp)) id
    split
    · exact inv_insertAuto hi' _ _
    · exact hi'.push _
  next ukeys offline now queue hq =>
    cases h
    refine inv_insertAuto (hi.imp (fun h => (hq ▸ h).tail (by simp)) fun hcoh => ?_) _ _
    intro cache hc k
    rw [typeOf_touch]
    exact hcoh cache hc k

theorem Inv.step {s s' : State} {e : Event} (hi : Inv s) (h : step s e = some s')
    (hk : e = .answer → Kept s) : Inv s' := by
  cases e with
  | insert arr authtype now =>
    cases h
    exact hi.push _
  | keepalive alive now =>
    cases h
    exact hi.push _
  | delete ukeys =>
    cases h
    exact hi.push _
  | get ukey =>
    simp only [AuthCache.step] at h
    split at h
    · cases h
      exact hi
    · cases h
      exact hi.push _
  | answer => exact hi.answer h (hk rfl)

/-- In every run in which the answers do not part them, the cache is that of the table
whenever no call is waiting. -/
theorem coherent_of_kept {s : State} (h : Reached (fun s e => e = .answer → Kept s) s)
    (hidle : s.queue = []) : Coherent s := by
  have hi : Inv s := by
    clear hidle
    induction h with
    | init => exact .inr (by rintro _ ⟨⟩)
    | step _ hs hg ih => exact ih.step hs hg
  refine hi.resolve_left ?_
  rintro ⟨ukeys, mod, hmem⟩
  rw [hidle] at hmem
  cases hmem

/-- A client that logs in. -/
def sampleClient : Client where
  ukey := "70_142"
  username := "bob"
  ip := "172.16.24.186"
  mac := "28:a0:2b:65:4d:62"
  ext := none
  rid := 0
  gid := 63

/-- The cache is loaded before the client logs in. -/
theorem coherent_after_login :
    ∃ s, s.queue = [] ∧ s.cache = some [("70_142", "web")] ∧ Coherent s := by
  have h₁ : Reached (fun s e => e = .answer → Kept s) ⟨[], none, [.load [] none]⟩ :=
    Reached.init.step (e := .get "70_142") rfl (by rintro ⟨⟩)
  have h₂ : Reached (fun s e => e = .answer → Kept s) ⟨[], some [], []⟩ := by
    refine h₁.step (e := .answer) rfl fun _ => ⟨by rintro _ _ _ _ ⟨⟩, ?_⟩
    rintro _ _ _ ⟨⟩ - k hk
    cases hk
  have h₃ := h₂.step (e := .insert [sampleClient] "web" 0) rfl (by rintro ⟨⟩)
  have h₄ := h₃.step (e := .answer) rfl fun _ => by
    refine ⟨?_, by rintro _ _ _ ⟨⟩⟩
    rintro _ _ _ _ ⟨⟩ - - k - m hm
    cases hm
  exact ⟨_, rfl, rfl, coherent_of_kept h₄ rfl⟩

/-- The client logs in with two modules at once: the row has the later type, and the cache
keeps the earlier one. -/
theorem second_login_keeps_type :
    ∃ s, Reached (fun _ _ => True) s ∧ s.queue = [] ∧ ¬ Coherent s := by
  have h₀ : Reached (fun _ _ => True) State.init := .init
  have h₁ := h₀.step (e := .get "70_142") rfl trivial
  have h₂ := h₁.step (e := .answer) rfl trivial
  have h₃ := h₂.step (e := .insert [sampleClient] "web" 0) rfl trivial
  have h₄ := h₃.step (e := .insert [sampleClient] "wechat" 0) rfl trivial
  have h₅ := h₄.step (e := .answer) rfl trivial
  have h₆ := h₅.step (e := .answer) rfl trivial
  refine ⟨_, h₆, rfl, fun hcoh => ?_⟩
  have hk := hcoh [("70_142", "web")] rfl "70_142"
  revert hk
  decide

end AuthCache
