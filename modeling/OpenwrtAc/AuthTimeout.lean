/-
# Timed log-off (`timeout_offline` of `authd/authlib.lua`)

The rows of a module that exceed one of the two timeouts are selected, their keys are
collected by a fold, and `offline_ukeys` takes the clients of these keys offline.  The
fold reads the key from the table it builds and not from the row.
-/
import Mathlib.Tactic.Common
import OpenwrtAc.AuthCache

namespace AuthTimeout

open LuaTable AuthOnline AuthCache

/-- What `kv` has for `auth_offline_time` or `auth_no_flow_timeout`. -/
structure Setting where
  enable : Option ℤ
  time : Option ℤ

/-- `m.enable ~= 0 and m.time or 999999999`, of a setting that may be missing. -/
def secsOf (m : Option Setting) : ℤ :=
  let m := m.getD ⟨some 0, none⟩
  if m.enable ≠ some 0 then m.time.getD 999999999 else 999999999

/-- The two settings. -/
structure Settings where
  auth_offline_time : Option Setting
  auth_no_flow_timeout : Option Setting

/-- The rows, `online_cache`, and the users that `user_set_offline` was called for. -/
structure State where
  online : Online
  cache : Option (Table String String)
  offlined : List (Option (ℕ × ℕ))

def isDigit (c : Char) : Bool :=
  '0' ≤ c && c ≤ '9'

/-- `tonumber` of digits. -/
def tonumber (digits : List Char) : ℕ :=
  digits.foldl (fun n c => 10 * n + (c.toNat - '0'.toNat)) 0

/-- `ukey:match("(%d+)_(%d+)")`, both captures as numbers. -/
def matchUkey : List Char → Option (ℕ × ℕ)
  | [] => none
  | c :: s =>
    let uid := (c :: s).takeWhile isDigit
    match (c :: s).dropWhile isDigit with
    | '_' :: rest =>
      let magic := rest.takeWhile isDigit
      if uid ≠ [] ∧ magic ≠ [] then some (tonumber uid, tonumber magic) else matchUkey s
    | _ => matchUkey s

/-- `check_module`. -/
def checkModule (s : State) : Table String String :=
  s.cache.getD (loadRows s.online)

/-- One step of the loop of `offline_ukeys`: offline in the kernel, and out of the cache. -/
def offlineOne (s : State) (ukey : String) : State :=
  { s with
    cache := some (setModule none (checkModule s) ukey)
    offlined := s.offlined ++ [matchUkey ukey.toList] }

def offlineUkeys (s : State) (ukeys : List String) : State :=
  ukeys.foldl offlineOne { s with online := deleteRows s.online ukeys }

/-- A field with a name of the array of keys that the fold builds. -/
def arrayField (_t : List String) (_name : String) : Option String :=
  none

/-- The fold over the rows selected: `rawset(t, #t + 1, t.ukey)`, which changes nothing
where the value is `nil`. -/
def collectUkeys (rs : List (String × OnlineRow)) : List String :=
  rs.foldl (fun t _r => t ++ (arrayField t "ukey").toList) []

/-- The row is of the module and exceeds one of its timeouts. -/
def Exceeds (set : Settings) (now : ℤ) (mod : String) (e : String × OnlineRow) : Prop :=
  e.2.type = mod ∧ (e.2.active - e.2.login > secsOf set.auth_offline_time ∨
    now - e.2.active > secsOf set.auth_no_flow_timeout)

instance (set : Settings) (now : ℤ) (mod : String) (e : String × OnlineRow) :
    Decidable (Exceeds set now mod e) :=
  inferInstanceAs (Decidable (_ ∧ _))

/-- `timeout_offline(simple, mod)` at the time `now`. -/
def timeoutOffline (set : Settings) (now : ℤ) (mod : String) (s : State) : State :=
  let rs := s.online.filter fun e => Exceeds set now mod e
  if rs = [] then s else offlineUkeys s (collectUkeys rs)

/-! ## `offline_ukeys` -/

theorem foldl_offlineOne_online (s : State) (ukeys : List String) :
    (ukeys.foldl offlineOne s).online = s.online := by
  induction ukeys generalizing s with
  | nil => rfl
  | cons u ukeys ih => exact ih (offlineOne s u)

theorem foldl_offlineOne_offlined (s : State) (ukeys : List String) :
    (ukeys.foldl offlineOne s).offlined =
      s.offlined ++ ukeys.map fun u => matchUkey u.toList := by
  induction ukeys generalizing s with
  | nil => simp
  | cons u ukeys ih =>
    rw [List.foldl_cons, ih, List.map_cons]
    show s.offlined ++ [matchUkey u.toList] ++ _ = _
    rw [List.append_assoc]
    rfl

/-- The cache is loaded by the first client, if it was not. -/
theorem foldl_offlineOne_cache (s : State) (ukeys : List String) (h : ukeys ≠ []) :
    (ukeys.foldl offlineOne s).cache =
      some (ukeys.foldl (setModule none) (checkModule s)) := by
  induction ukeys generalizing s with
  | nil => exact absurd rfl h
  | cons u ukeys ih =>
    rw [List.foldl_cons, List.foldl_cons]
    by_cases hu : ukeys = []
    · subst hu
      rfl
    · rw [ih _ hu]
      rfl

/-- The rows of the keys are gone. -/
theorem mem_offlineUkeys (s : State) (ukeys : List String) (e : String × OnlineRow) :
    e ∈ (offlineUkeys s ukeys).online ↔ e ∈ s.online ∧ e.1 ∉ ukeys := by
  rw [offlineUkeys, foldl_offlineOne_online]
  simp [deleteRows]

/-- The clients of the keys are offline in the kernel, in their order. -/
theorem offlineUkeys_offlined (s : State) (ukeys : List String) :
    (offlineUkeys s ukeys).offlined = s.offlined ++ ukeys.map fun u => matchUkey u.toList :=
  foldl_offlineOne_offlined _ ukeys

/-- The clients of the keys are out of the cache. -/
theorem offlineUkeys_cache (s : State) {ukeys : List String} {u : String} (hu : u ∈ ukeys)
    {cache : Table String String} (hc : (offlineUkeys s ukeys).cache = some cache) :
    get cache u = none := by
  rw [offlineUkeys, foldl_offlineOne_cache _ _ (List.ne_nil_of_mem hu)] at hc
  obtain rfl := Option.some.inj hc
  rw [get_setModules, if_pos hu]
  rfl

/-! ## What the fold collects -/

/-- Whatever is selected, no key is collected. -/
theorem collectUkeys_eq_nil (rs : List (String × OnlineRow)) : collectUkeys rs = [] := by
  have h : ∀ (rs : List (String × OnlineRow)) (t : List String),
      rs.foldl (fun t _r => t ++ (arrayField t "ukey").toList) t = t := by
    intro rs
    induction rs with
    | nil => intro t; rfl
    | cons r rs ih =>
      intro t
      rw [List.foldl_cons, ih]
      exact List.append_nil t
  exact h rs []

/-- So nothing changes. -/
theorem timeoutOffline_eq (set : Settings) (now : ℤ) (mod : String) (s : State) :
    timeoutOffline set now mod s = s := by
  simp only [timeoutOffline, collectUkeys_eq_nil]
  split
  · rfl
  · simp [offlineUkeys, deleteRows]

/-- What remains are the rows that are not of the module or exceed neither timeout, and the
users removed have been set offline and are not in the cache. -/
structure LoggedOff (set : Settings) (now : ℤ) (mod : String) (s s' : State) : Prop where
  remain : ∀ e, e ∈ s'.online ↔ e ∈ s.online ∧ ¬ Exceeds set now mod e
  kernel : ∀ e ∈ s.online, e ∉ s'.online → matchUkey e.1.toList ∈ s'.offlined.drop s.offlined.length
  cache : ∀ e ∈ s.online, e ∉ s'.online → ∀ cache, s'.cache = some cache → get cache e.1 = none

/-- With the keys of the rows selected `offline_ukeys` does what is wanted. -/
theorem loggedOff_of_keys (set : Settings) (now : ℤ) (mod : String) (s : State)
    (hnd : (s.online.map Prod.fst).Nodup) :
    LoggedOff set now mod s
      (offlineUkeys s ((s.online.filter fun e => Exceeds set now mod e).map Prod.fst)) := by
  generalize hks : (s.online.filter fun e => Exceeds set now mod e).map Prod.fst = ukeys
  have hkeys : ∀ e ∈ s.online, (e.1 ∈ ukeys ↔ Exceeds set now mod e) := by
    intro e he
    rw [← hks, List.mem_map]
    constructor
    · rintro ⟨e', he', hk⟩
      obtain ⟨hmem, hex⟩ := List.mem_filter.mp he'
      rw [List.inj_on_of_nodup_map hnd he hmem hk.symm]
      exact of_decide_eq_true hex
    · exact fun hex => ⟨e, List.mem_filter.mpr ⟨he, decide_eq_true hex⟩, rfl⟩
  have hgone : ∀ e ∈ s.online, e ∉ (offlineUkeys s ukeys).online → e.1 ∈ ukeys := by
    intro e he hout
    by_contra hk
    exact hout ((mem_offlineUkeys s ukeys e).mpr ⟨he, hk⟩)
  refine ⟨fun e => ?_, fun e he hout => ?_, fun e he hout cache hc => ?_⟩
  · rw [mem_offlineUkeys]
    exact and_congr_right fun he => not_congr (hkeys e he)
  · rw [offlineUkeys_offlined, List.drop_left]
    exact List.mem_map_of_mem (hgone e he hout)
  · exact offlineUkeys_cache s (hgone e he hout) hc

/-- The log-off does what it is for if and only if there is nobody to log off. -/
theorem timeoutOffline_iff (set : Settings) (now : ℤ) (mod : String) (s : State) :
    LoggedOff set now mod s (timeoutOffline set now mod s) ↔
      ∀ e ∈ s.online, ¬ Exceeds set now mod e := by
  rw [timeoutOffline_eq]
  constructor
  · intro h e he
    exact ((h.remain e).mp he).2
  · intro h
    refine ⟨fun e => ⟨fun he => ⟨he, h e he⟩, fun he => he.1⟩, ?_, ?_⟩
    · exact fun e he hgone => absurd he hgone
    · exact fun e he hgone => absurd he hgone

/-- A client whose last packet was seen an hour before, with a timeout of a minute. -/
def sampleRow : String × OnlineRow :=
  ("70_142", ⟨"web", "aaa", "172.16.24.186", "28:a0:2b:65:4d:62", "\x7b\x7d", 0, 0, 0, 0⟩)

def sampleSettings : Settings where
  auth_offline_time := none
  auth_no_flow_timeout := some ⟨some 1, some 60⟩

/-- It stays online. -/
theorem stays_online :
    ¬ ∀ (set : Settings) (now : ℤ) (mod : String) (s : State),
      LoggedOff set now mod s (timeoutOffline set now mod s) := by
  intro h
  have hl := h sampleSettings 3600 "web" ⟨[sampleRow], none, []⟩
  rw [timeoutOffline_eq] at hl
  exact ((hl.remain sampleRow).mp List.mem_cons_self).2 (by decide)

end AuthTimeout
