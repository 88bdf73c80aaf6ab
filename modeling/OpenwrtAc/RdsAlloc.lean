/-
# The buffer of the decoder and its allocation

`rds_cache` and `shrink_buff` with the number of bytes that are allocated beside the size
that the decoder keeps, and with the sum of the sizes as the `int` that it is compared as.
A copy past the allocation has a result of its own.
-/
import OpenwrtAc.RdsHostile
import OpenwrtAc.RdsTail

open MachineInt

namespace Rds

/-- Why a call does not return, or what it should not do. -/
inductive Fault where
  | stop (e : Stop)
  /-- The `memcpy` of `rds_cache` past the allocation. -/
  | overrun
deriving DecidableEq, Repr

/-- A decoder and the bytes allocated for its buffer, which is not there with 0. -/
structure Mem where
  rds : Decoder
  alloc : ℕ

namespace Mem

def new : Mem := ⟨rdsNew, 0⟩

/-- `adjust_size` of an `int`. -/
def adjustSizeInt (size : ℤ) : Option ℕ := ((List.range 24).map (2 ^ ·)).find? fun n : ℕ => size ≤ n

/-- The `memcpy` of `rds_cache`. -/
def copy (m : Mem) (buff : Bytes) : Except Fault (Bool × Mem) :=
  if m.alloc < m.rds.buff.length + buff.length then .error .overrun
  else .ok (true, { m with rds := { m.rds with buff := m.rds.buff ++ buff } })

/-- The first allocation of `rds_cache`. -/
def firstBuff (m : Mem) : Mem :=
  if m.alloc = 0 then ⟨{ m.rds with maxsize := 32 * 1024 }, 32 * 1024⟩ else m

/-- The `realloc` of `rds_cache`, and the copy. -/
def grow (m : Mem) (nsize : ℤ) (buff : Bytes) : Except Fault (Bool × Mem) :=
  match adjustSizeInt nsize with
  | none => .error (.stop .bugOn)
  | some size =>
    let m : Mem := { m with rds := { m.rds with maxsize := size } }
    if 512 * 1024 < size then .ok (false, m) else copy { m with alloc := size } buff

/-- `rds_cache`. -/
def cache (m : Mem) (buff : Bytes) : Except Fault (Bool × Mem) :=
  let m := m.firstBuff
  let nsize := i32 (m.rds.buff.length + buff.length)
  if nsize ≤ m.rds.maxsize then m.copy buff else m.grow nsize buff

/-- A message is complete and nothing is behind it. -/
def Emptied (ret : DecodeRet) (rds : Decoder) : Prop :=
  (∃ arr, ret = .done arr) ∧ rds.buff = []

instance (ret : DecodeRet) (rds : Decoder) : Decidable (Emptied ret rds) :=
  match ret with
  | .fail => .isFalse (by rintro ⟨⟨_, h⟩, _⟩; cases h)
  | .more => .isFalse (by rintro ⟨⟨_, h⟩, _⟩; cases h)
  | .done arr => decidable_of_iff (rds.buff = []) ⟨fun h => ⟨⟨arr, rfl⟩, h⟩, fun h => h.2⟩

/-- The `realloc` of `shrink_buff`, which `rds_decode` calls when the buffer is emptied. -/
def shrink (m : Mem) : ℕ := if m.rds.maxsize ≤ 128 * 1024 then m.alloc else 128 * 1024

/-- `rds_decode` behind the buffering. -/
def decodeBuff (room : ℕ → Bool) (m : Mem) : Except Fault (DecodeRet × Mem) :=
  match decodeBuffIn room m.rds with
  | .error e => .error (.stop e)
  | .ok (ret, rds) => .ok (ret, ⟨rds, if Emptied ret rds then m.shrink else m.alloc⟩)

/-- `rds_decode`. -/
def decode (room : ℕ → Bool) (m : Mem) (buff : Bytes) : Except Fault (DecodeRet × Mem) :=
  if m.rds.state = .err then .error (.stop .bugOn)
  else if buff = [] then m.decodeBuff room
  else
    match m.cache buff with
    | .error e => .error e
    | .ok (false, m) => .ok (.fail, m)
    | .ok (true, m) => m.decodeBuff room

/-! ## The buffer fits -/

/-- The bytes in the buffer fit, and the size that is kept is that of the allocation. -/
structure Fits (m : Mem) : Prop where
  le : m.rds.buff.length ≤ m.alloc
  maxsize : m.rds.maxsize = m.alloc

/-- What a call does not break: the process ends, or it returns with a buffer that fits. -/
def Keeps : Except Fault (DecodeRet × Mem) → Prop
  | .error (.stop _) => True
  | .error .overrun => False
  | .ok (_, m) => m.Fits

/-- The calls that keep the invariant: those that end in the first `BUG_ON`; those without
bytes; and those that come to no more than 512 KiB, or to more than 8 MiB and not to what
an `int` cannot hold. -/
def Good (m : Mem) (buff : Bytes) : Prop :=
  m.rds.state = .err ∨ buff = [] ∨ m.rds.buff.length + buff.length ≤ 512 * 1024 ∨
    2 ^ 23 < m.rds.buff.length + buff.length ∧ m.rds.buff.length + buff.length < 2 ^ 31

/-! ## Buffering -/

/-- The size in an `int` where it does not overflow. -/
theorem adjustSizeInt_natCast (n : ℕ) : adjustSizeInt n = adjustSize n := by
  unfold adjustSizeInt adjustSize
  congr 1
  funext x
  rw [decide_eq_decide]
  exact Nat.cast_le

/-- The new size holds what is asked for. -/
theorem le_of_adjustSize {n size : ℕ} (h : adjustSize n = some size) : n ≤ size := by
  simpa using List.find?_some h

/-- The first bytes find a buffer of 32 KiB. -/
theorem cache_new {m : Mem} (h0 : m.alloc = 0) (buff : Bytes) :
    m.cache buff = cache ⟨{ m.rds with maxsize := 32 * 1024 }, 32 * 1024⟩ buff := by
  have hfirst : m.firstBuff = firstBuff ⟨{ m.rds with maxsize := 32 * 1024 }, 32 * 1024⟩ := by
    rw [firstBuff, if_pos h0]
    rfl
  rw [cache, hfirst]
  rfl

/-- A decoder without a buffer starts with the least one. -/
theorem rdsCache_new {rds : Decoder} (h0 : rds.maxsize = 0) (buff : Bytes) :
    rdsCache rds buff = rdsCache { rds with maxsize := 32 * 1024 } buff := by
  have hroom : ¬ ({ rds with maxsize := 32 * 1024 } : Decoder).maxsize = 0 := by
    dsimp only
    omega
  unfold rdsCache
  rw [if_pos h0, if_neg hroom]

/-- What buffering makes of the result for the decoder alone. -/
def withAlloc (alloc : ℕ) : Except Stop (Bool × Decoder) → Except Fault (Bool × Mem)
  | .error e => .error (.stop e)
  | .ok (true, rds) => .ok (true, ⟨rds, rds.maxsize⟩)
  | .ok (false, rds) => .ok (false, ⟨rds, alloc⟩)

/-- Growing where the sum does not overflow. -/
theorem grow_natCast {m : Mem} {n : ℕ} {buff : Bytes} (hn : n = m.rds.buff.length + buff.length) :
    m.grow n buff = withAlloc m.alloc
      (match adjustSize n with
      | none => .error .bugOn
      | some size =>
        if 512 * 1024 < size then .ok (false, { m.rds with maxsize := size })
        else .ok (true, { m.rds with maxsize := size, buff := m.rds.buff ++ buff })) := by
  rw [grow, adjustSizeInt_natCast]
  cases hadj : adjustSize n with
  | none => rfl
  | some size =>
    have hle := le_of_adjustSize hadj
    dsimp only
    by_cases hbig : 512 * 1024 < size
    · rw [if_pos hbig, if_pos hbig]
      rfl
    · rw [if_neg hbig, if_neg hbig, copy, if_neg (by dsimp only; omega)]
      rfl

/-- Caching in a buffer that is there. -/
theorem cache_old {m : Mem} (h : m.Fits) (h0 : m.alloc ≠ 0) {buff : Bytes}
    (hlt : m.rds.buff.length + buff.length < 2 ^ 31) :
    m.cache buff = withAlloc m.alloc (rdsCache m.rds buff) := by
  have hi32 : i32 (m.rds.buff.length + buff.length) = (m.rds.buff.length + buff.length : ℕ) := by
    rw [Nat.cast_add]
    exact i32_of_range (by omega) (by omega)
  have hcast : ((m.rds.buff.length + buff.length : ℕ) : ℤ) ≤ m.rds.maxsize ↔
    m.rds.buff.length + buff.length ≤ m.rds.maxsize := Nat.cast_le
  have hmax := h.maxsize
  have hmax0 : ¬ m.rds.maxsize = 0 := by rwa [hmax]
  have hfirst : m.firstBuff = m := if_neg h0
  have hcache : m.cache buff = if i32 (m.rds.buff.length + buff.length) ≤ m.rds.maxsize
      then m.copy buff else m.grow (i32 (m.rds.buff.length + buff.length)) buff := by
    rw [cache, hfirst]
  rw [hcache, hi32, rdsCache, if_neg hmax0]
  by_cases hfit : m.rds.buff.length + buff.length ≤ m.rds.maxsize
  · rw [if_pos (hcast.mpr hfit), if_pos hfit, copy, if_neg (by omega), withAlloc, ← hmax]
  · rw [if_neg (mt hcast.mp hfit), if_neg hfit]
    exact grow_natCast rfl

/-- Where no `int` overflows, buffering is that of the decoder. -/
theorem cache_eq {m : Mem} (h : m.Fits) {buff : Bytes}
    (hlt : m.rds.buff.length + buff.length < 2 ^ 31) :
    m.cache buff =
      withAlloc (if m.alloc = 0 then 32 * 1024 else m.alloc) (rdsCache m.rds buff) := by
  by_cases h0 : m.alloc = 0
  · have hle := h.le
    rw [if_pos h0, cache_new h0, rdsCache_new (h.maxsize.trans h0)]
    exact cache_old ⟨by dsimp only; omega, rfl⟩ (by dsimp only; omega) hlt
  · rw [if_neg h0]
    exact cache_old h h0 hlt

/-- Bytes that are taken have room.  Refused is what would need a larger buffer; its size
is kept all the same. -/
theorem rdsCache_size {rds rds' : Decoder} {buff : Bytes} {taken : Bool}
    (h : rdsCache rds buff = .ok (taken, rds')) :
    if taken then rds'.buff.length ≤ rds'.maxsize else 512 * 1024 < rds'.maxsize := by
  unfold rdsCache at h
  dsimp only at h
  generalize (if rds.maxsize = 0 then { rds with maxsize := 32 * 1024 } else rds) = rds at h
  by_cases hfit : rds.buff.length + buff.length ≤ rds.maxsize
  · rw [if_pos hfit] at h
    cases h
    simpa using hfit
  · rw [if_neg hfit] at h
    cases hadj : adjustSize (rds.buff.length + buff.length) with
    | none =>
      rw [hadj] at h
      cases h
    | some n =>
      have hle := le_of_adjustSize hadj
      rw [hadj] at h
      dsimp only at h
      by_cases hbig : 512 * 1024 < n
      · rw [if_pos hbig] at h
        cases h
        simpa using hbig
      · rw [if_neg hbig] at h
        cases h
        simpa using hle

/-- A sum that is no `int` is taken for a negative one, and the bytes are copied. -/
theorem cache_overrun {m : Mem} (h : m.Fits) (hcap : m.alloc ≤ 512 * 1024) {buff : Bytes}
    (hlen : buff.length < 2 ^ 31) (hbig : 2 ^ 31 ≤ m.rds.buff.length + buff.length) :
    m.cache buff = .error .overrun := by
  have hle := h.le
  have hi32 : i32 (m.rds.buff.length + buff.length) < 0 := by
    unfold i32
    rw [Int.bmod_def]
    omega
  have hfirst : m.firstBuff.rds.buff = m.rds.buff ∧
      m.firstBuff.alloc ≤ 512 * 1024 := by
    unfold firstBuff
    split
    · exact ⟨rfl, by dsimp only; omega⟩
    · exact ⟨rfl, hcap⟩
  rw [cache]
  generalize m.firstBuff = m' at hfirst
  obtain ⟨hbuff, hcap'⟩ := hfirst
  rw [hbuff, if_pos (by omega), copy, hbuff, if_pos (by omega)]

/-! ## Behind the buffering -/

/-- Reading parameters only takes bytes. -/
theorem readParamContent_buff {left : ℕ} {buff buff' : Bytes} {arr arr' : List Bytes}
    (h : readParamContent left buff arr = .ok (.more buff' arr') ∨
      readParamContent left buff arr = .ok (.done buff' arr')) : buff'.length ≤ buff.length := by
  induction left generalizing buff arr with
  | zero =>
    rcases h with h | h <;> cases h
    exact le_rfl
  | succ left ih =>
    rw [readParamContent] at h
    split at h
    · rcases h with h | h <;> cases h
      exact le_rfl
    · split at h
      · rcases h with h | h <;> cases h
      · rcases h with h | h <;> cases h
        exact le_rfl
      next len rest hlen =>
        have hlt := readRdsLen_length hlen
        split at h
        · rcases h with h | h <;> cases h
          exact le_rfl
        · split at h
          · obtain hneg | ⟨e, hneg⟩ := negativeLen_cases buff (buff.length - rest.length) len
            all_goals
              rw [hneg] at h
              rcases h with h | h <;> cases h
          · split at h
            · rcases h with h | h <;> cases h
            · have := ih h
              rw [List.length_drop] at this
              omega

/-- The size that a decoder has behind a call that began with this one. -/
def sizeBehind (ret : DecodeRet) (rds' : Decoder) (size : ℕ) : ℕ :=
  if Emptied ret rds' then min size (128 * 1024) else size

/-- So does one call, and the size behind it. -/
theorem decodeParams_buff {rds rds' : Decoder} {ret : DecodeRet}
    (h : decodeParams rds = .ok (ret, rds')) :
    rds'.buff.length ≤ rds.buff.length ∧ rds'.maxsize = sizeBehind ret rds' rds.maxsize := by
  unfold decodeParams at h
  split at h
  · cases h
  · split at h
    · cases h
    · cases h
      exact ⟨le_rfl, (if_neg fun he => nomatch he.1.choose_spec).symm⟩
    next hread =>
      cases h
      exact ⟨readParamContent_buff (.inl hread), (if_neg fun he => nomatch he.1.choose_spec).symm⟩
    next buff arr hread =>
      have hle := readParamContent_buff (.inr hread)
      by_cases hb : buff = []
      · dsimp only at h
        rw [if_pos hb] at h
        cases h
        exact ⟨hle, (if_pos ⟨⟨arr, rfl⟩, hb⟩).symm⟩
      · dsimp only at h
        rw [if_neg hb] at h
        cases h
        exact ⟨hle, (if_neg fun he => hb he.2).symm⟩

/-- So does decoding the buffer. -/
theorem decodeBuffIn_buff {room : ℕ → Bool} {rds rds' : Decoder} {ret : DecodeRet}
    (h : decodeBuffIn room rds = .ok (ret, rds')) :
    rds'.buff.length ≤ rds.buff.length ∧ rds'.maxsize = sizeBehind ret rds' rds.maxsize := by
  unfold decodeBuffIn at h
  split at h
  · cases h
    exact ⟨le_rfl, (if_neg fun he => nomatch he.1.choose_spec).symm⟩
  · split at h
    · cases h
    · exact decodeParams_buff h
    · split at h
      · cases h
        exact ⟨le_rfl, (if_neg fun he => nomatch he.1.choose_spec).symm⟩
      · cases h
        exact ⟨le_rfl, (if_neg fun he => nomatch he.1.choose_spec).symm⟩
      next count rest hread =>
        have hlt := readRdsLen_length hread
        split at h
        · cases h
        · split at h
          · obtain ⟨hle, hmax⟩ := decodeParams_buff h
            exact ⟨hle.trans hlt.le, hmax⟩
          · cases h

/-- Behind the buffering the buffer goes on to fit. -/
theorem Fits.decodeBuff {m : Mem} (h : m.Fits) (room : ℕ → Bool) :
    Keeps (m.decodeBuff room) ∧ ∀ ret m', m.decodeBuff room = .ok (ret, m') → m'.alloc ≤ m.alloc := by
  obtain ⟨hle, hmax⟩ := h
  unfold Mem.decodeBuff
  cases hdec : decodeBuffIn room m.rds with
  | error e => exact ⟨trivial, nofun⟩
  | ok r =>
    obtain ⟨ret, rds'⟩ := r
    obtain ⟨hlen, hsize⟩ := decodeBuffIn_buff hdec
    unfold sizeBehind at hsize
    dsimp only
    by_cases he : Emptied ret rds'
    · rw [if_pos he] at hsize ⊢
      have hnil : rds'.buff.length = 0 := by
        rw [he.2]
        rfl
      have hshrink : m.shrink = min m.alloc (128 * 1024) := by
        unfold shrink
        rw [hmax]
        split <;> omega
      refine ⟨⟨by dsimp only; omega, by dsimp only; rw [hsize, hshrink, hmax]⟩, ?_⟩
      intro ret' m' hok
      cases hok
      dsimp only
      omega
    · rw [if_neg he] at hsize ⊢
      refine ⟨⟨hlen.trans hle, hsize.trans hmax⟩, ?_⟩
      intro ret' m' hok
      cases hok
      exact le_rfl

/-! ## Calls -/

section Calls

variable {m : Mem} {buff : Bytes}

/-- Bytes that come to no more than 512 KiB are taken. -/
theorem Fits.cache_taken (h : m.Fits) (hcap : m.alloc ≤ 512 * 1024)
    (hle : m.rds.buff.length + buff.length ≤ 512 * 1024) :
    ∃ m', m.cache buff = .ok (true, m') ∧ m'.Fits ∧ m'.alloc ≤ 512 * 1024 := by
  obtain ⟨size, hsize, hcache⟩ := (rdsCache_cases (h.maxsize.trans_le hcap) buff).1 hle
  have hroom : (m.rds.buff ++ buff).length ≤ size := by simpa using rdsCache_size hcache
  have htaken : m.cache buff =
      .ok (true, ⟨{ m.rds with maxsize := size, buff := m.rds.buff ++ buff }, size⟩) := by
    rw [cache_eq h (by omega), hcache, withAlloc]
  exact ⟨_, htaken, ⟨hroom, rfl⟩, hsize⟩

/-- Of more than 512 KiB the size is kept, and nothing is allocated. -/
theorem Fits.cache_refused (h : m.Fits) (hcap : m.alloc ≤ 512 * 1024)
    (hlt : 512 * 1024 < m.rds.buff.length + buff.length)
    (hle : m.rds.buff.length + buff.length ≤ 2 ^ 23) :
    ∃ m', m.cache buff = .ok (false, m') ∧ ¬ m'.Fits := by
  obtain ⟨rds', hcache⟩ := (rdsCache_cases (h.maxsize.trans_le hcap) buff).2.1 hlt hle
  refine ⟨⟨rds', if m.alloc = 0 then 32 * 1024 else m.alloc⟩, ?_, fun hfits => ?_⟩
  · rw [cache_eq h (by omega), hcache, withAlloc]
  · have hbig : 512 * 1024 < rds'.maxsize := by simpa using rdsCache_size hcache
    have hmax := hfits.maxsize
    dsimp only at hmax
    split at hmax <;> omega

/-- Of more than 8 MiB the process ends. -/
theorem Fits.cache_stopped (h : m.Fits) (hcap : m.alloc ≤ 512 * 1024)
    (hlt : 2 ^ 23 < m.rds.buff.length + buff.length)
    (hint : m.rds.buff.length + buff.length < 2 ^ 31) :
    m.cache buff = .error (.stop .bugOn) := by
  rw [cache_eq h hint, (rdsCache_cases (h.maxsize.trans_le hcap) buff).2.2 hlt, withAlloc]

/-- A call keeps the invariant if and only if it is a good one. -/
theorem Fits.decode_keeps_iff (h : m.Fits) (hcap : m.alloc ≤ 512 * 1024)
    (hlen : buff.length < 2 ^ 31) (room : ℕ → Bool) :
    Keeps (m.decode room buff) ↔ m.Good buff := by
  unfold decode
  by_cases herr : m.rds.state = .err
  · rw [if_pos herr]
    exact ⟨fun _ => .inl herr, fun _ => trivial⟩
  rw [if_neg herr]
  by_cases hnil : buff = []
  · rw [if_pos hnil]
    exact ⟨fun _ => .inr (.inl hnil), fun _ => (h.decodeBuff room).1⟩
  rw [if_neg hnil]
  have hgood : m.Good buff ↔ m.rds.buff.length + buff.length ≤ 512 * 1024 ∨
      2 ^ 23 < m.rds.buff.length + buff.length ∧ m.rds.buff.length + buff.length < 2 ^ 31 :=
    ⟨fun hg => (hg.resolve_left herr).resolve_left hnil, fun hg => .inr (.inr hg)⟩
  rw [hgood]
  by_cases hsmall : m.rds.buff.length + buff.length ≤ 512 * 1024
  · obtain ⟨m', hcache, hfits, -⟩ := h.cache_taken hcap hsmall
    rw [hcache]
    exact ⟨fun _ => .inl hsmall, fun _ => (hfits.decodeBuff room).1⟩
  by_cases hmid : m.rds.buff.length + buff.length ≤ 2 ^ 23
  · obtain ⟨m', hcache, hfits⟩ := h.cache_refused hcap (by omega) hmid
    rw [hcache]
    exact ⟨fun hk => absurd hk hfits, fun hg => by omega⟩
  by_cases hint : m.rds.buff.length + buff.length < 2 ^ 31
  · rw [h.cache_stopped hcap (by omega) hint]
    exact ⟨fun _ => .inr ⟨by omega, hint⟩, fun _ => trivial⟩
  · rw [cache_overrun h hcap hlen (by omega)]
    exact ⟨False.elim, fun hg => by omega⟩

/-- No call allocates more than 512 KiB. -/
theorem Fits.decode_alloc (h : m.Fits) (hcap : m.alloc ≤ 512 * 1024) {room : ℕ → Bool}
    (hg : m.Good buff) {ret : DecodeRet} {m' : Mem} (hs : m.decode room buff = .ok (ret, m')) :
    m'.alloc ≤ 512 * 1024 := by
  unfold decode at hs
  by_cases herr : m.rds.state = .err
  · rw [if_pos herr] at hs
    cases hs
  rw [if_neg herr] at hs
  by_cases hnil : buff = []
  · rw [if_pos hnil] at hs
    exact ((h.decodeBuff room).2 ret m' hs).trans hcap
  rw [if_neg hnil] at hs
  rcases (hg.resolve_left herr).resolve_left hnil with hsmall | ⟨hlt, hint⟩
  · obtain ⟨m₁, hcache, hfits, hcap₁⟩ := h.cache_taken hcap hsmall
    rw [hcache] at hs
    exact ((hfits.decodeBuff room).2 ret m' hs).trans hcap₁
  · rw [h.cache_stopped hcap hlt hint] at hs
    cases hs

end Calls

/-- The decoders behind calls that all meet `P`, with any number of bytes that an `int`
holds; at each call `malloc` may have memory for other arrays. -/
inductive Reached (P : Mem → Bytes → Prop) : Mem → Prop
  | new : Reached P .new
  | call {m m' : Mem} {room : ℕ → Bool} {buff : Bytes} {ret : DecodeRet} (h : Reached P m)
      (hlen : buff.length < 2 ^ 31) (hP : P m buff) (hs : m.decode room buff = .ok (ret, m')) :
      Reached P m'

/-- In every state reached by good calls the bytes fit the allocation. -/
theorem Reached.fits {m : Mem} (h : Reached Good m) : m.Fits ∧ m.alloc ≤ 512 * 1024 := by
  induction h with
  | new => exact ⟨⟨le_rfl, rfl⟩, Nat.zero_le _⟩
  | @call m m' room buff ret _ hlen hg hs ih =>
    have hkeeps : Keeps (m.decode room buff) := (ih.1.decode_keeps_iff ih.2 hlen room).mpr hg
    rw [hs] at hkeeps
    exact ⟨hkeeps, ih.1.decode_alloc ih.2 hg hs⟩

/-- Behind good calls the buffer fits, whatever the calls returned, and the next call keeps
that, and copies no byte past the allocation, if and only if it is a good one too. -/
theorem fits_of_good_calls {m : Mem} (h : Reached Good m) :
    m.Fits ∧ ∀ (room : ℕ → Bool) (buff : Bytes), buff.length < 2 ^ 31 →
      (Keeps (m.decode room buff) ↔ m.Good buff) :=
  ⟨h.fits.1, fun room _ hlen => h.fits.1.decode_keeps_iff h.fits.2 hlen room⟩

/-- A message of one string of which the number of the strings is there. -/
theorem decodeBuff_more {buff rest : Bytes} (hbuff : buff ≠ [])
    (hcount : readRdsLen star buff = .ok 1 rest)
    (hmore : readParamContent 1 rest [] = .ok (.more rest [])) {size : ℕ} :
    Mem.decodeBuff (fun _ => true) ⟨⟨buff, size, .new, 0, []⟩, size⟩ =
      .ok (.more, ⟨⟨rest, size, .run, 1, []⟩, size⟩) := by
  have hin : decodeBuffIn (fun _ => true) ⟨buff, size, .new, 0, []⟩ =
      .ok (.more, ⟨rest, size, .run, 1, []⟩) := by
    simp [decodeBuffIn, hbuff, hcount, decodeParams, hmore]
  rw [Mem.decodeBuff, hin]
  rfl

/-- A message of one string that is there. -/
theorem decodeBuff_done {buff body : Bytes} (hbuff : buff ≠ [])
    (hdone : readParamContent 1 buff [] = .ok (.done [] [body])) {size : ℕ}
    (hsize : size ≤ 128 * 1024) :
    Mem.decodeBuff (fun _ => true) ⟨⟨buff, size, .run, 1, []⟩, size⟩ =
      .ok (.done [body], ⟨⟨[], size, .new, 0, []⟩, size⟩) := by
  have hin : decodeBuffIn (fun _ => true) ⟨buff, size, .run, 1, []⟩ =
      .ok (.done [body], ⟨[], size, .new, 0, []⟩) := by
    simp [decodeBuffIn, hbuff, decodeParams, hdone, shrinkBuff, hsize]
  rw [Mem.decodeBuff, hin]
  show Except.ok (DecodeRet.done [body], (⟨_, ite _ _ _⟩ : Mem)) = _
  rw [if_pos ⟨⟨_, rfl⟩, rfl⟩, shrink, if_pos hsize]

/-- `$40000` and the end of the line. -/
def headLine : Bytes := [36, 52, 48, 48, 48, 48, 13, 10]

/-- The header of the sample. -/
theorem headLine_eq : headLine = header dollar 40000 := by decide +kernel

/-- A decoder that waits for a string of 40000 bytes. -/
def waiting : Mem := ⟨⟨headLine, 32 * 1024, .run, 1, []⟩, 32 * 1024⟩

/-- The decoder behind the first line of a message and that of its string. -/
theorem new_decode :
    Mem.new.decode (fun _ => true) ([42, 49, 13, 10] ++ headLine) = .ok (.more, waiting) := by
  have hcache : Mem.new.cache ([42, 49, 13, 10] ++ headLine) =
      .ok (true, ⟨⟨[42, 49, 13, 10] ++ headLine, 32 * 1024, .new, 0, []⟩, 32 * 1024⟩) := by
    rw [cache_eq ⟨le_rfl, rfl⟩ (by decide)]
    rfl
  have hcount : readRdsLen star ([42, 49, 13, 10] ++ headLine) = .ok 1 headLine := by
    decide +kernel
  have hline : readRdsLen dollar headLine = .ok 40000 [] := by decide +kernel
  have hmore : readParamContent 1 headLine [] = .ok (.more headLine []) := by
    have hnil : headLine ≠ [] := List.cons_ne_nil _ _
    simp [readParamContent, hnil, hline]
  rw [decode, if_neg (by decide), if_neg (by decide), hcache]
  exact decodeBuff_more (by decide) hcount hmore

/-- The buffer of the decoder with the bytes that it waits for. -/
theorem waiting_length {body : Bytes} (hbody : body.length = 40000) :
    waiting.rds.buff.length + (body ++ [13, 10]).length = 40010 := by
  have hhead : waiting.rds.buff.length = 8 := rfl
  rw [hhead, List.length_append, hbody, List.length_cons, List.length_singleton]

/-- They are more than the 32 KiB that the decoder began with, and the buffer grows. -/
theorem waiting_cache {body : Bytes} (hbody : body.length = 40000) :
    waiting.cache (body ++ [13, 10]) =
      .ok (true, ⟨⟨headLine ++ (body ++ [13, 10]), 64 * 1024, .run, 1, []⟩, 64 * 1024⟩) := by
  have hlen := waiting_length hbody
  have hsize : adjustSize 40010 = some (64 * 1024) := by decide +kernel
  have hgrown : rdsCache waiting.rds (body ++ [13, 10]) =
      .ok (true, ⟨headLine ++ (body ++ [13, 10]), 64 * 1024, .run, 1, []⟩) := by
    unfold rdsCache
    rw [if_neg (show ¬ waiting.rds.maxsize = 0 by decide)]
    dsimp only
    rw [hlen, if_neg (show ¬ 40010 ≤ waiting.rds.maxsize by decide), hsize]
    rfl
  rw [cache_eq ⟨by decide, rfl⟩ (by rw [hlen]; decide), hgrown]
  rfl

/-- The string of the sample is read. -/
theorem waiting_read {body : Bytes} (hbody : body.length = 40000) :
    readParamContent 1 (headLine ++ (body ++ [13, 10])) [] = .ok (.done [] [body]) := by
  have hlen : body.length < 100000000 := by omega
  have hwrite := readParamContent_writeParam hlen 0 [] []
  rw [writeParam, hbody, ← headLine_eq, List.append_nil, List.append_assoc] at hwrite
  exact hwrite

/-- Then the string is there, and with it the message. -/
theorem waiting_decode {body : Bytes} (hbody : body.length = 40000) :
    waiting.decode (fun _ => true) (body ++ [13, 10]) =
      .ok (.done [body], ⟨⟨[], 64 * 1024, .new, 0, []⟩, 64 * 1024⟩) := by
  have hne : body ++ [13, 10] ≠ [] := List.append_ne_nil_of_right_ne_nil _ (List.cons_ne_nil _ _)
  rw [decode, if_neg (by decide), if_neg hne, waiting_cache hbody]
  exact decodeBuff_done (List.cons_ne_nil _ _) (waiting_read hbody) (by decide)

/-- The head of a message, and its string, for which the buffer grows. -/
theorem fits_of_two_calls :
    ∃ m, Reached Good m ∧ m.alloc = 64 * 1024 ∧ m.Fits ∧
      ∀ (room : ℕ → Bool) (buff : Bytes), buff.length < 2 ^ 31 →
        (Keeps (m.decode room buff) ↔ m.Good buff) := by
  have hbody : (List.replicate 40000 (0 : UInt8)).length = 40000 := List.length_replicate
  generalize List.replicate 40000 (0 : UInt8) = body at hbody
  have hfirst : Reached Good waiting :=
    .call .new (by decide) (.inr (.inr (.inl (by decide)))) new_decode
  have hsecond := hfirst.call (by rw [List.length_append, hbody]; decide)
    (.inr (.inr (.inl (by rw [waiting_length hbody]; decide)))) (waiting_decode hbody)
  obtain ⟨hfits, hnext⟩ := fits_of_good_calls hsecond
  exact ⟨_, hsecond, rfl, hfits, hnext⟩

/-- One byte more than 512 KiB leaves a decoder whose size is not that of its buffer. -/
theorem refused_breaks_size : ¬ ∀ m, Reached (fun _ _ => True) m → m.Fits := by
  intro h
  have hlen : (List.replicate (512 * 1024 + 1) (0 : UInt8)).length = 512 * 1024 + 1 :=
    List.length_replicate
  have hne : List.replicate (512 * 1024 + 1) (0 : UInt8) ≠ [] := by
    rw [List.replicate_succ]
    exact List.cons_ne_nil _ _
  generalize List.replicate (512 * 1024 + 1) (0 : UInt8) = buff at hlen hne
  have hfits : Mem.new.Fits := ⟨le_rfl, rfl⟩
  have hsum : Mem.new.rds.buff.length + buff.length = 512 * 1024 + 1 := by
    rw [hlen]
    exact Nat.zero_add _
  obtain ⟨m', hcache, hbroken⟩ := hfits.cache_refused (Nat.zero_le _)
    (by rw [hsum]; exact Nat.lt_succ_self _) (by rw [hsum]; decide)
  have hs : Mem.new.decode (fun _ => true) buff = .ok (.fail, m') := by
    rw [decode, if_neg nofun, if_neg hne, hcache]
  exact hbroken (h m' (.call .new (by rw [hlen]; decide) trivial hs))

end Mem

end Rds
