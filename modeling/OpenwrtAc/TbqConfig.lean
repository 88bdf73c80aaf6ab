/-
# The token bucket queue: reading a rule

`drivers/tbq/src/tbq_config.c` takes its configuration from the tree that
`nx_json_parse` builds.  A member that is missing reads as a null value, and each reader
has a default for it: the empty string, `0`, no element, and for a limit the zeroed memory
of the rule.  Memory is always available here; everything else that can be refused is.
-/
import OpenwrtAc.TbqTypes
import OpenwrtAc.CString

open Outcome MachineInt CString

namespace Tbq

/-! ## The tree -/

/-- `nx_json`.  The members of an object stand in the order of the text, and `length` is
the number of the children: `tbq_nxjson_verify` finds nothing else. -/
inductive NxJson
  | null
  | object (members : List (List UInt8 × NxJson))
  | array (items : List NxJson)
  | string (text : List UInt8)
  | integer (value : ℤ)
  | bool (value : ℤ)

/-- `nx_json_get`: the first member of that name, or the null value. -/
def nxJsonGet (js : NxJson) (key : String) : NxJson :=
  match js with
  | .object members => ((members.find? fun m => m.1 == asciiBytes key).map (·.2)).getD .null
  | _ => .null

/-- `js->type == NX_JSON_NULL`. -/
def NxJson.isNull : NxJson → Bool
  | .null => true
  | _ => false

/-! ## What is refused -/

/-- The messages of the parser. -/
inductive ConfigError
  /-- `%s is not string`. -/
  | notString (name : String)
  /-- `%s.length == %d, out of range: [0, %d]`, of a string or an array. -/
  | lengthRange (name : String) (length max : ℕ)
  /-- `%s is not integer`. -/
  | notInteger (name : String)
  /-- `%s == %ld, out of range: [%ld, %ld]`. -/
  | integerRange (name : String) (value min max : ℤ)
  /-- `%s is not array`. -/
  | notArray (name : String)
  /-- `bad weight: [%s]`. -/
  | badWeight (str : List UInt8)
  /-- `weight == %u, out of range: [%u, %u]`. -/
  | weightRange (weight min max : ℕ)
  /-- `bad ip: [%s]`. -/
  | badIp (str : List UInt8)
  /-- `bad rate limit: [%s]`. -/
  | badRate (desc : List UInt8)
  /-- `rate limit [%s] out of range: [0, %u]`. -/
  | rateRange (desc : List UInt8) (max : ℕ)
  /-- `token_rule is not object`. -/
  | tokenRuleNotObject
  /-- `config is not object`. -/
  | configNotObject
  /-- `config parse failed`. -/
  | parseFailed
  deriving DecidableEq, Repr

/-- The assertions of `init_iface`, and a write outside of its array. -/
inductive ConfigBug
  | ifaceRoom
  | ifaceWrite
  deriving DecidableEq, Repr

/-- How the parser ends without a configuration: it returns `-1`, or the kernel stops. -/
inductive ConfigStop
  | error (e : ConfigError)
  | bug (b : ConfigBug)
  deriving DecidableEq, Repr

/-! ## Values -/

/-- `tbq_json_string_map`. -/
def tbqJsonStringMap (name : String) (maxLength : ℕ) : NxJson → Except ConfigStop (List UInt8)
  | .null => pure []
  | .string text =>
      if maxLength < text.length then throw (.error (.lengthRange name text.length maxLength))
      else pure text
  | _ => throw (.error (.notString name))

/-- `tbq_json_integer_map`. -/
def tbqJsonIntegerMap (name : String) (min max : ℤ) : NxJson → Except ConfigStop ℤ
  | .null => pure 0
  | .integer value =>
      if value < min ∨ max < value then throw (.error (.integerRange name value min max))
      else pure value
  | _ => throw (.error (.notInteger name))

/-- `tbq_json_array_map`. -/
def tbqJsonArrayMap {α : Type} (name : String) (maxLength : ℕ)
    (elemCtor : NxJson → Except ConfigStop α) : NxJson → Except ConfigStop (List α)
  | .null => pure []
  | .array items =>
      if maxLength < items.length then throw (.error (.lengthRange name items.length maxLength))
      else items.mapM elemCtor
  | _ => throw (.error (.notArray name))

/-! ## Addresses and applications -/

/-- `tbq_str_to_ip`: `%u.%u.%u.%u %c` finds the four numbers and nothing behind them. -/
def tbqStrToIp (str : List UInt8) : Option ℕ := do
  let (a, str) ← scanU str
  let str ← scanChar 46 str
  let (b, str) ← scanU str
  let str ← scanChar 46 str
  let (c, str) ← scanU str
  let str ← scanChar 46 str
  let (d, str) ← scanU str
  if (scanC str).isSome ∨ 255 < a ∨ 255 < b ∨ 255 < c ∨ 255 < d then none
  else some (((a.toNat * 256 + b.toNat) * 256 + c.toNat) * 256 + d.toNat)

/-- `tbq_str_to_weight`: `%u %c` finds one number. -/
def tbqStrToWeight (str : List UInt8) (min max : ℕ) : Except ConfigStop ℕ :=
  match scanU str with
  | none => throw (.error (.badWeight str))
  | some (weight, rest) =>
      if (scanC rest).isSome then throw (.error (.badWeight str))
      else if weight.toNat < min ∨ max < weight.toNat then
        throw (.error (.weightRange weight.toNat min max))
      else pure weight.toNat

/-- An address of a rule. -/
def ipOrFail (str : List UInt8) : Except ConfigStop ℕ :=
  match tbqStrToIp str with
  | some ip => pure ip
  | none => throw (.error (.badIp str))

/-- `tbq_ip_rule_init`: `ip`, `ip-ip`, and either of them with `:weight` behind it. -/
def tbqIpRuleInit (js : NxJson) : Except ConfigStop IpRule := do
  let ipDesc ← tbqJsonStringMap "config.Rules[n].IpInclude[n]" 256 js
  let (ipDesc, weight) ← (match strrchr 58 ipDesc with
    | none => pure (ipDesc, 1)
    | some (before, behind) => do return (before, ← tbqStrToWeight behind 1 255))
  match strchr 45 ipDesc with
  | none =>
      let ip ← ipOrFail ipDesc
      return ⟨ip, ip, weight⟩
  | some (before, behind) =>
      let a ← ipOrFail before
      let b ← ipOrFail behind
      return if b < a then ⟨b, a, weight⟩ else ⟨a, b, weight⟩

/-- `tbq_app_rule_init`. -/
def tbqAppRuleInit (js : NxJson) : Except ConfigStop ℕ := do
  let appId ← tbqJsonIntegerMap "config.Rules[n].AppRules[n]" 0 256 js
  return appId.toNat

/-! ## Rates -/

/-- `sscanf(desc, "%llu %c %c", …)`, when it stores two values. -/
def scanRate (desc : List UInt8) : Option (ℕ × UInt8) := do
  let (bytesPerSec, rest) ← scanLlu desc
  let (unit, rest) ← scanC rest
  if (scanC rest).isSome then none else some (bytesPerSec, unit)

/-- `CHECK_OVERFLOW`. -/
def checkOverflow (desc : List UInt8) (bytesPerSec : ℕ) : Except ConfigStop ℕ :=
  if tbqBytesPerSecMax < bytesPerSec then
    throw (.error (.rateRange desc tbqBytesPerSecMax.toNat))
  else pure bytesPerSec

/-- `MUL`. -/
def mulRate (desc : List UInt8) (bytesPerSec : ℕ) : Except ConfigStop ℕ :=
  checkOverflow desc (bytesPerSec * 1000)

/-- The switch over the unit. -/
def unitRate (desc : List UInt8) (unit : UInt8) (bytesPerSec : ℕ) : Except ConfigStop ℕ :=
  if unit = 71 then do mulRate desc (← mulRate desc (← mulRate desc bytesPerSec))
  else if unit = 77 then do mulRate desc (← mulRate desc bytesPerSec)
  else if unit = 75 then mulRate desc bytesPerSec
  else throw (.error (.badRate desc))

/-- The part of `tbq_token_config_init` that finds the bytes per second. -/
def bytesPerSecInit (js : NxJson) : Except ConfigStop ℕ := do
  let desc ← tbqJsonStringMap "RateLimit" 64 js
  match scanRate desc with
  | none => throw (.error (.badRate desc))
  | some (bytesPerSec, unit) =>
      let bytesPerSec ← checkOverflow desc bytesPerSec
      let bytesPerSec ← unitRate desc unit bytesPerSec
      return if bytesPerSec = 0 then tbqBytesPerSecMax.toNat else bytesPerSec

/-- `tbq_token_config_init`: `tokens_per_jiffy`. -/
def tbqTokenConfigInit (HZ : ℕ) (js : NxJson) : Except ConfigStop ℤ := do
  let bytesPerSec ← bytesPerSecInit js
  return i32 bytesPerSec / HZ

/-- `tbq_token_rule_init`, over the zeroed memory of the rule. -/
def tbqTokenRuleInit (HZ : ℕ) (js : NxJson) : Except ConfigStop TokenRule :=
  match js with
  | .null => pure ⟨0, 0⟩
  | .object _ => do
      let global ← tbqTokenConfigInit HZ (nxJsonGet js "Shared")
      let user ← tbqTokenConfigInit HZ (nxJsonGet js "PerIp")
      return ⟨global, user⟩
  | _ => throw (.error .tokenRuleNotObject)

/-- `struct tbq_rule` with its name. -/
structure ConfRule extends Rule where
  name : List UInt8

/-- `tbq_rule_init`. -/
def tbqRuleInit (HZ : ℕ) (js : NxJson) : Except ConfigStop ConfRule := do
  let name ← tbqJsonStringMap "config.Rules[n].Name" 36 (nxJsonGet js "Name")
  let ipRules ← tbqJsonArrayMap "config.Rules[n].IpIncluded" 64 tbqIpRuleInit
    (nxJsonGet js "IpIncluded")
  let appRules ← tbqJsonArrayMap "config.Rules[n].AppIncluded" 64 tbqAppRuleInit
    (nxJsonGet js "AppIncluded")
  let upload ← tbqTokenRuleInit HZ (nxJsonGet js "UploadLimit")
  let download ← tbqTokenRuleInit HZ (nxJsonGet js "DownloadLimit")
  return { ipRules := ipRules, appRules := appRules,
           tokenRules := fun d => if d = 0 then upload else download, name := name }

/-! ## What the readers accept -/

theorem tbqJsonIntegerMap_range {name : String} {min max v : ℤ} {js : NxJson}
    (h : tbqJsonIntegerMap name min max js = .ok v) : v = 0 ∨ (min ≤ v ∧ v ≤ max) := by
  cases js with
  | null => exact .inl (Except.ok.inj h).symm
  | integer value =>
      simp only [tbqJsonIntegerMap] at h
      split at h
      · cases h
      · rename_i hrange
        cases h
        push Not at hrange
        exact .inr hrange
  | _ => cases h

theorem tbqJsonArrayMap_ok {α : Type} {name : String} {maxLength : ℕ}
    {elemCtor : NxJson → Except ConfigStop α} {js : NxJson} {l : List α}
    (h : tbqJsonArrayMap name maxLength elemCtor js = .ok l) :
    l.length ≤ maxLength ∧ ∀ a ∈ l, ∃ j, elemCtor j = .ok a := by
  cases js with
  | null =>
      cases h
      exact ⟨Nat.zero_le _, fun a ha => by cases ha⟩
  | array items =>
      simp only [tbqJsonArrayMap] at h
      split at h
      · cases h
      · have hall := mapM_eq_ok.mp h
        refine ⟨by have := hall.length_eq; omega, fun a ha => ?_⟩
        obtain ⟨i, hi, rfl⟩ := List.getElem_of_mem ha
        exact ⟨_, hall.get (by have := hall.length_eq; omega) hi⟩
  | _ => cases h

theorem tbqStrToWeight_range {str : List UInt8} {min max w : ℕ}
    (h : tbqStrToWeight str min max = .ok w) : min ≤ w ∧ w ≤ max := by
  unfold tbqStrToWeight at h
  split at h
  · cases h
  · split at h
    · cases h
    · split at h
      · cases h
      · rename_i hrange
        cases h
        push Not at hrange
        exact hrange

/-- An address range is in order and its weight can be charged. -/
theorem tbqIpRuleInit_ok {js : NxJson} {w : IpRule} (h : tbqIpRuleInit js = .ok w) :
    w.min ≤ w.max ∧ 1 ≤ w.weight ∧ w.weight ≤ 255 := by
  unfold tbqIpRuleInit at h
  obtain ⟨desc, -, h⟩ := bind_eq_ok.mp h
  obtain ⟨⟨ips, weight⟩, hw, h⟩ := bind_eq_ok.mp h
  have hweight : 1 ≤ weight ∧ weight ≤ 255 := by
    split at hw
    · cases hw
      exact ⟨le_refl 1, by decide⟩
    · obtain ⟨v, hv, hw⟩ := bind_eq_ok.mp hw
      cases hw
      exact tbqStrToWeight_range hv
  dsimp only at h
  split at h
  · obtain ⟨ip, -, h⟩ := bind_eq_ok.mp h
    cases h
    exact ⟨le_refl _, hweight⟩
  · obtain ⟨a, -, h⟩ := bind_eq_ok.mp h
    obtain ⟨b, -, h⟩ := bind_eq_ok.mp h
    cases h
    split
    · rename_i hlt
      exact ⟨hlt.le, hweight⟩
    · rename_i hge
      exact ⟨not_lt.mp hge, hweight⟩

/-! ## The rate of a text -/

/-- The bytes per second of one unit. -/
def unitBytes (unit : UInt8) : Option ℕ :=
  if unit = 71 then some (1000 * 1000 * 1000) else if unit = 77 then some (1000 * 1000)
  else if unit = 75 then some 1000 else none

/-- The bytes per second that a text asks for, without any bound. -/
def rateBytes (desc : List UInt8) : Option ℕ := do
  let (n, unit) ← scanRate desc
  let bytes ← unitBytes unit
  return n * bytes

theorem checkOverflow_eq_ok {desc : List UInt8} {n m : ℕ} :
    checkOverflow desc n = .ok m ↔ n ≤ tbqBytesPerSecMax ∧ m = n := by
  unfold checkOverflow
  split
  · rename_i h
    exact ⟨fun he => (by cases he), fun he => absurd he.1 (not_le.mpr h)⟩
  · rename_i h
    rw [pure_eq_ok]
    exact ⟨fun he => ⟨not_lt.mp h, he.symm⟩, fun he => he.2.symm⟩

theorem mulRate_eq_ok {desc : List UInt8} {n m : ℕ} :
    mulRate desc n = .ok m ↔ ((n * 1000 : ℕ) : ℤ) ≤ tbqBytesPerSecMax ∧ m = n * 1000 :=
  checkOverflow_eq_ok

/-- The checks on the way up are implied by the last one. -/
theorem unitRate_eq_ok {desc : List UInt8} {unit : UInt8} {n b : ℕ} :
    unitRate desc unit n = .ok b
      ↔ ∃ bytes, unitBytes unit = some bytes ∧ b = n * bytes ∧ (b : ℤ) ≤ tbqBytesPerSecMax := by
  have hle : ∀ {m : ℕ}, ((m * 1000 : ℕ) : ℤ) ≤ tbqBytesPerSecMax →
      (m : ℤ) ≤ tbqBytesPerSecMax := by
    intro m hm
    omega
  unfold unitRate unitBytes
  split
  · simp only [bind_eq_ok, mulRate_eq_ok, Option.some.injEq, exists_eq_left']
    constructor
    · rintro ⟨_, ⟨-, rfl⟩, _, ⟨-, rfl⟩, h, rfl⟩
      exact ⟨by omega, h⟩
    · rintro ⟨hb, h⟩
      simp only [← Nat.mul_assoc] at hb
      have h₂ : ((n * 1000 * 1000 : ℕ) : ℤ) ≤ tbqBytesPerSecMax := hle (hb ▸ h)
      have h₁ : ((n * 1000 : ℕ) : ℤ) ≤ tbqBytesPerSecMax := hle h₂
      exact ⟨_, ⟨h₁, rfl⟩, _, ⟨h₂, rfl⟩, hb ▸ h, hb⟩
  · split
    · simp only [bind_eq_ok, mulRate_eq_ok, Option.some.injEq, exists_eq_left']
      constructor
      · rintro ⟨_, ⟨-, rfl⟩, h, rfl⟩
        exact ⟨by omega, h⟩
      · rintro ⟨hb, h⟩
        simp only [← Nat.mul_assoc] at hb
        have h₁ : ((n * 1000 : ℕ) : ℤ) ≤ tbqBytesPerSecMax := hle (hb ▸ h)
        exact ⟨_, ⟨h₁, rfl⟩, hb ▸ h, hb⟩
    · split
      · simp only [mulRate_eq_ok, Option.some.injEq, exists_eq_left']
        constructor
        · rintro ⟨h, rfl⟩
          exact ⟨rfl, h⟩
        · rintro ⟨rfl, h⟩
          exact ⟨h, rfl⟩
      · exact ⟨fun h => (by cases h), fun ⟨_, h, _⟩ => (by cases h)⟩

/-- The text is accepted when it names a rate of at most `TBQ_BYTES_PER_SEC_MAX`; `0`
stands for that maximum. -/
theorem bytesPerSecInit_eq_ok {js : NxJson} {b : ℕ} :
    bytesPerSecInit js = .ok b ↔ ∃ desc r, tbqJsonStringMap "RateLimit" 64 js = .ok desc
      ∧ rateBytes desc = some r ∧ (r : ℤ) ≤ tbqBytesPerSecMax
      ∧ b = if r = 0 then tbqBytesPerSecMax.toNat else r := by
  unfold bytesPerSecInit
  rw [bind_eq_ok]
  refine exists_congr fun desc => ?_
  cases hs : scanRate desc with
  | none => simp [rateBytes, hs, throw, throwThe, MonadExceptOf.throw]
  | some x =>
      obtain ⟨n, unit⟩ := x
      simp only [bind_eq_ok, checkOverflow_eq_ok, unitRate_eq_ok, pure_eq_ok]
      constructor
      · rintro ⟨hdesc, m, ⟨-, hm⟩, r, ⟨bytes, hu, rfl, hr⟩, rfl⟩
        subst hm
        exact ⟨m * bytes, hdesc, by simp [rateBytes, hs, hu], hr, rfl⟩
      · rintro ⟨r, hdesc, hrate, hr, rfl⟩
        cases hu : unitBytes unit with
        | none => simp [rateBytes, hs, hu] at hrate
        | some bytes =>
            have hval : n * bytes = r := by simpa [rateBytes, hs, hu] using hrate
            subst hval
            refine ⟨hdesc, n, ⟨?_, rfl⟩, _, ⟨bytes, rfl, rfl, hr⟩, rfl⟩
            have hpos : 1 ≤ bytes := by
              unfold unitBytes at hu
              split at hu
              · cases hu
                decide
              · split at hu
                · cases hu
                  decide
                · split at hu
                  · cases hu
                    decide
                  · cases hu
            have hle : n * 1 ≤ n * bytes := Nat.mul_le_mul_left n hpos
            omega

theorem bytesPerSecInit_range {js : NxJson} {b : ℕ} (h : bytesPerSecInit js = .ok b) :
    1 ≤ b ∧ (b : ℤ) ≤ tbqBytesPerSecMax := by
  obtain ⟨desc, r, -, -, hr, rfl⟩ := bytesPerSecInit_eq_ok.mp h
  split
  · decide
  · exact ⟨by omega, hr⟩

/-- The rate of a token control is that of its text, in tokens for each tick. -/
theorem tbqTokenConfigInit_eq_ok {HZ : ℕ} {js : NxJson} {rate : ℤ} :
    tbqTokenConfigInit HZ js = .ok rate ↔ ∃ b, bytesPerSecInit js = .ok b ∧ rate = b / HZ := by
  unfold tbqTokenConfigInit
  rw [bind_eq_ok]
  refine exists_congr fun b => and_congr_right fun hb => ?_
  have hrange := bytesPerSecInit_range hb
  unfold tbqBytesPerSecMax at hrange
  rw [pure_eq_ok, i32_of_range (by omega) (by omega)]
  exact eq_comm

theorem tbqTokenConfigInit_rateOk {HZ : ℕ} {js : NxJson} {rate : ℤ}
    (h : tbqTokenConfigInit HZ js = .ok rate) : RateOk HZ rate := by
  obtain ⟨b, hb, rfl⟩ := tbqTokenConfigInit_eq_ok.mp h
  refine ⟨Int.ediv_nonneg (by omega) (by omega), le_trans ?_ (bytesPerSecInit_range hb).2⟩
  exact_mod_cast Nat.div_mul_le_self b HZ

/-! ## The limits of a rule -/

/-- The tick rates that the kernel can be built with (`SHIFT_HZ`). -/
abbrev TickRate := { n : ℕ // 12 ≤ n ∧ n < 12288 }

/-- The text is a rate of at least one byte for each tick, or `0` for no limit. -/
def RateNamed (HZ : ℕ) (js : NxJson) : Prop :=
  ∀ desc r, js = .string desc → rateBytes desc = some r → r = 0 ∨ HZ ≤ r

/-- Both limits of a direction are given. -/
def LimitNamed (HZ : ℕ) (js : NxJson) : Prop :=
  js.isNull = false ∧ RateNamed HZ (nxJsonGet js "Shared") ∧ RateNamed HZ (nxJsonGet js "PerIp")

theorem tbqTokenConfigInit_pos {HZ : TickRate} {js : NxJson} {rate : ℤ}
    (h : tbqTokenConfigInit HZ js = .ok rate) : 0 < rate ↔ RateNamed HZ js := by
  obtain ⟨b, hb, rfl⟩ := tbqTokenConfigInit_eq_ok.mp h
  obtain ⟨desc, r, hdesc, hr, -, rfl⟩ := bytesPerSecInit_eq_ok.mp hb
  obtain ⟨HZ, hlo, hhi⟩ := HZ
  have hmax : HZ ≤ tbqBytesPerSecMax.toNat := hhi.le.trans (by decide)
  have hpos : ∀ b : ℕ, (0 : ℤ) < (b : ℤ) / (HZ : ℤ) ↔ HZ ≤ b := by
    intro b
    rw [← Int.natCast_ediv, Int.natCast_pos, Nat.div_pos_iff]
    omega
  rw [hpos]
  have hnamed : RateNamed HZ js ↔ r = 0 ∨ HZ ≤ r := by
    cases js with
    | null =>
        cases hdesc
        cases hr
    | string text =>
        have htext : text = desc := by
          simp only [tbqJsonStringMap] at hdesc
          split at hdesc
          · cases hdesc
          · exact Except.ok.inj hdesc
        subst htext
        constructor
        · intro hn
          exact hn text r rfl hr
        · intro hn text' r' htext hr'
          cases htext
          obtain rfl := Option.some.inj (hr.symm.trans hr')
          exact hn
    | _ => cases hdesc
  rw [hnamed]
  by_cases h0 : r = 0
  · simp [h0, hmax]
  · simp [h0]

theorem tbqTokenRuleInit_rateOk {HZ : ℕ} {js : NxJson} {t : TokenRule}
    (h : tbqTokenRuleInit HZ js = .ok t) : RateOk HZ t.global ∧ RateOk HZ t.user := by
  cases js with
  | null =>
      cases h
      have hzero : RateOk HZ 0 := ⟨le_refl 0, by simp [tbqBytesPerSecMax]⟩
      exact ⟨hzero, hzero⟩
  | object members =>
      obtain ⟨g, hg, h⟩ := bind_eq_ok.mp h
      obtain ⟨u, hu, h⟩ := bind_eq_ok.mp h
      cases h
      exact ⟨tbqTokenConfigInit_rateOk hg, tbqTokenConfigInit_rateOk hu⟩
  | _ => cases h

/-- A direction has positive rates exactly when its limits are given: without them the
zeroed memory stays. -/
theorem tbqTokenRuleInit_pos {HZ : TickRate} {js : NxJson} {t : TokenRule}
    (h : tbqTokenRuleInit HZ js = .ok t) : (0 < t.global ∧ 0 < t.user) ↔ LimitNamed HZ js := by
  cases js with
  | null =>
      cases h
      exact ⟨fun hpos => absurd hpos.1 (lt_irrefl 0), fun hn => by cases hn.1⟩
  | object members =>
      obtain ⟨g, hg, h⟩ := bind_eq_ok.mp h
      obtain ⟨u, hu, h⟩ := bind_eq_ok.mp h
      cases h
      refine Iff.trans (and_congr (tbqTokenConfigInit_pos hg) (tbqTokenConfigInit_pos hu)) ?_
      exact ⟨fun hn => ⟨rfl, hn⟩, fun hn => hn.2⟩
  | _ => cases h

/-- The member of a rule that holds the limits of a direction. -/
def limitKey (d : Dir) : String := if d = 0 then "UploadLimit" else "DownloadLimit"

/-- What the scheduler relies on in an accepted rule. -/
theorem tbqRuleInit_ok {HZ : ℕ} {js : NxJson} {r : ConfRule} (h : tbqRuleInit HZ js = .ok r) :
    (∀ w ∈ r.ipRules, 1 ≤ w.weight ∧ w.weight ≤ 255)
      ∧ ∀ d, tbqTokenRuleInit HZ (nxJsonGet js (limitKey d)) = .ok (r.tokenRules d) := by
  obtain ⟨name, -, h⟩ := bind_eq_ok.mp h
  obtain ⟨ipRules, hip, h⟩ := bind_eq_ok.mp h
  obtain ⟨appRules, -, h⟩ := bind_eq_ok.mp h
  obtain ⟨upload, hup, h⟩ := bind_eq_ok.mp h
  obtain ⟨download, hdown, h⟩ := bind_eq_ok.mp h
  cases h
  refine ⟨fun w hw => ?_, fun d => ?_⟩
  · obtain ⟨j, hj⟩ := (tbqJsonArrayMap_ok hip).2 w hw
    exact (tbqIpRuleInit_ok hj).2
  · rcases dir_cases d with rfl | rfl
    · exact hup
    · exact hdown

/-- `config.Rules`. -/
def rulesInit (HZ : ℕ) (js : NxJson) : Except ConfigStop (List ConfRule) :=
  tbqJsonArrayMap "config.Rules" 32 (tbqRuleInit HZ) js

/-- The rules of an accepted list have positive rates exactly when each of its elements
gives the limits of both directions. -/
theorem rulesInit_pos {HZ : TickRate} {items : List NxJson} {rules : List ConfRule}
    (h : rulesInit HZ (.array items) = .ok rules) :
    (∀ r ∈ rules, ∀ d, 0 < (r.tokenRules d).global ∧ 0 < (r.tokenRules d).user)
      ↔ ∀ item ∈ items, ∀ d, LimitNamed HZ (nxJsonGet item (limitKey d)) := by
  simp only [rulesInit, tbqJsonArrayMap] at h
  split at h
  · cases h
  · rename_i hlen
    have hall := mapM_eq_ok.mp h
    clear h hlen
    induction hall with
    | nil => simp
    | @cons item r items rules hr _ ih =>
        rw [List.forall_mem_cons, List.forall_mem_cons]
        refine and_congr (forall_congr' fun d => ?_) ih
        exact tbqTokenRuleInit_pos ((tbqRuleInit_ok hr).2 d)

theorem rulesInit_rateOk {HZ : ℕ} {js : NxJson} {rules : List ConfRule}
    (h : rulesInit HZ js = .ok rules) :
    rules.length ≤ 32 ∧ ∀ r ∈ rules, (∀ w ∈ r.ipRules, 1 ≤ w.weight ∧ w.weight ≤ 255)
      ∧ ∀ d, RateOk HZ (r.tokenRules d).global ∧ RateOk HZ (r.tokenRules d).user := by
  obtain ⟨hlen, hall⟩ := tbqJsonArrayMap_ok h
  refine ⟨hlen, fun r hr => ?_⟩
  obtain ⟨item, hitem⟩ := hall r hr
  obtain ⟨hw, ht⟩ := tbqRuleInit_ok hitem
  exact ⟨hw, fun d => tbqTokenRuleInit_rateOk (ht d)⟩

end Tbq
