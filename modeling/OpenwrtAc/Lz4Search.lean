/-
# The matches of the compressor

What `LZ4_count` counts, what the hash table leads to and what is taken back over the
literals are copies: each byte is the one that stands the offset before it.  Nothing outside
of the source is read on the way.
-/
import OpenwrtAc.Lz4Compress
import Mathlib.Data.List.TakeWhile

open Rds LzWindow Outcome

namespace Lz4Block

/-- The run ends with a result. -/
abbrev Ends {α : Type} (x : Except Stop α) (Q : α → Prop) : Prop := Sat x Q fun _ => False

/-- Two computations that end, in sequence. -/
theorem Ends.bind {α β : Type} {x : Except Stop α} {f : α → Except Stop β} {P : α → Prop}
    {Q : β → Prop} (hx : Ends x P) (hf : ∀ a, P a → Ends (f a) Q) : Ends (x >>= f) Q :=
  Sat.bind hx hf

/-- What a computation ends with may be weakened. -/
theorem Ends.mono {α : Type} {x : Except Stop α} {P Q : α → Prop} (h : Ends x P)
    (hPQ : ∀ a, P a → Q a) : Ends x Q :=
  Sat.mono h hPQ fun _ => id

/-! ## Words -/

/-- The bytes in front of the first difference are equal. -/
theorem getElem?_of_lt_nbCommonBytes {a b : Bytes} {i : ℕ}
    (hi : i < nbCommonBytes (List.zipWith (· ^^^ ·) a b)) : a[i]? = b[i]? := by
  induction a generalizing b i with
  | nil => exact absurd hi (Nat.not_lt_zero i)
  | cons x a ih =>
      cases b with
      | nil => exact absurd hi (Nat.not_lt_zero i)
      | cons y b =>
          unfold nbCommonBytes at hi ih
          rw [List.zipWith_cons_cons, List.takeWhile_cons] at hi
          split at hi
          case isFalse => exact absurd hi (Nat.not_lt_zero i)
          case isTrue hxy =>
            cases i with
            | zero =>
                rw [decide_eq_true_eq, UInt8.xor_eq_zero_iff] at hxy
                rw [hxy]
                rfl
            | succ i => exact ih (Nat.lt_of_succ_lt_succ hi)

/-- Two words have no more bytes in common than they have bytes. -/
theorem nbCommonBytes_le (a b : Bytes) :
    nbCommonBytes (List.zipWith (· ^^^ ·) a b) ≤ a.length := by
  refine (List.takeWhile_prefix _).length_le.trans ?_
  rw [List.length_zipWith]
  exact Nat.min_le_left _ _

/-- The words differ where the count ends. -/
theorem getElem?_nbCommonBytes {a b : Bytes} (hlen : a.length = b.length)
    (hlt : nbCommonBytes (List.zipWith (· ^^^ ·) a b) < a.length) :
    a[nbCommonBytes (List.zipWith (· ^^^ ·) a b)]? ≠
      b[nbCommonBytes (List.zipWith (· ^^^ ·) a b)]? := by
  induction a generalizing b with
  | nil => exact absurd hlt (Nat.not_lt_zero _)
  | cons x a ih =>
      cases b with
      | nil => cases hlen
      | cons y b =>
          unfold nbCommonBytes at hlt ih ⊢
          rw [List.zipWith_cons_cons, List.takeWhile_cons] at hlt ⊢
          split
          case isTrue hxy =>
            rw [if_pos hxy] at hlt
            exact ih (Nat.succ.inj hlen) (Nat.lt_of_succ_lt_succ hlt)
          case isFalse hxy =>
            intro heq
            rw [decide_eq_true_eq, UInt8.xor_eq_zero_iff] at hxy
            exact hxy (Option.some.inj heq)

/-- Equal words have every byte in common. -/
theorem nbCommonBytes_of_all {diff : Bytes} (h : diff.all (· = 0) = true) :
    nbCommonBytes diff = diff.length := by
  rw [nbCommonBytes, List.takeWhile_eq_self_iff.2 fun x hx => List.all_eq_true.1 h x hx]

/-- Different words have one byte less in common, or more. -/
theorem nbCommonBytes_of_not_all {diff : Bytes} (h : ¬ diff.all (· = 0) = true) :
    nbCommonBytes diff < diff.length := by
  refine lt_of_le_of_ne (List.takeWhile_prefix _).length_le fun hlen => h ?_
  rw [List.all_eq_true, ← List.takeWhile_eq_self_iff]
  exact (List.takeWhile_prefix _).eq_of_length hlen

namespace Job

variable {j : Job}

/-- A word that lies inside the source is read. -/
theorem readWord_eq {p size : ℕ} (h : p + size ≤ j.source.length) :
    j.readWord p size = .ok ((j.source.drop p).take size) := if_pos h

/-- A step takes a byte at least. -/
theorem stepSize_pos (j : Job) : 0 < j.stepSize := by
  unfold stepSize
  split <;> decide

/-- A step takes eight bytes at most. -/
theorem stepSize_le (j : Job) : j.stepSize ≤ 8 := by
  unfold stepSize
  split <;> decide

/-- Matches end inside the source. -/
theorem matchlimit_le (j : Job) : j.matchlimit ≤ j.source.length := Nat.sub_le _ _

/-- Hashing reads eight bytes at most. -/
theorem ends_hashPosition {p : ℕ} (h : p + 8 ≤ j.source.length) :
    Ends (j.hashPosition p) fun _ => True := by
  have hstep := j.stepSize_le
  unfold hashPosition
  rw [readWord_eq (by omega)]
  trivial

/-- The bytes of a word are those of the source. -/
theorem getElem?_word {l : Bytes} {p size i : ℕ} (hi : i < size) :
    ((l.drop p).take size)[i]? = l[p + i]? := by
  rw [List.getElem?_take_of_lt hi, List.getElem?_drop]

/-- A word inside the source has its full size. -/
theorem length_word {l : Bytes} {p size : ℕ} (h : p + size ≤ l.length) :
    ((l.drop p).take size).length = size := by
  rw [List.length_take, List.length_drop]
  omega

/-- Two words agree where the one is a copy of the other. -/
theorem ends_agree {q d size : ℕ} (h : q + d + size ≤ j.source.length) :
    Ends (j.agree q (q + d) size) fun b =>
      b = true ↔ Repeats j.source d (q + d) (q + d + size) := by
  unfold agree
  rw [readWord_eq (by omega), readWord_eq h]
  constructor
  · intro heq
    have hrep : Repeats j.source (q + d - q) (q + d) (q + d + size) := by
      apply repeats_of_eq (by omega)
      intro i hi
      have hword := congrArg (fun l : Bytes => l[i]?) (of_decide_eq_true heq)
      rw [getElem?_word hi, getElem?_word hi] at hword
      exact hword.symm
    rwa [Nat.add_sub_cancel_left] at hrep
  · intro hrep
    apply decide_eq_true
    apply List.ext_getElem?
    intro i
    by_cases hi : i < size
    · rw [getElem?_word hi, getElem?_word hi, hrep (q + d + i) (by omega) (by omega)]
      congr 1
      omega
    · rw [List.getElem?_eq_none (by rw [length_word (by omega)]; omega),
        List.getElem?_eq_none (by rw [length_word h]; omega)]

/-- The bytes that two words have in common are a copy. -/
theorem repeats_nbCommonBytes {l : Bytes} {q d size : ℕ} :
    Repeats l d (q + d) (q + d + nbCommonBytes
      (List.zipWith (· ^^^ ·) ((l.drop q).take size) ((l.drop (q + d)).take size))) := by
  have hle := nbCommonBytes_le ((l.drop q).take size) ((l.drop (q + d)).take size)
  rw [List.length_take] at hle
  have hrep : Repeats l (q + d - q) (q + d) (q + d + nbCommonBytes
      (List.zipWith (· ^^^ ·) ((l.drop q).take size) ((l.drop (q + d)).take size))) := by
    apply repeats_of_eq (by omega)
    intro i hi
    have hword := getElem?_of_lt_nbCommonBytes hi
    rw [getElem?_word (by omega), getElem?_word (by omega)] at hword
    exact hword.symm
  rwa [Nat.add_sub_cancel_left] at hrep

/-! ## Counting -/

/-- `LZ4_count` has gone from one place to another over bytes of a copy. -/
structure Counted (j : Job) (d p e : ℕ) : Prop where
  le : p ≤ e
  le_limit : e ≤ j.matchlimit
  repeats : Repeats j.source d p e

/-- Nothing is counted yet. -/
theorem Counted.refl {d p : ℕ} (h : p ≤ j.matchlimit) : Counted j d p p :=
  ⟨Nat.le_refl p, h, fun i hp hi => absurd hp (by omega)⟩

/-- Stretches counted one after the other. -/
theorem Counted.trans {d p e e' : ℕ} (h : Counted j d p e) (h' : Counted j d e e') :
    Counted j d p e' :=
  ⟨h.le.trans h'.le, h'.le_limit, h.repeats.append h'.repeats⟩

/-- The copy goes on from `p` for fewer than `k` bytes. -/
def Left (j : Job) (d k p : ℕ) : Prop :=
  ∀ e, Repeats j.source d p e → e ≤ j.matchlimit → e < p + k

/-- What is left to count, behind a stretch. -/
theorem Left.of_counted {d k p q : ℕ} (h : Left j d (q - p + k) p) (hc : Counted j d p q) :
    Left j d k q := by
  intro e he hlim
  have hle := hc.le
  have := h e (hc.repeats.append he) hlim
  omega

/-- The comparison of a shorter word behind the loop. -/
theorem ends_countShort {size d q : ℕ} (hsize : 0 < size) (h : q + d ≤ j.matchlimit)
    (hleft : Left j d (size + size) (q + d)) :
    Ends (j.countShort size (q + d, q)) fun p =>
      p.1 = p.2 + d ∧ Counted j d (q + d) p.1 ∧ Left j d size p.1 := by
  have hlim := j.matchlimit_le
  unfold countShort
  split
  case isFalse hlt =>
    refine ⟨rfl, .refl h, fun e _ he => ?_⟩
    dsimp only at hlt ⊢
    omega
  case isTrue hlt =>
    dsimp only at hlt
    refine (ends_agree (by omega)).bind fun b hb => ?_
    cases b with
    | false =>
        refine ⟨rfl, .refl h, fun e he _ => ?_⟩
        by_contra hle
        exact Bool.noConfusion (hb.2 (he.mono (Nat.le_of_not_lt hle)))
    | true =>
        have hcount : Counted j d (q + d) (q + d + size) := ⟨by omega, by omega, hb.1 rfl⟩
        refine ⟨Nat.add_right_comm q d size, hcount, ?_⟩
        exact Left.of_counted (by rwa [Nat.add_sub_cancel_left]) hcount

/-- The three shorter comparisons behind the loop. -/
theorem ends_countTail {d q : ℕ} (h : q + d ≤ j.matchlimit)
    (hleft : Left j d j.stepSize (q + d)) :
    Ends (j.countTail (q + d, q)) fun e => Counted j d (q + d) e ∧ Left j d 1 e := by
  have hshort : ∀ size p q', 0 < size → q' = q + d →
      p.1 = p.2 + d ∧ Counted j d q' p.1 ∧ Left j d (size + size) p.1 →
      Ends (j.countShort size p) fun p' =>
        p'.1 = p'.2 + d ∧ Counted j d q' p'.1 ∧ Left j d size p'.1 := by
    rintro size ⟨p, q₁⟩ q' hsize rfl ⟨hp, hcount, hl⟩
    dsimp only at hp hcount
    subst hp
    exact (ends_countShort hsize hcount.le_limit hl).mono fun p' hp' =>
      ⟨hp'.1, hcount.trans hp'.2.1, hp'.2.2⟩
  have hstart : Ends (if j.is64 then j.countShort 4 (q + d, q) else pure (q + d, q)) fun p =>
      p.1 = p.2 + d ∧ Counted j d (q + d) p.1 ∧ Left j d (2 + 2) p.1 := by
    unfold stepSize at hleft
    split
    case isTrue h64 =>
      rw [if_pos h64] at hleft
      exact ends_countShort (by decide) h hleft
    case isFalse h64 =>
      rw [if_neg h64] at hleft
      exact ⟨rfl, .refl h, hleft⟩
  unfold countTail
  refine hstart.bind fun p hp => ?_
  refine (hshort 2 p _ (by decide) rfl hp).bind fun p hp => ?_
  exact (hshort 1 p _ (by decide) rfl hp).bind fun p hp => hp.2

/-- `LZ4_count` goes as far as the copy goes. -/
theorem ends_count {d : ℕ} : ∀ (fuel q : ℕ), q + d ≤ j.matchlimit →
    j.matchlimit - (q + d) < fuel →
    Ends (j.count fuel (q + d) q) fun e => Counted j d (q + d) e ∧ Left j d 1 e := by
  have hlim := j.matchlimit_le
  have hstep := j.stepSize_pos
  intro fuel
  induction fuel with
  | zero =>
      intro q _ hfuel
      omega
  | succ fuel ih =>
      intro q h hfuel
      unfold count
      split
      case isFalse hlt => exact ends_countTail h fun e _ he => by omega
      case isTrue hlt =>
        rw [readWord_eq (by omega), readWord_eq (by omega)]
        have hlen : ((j.source.drop q).take j.stepSize).length = j.stepSize :=
          length_word (by omega)
        have hlen' : ((j.source.drop (q + d)).take j.stepSize).length = j.stepSize :=
          length_word (by omega)
        have hcommon := nbCommonBytes_le ((j.source.drop q).take j.stepSize)
          ((j.source.drop (q + d)).take j.stepSize)
        have hcounted : Counted j d (q + d) (q + d + nbCommonBytes (List.zipWith (· ^^^ ·)
            ((j.source.drop q).take j.stepSize) ((j.source.drop (q + d)).take j.stepSize))) :=
          ⟨by omega, by omega, repeats_nbCommonBytes⟩
        show Ends (if _ then _ else _) _
        by_cases hall : (List.zipWith (· ^^^ ·) ((j.source.drop q).take j.stepSize)
            ((j.source.drop (q + d)).take j.stepSize)).all (· = 0) = true
        · rw [nbCommonBytes_of_all hall, List.length_zipWith, hlen, hlen', Nat.min_self]
            at hcounted
          have hrest := ih (q + j.stepSize) (by omega) (by omega)
          rw [Nat.add_right_comm] at hrest
          rw [if_pos hall]
          exact hrest.mono fun e he => ⟨hcounted.trans he.1, he.2⟩
        · have hlt' := nbCommonBytes_of_not_all hall
          rw [List.length_zipWith, hlen, hlen', Nat.min_self] at hlt'
          rw [if_neg hall]
          refine ⟨hcounted, fun e he _ => ?_⟩
          by_contra hle
          -- the next byte would be one of the copy too
          refine getElem?_nbCommonBytes (hlen.trans hlen'.symm) (by rwa [hlen]) ?_
          rw [getElem?_word hlt', getElem?_word hlt', he _ (Nat.le_refl _) (by omega)]
          congr 1
          omega

/-! ## The search -/

/-- A place where at least four bytes are a copy, of what the format can reach. -/
structure IsMatch (j : Job) (ip m : ℕ) : Prop where
  lt : m < ip
  near : ip ≤ m + maxDistance
  repeats : Repeats j.source (ip - m) ip (ip + minMatch)

end Job

/-- The positions in the table come before `b`. -/
def Table.Below (table : Table) (b : ℕ) : Prop := ∀ h m, table h = some m → m < b

/-- A larger bound holds as well. -/
theorem Table.Below.mono {table : Table} {b b' : ℕ} (h : table.Below b) (hb : b ≤ b') :
    table.Below b' := fun k m hm => (h k m hm).trans_le hb

/-- A position below the bound may be stored. -/
theorem Table.Below.put {tableType : TableType} {table : Table} {p h b : ℕ}
    (hbelow : table.Below b) (hp : p < b) :
    (putPositionOnHash tableType p h table).Below b := by
  intro k m hm
  unfold putPositionOnHash at hm
  split at hm
  case isFalse => exact hbelow k m hm
  case isTrue =>
    obtain rfl := Option.some.inj hm
    cases tableType with
    | byPtr => exact hp
    | byU32 => exact (Nat.mod_le _ _).trans_lt hp
    | byU16 => exact (Nat.mod_le _ _).trans_lt hp

/-- The empty table points to the first byte at most. -/
theorem TableType.empty_below (tableType : TableType) {b : ℕ} (hb : 0 < b) :
    Table.Below tableType.empty b := by
  intro k m hm
  cases tableType with
  | byPtr => cases hm
  | byU32 => rwa [← Option.some.inj hm]
  | byU16 => rwa [← Option.some.inj hm]

namespace Job

variable {j : Job}

/-- A candidate that is not rejected is a match. -/
theorem ends_rejects {entry : Option ℕ} {ip : ℕ} (hip : ip + minMatch ≤ j.source.length)
    (hentry : ∀ m, entry = some m → m < ip)
    (hnear : j.tableType = .byU16 → ip ≤ maxDistance) :
    Ends (j.rejects entry ip) fun b => b = false → ∃ m, entry = some m ∧ IsMatch j ip m := by
  unfold rejects
  cases entry with
  | none => exact fun h => Bool.noConfusion h
  | some m =>
      have hlt := hentry m rfl
      dsimp only
      split
      case isTrue => exact fun h => Bool.noConfusion h
      case isFalse hfar =>
        obtain ⟨d, rfl⟩ : ∃ d, ip = m + d := ⟨ip - m, by omega⟩
        refine (ends_agree hip).bind fun b hb hsame => ⟨m, rfl, hlt, ?_, ?_⟩
        · by_cases h16 : j.tableType = .byU16
          · exact (hnear h16).trans (Nat.le_add_left _ _)
          · exact Nat.le_of_not_lt fun h => hfar ⟨h16, h⟩
        · rw [Nat.add_sub_cancel_left]
          exact hb.1 (by cases b <;> trivial)

/-- The search ends, with a match or at the limit. -/
theorem ends_findMatch (hmin : minLength ≤ j.source.length)
    (h16 : j.tableType = .byU16 → j.source.length < limit64K) :
    ∀ (fuel ip step nb h : ℕ) (table : Table), table.Below ip → 0 < step →
      2 ^ skipTrigger ≤ nb → nb + (j.mflimit - ip) < 2 ^ 32 → j.mflimit + 1 - ip < fuel →
      Ends (j.findMatch fuel ip step nb h table) fun r =>
        ∀ ip' m table', r = some (ip', m, table') →
          ip ≤ ip' ∧ ip' < j.mflimit ∧ IsMatch j ip' m ∧ table'.Below (ip' + 1) := by
  have hlim : j.mflimit = j.source.length - mfLimit := rfl
  unfold minLength mfLimit minMatch at *
  intro fuel
  induction fuel with
  | zero =>
      intro ip step nb h table _ _ _ _ hfuel
      omega
  | succ fuel ih =>
      intro ip step nb h table hbelow hstep hnb hnb' hfuel
      unfold findMatch
      by_cases hout : ip + step > j.mflimit
      · rw [if_pos hout]
        intro ip' m table' hr
        cases hr
      · rw [if_neg hout]
        have hput : ∀ tableType, (putPositionOnHash tableType ip h table).Below (ip + 1) :=
          fun _ => (hbelow.mono (Nat.le_succ ip)).put (Nat.lt_succ_self ip)
        refine (ends_hashPosition (by omega)).bind fun forwardH _ => ?_
        refine (ends_rejects (by unfold minMatch; omega) (hbelow h) fun ht => ?_).bind
          fun b hb => ?_
        · have := h16 ht
          unfold limit64K mfLimit minMatch at this
          unfold maxDistance
          omega
        cases b with
        | true =>
            have hshift : 0 < nb >>> skipTrigger := by
              rw [Nat.shiftRight_eq_div_pow]
              exact Nat.div_pos hnb (by decide)
            have hmod : (nb + 1) % 2 ^ 32 = nb + 1 := Nat.mod_eq_of_lt (by omega)
            refine (ih (ip + step) _ _ forwardH _ ((hput _).mono (by omega)) hshift
              (by omega) (by omega) (by omega)).mono fun r hr ip' m table' hsome => ?_
            obtain ⟨hle, hrest⟩ := hr ip' m table' hsome
            exact ⟨by omega, hrest⟩
        | false =>
            obtain ⟨m, hm, hmatch⟩ := hb rfl
            intro ip' m' table' hr
            rw [hm] at hr
            cases hr
            exact ⟨Nat.le_refl ip, by omega, hmatch, hput _⟩

/-! ## Over the literals -/

/-- The match is extended backwards over equal bytes. -/
theorem catchUp_spec {anchor ip m b : ℕ} (hanchor : anchor ≤ ip) (hm : m < ip)
    (hrep : Repeats j.source (ip - m) ip b) {ip' m' : ℕ}
    (h : j.catchUp anchor ip m = (ip', m')) :
    anchor ≤ ip' ∧ ip' ≤ ip ∧ m' < ip' ∧ ip' - m' = ip - m ∧
      Repeats j.source (ip - m) ip' b := by
  fun_induction j.catchUp anchor ip m with
  | case1 ip m hcond ih =>
    obtain ⟨hlt, heq⟩ := hcond
    have hd : ip + 1 - (m + 1) = ip - m := by omega
    rw [hd] at hrep
    have hmore : Repeats j.source (ip - m) ip b := by
      intro i hi hb
      rcases Nat.eq_or_lt_of_le hi with rfl | hi
      · rw [heq, show ip - (ip - m) = m by omega]
      · exact hrep i hi hb
    obtain ⟨h₁, h₂, h₃, h₄, h₅⟩ := ih (by omega) (by omega) hmore h
    exact ⟨h₁, by omega, h₃, by omega, by rwa [hd]⟩
  | case2 ip m hcond =>
    cases h
    exact ⟨hanchor, Nat.le_refl _, hm, rfl, hrep⟩
  | case3 ip m hnot =>
    cases h
    exact ⟨hanchor, Nat.le_refl _, hm, rfl, hrep⟩

end Job

end Lz4Block
