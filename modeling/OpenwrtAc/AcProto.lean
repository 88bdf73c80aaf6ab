/-
# The leaves of the tree of protocols (`performer/acconfig.lua`)

`fetch_leaf_protoids` against a table `acproto`: it asks for the types of the protocols that
it is given, takes the leaves as they are, and goes on with the children of the others.  The
database answers in an order of its own, or it fails.
-/
import OpenwrtAc.AcLatest
import Mathlib.Algebra.Order.BigOperators.Group.List
import Mathlib.Data.Finset.Card
import Mathlib.Data.List.Perm.Basic
import Mathlib.Logic.Relation
import Mathlib.Tactic.Linarith

namespace AcConfig

open Relation

/-! ## Links without cycles -/

section

variable {α : Type}

/-- What lies below is smaller: links in a list that make no cycle have a rank. -/
theorem exists_rank (l : List α) {link : α → α → Prop} (hmem : ∀ a b, link a b → b ∈ l)
    (hacyclic : ∀ a, ¬ TransGen link a a) : ∃ rank : α → ℕ, ∀ a b, link a b → rank b < rank a := by
  classical
  refine ⟨fun a => (l.toFinset.filter fun b => TransGen link a b).card, fun a b hab => Finset.card_lt_card ?_⟩
  rw [Finset.ssubset_iff_of_subset]
  · -- `b` itself is below `a`, and not below `b`
    refine ⟨b, ?_, ?_⟩
    · exact Finset.mem_filter.mpr ⟨List.mem_toFinset.mpr (hmem a b hab), .single hab⟩
    · exact fun hb => hacyclic b (Finset.mem_filter.mp hb).2
  · intro x hx
    obtain ⟨hx, hbx⟩ := Finset.mem_filter.mp hx
    exact Finset.mem_filter.mpr ⟨hx, .head hab hbx⟩

/-- Links that go down in a rank make no cycle. -/
theorem acyclic_of_rank {link : α → α → Prop} (rank : α → ℕ) (hrank : ∀ a b, link a b → rank b < rank a) (a : α) :
    ¬ TransGen link a a := by
  have hlt : ∀ b, TransGen link a b → rank b < rank a := by
    intro b h
    induction h with
    | single h => exact hrank a _ h
    | tail _ h ih => exact (hrank _ _ h).trans ih
  exact fun h => lt_irrefl _ (hlt a h)

theorem exists_bound (l : List α) (rank : α → ℕ) : ∃ m, ∀ a ∈ l, rank a < m :=
  ⟨(l.map rank).sum + 1, fun _ ha => Nat.lt_succ_of_le (List.le_sum_of_mem (List.mem_map_of_mem ha))⟩

end

/-! ## The table -/

/-- How the database compares two texts of a column. -/
structure Collation where
  same : String → String → Bool
  refl : ∀ s, same s s = true

/-- Texts that are compared byte for byte. -/
def Collation.binary : Collation := ⟨fun s t => s == t, fun s => beq_self_eq_true s⟩

/-- A row of `acproto` with its parent. -/
structure AcprotoRow extends ProtoRow where
  pid : String

/-- `a.pid = b.proto_id`, for rows of a table. -/
def PidLink (c : Collation) (rows : List AcprotoRow) (b a : AcprotoRow) : Prop :=
  b ∈ rows ∧ a ∈ rows ∧ c.same a.pid b.protoId = true

/-- The table: `proto_id` is its key, and no protocol lies below itself. -/
structure Acproto (c : Collation) where
  rows : List AcprotoRow
  unique : ∀ r ∈ rows, ∀ s ∈ rows, c.same r.protoId s.protoId = true → r = s
  acyclic : ∀ r, ¬ TransGen (PidLink c rows) r r

/-- `proto_id in (ids)`. -/
def inIds (c : Collation) (ids : List String) (r : AcprotoRow) : Bool := ids.any fun id => c.same r.protoId id

/-- The rows that a query asks for; the second one joins the table with itself. -/
def selectFetch (c : Collation) (rows : List AcprotoRow) : Fetch → List ProtoRow
  | .protos _ ids => (rows.filter (inIds c ids)).map AcprotoRow.toProtoRow
  | .children _ nodes =>
    rows.flatMap fun a =>
      (rows.filter fun b => inIds c nodes b && c.same a.pid b.protoId).map fun _ => a.toProtoRow

variable {J : Type} (L : Lib J)

/-- `fetch_leaf_protoids` with at most `fuel` queries, of which `n` have been made: the result,
    where none is nil, and how many queries there were.  Which of them fail, and in what order the
    rows of the others come, is given. -/
def runFetch (c : Collation) (rows : List AcprotoRow) (order : ℕ → List ProtoRow → List ProtoRow)
    (fails : ℕ → Bool) : ℕ → ℕ → Fetch ⊕ List ℕ → Option (Option (List ℕ) × ℕ)
  | _, n, .inr leafIds => some (some leafIds, n)
  | 0, _, .inl _ => none
  | fuel + 1, n, .inl fetch =>
    if fails n then some (none, n + 1)
    else runFetch c rows order fails fuel (n + 1) (fetch.answer L (order n (selectFetch c rows fetch)))

/-! ## What the answers say -/

variable {c : Collation}

/-- A link from a node of the tree. -/
def Acproto.NodeLink (t : Acproto c) (b a : AcprotoRow) : Prop :=
  PidLink c t.rows b a ∧ b.nodeType = "node"

/-- A row of the list. -/
def Acproto.Listed (t : Acproto c) (ids : List String) (r : AcprotoRow) : Prop :=
  r ∈ t.rows ∧ ∃ id ∈ ids, c.same r.protoId id = true

/-- The number of a leaf that is in the list, or is reached from a node in it through nodes. -/
def Acproto.LeafNumber (t : Acproto c) (ids : List String) (x : ℕ) : Prop :=
  ∃ r leaf, t.Listed ids r ∧ ReflTransGen t.NodeLink r leaf ∧ leaf.nodeType = "leaf" ∧
    L.hex leaf.protoId = some x

theorem listed_iff (t : Acproto c) (ids : List String) (r : AcprotoRow) :
    t.Listed ids r ↔ r ∈ t.rows.filter (inIds c ids) := by
  simp [Acproto.Listed, inIds]

theorem mem_selectProtos (t : Acproto c) (leafIds : List ℕ) (ids : List String) (p : ProtoRow) :
    p ∈ selectFetch c t.rows (.protos leafIds ids) ↔ ∃ r, t.Listed ids r ∧ r.toProtoRow = p := by
  simp only [selectFetch, List.mem_map, listed_iff]

/-- The children of nodes that are listed are the rows that the next call is given. -/
theorem listed_children (t : Acproto c) (leafIds : List ℕ) (ids nodes : List String)
    (hnodes : ∀ s, s ∈ nodes ↔ ∃ r, t.Listed ids r ∧ r.nodeType = "node" ∧ r.protoId = s)
    {answer : List ProtoRow} (hanswer : answer.Perm (selectFetch c t.rows (.children leafIds nodes)))
    (a : AcprotoRow) :
    t.Listed (answer.map ProtoRow.protoId) a ↔ ∃ b, t.Listed ids b ∧ t.NodeLink b a := by
  have hmem : ∀ s, s ∈ answer.map ProtoRow.protoId ↔
      ∃ a ∈ t.rows, a.protoId = s ∧ ∃ b ∈ t.rows, inIds c nodes b = true ∧ c.same a.pid b.protoId = true := by
    intro s
    rw [(hanswer.map _).mem_iff]
    simp only [selectFetch, List.mem_map, List.mem_flatMap, List.mem_filter, Bool.and_eq_true]
    constructor
    · rintro ⟨_, ⟨a, ha, b, ⟨hb, hin, hsame⟩, rfl⟩, rfl⟩
      exact ⟨a, ha, rfl, b, hb, hin, hsame⟩
    · rintro ⟨a, ha, rfl, b, hb, hin, hsame⟩
      exact ⟨_, ⟨a, ha, b, ⟨hb, hin, hsame⟩, rfl⟩, rfl⟩
  -- a row with the key of a listed node is that node
  have hnode : ∀ b ∈ t.rows, inIds c nodes b = true ↔ t.Listed ids b ∧ b.nodeType = "node" := by
    intro b hb
    simp only [inIds, List.any_eq_true]
    constructor
    · rintro ⟨s, hs, hsame⟩
      obtain ⟨r, hr, htype, rfl⟩ := (hnodes s).mp hs
      rw [t.unique b hb r hr.1 hsame]
      exact ⟨hr, htype⟩
    · rintro ⟨hl, htype⟩
      exact ⟨b.protoId, (hnodes _).mpr ⟨b, hl, htype, rfl⟩, c.refl _⟩
  constructor
  · rintro ⟨ha, s, hs, hsame⟩
    obtain ⟨a', ha', rfl, b, hb, hin, hpid⟩ := (hmem s).mp hs
    obtain rfl := t.unique a ha a' ha' hsame
    obtain ⟨hl, htype⟩ := (hnode b hb).mp hin
    exact ⟨b, hl, ⟨hb, ha, hpid⟩, htype⟩
  · rintro ⟨b, hl, ⟨hb, ha, hpid⟩, htype⟩
    exact ⟨ha, a.protoId, (hmem _).mpr ⟨a, ha, rfl, b, hb, (hnode b hb).mpr ⟨hl, htype⟩, hpid⟩, c.refl _⟩

/-- The leaves below a list are those in it and those below the children of its nodes. -/
theorem leafNumber_iff (t : Acproto c) {ids ids' : List String}
    (hchildren : ∀ a, t.Listed ids' a ↔ ∃ b, t.Listed ids b ∧ t.NodeLink b a) (x : ℕ) :
    t.LeafNumber L ids x ↔
      (∃ r, t.Listed ids r ∧ r.nodeType = "leaf" ∧ L.hex r.protoId = some x) ∨ t.LeafNumber L ids' x := by
  constructor
  · rintro ⟨r, leaf, hl, hpath, htype, hx⟩
    obtain rfl | ⟨a, hlink, hrest⟩ := hpath.cases_head
    · exact .inl ⟨r, hl, htype, hx⟩
    · exact .inr ⟨a, leaf, (hchildren a).mpr ⟨r, hl, hlink⟩, hrest, htype, hx⟩
  · rintro (⟨r, hl, htype, hx⟩ | ⟨a, leaf, hl, hpath, htype, hx⟩)
    · exact ⟨r, r, hl, .refl, htype, hx⟩
    · obtain ⟨b, hb, hlink⟩ := (hchildren a).mp hl
      exact ⟨b, leaf, hb, .head hlink hpath, htype, hx⟩

/-! ## The recursion -/

/-- What a run from the `n`-th query on has to give: nil exactly when a query has failed, or else
    the leaves that there are already and those below the list. -/
def Answered (t : Acproto c) (fails : ℕ → Bool) (n : ℕ) (leafIds : List ℕ) (ids : List String)
    (r : Option (List ℕ)) (n' : ℕ) : Prop :=
  n ≤ n' ∧ (r = none ↔ ∃ i, n ≤ i ∧ i < n' ∧ fails i = true) ∧
    ∀ l, r = some l → ∀ x, x ∈ l ↔ x ∈ leafIds ∨ t.LeafNumber L ids x

/-- A query that fails is the last. -/
theorem answered_fails (t : Acproto c)
    {fails : ℕ → Bool} {n m : ℕ} (hle : n ≤ m) (hfail : fails m = true)
    (leafIds : List ℕ) (ids : List String) : Answered L t fails n leafIds ids none (m + 1) :=
  ⟨by omega, iff_of_true rfl ⟨m, hle, by omega, hfail⟩, fun _ h => by cases h⟩

/-- What the answer to the first query is made into. -/
theorem answer_protos (t : Acproto c) (leafIds : List ℕ) (ids : List String)
    {answer : List ProtoRow}
    (hanswer : answer.Perm (selectFetch c t.rows (.protos leafIds ids))) :
    ∃ leafs nodes, (Fetch.protos leafIds ids).answer L answer =
        (if nodes = [] then .inr (leafIds ++ leafs) else .inl (.children (leafIds ++ leafs) nodes)) ∧
      (∀ x, x ∈ leafs ↔ ∃ r, t.Listed ids r ∧ r.nodeType = "leaf" ∧ L.hex r.protoId = some x) ∧
      ∀ s, s ∈ nodes ↔ ∃ r, t.Listed ids r ∧ r.nodeType = "node" ∧ r.protoId = s := by
  have hmem : ∀ p, p ∈ answer ↔ ∃ r, t.Listed ids r ∧ r.toProtoRow = p := fun p =>
    hanswer.mem_iff.trans (mem_selectProtos t leafIds ids p)
  refine ⟨_, _, rfl, fun x => ?_, fun s => ?_⟩
  · simp only [List.mem_filterMap, List.mem_map, List.mem_filter, decide_eq_true_eq, hmem]
    constructor
    · rintro ⟨_, ⟨_, ⟨⟨r, hl, rfl⟩, htype⟩, rfl⟩, hx⟩
      exact ⟨r, hl, htype, hx⟩
    · rintro ⟨r, hl, htype, hx⟩
      exact ⟨_, ⟨_, ⟨⟨r, hl, rfl⟩, htype⟩, rfl⟩, hx⟩
  · simp only [List.mem_map, List.mem_filter, decide_eq_true_eq, hmem]
    constructor
    · rintro ⟨_, ⟨⟨r, hl, rfl⟩, htype⟩, rfl⟩
      exact ⟨r, hl, htype, rfl⟩
    · rintro ⟨r, hl, htype, rfl⟩
      exact ⟨_, ⟨⟨r, hl, rfl⟩, htype⟩, rfl⟩

/-- Without nodes in it there are no leaves below a list but its own. -/
theorem leafNumber_of_no_node (t : Acproto c) {ids : List String}
    (hnone : ∀ r, t.Listed ids r → r.nodeType ≠ "node") (x : ℕ) :
    t.LeafNumber L ids x ↔ ∃ r, t.Listed ids r ∧ r.nodeType = "leaf" ∧ L.hex r.protoId = some x := by
  have hempty : ¬ t.LeafNumber L [] x := by
    rintro ⟨r, -, ⟨-, s, hs, -⟩, -⟩
    cases hs
  have hchildren : ∀ a, t.Listed [] a ↔ ∃ b, t.Listed ids b ∧ t.NodeLink b a := by
    refine fun a => iff_of_false ?_ ?_
    · rintro ⟨-, s, hs, -⟩
      cases hs
    · rintro ⟨b, hl, -, htype⟩
      exact hnone b hl htype
  rw [leafNumber_iff L t hchildren, or_iff_left hempty]

theorem runFetch_answered (t : Acproto c) {order : ℕ → List ProtoRow → List ProtoRow}
    (horder : ∀ n l, (order n l).Perm l) (fails : ℕ → Bool) {rank : AcprotoRow → ℕ}
    (hrank : ∀ b a, PidLink c t.rows b a → rank a < rank b) (m : ℕ) (ids : List String) (leafIds : List ℕ)
    (n : ℕ) (hm : ∀ r, t.Listed ids r → rank r < m) :
    ∃ fuel r n', runFetch L c t.rows order fails fuel n (fetchLeafProtoids leafIds ids) = some (r, n') ∧
      Answered L t fails n leafIds ids r n' := by
  -- by induction on what bounds the depth of the rows of the list
  induction m using Nat.strong_induction_on generalizing ids leafIds n with
  | _ m ih =>
    by_cases hids : ids = []
    · subst hids
      refine ⟨0, some leafIds, n, rfl, le_refl n, iff_of_false (by simp) ?_, ?_⟩
      · rintro ⟨i, hi, hlt, -⟩
        omega
      · rintro _ h x
        cases h
        refine (or_iff_left ?_).symm
        rintro ⟨r, -, ⟨-, s, hs, -⟩, -⟩
        cases hs
    have hentry : fetchLeafProtoids leafIds ids = .inl (.protos leafIds ids) := if_neg hids
    rw [hentry]
    by_cases hfail : fails n = true
    · refine ⟨1, none, n + 1, ?_, answered_fails L t (le_refl n) hfail leafIds ids⟩
      rw [runFetch, if_pos hfail]
    obtain ⟨leafs, nodes, hanswer, hleafs, hnodes⟩ := answer_protos L t leafIds ids
      (horder n (selectFetch c t.rows (.protos leafIds ids)))
    by_cases hnone : nodes = []
    · refine ⟨1, some (leafIds ++ leafs), n + 1, ?_, by omega, iff_of_false (by simp) ?_, ?_⟩
      · rw [runFetch, if_neg hfail, hanswer, if_pos hnone]
        rfl
      · rintro ⟨i, hi, hlt, hf⟩
        obtain rfl : i = n := by omega
        exact hfail hf
      · rintro _ h x
        cases h
        rw [List.mem_append, hleafs, leafNumber_of_no_node L t]
        intro r hl htype
        have := (hnodes r.protoId).mpr ⟨r, hl, htype, rfl⟩
        rw [hnone] at this
        cases this
    by_cases hfail' : fails (n + 1) = true
    · refine ⟨2, none, n + 2, ?_, answered_fails L t (by omega) hfail' leafIds ids⟩
      rw [runFetch, if_neg hfail, hanswer, if_neg hnone, runFetch, if_pos hfail']
    -- the next call, for the children of the nodes, which lie deeper
    have hperm := horder (n + 1) (selectFetch c t.rows (.children (leafIds ++ leafs) nodes))
    generalize hB : order (n + 1) (selectFetch c t.rows (.children (leafIds ++ leafs) nodes)) = answer at hperm
    have hchildren := listed_children t (leafIds ++ leafs) ids nodes hnodes hperm
    obtain ⟨s, hs⟩ := List.exists_mem_of_ne_nil nodes hnone
    obtain ⟨b₀, hb₀, -, -⟩ := (hnodes s).mp hs
    have hpos := hm b₀ hb₀
    obtain ⟨fuel, r, n', hrun, hle, hnil, hleaf⟩ := ih (m - 1) (by omega) (answer.map ProtoRow.protoId)
      (leafIds ++ leafs) (n + 2) (by
        intro a ha
        obtain ⟨b, hb, hlink⟩ := (hchildren a).mp ha
        have h1 := hm b hb
        have h2 := hrank b a hlink.1
        omega)
    refine ⟨fuel + 2, r, n', ?_, by omega, ?_, ?_⟩
    · rw [runFetch, if_neg hfail, hanswer, if_neg hnone, runFetch, if_neg hfail', hB]
      exact hrun
    · rw [hnil]
      constructor
      · rintro ⟨i, hi, hlt, hf⟩
        exact ⟨i, by omega, hlt, hf⟩
      · rintro ⟨i, hi, hlt, hf⟩
        refine ⟨i, ?_, hlt, hf⟩
        obtain rfl | rfl | hi' : i = n ∨ i = n + 1 ∨ n + 2 ≤ i := by omega
        · exact absurd hf hfail
        · exact absurd hf hfail'
        · exact hi'
    · intro l hl x
      rw [hleaf l hl, List.mem_append, hleafs, leafNumber_iff L t hchildren, or_assoc]

/-- A tree of one node and one leaf. -/
def sampleTree : Acproto .binary where
  rows := [⟨⟨"1", "node"⟩, "0"⟩, ⟨⟨"0a", "leaf"⟩, "1"⟩]
  unique := by
    simp [Collation.binary]
  acyclic := acyclic_of_rank (fun r => if r.protoId = "1" then 1 else 0) (by
    rintro a b ⟨ha, hb, hpid⟩
    simp only [List.mem_cons, List.not_mem_nil, or_false, Collation.binary, beq_iff_eq] at ha hb hpid
    obtain rfl | rfl := ha <;> obtain rfl | rfl := hb <;> revert hpid <;> decide)

end AcConfig
