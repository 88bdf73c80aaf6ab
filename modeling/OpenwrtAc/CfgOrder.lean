/-
# The order of the rules

The rules are read in the order of their priorities, and the first that fits decides.  Seen
so, a table of rules is the list of its ids: a new rule goes to the end under the least id
that the list has not, a deletion takes ids out, and an adjustment exchanges two.  This file
shows that the commands compute on the tables what these moves do to the list.
-/
import OpenwrtAc.CfgRuns

open KeyedRows Outcome

namespace CfgMgr

variable {s s' : Store}

/-! ## Moves of a list of ids -/

inductive Move where
  | stay
  | last
  | remove (ids : List Id)
  | exchange (ids : List Id)

/-- The least number that the list has not. -/
def freeId (order : List ℤ) : ℤ := firstGap 0 (order.insertionSort (· ≤ ·))

def Move.apply : Move → List ℤ → List ℤ
  | .stay, order => order
  | .last, order => order ++ [freeId order]
  | .remove ids, order => order.filter fun i => i ∉ inPart ids
  | .exchange ids, order =>
    match order.filter fun i => i ∈ inPart ids with
    | [a, b] => order.map (KeyedRows.exchange a b)
    | _ => order

/-- An exchange of two rules exchanges them in the order. -/
theorem Move.apply_exchange {ids : List Id} {order : List ℤ} {a b : ℤ}
    (h : (order.filter fun i => i ∈ inPart ids) = [a, b]) :
    (Move.exchange ids).apply order = order.map (KeyedRows.exchange a b) := by
  simp only [Move.apply, h]

/-- What a command does to the access rules. -/
def Cmd.acruleMove : Cmd → Move
  | .acruleAdd _ => .last
  | .acruleDel ids => .remove ids
  | .acruleAdjust ids => .exchange ids
  | _ => .stay

/-- What a command does to the authentication rules. -/
def Cmd.authruleMove : Cmd → Move
  | .authruleAdd _ => .last
  | .authruleDel ids => .remove ids
  | .authruleAdjust ids => .exchange ids
  | _ => .stay

/-- The id that is free in the order is the least one. -/
theorem freeId_least {order : List ℤ} (hn : order.Nodup) (h0 : ∀ i ∈ order, 0 ≤ i) :
    LeastFree 0 order (freeId order) :=
  (firstGap_least _ 0 (sorted_ids hn)
    fun v hv => h0 v ((List.perm_insertionSort _ _).mem_iff.1 hv)).congr
    fun _ => (List.perm_insertionSort _ _).mem_iff

/-! ## A table of rules and its list -/

/-- The ids of the rows in the order in which the rules are read. -/
def RankTable.order {α : Type} (t : RankTable α) (rows : List α) : List ℤ :=
  KeyedRows.order t.id t.rank rows

/-- The rows have different priorities, and the list of their ids is `order`. -/
structure RankTable.Reads {α : Type} (t : RankTable α) (rows : List α) (order : List ℤ) : Prop where
  ranks : (rows.map t.rank).Nodup
  order : t.order rows = order

section

variable {α : Type} {t : RankTable α} {max : ℕ} {rows rows' : List α} {order : List ℤ}

/-- The order has the ids of the rows. -/
theorem RankTable.mem_order {i : ℤ} : i ∈ t.order rows ↔ i ∈ rows.map t.id := by
  rw [RankTable.order, KeyedRows.mem_order, List.mem_map]

/-- A rule that is added is read last. -/
theorem RankTable.Reads.addLast {exists_ : String} {p : α} (hT : t.Holds (Below max) rows)
    (h : t.Reads rows order) (hs : t.addLast exists_ max p rows = .ok rows') :
    t.Reads rows' (Move.last.apply order) := by
  obtain ⟨id, hid, rfl⟩ := RankTable.addLast_ok hs
  obtain ⟨_, hleast, _⟩ := Table.newId_ok hT hid
  have habove : ∀ r ∈ rows,
      t.rank r < t.rank (t.setRank (t.setId p id) (nextPriority (rows.map t.rank))) := by
    intro r hr
    rw [t.rank_setRank]
    exact lt_nextPriority _ (List.mem_map.2 ⟨r, hr, rfl⟩)
  -- the list has the ids of the table, so the same number is the least free one
  have hfree : freeId order = id := by
    rw [← h.order]
    have hnodup : (t.order rows).Nodup := order_nodup.2 hT.ids
    have hlow : ∀ i ∈ t.order rows, 0 ≤ i := by
      intro i hi
      obtain ⟨r, hr, rfl⟩ := List.mem_map.1 (mem_order.1 hi)
      exact (hT.range r hr).1
    exact (freeId_least hnodup hlow).unique (hleast.congr fun _ => mem_order.symm)
  constructor
  · exact nodup_snoc h.ranks fun r hr => (habove r hr).ne
  · rw [RankTable.order, order_snoc h.ranks habove, t.id_setRank, t.id_setId]
    rw [Move.apply, hfree, ← h.order, RankTable.order]

/-- Rules that are deleted are no longer read. -/
theorem RankTable.Reads.delRows (h : t.Reads rows order) (ids : List Id) :
    t.Reads (t.delRows ids rows) ((Move.remove ids).apply order) := by
  constructor
  · exact nodup_filter _ h.ranks
  · rw [Move.apply, ← h.order]
    exact order_filter h.ranks fun i => i ∉ inPart ids

/-- The two rows of an adjustment, in the order in which they are read. -/
theorem order_pair {r₁ r₂ : α} :
    t.order [r₁, r₂] = [t.id r₁, t.id r₂] ∨ t.order [r₁, r₂] = [t.id r₂, t.id r₁] := by
  by_cases h : t.rank r₁ ≤ t.rank r₂ <;> simp [RankTable.order, KeyedRows.order, ranked, h]

/-- Two rules that are exchanged are read in each other's place. -/
theorem RankTable.Reads.adjust {invalid : String} {ids : List Id} (hT : t.Holds (Below max) rows)
    (h : t.Reads rows order) (hs : t.adjust invalid ids rows = .ok rows') :
    t.Reads rows' ((Move.exchange ids).apply order) := by
  obtain ⟨r₁, r₂, hf, hrows'⟩ := RankTable.adjust_ok hs
  have hmem : ∀ r ∈ [r₁, r₂], r ∈ rows := by
    rw [← hf]
    exact fun r hr => (List.mem_filter.1 hr).1
  have hne : t.id r₁ ≠ t.id r₂ := by
    have hnodup := nodup_filter (fun r => decide (t.id r ∈ inPart ids)) hT.ids
    rw [hf] at hnodup
    simpa using hnodup
  obtain ⟨hranks, horder⟩ := order_exchange hT.ids h.ranks
    (hmem r₁ List.mem_cons_self) (hmem r₂ (List.mem_cons_of_mem _ List.mem_cons_self)) hne
    t.id_setRank t.rank_setRank hrows'
  have hpair : (order.filter fun i => i ∈ inPart ids) = t.order [r₁, r₂] := by
    rw [← h.order, ← hf]
    exact (order_filter h.ranks fun i => i ∈ inPart ids).symm
  constructor
  · exact hranks
  · rcases @order_pair _ t r₁ r₂ with hp | hp
    · rw [Move.apply_exchange (hpair.trans hp), ← h.order]
      exact horder
    · rw [Move.apply_exchange (hpair.trans hp), ← h.order, exchange_comm]
      exact horder

/-- A rule that keeps its rank is read where it was. -/
theorem RankTable.Reads.setRow [DecidableEq α] {invalid : String} {p : α} (h : t.Reads rows order)
    (hkeep : ∀ r ∈ rows, t.id r = t.id p → t.rank (t.fill r p) = t.rank r)
    (hs : t.setRow invalid p rows = .ok rows') : t.Reads rows' (Move.stay.apply order) := by
  obtain ⟨_, _, _, _, rfl⟩ := Table.setRow_ok hs
  constructor
  · rw [map_rewrite hkeep]
    exact h.ranks
  · rw [Move.apply, ← h.order]
    exact order_rewrite h.ranks (fun r _ hk => (t.id_fill r p).trans hk.symm) hkeep

end

/-! ## Commands -/

/-- An update gives the rule the priority that it has. -/
def KeepsRank (s : Store) : Cmd → Prop
  | .acruleSet p => ∀ r ∈ s.acrules, r.ruleid = p.ruleid → p.priority = r.priority
  | .authruleSet p => ∀ r ∈ s.authrules, r.rid = p.rid → p.priority = r.priority
  | _ => True

/-- Every command moves the rules as its move says. -/
theorem reads_acrules {c : Cmd} {order : List ℤ} (h : WellFormed s)
    (hr : acrule.Reads s.acrules order) (hk : KeepsRank s c) (hs : exec len s c = .ok s') :
    acrule.Reads s'.acrules (c.acruleMove.apply order) := by
  cases c with
  | acruleSet p =>
    obtain ⟨_, hs⟩ := check_bind_ok.1 hs
    obtain ⟨rows, hrows, hs⟩ := bind_eq_ok.1 hs
    cases hs
    exact hr.setRow hk hrows
  | acruleAdd p =>
    obtain ⟨_, hs⟩ := check_bind_ok.1 hs
    obtain ⟨rows, hrows, hs⟩ := bind_eq_ok.1 hs
    cases hs
    exact hr.addLast h.acrules hrows
  | acruleDel ids =>
    cases hs
    exact hr.delRows ids
  | acruleAdjust ids =>
    obtain ⟨rows, hrows, hs⟩ := bind_eq_ok.1 hs
    cases hs
    exact hr.adjust h.acrules hrows
  | _ =>
    obtain ⟨rows, rfl⟩ := exec_part hs
    exact hr

/-- Every command moves the login rules as its move says. -/
theorem reads_authrules {c : Cmd} {order : List ℤ} (h : WellFormed s)
    (hr : authrule.Reads s.authrules order) (hk : KeepsRank s c) (hs : exec len s c = .ok s') :
    authrule.Reads s'.authrules (c.authruleMove.apply order) := by
  cases c with
  | authruleSet p =>
    obtain ⟨_, hs⟩ := check_bind_ok.1 hs
    obtain ⟨rows, hrows, hs⟩ := bind_eq_ok.1 hs
    cases hs
    exact hr.setRow hk hrows
  | authruleAdd p =>
    obtain ⟨_, hs⟩ := check_bind_ok.1 hs
    obtain ⟨rows, hrows, hs⟩ := bind_eq_ok.1 hs
    cases hs
    exact hr.addLast h.authrules hrows
  | authruleDel ids =>
    cases hs
    exact hr.delRows ids
  | authruleAdjust ids =>
    obtain ⟨rows, hrows, hs⟩ := bind_eq_ok.1 hs
    cases hs
    exact hr.adjust h.authrules hrows
  | _ =>
    obtain ⟨rows, rfl⟩ := exec_part hs
    exact hr

/-! ## Runs -/

/-- The commands of a run that are not refused. -/
def accepted (len : Length) : Store → List Cmd → List Cmd
  | _, [] => []
  | s, c :: cs =>
    match exec len s c with
    | .ok s' => c :: accepted len s' cs
    | .error _ => accepted len s cs

/-- Every update of the run gives the rule the priority that it has. -/
def KeepRanks (len : Length) : Store → List Cmd → Prop
  | _, [] => True
  | s, c :: cs => KeepsRank s c ∧ KeepRanks len (step len s c) cs

/-- A command that is accepted. -/
theorem accepted_ok {c : Cmd} {cs : List Cmd} (hs : exec len s c = .ok s') :
    accepted len s (c :: cs) = c :: accepted len s' cs := by
  simp only [accepted, hs]

/-- A command that is refused. -/
theorem accepted_error {c : Cmd} {cs : List Cmd} {e : String} (hs : exec len s c = .error e) :
    accepted len s (c :: cs) = accepted len s cs := by
  simp only [accepted, hs]

/-- An accepted command is carried out. -/
theorem step_ok {c : Cmd} (hs : exec len s c = .ok s') : step len s c = s' := by
  simp only [step, hs]

/-- A refused command leaves the configuration. -/
theorem step_error {c : Cmd} {e : String} (hs : exec len s c = .error e) : step len s c = s := by
  simp only [step, hs]

/-- After a list of commands both tables are read in the order that the accepted ones make. -/
theorem reads_run {cs : List Cmd} {order order' : List ℤ} (h : WellFormed s)
    (hr : acrule.Reads s.acrules order) (hr' : authrule.Reads s.authrules order')
    (hk : KeepRanks len s cs) :
    acrule.Reads (run len s cs).acrules
        ((accepted len s cs).foldl (fun order c => c.acruleMove.apply order) order) ∧
      authrule.Reads (run len s cs).authrules
        ((accepted len s cs).foldl (fun order c => c.authruleMove.apply order) order') := by
  induction cs generalizing s order order' with
  | nil => exact ⟨hr, hr'⟩
  | cons c cs ih =>
    obtain ⟨hc, hk⟩ := hk
    have hrun : run len s (c :: cs) = run len (step len s c) cs := rfl
    cases hs : exec len s c with
    | ok s' =>
      rw [step_ok hs] at hk hrun
      rw [hrun, accepted_ok hs]
      exact ih (h.exec hs) (reads_acrules h hr hc hs) (reads_authrules h hr' hc hs) hk
    | error e =>
      rw [step_error hs] at hk hrun
      rw [hrun, accepted_error hs]
      exact ih h hr hr' hk

/-- Over a run whose updates keep the priorities, no two rules share one, and the order in which the
    rules are read is what the accepted commands make of the empty list: a new rule is read last,
    under the least free id, the others keep their order through deletions, and an adjustment
    exchanges two. -/
theorem run_order {protos : List String} (hp : protos.Nodup) {days tmlist : String}
    {len : Length} {cs : List Cmd} (hk : KeepRanks len (defaults protos days tmlist) cs) :
    acrule.Reads (run len (defaults protos days tmlist) cs).acrules
        ((accepted len (defaults protos days tmlist) cs).foldl
          (fun order c => c.acruleMove.apply order) []) ∧
      authrule.Reads (run len (defaults protos days tmlist) cs).authrules
        ((accepted len (defaults protos days tmlist) cs).foldl
          (fun order c => c.authruleMove.apply order) []) :=
  reads_run (wellFormed_defaults hp days tmlist) ⟨List.nodup_nil, rfl⟩ ⟨List.nodup_nil, rfl⟩ hk

/-- Two rules and their exchange, and a third under the id of the one that went. -/
def exchanged : List Cmd :=
  [.authruleAdd ⟨0, "a", "", 0, 63, "auto", 1, "[]", 0, 0, "", "", "", "", ""⟩,
    .authruleAdd ⟨0, "b", "", 1, 63, "auto", 1, "[]", 0, 0, "", "", "", "", ""⟩,
    .authruleAdjust [.num 0, .text 1], .authruleDel [.num 0],
    .authruleAdd ⟨0, "c", "", 0, 63, "auto", 1, "[]", 0, 0, "", "", "", "", ""⟩]

/-- Two rules are added and exchanged. -/
theorem run_order_exchanged :
    acrule.Reads (run .least (defaults [] "" "") exchanged).acrules
        ((accepted .least (defaults [] "" "") exchanged).foldl
          (fun order c => c.acruleMove.apply order) []) ∧
      authrule.Reads (run .least (defaults [] "" "") exchanged).authrules
        ((accepted .least (defaults [] "" "") exchanged).foldl
          (fun order c => c.authruleMove.apply order) []) :=
  run_order List.nodup_nil (by simp [KeepRanks, KeepsRank, exchanged])

example : authrule.order (run .least (defaults [] "" "") exchanged).authrules = [1, 0] := by decide

end CfgMgr
