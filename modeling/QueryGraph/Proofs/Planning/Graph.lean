import QueryGraph.Proofs.Passes.Reading
import QueryGraph.Proofs.Planning.Source
import QueryGraph.Proofs.Planning.Stages

/-!
# The graph and its block

How the nodes of a graph belong to the tables of its block, when these are distinct.

## What is proved

* `outline_placed` — the tree in the graph has the outline of the tree that the block starts with.
* `fresh_placed` — its tables can get one node each.
* `Planned.exists_nodeOf`, `Planned.mem_nodeSet` — every table is found by its node, and a set of tables
  becomes the nodes of its members.
-/

namespace QueryGraph

open BitSet

namespace QueryBlock

/-- No table is in the block twice. -/
def DistinctTables (q : QueryBlock) : Prop := (q.source.tables.map Table.number).Nodup

instance (q : QueryBlock) : Decidable q.DistinctTables :=
  inferInstanceAs (Decidable (q.source.tables.map Table.number).Nodup)

/-- The nodes and edges of the block as they were put together. -/
def assembly (s : Settings) (q : QueryBlock) : Assembly :=
  (Assembly.addTree s.estimator (q.placed s.finisher).tree {}).value.2

/-! ### The tree -/

theorem outline_joined (q : QueryBlock) : q.joined.outline = (Tree.ofList q.source).outline :=
  (Tree.outline_pushDownJoins _).trans (Tree.outline_simplifyConds _)

theorem outline_placed (fin : Finisher) (q : QueryBlock) :
    (q.placed fin).tree.outline = (Tree.ofList q.source).outline := by
  rw [placed, Tree.outline_divideKeys, Tree.outline_recordUsedTables, Tree.outline_finishConds, pushed,
    Tree.outline_pushDownAll, outline_joined]

theorem numbers_placed (fin : Finisher) (q : QueryBlock) :
    (q.placed fin).tree.numbers = q.source.tables.map Table.number := by
  rw [Tree.numbers_of_outline (q.outline_placed fin), Tree.numbers_ofList]

theorem outline_unfiltered (s : Settings) (q : QueryBlock) :
    (q.unfiltered s).tree.outline = (Tree.ofList q.source).outline :=
  (Tree.outline_addTree s.estimator _ {}).trans (q.outline_placed s.finisher)

/-- What the conditions of the tree read is kept while they get their places, if final forms read the same
tables. At the root a condition may read anything, since there all tables of the block are. -/
theorem within_placed {fin : Finisher} {q : QueryBlock} {role : Role} (hrole : role ≠ .lookup)
    (hfin : fin.KeepsTables) (h : (Tree.ofList q.source).Within (Tree.ofList q.source).tables role) :
    (q.placed fin).tree.Within (Tree.ofList q.source).tables role := by
  have hjoined : q.joined.Within (Tree.ofList q.source).tables role :=
    Tree.within_pushDownJoins hrole (Tree.within_simplifyConds h)
  have hpushed : q.pushed.1.Within (Tree.ofList q.source).tables role :=
    Tree.within_pushDownAll hrole false hjoined fun _ c _ i _ hi =>
      Tree.tables_of_outline q.outline_joined ▸ hi
  exact Tree.within_divideKeys (Tree.within_recordUsedTables (Tree.within_finishConds hfin hpushed))

theorem within_unfiltered {s : Settings} {q : QueryBlock} {role : Role} (hrole : role ≠ .lookup)
    (hfin : s.finisher.KeepsTables)
    (h : (Tree.ofList q.source).Within (Tree.ofList q.source).tables role) :
    (q.unfiltered s).tree.Within (Tree.ofList q.source).tables role :=
  Tree.within_addTree s.estimator (within_placed hrole hfin h)

/-! ### The numbers of the tables -/

theorem le_foldl_max (is : List Nat) (n : Nat) : n ≤ is.foldl max n ∧ ∀ i ∈ is, i ≤ is.foldl max n := by
  induction is generalizing n with
  | nil => exact ⟨Nat.le_refl n, nofun⟩
  | cons j is ih =>
    obtain ⟨hinit, hall⟩ := ih (max n j)
    refine ⟨Nat.le_trans (Nat.le_max_left n j) hinit, fun i hi => ?_⟩
    rcases List.mem_cons.1 hi with rfl | hi
    · exact Nat.le_trans (Nat.le_max_right n i) hinit
    · exact hall i hi

/-- Tables that are not too many have small numbers. -/
theorem numbers_lt {s : Settings} {q : QueryBlock} (h : q.tableCount ≤ s.tableLimit) :
    ∀ i ∈ q.source.tables.map Table.number, i < 64 := by
  intro i hi
  obtain ⟨t, ht, rfl⟩ := List.mem_map.1 hi
  have hcount : t.number + 1 ≤ q.tableCount :=
    (le_foldl_max _ 0).2 _ (List.mem_map.2 ⟨t, ht, rfl⟩)
  have hlimit : s.tableLimit ≤ wordBits := Nat.min_le_right _ _
  exact Nat.lt_of_lt_of_le hcount (Nat.le_trans h hlimit)

theorem mem_tables_ofList {s : Settings} {q : QueryBlock} (h : q.tableCount ≤ s.tableLimit) {i : Nat}
    (hi : i ∈ q.source.tables.map Table.number) : i ∈ (Tree.ofList q.source).tables := by
  rw [← Tree.numbers_ofList] at hi
  refine (Tree.mem_tables_iff ?_).2 hi
  rw [Tree.numbers_ofList]
  exact numbers_lt h

/-- Distinct tables can get one node each. -/
theorem fresh_placed {s : Settings} {q : QueryBlock} (h : q.tableCount ≤ s.tableLimit)
    (hdistinct : q.DistinctTables) : Fresh {} (q.placed s.finisher).tree := by
  have hlt := numbers_lt h
  rw [← q.numbers_placed s.finisher] at hlt
  have hnodup : (q.placed s.finisher).tree.numbers.Nodup := by
    rw [numbers_placed]
    exact hdistinct
  exact JoinGraph.fresh_of_separate (Tree.separate_of_nodup hlt hnodup) hlt

/-! ### The graph -/

namespace Planned

variable {s : Settings} {q : QueryBlock} {left filters more : List Predicate} {g : JoinGraph}

theorem tree_eq (h : q.Planned s left filters more g) : g.tree = (q.unfiltered s).tree :=
  h.lookupsAdded.tree_eq

theorem outline_tree (h : q.Planned s left filters more g) :
    g.tree.outline = (Tree.ofList q.source).outline := by
  rw [h.tree_eq, outline_unfiltered]

theorem numbers_tree (h : q.Planned s left filters more g) :
    g.tree.numbers = q.source.tables.map Table.number := by
  rw [Tree.numbers_of_outline h.outline_tree, Tree.numbers_ofList]

/-- The nodes of a set of tables are known before there are predicates. -/
theorem nodeSet_eq (h : q.Planned s left filters more g) (ts : TableSet) :
    g.nodeSet ts = (q.unfiltered s).nodeSet ts := nodesOf_congr h.lookupsAdded.tables_eq ts

theorem nodeOf?_eq (h : q.Planned s left filters more g) (i : Nat) :
    nodeOf? g.nodes i = nodeOf? (q.unfiltered s).nodes i := nodeOf?_congr h.lookupsAdded.tables_eq i

/-- The nodes are the tables of the block, from left to right. -/
theorem numbers_nodes (h : q.Planned s left filters more g) :
    g.nodes.map (·.table.number) = q.source.tables.map Table.number := by
  have htables := congrArg (List.map Table.number) h.lookupsAdded.tables_eq
  rw [List.map_map, List.map_map] at htables
  refine htables.trans (Eq.trans ?_ (q.numbers_placed s.finisher))
  exact (numbers_addTree s.estimator _ {}).trans (List.nil_append _)

/-- A table that has a node is a table of the block. -/
theorem mem_tables_of_mem_numbers (h : q.Planned s left filters more g) {i : Nat}
    (hi : i ∈ g.nodes.map (·.table.number)) : i ∈ (Tree.ofList q.source).tables :=
  mem_tables_ofList h.tableCount_le (h.numbers_nodes ▸ hi)

/-- The nodes and the tree of the graph. -/
theorem added (h : q.Planned s left filters more g) (hdistinct : q.DistinctTables) :
    Added {} (q.unfiltered s).tree (q.assembly s) :=
  added_addTree s.estimator (fresh_placed h.tableCount_le hdistinct)

/-- Every table of the tree is found by its node. -/
theorem placed_tree (h : q.Planned s left filters more g) (hdistinct : q.DistinctTables) :
    g.tree.Placed g.nodes := by
  intro x hx
  rw [h.tree_eq] at hx
  obtain ⟨hlt, v, hv, hnodes, hfound⟩ := (h.added hdistinct).placed x hx
  exact ⟨hlt, v, hv, hnodes, (h.nodeOf?_eq _).trans hfound⟩

theorem exists_nodeOf (h : q.Planned s left filters more g) (hdistinct : q.DistinctTables) {i : Nat}
    (hi : i ∈ g.tree.tables) : ∃ v, nodeOf? g.nodes i = some v := by
  obtain ⟨x, hx, hix⟩ := Tree.mem_tables_leaves.1 hi
  obtain ⟨hlt, v, -, -, hfound⟩ := h.placed_tree hdistinct x hx
  exact ⟨v, (mem_singleton hlt).1 hix ▸ hfound⟩

theorem length_nodes_le (h : q.Planned s left filters more g) (hdistinct : q.DistinctTables) :
    g.nodes.length ≤ 64 := by
  have hroom := (fresh_placed h.tableCount_le hdistinct).room
  rwa [numbers_placed, List.length_nil, Nat.zero_add, ← h.numbers_nodes, List.length_map] at hroom

/-- A set of tables becomes the nodes of its members. -/
theorem mem_nodeSet (h : q.Planned s left filters more g) (hdistinct : q.DistinctTables)
    {ts : TableSet} {v : Nat} : v ∈ g.nodeSet ts ↔ ∃ i ∈ ts, nodeOf? g.nodes i = some v :=
  mem_nodesOf (h.length_nodes_le hdistinct)

end Planned

/-! ### A block -/

/-- `t0 LEFT JOIN t1 ON t0.x = t1.x, t2 WHERE t1.x IS NULL AND t0.x = 1`. The condition on `t1` has to
stay in WHERE, and the join with `t2` has no conditions. -/
def sample : QueryBlock :=
  let table (i : Nat) : FromItem := .table ⟨i, "t"⟩
  let x (i : Nat) : Expr := .column ⟨i, "t", "x", .int⟩
  let outer : FromList := .join (.single (table 0)) (table 1) (some ((x 0).equals (x 1))) true
  { source := .join outer (table 2) none false
    filter := some (.and [.isNull (x 1), (x 0).equals (.literal (.int 1))]) }

theorem exists_build_sample : ∃ g, (sample.build {} none).result = .ok g := by
  have hok : (sample.build {} none).result.isOk = true := by decide +kernel
  exact Except.exists_of_isOk hok

end QueryBlock

end QueryGraph
