import QueryGraph.Hypergraph
import QueryGraph.Tree.Basic

/-!
# Join graphs

The hypergraph of a query block together with what its nodes and edges stand for.

## The model

The node numbered `v` is the table at place `v` of `nodes`, and the join at place `i` of `joins` is
the edge at the places `2 * i` and `2 * i + 1` of the hypergraph. Predicates are conditions that are
no join conditions; they are known by their places in `predicates`, of which the first `numFilters`
act as filters and the rest only serve index lookups.
-/

namespace QueryGraph

/-- An equality of a column with something else that an index lookup on the column can evaluate. -/
structure Lookup where
  /-- The place of the condition among the predicates. -/
  predicate : Nat
  /-- The column. -/
  field : Column
  /-- What the column is equal to. -/
  other : Expr

/-- A table as a node of the graph. -/
structure TableNode where
  /-- The table. -/
  table : Table
  /-- Join conditions that an index lookup on the table may be able to evaluate. -/
  candidates : List Expr
  /-- The index lookups that have been found. -/
  lookups : List Lookup := []

/-- A join as an edge of the graph. -/
structure JoinEdge where
  /-- The number of the join in the tree. -/
  join : Nat
  /-- The fraction of pairs of rows that the join keeps. -/
  selectivity : Double

/-- A condition that is applied once all its nodes are joined. -/
structure Predicate where
  /-- The condition. -/
  cond : Expr
  /-- The nodes to be joined before. -/
  eligibility : NodeSet
  /-- The fraction of rows that the condition lets through. -/
  selectivity : Double

/-- The node that the table of the given number became. The numbers of the tables of a block are distinct, so
there is at most one. -/
def nodeOf? (nodes : List TableNode) (table : Nat) : Option Nat :=
  nodes.findIdx? fun n => n.table.number = table

/-- The nodes that a set of tables became. Tables that are no nodes are left out. -/
def nodesOf (nodes : List TableNode) (ts : TableSet) : NodeSet :=
  .ofList (ts.toList.filterMap (nodeOf? nodes))

/-- The join graph of a query block. -/
structure JoinGraph where
  /-- The nodes and edges by themselves. -/
  shape : Hypergraph
  /-- The tables behind the nodes. -/
  nodes : List TableNode
  /-- The joins behind the edges. -/
  joins : List JoinEdge
  /-- The tree that the graph was made of. -/
  tree : Tree
  /-- The predicates: those left in WHERE, then filters of tables, then those for lookups. -/
  predicates : List Predicate := []
  /-- How many of the predicates come from WHERE and from filters of tables. -/
  numFilters : Nat := 0
  /-- The join conditions that are predicates for lookups, with their places. -/
  lookupPredicates : List (Expr × Nat) := []

namespace JoinGraph

/-- The nodes that a set of tables became. -/
def nodeSet (g : JoinGraph) (ts : TableSet) : NodeSet := nodesOf g.nodes ts

/-- The names of a set of nodes, separated by commas. -/
def names (g : JoinGraph) (ns : NodeSet) : String :=
  ",".intercalate (ns.toList.filterMap fun v => (g.nodes[v]?).map fun n => n.table.name)

/-- Every table with its node, ordered by the number of the table. -/
def tableNodes (g : JoinGraph) : List (Nat × Nat) :=
  (g.nodes.mapIdx fun v n => (n.table.number, v)).mergeSort fun p q => p.1 ≤ q.1

/-- The graph with one more predicate. -/
def addPredicate (g : JoinGraph) (p : Predicate) : JoinGraph :=
  { g with predicates := g.predicates ++ [p] }

/-- The graph in which all predicates so far count as filters. -/
def countFilters (g : JoinGraph) : JoinGraph := { g with numFilters := g.predicates.length }

/-- The graph with other candidates for index lookups at a node, if the node is there. -/
def setCandidates? (g : JoinGraph) (v : Nat) (conds : List Expr) : Option JoinGraph :=
  if v < g.nodes.length
  then some { g with nodes := g.nodes.modify v fun n => { n with candidates := conds } } else none

/-- The place of a join condition among the predicates for lookups. -/
def lookupPredicate? (g : JoinGraph) (c : Expr) : Option Nat :=
  (g.lookupPredicates.find? fun p => p.1.same c).map Prod.snd

end JoinGraph

end QueryGraph
