import QueryGraph.Conflict.Detection
import QueryGraph.JoinGraph.Basic
import QueryGraph.Selectivity

/-!
# Assembling the graph

The graph of a join tree: a node for every table and an edge for every join.

The tree is walked in postorder, so nodes are numbered from left to right, and the nodes below a join
are known when its edge is made. The tree comes back with the nodes and the conflict rules of its
joins.
-/

namespace QueryGraph

/-- The part of a graph that is made from a part of a tree. -/
structure Assembly where
  /-- The nodes and edges by themselves. -/
  shape : Hypergraph := {}
  /-- The tables behind the nodes. -/
  nodes : List TableNode := []
  /-- The joins behind the edges. -/
  joins : List JoinEdge := []

namespace Assembly

/-- The graph with the node of a table. -/
def addTable (a : Assembly) (l : Leaf) : Assembly where
  shape := a.shape.addNode
  nodes := a.nodes ++ [{ table := l.table, candidates := l.lookups }]
  joins := a.joins

/-- The graph with the edge of a join. -/
def addJoin (a : Assembly) (e : Hyperedge) (j : JoinEdge) : Assembly where
  shape := a.shape.addEdge e
  nodes := a.nodes
  joins := a.joins ++ [j]

/-- The selectivity of a join: its conditions are taken to be independent. -/
def joinSelectivity (est : Estimator) (conds : List Expr) : Double :=
  conds.foldl (fun s c => s * est.estimate c) .one

/-- Estimates the selectivity of a join, condition by condition. -/
def estimateJoin (est : Estimator) (label : String) (conds : List Expr) : Traced Double := do
  Traced.write ("Selectivity of join " ++ label ++ ":\n")
  let s ← conds.foldlM (fun s c => do return s * (← est.run c)) .one
  if conds.length > 1 then Traced.write ("  - total: " ++ Estimator.text s ++ "\n")
  return s

@[simp] theorem value_estimateJoin (est : Estimator) (label : String) (conds : List Expr) :
    (estimateJoin est label conds).value = joinSelectivity est conds := by
  have htotal : (conds.foldlM (fun s c => do return s * (← est.run c)) .one : Traced Double).value =
      joinSelectivity est conds := by
    simp only [Traced.value_foldlM, Traced.value_bind, Traced.value_pure]
    rfl
  unfold estimateJoin
  dsimp only
  split <;> simp only [Traced.value_bind, Traced.value_pure, htotal]

/-- The tree with its nodes and rules, and the graph with the nodes and edges of the tree added. -/
def addTree (est : Estimator) : Tree → Assembly → Traced (Tree × Assembly)
  | .leaf i l, a => pure (.leaf i { l with nodes := {a.nodes.length} }, a.addTable l)
  | .join i info l r, a => do
    let (l, a) ← addTree est l a
    let (r, a) ← addTree est r a
    let info := { info with
      nodes := l.nodes ∪ r.nodes
      usedNodes := nodesOf a.nodes info.usedTables }
    let node : JoinNode := ⟨i, info, l, r⟩
    let (edge, rules) ←
      Traced.lift (node.detect (nodesOf a.nodes (Expr.tablesOf info.allConds)))
    let tree := Tree.join i { info with rules := rules } l r
    let selectivity ← estimateJoin est tree.label info.allConds
    return (tree, a.addJoin edge ⟨i, selectivity⟩)

/-- The join of two trees that have been added, with its nodes. -/
def joinNode (a : Assembly) (i : Nat) (info : JoinInfo) (l r : Tree) : JoinNode :=
  ⟨i, { info with nodes := l.nodes ∪ r.nodes, usedNodes := nodesOf a.nodes info.usedTables }, l, r⟩

/-- The tree of the join with its rules, and the graph with its edge. -/
def joined (est : Estimator) (i : Nat) (info : JoinInfo) (l r : Tree) (a : Assembly) :
    Tree × Assembly :=
  let n := a.joinNode i info l r
  let detected := n.hyperedge (nodesOf a.nodes (Expr.tablesOf info.allConds))
  (.join i { n.info with rules := detected.2 } l r,
    a.addJoin detected.1 ⟨i, joinSelectivity est info.allConds⟩)

theorem value_addTree_join (est : Estimator) (i : Nat) (info : JoinInfo) (l r : Tree) (a : Assembly) :
    (addTree est (.join i info l r) a).value =
      let left := (addTree est l a).value
      let right := (addTree est r left.2).value
      joined est i info left.1 right.1 right.2 := by
  simp only [addTree, Traced.value_bind, Traced.value_lift, Traced.value_pure, value_estimateJoin]
  rfl

end Assembly

/-- The graph of a join tree, without predicates. -/
def JoinGraph.ofTree (est : Estimator) (t : Tree) : Traced JoinGraph :=
  (fun (tree, a) => { shape := a.shape, nodes := a.nodes, joins := a.joins, tree := tree }) <$>
    Assembly.addTree est t {}

end QueryGraph
