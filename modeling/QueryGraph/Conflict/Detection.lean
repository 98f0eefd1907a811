import QueryGraph.Hypergraph
import QueryGraph.Report
import QueryGraph.Tree.Reordering

/-!
# Conflict detection

The hyperedge of a join: which nodes have to be on either side before the join may be applied.

## The model

A join is compared with every join below it. Where the two may not be exchanged, a conflict rule
keeps them from it: nodes from one side of the lower join wait for those of the other side that the
lower join's conditions need. The rules are then folded into the set of nodes that the join waits
for, starting from those that its own conditions read. What is left of them stays on the join.

A set that reaches neither side, as that of a product, is widened by all nodes of a side, so that
both ends of the edge have a node.
-/

namespace QueryGraph

namespace JoinNode

/-- The rules that keep the join `n` above the join `below` on its left side. -/
def rulesFromLeft (n below : JoinNode) : List ConflictRule :=
  let used := below.info.usedNodes
  let (left, right) := (below.left.nodes, below.right.nodes)
  (if below.operator.associative n.operator then []
    else [⟨right, BitSet.wantedOrAll used left⟩]) ++
  (if below.operator.leftAsscom n.operator then []
    else [⟨left, BitSet.wantedOrAll used right⟩])

/-- The rules that keep the join `n` above the join `below` on its right side. -/
def rulesFromRight (n below : JoinNode) : List ConflictRule :=
  let used := below.info.usedNodes
  let (left, right) := (below.left.nodes, below.right.nodes)
  (if n.operator.associative below.operator then []
    else [⟨left, BitSet.wantedOrAll used right⟩]) ++
  (if n.operator.rightAsscom below.operator then []
    else [⟨right, BitSet.wantedOrAll used left⟩])

/-- The conflict rules of a join, from all joins below it. -/
def conflictRules (n : JoinNode) : List ConflictRule :=
  n.left.joins.flatMap n.rulesFromLeft ++ n.right.joins.flatMap n.rulesFromRight

end JoinNode

/-- The set of nodes and the rules that are left, where the set is first widened by all nodes of a
side if it has none of them. -/
def ConflictRule.widen (side : NodeSet) (state : NodeSet × List ConflictRule) :
    NodeSet × List ConflictRule :=
  if state.1.overlaps side then state else saturate state.2 (state.1 ∪ side)

/-- The nodes that a join waits for, of which its own conditions read `used`, and the rules that are
left to be checked. -/
def ConflictRule.fold (rules : List ConflictRule) (used left right : NodeSet) :
    NodeSet × List ConflictRule :=
  widen right (widen left (saturate rules used))

namespace JoinNode

/-- The hyperedge of a join whose conditions read the nodes `used`, and the rules that are left. -/
def hyperedge (n : JoinNode) (used : NodeSet) : Hyperedge × List ConflictRule :=
  let (left, right) := (n.left.nodes, n.right.nodes)
  let (waiting, rules) := ConflictRule.fold n.conflictRules used left right
  (⟨waiting ∩ left, waiting ∩ right⟩, rules)

/-- The hyperedge of a join and the rules that are left, with all its rules reported. -/
def detect (n : JoinNode) (used : NodeSet) : Reported (Hyperedge × List ConflictRule) := do
  let label := (Tree.join n.id n.info n.left n.right).label
  n.conflictRules.forM fun r => Reported.event (.conflict label r)
  return n.hyperedge used

end JoinNode

end QueryGraph
