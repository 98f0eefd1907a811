import QueryGraph.BitSet.Basic

/-!
# Hypergraphs

Nodes and the edges between sets of them, in the form in which an enumeration of join orders walks
along them.

## The model

An edge joins two sets of nodes. It is listed twice in a row, once in each direction, so that it can
always be followed from left to right. Every node knows the edges that start at it: the simple ones,
between single nodes, and the complex ones, whose left side it belongs to.
-/

namespace QueryGraph

/-- An edge from one set of nodes to another. -/
structure Hyperedge where
  /-- The nodes where the edge starts. -/
  left : NodeSet
  /-- The nodes where the edge ends. -/
  right : NodeSet
  deriving DecidableEq, Inhabited

namespace Hyperedge

/-- Whether the edge joins two single nodes. -/
def isSimple (e : Hyperedge) : Bool := e.left.isSingleton && e.right.isSingleton

/-- The edge in the other direction. -/
def swap (e : Hyperedge) : Hyperedge := ⟨e.right, e.left⟩

end Hyperedge

/-- What a node knows of the edges. Edges are given by their place in the list of edges. -/
structure Adjacency where
  /-- The nodes at the other ends of the simple edges. -/
  neighborhood : NodeSet := ∅
  /-- The simple edges that start at this node. -/
  simple : List Nat := []
  /-- The other edges that start at this node, among others. -/
  complex : List Nat := []
  deriving DecidableEq, Inhabited

namespace Adjacency

/-- The node with one more simple edge, listed at place `i`, to other nodes. -/
def addSimple (ends : NodeSet) (i : Nat) (a : Adjacency) : Adjacency :=
  { a with neighborhood := a.neighborhood ∪ ends, simple := a.simple ++ [i] }

/-- The node with one more complex edge, listed at place `i`. -/
def addComplex (i : Nat) (a : Adjacency) : Adjacency := { a with complex := a.complex ++ [i] }

end Adjacency

/-- A hypergraph. -/
structure Hypergraph where
  /-- The nodes, each at the place of its number. -/
  nodes : List Adjacency := []
  /-- The edges, each in both directions. -/
  edges : List Hyperedge := []
  deriving DecidableEq, Inhabited

namespace Hypergraph

/-- The graph with one more node. -/
def addNode (g : Hypergraph) : Hypergraph := { g with nodes := g.nodes ++ [{}] }

/-- The nodes when those of a set have got one more complex edge, one after the other. -/
def attachComplex (starts : NodeSet) (i : Nat) (nodes : List Adjacency) : List Adjacency :=
  starts.toList.foldl (fun nodes v => nodes.modify v (Adjacency.addComplex i)) nodes

/-- The nodes when an edge has been listed at place `i`, and the other direction at the next place. -/
def attach (e : Hyperedge) (i : Nat) (nodes : List Adjacency) : List Adjacency :=
  if e.isSimple then
    (nodes.modify e.left.least (Adjacency.addSimple e.right i)).modify e.right.least
      (Adjacency.addSimple e.left (i + 1))
  else attachComplex e.right (i + 1) (attachComplex e.left i nodes)

/-- The graph with one more edge. -/
def addEdge (g : Hypergraph) (e : Hyperedge) : Hypergraph where
  nodes := attach e g.edges.length g.nodes
  edges := g.edges ++ [e, e.swap]

/-- Whether all ends of the edge are nodes of the graph. -/
def accepts (g : Hypergraph) (e : Hyperedge) : Bool :=
  (e.left ∪ e.right).toList.all (· < g.nodes.length)

/-- The graph with one more edge, if all its ends are there. -/
def addEdge? (g : Hypergraph) (e : Hyperedge) : Option Hypergraph :=
  if g.accepts e then some (g.addEdge e) else none

/-- Every edge in the direction in which it was added. -/
def addedEdges (g : Hypergraph) : List Hyperedge := everyOther g.edges
where
  /-- The first, the third and so on. -/
  everyOther : List Hyperedge → List Hyperedge
    | e :: _ :: es => e :: everyOther es
    | es => es

end Hypergraph

end QueryGraph
