import QueryGraph.JoinGraph.Basic
import QueryGraph.Selectivity
import QueryGraph.Text.Digraph
import QueryGraph.Text.Grid

/-!
# Pictures of the graph

The hypergraph as a directed graph that can be drawn, and the predicates as a table.

A simple edge is an arrow. A complex edge goes through a point: an arrow leads into it from every
node on the left, and one out of it to every node on the right, of which the first has the label.

Drawing itself is left to others. `Renderers` are whatever turns a table or a directed graph into a text.
Nothing is asked of them, and nothing but the trace has their texts in it.
-/

namespace QueryGraph

/-- Ways to draw tables and directed graphs. -/
structure Renderers where
  /-- The text of a table with the given titles and rows. -/
  table : List String → List (List String) → String
  /-- The text of a directed graph. -/
  graph : Text.Digraph → String

/-- Tables with borders, and graphs as drawing programs read them. What is taken if no others are given. -/
def Renderers.plain : Renderers := ⟨Text.Grid.text, Text.Digraph.text⟩

namespace JoinGraph

/-- The label of the edge of a join: the label of the join and its conflict rules. -/
def edgeLabel (g : JoinGraph) (j : JoinEdge) : String :=
  match g.tree.find? j.join with
  | some (.join i info l r) =>
    (Tree.join i info l r).label ++ String.join (info.rules.map fun rule =>
      " [conflict rule: \x7b" ++ g.names rule.activates ++ "\x7d -> \x7b" ++
        g.names rule.requires ++ "\x7d]")
  | some t => t.label
  | none => ""

/-- A node of the drawing. One with nothing written on it is a point. -/
def drawnNode (label : String) : Text.Node where
  label := label
  attributes := if label.isEmpty then "shape = circle, width = .001, height = .001" else ""

/-- The drawing with an arrow added. It has no head if it ends at a point. -/
def drawArrow (d : Text.Digraph) (source target : Nat) (label : String) : Text.Digraph :=
  let atPoint := d.nodes[target]?.any fun n => n.label.isEmpty
  { d with arrows := d.arrows ++ [⟨source, target, label, if atPoint then "arrowhead = none" else ""⟩] }

/-- The drawing with an edge added. -/
def drawEdge (d : Text.Digraph) (e : Hyperedge) (label : String) : Text.Digraph :=
  if e.isSimple then
    (e.left.toList.zip e.right.toList).foldl (fun d (v, w) => drawArrow d v w label) d
  else
    let point := d.nodes.length
    let d := { d with nodes := d.nodes ++ [drawnNode ""] }
    let d := e.left.toList.foldl (fun d v => drawArrow d v point "") d
    e.right.toList.zipIdx.foldl (fun d (w, i) => drawArrow d point w (if i = 0 then label else "")) d

/-- The drawing of the graph. -/
def drawing (g : JoinGraph) : Text.Digraph :=
  (g.shape.addedEdges.zip g.joins).foldl (fun d (e, j) => drawEdge d e (g.edgeLabel j))
    ⟨g.nodes.map fun n => drawnNode n.table.name, []⟩

/-- The table of the predicates. -/
def predicateTable (r : Renderers) (g : JoinGraph) : String :=
  r.table ["#", "Condition", "TES", "Selectivity"]
    (g.predicates.mapIdx fun i p =>
      [ toString i ++ (if i < g.numFilters then "" else " (sargable)"),
        p.cond.text,
        g.names p.eligibility,
        Estimator.text p.selectivity ])

end JoinGraph

end QueryGraph
