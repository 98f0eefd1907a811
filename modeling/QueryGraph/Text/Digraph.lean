/-!
# Directed graphs as text

Directed graphs that are to be drawn, and one way to write them down as drawing programs read them.

Nodes are numbered in the order in which they are listed. What is written on a node or an arrow stands
before its other attributes, which are given as they are.
-/

namespace QueryGraph.Text

/-- A node of a drawing. -/
structure Node where
  /-- What is written on the node. -/
  label : String
  /-- How it is drawn. -/
  attributes : String

/-- An arrow between two nodes, which are given by their numbers. -/
structure Arrow where
  /-- Where the arrow starts. -/
  source : Nat
  /-- Where it ends. -/
  target : Nat
  /-- What is written on it. -/
  label : String
  /-- How it is drawn. -/
  attributes : String

/-- A directed graph that can be drawn. -/
structure Digraph where
  /-- The nodes. -/
  nodes : List Node
  /-- The arrows. -/
  arrows : List Arrow

namespace Digraph

/-- A label as it stands between quotes: quotes and backslashes are marked by a backslash, and a
line ends with the mark for a new line, aligned to the left. -/
def quoted (s : String) : String :=
  String.ofList (s.toList.flatMap fun c =>
    if c = '"' || c = '\\' then ['\\', c] else if c = '\n' then ['\\', 'l'] else [c])

/-- A line that declares something with a label and further attributes. -/
def line (subject label attributes : String) : String :=
  "    " ++ subject ++ " [ label = \"" ++ quoted label ++ "\" " ++ attributes ++ "]\n"

/-- The line of a node. -/
def nodeLine (i : Nat) (n : Node) : String := line (toString i) n.label n.attributes

/-- The line of an arrow. -/
def arrowLine (a : Arrow) : String :=
  line (toString a.source ++ " -> " ++ toString a.target) a.label a.attributes

/-- The text of the graph: all nodes, then all arrows, one to a line. -/
def text (g : Digraph) : String :=
  "digraph \x7b\n" ++ String.join (g.nodes.mapIdx nodeLine) ++
    String.join (g.arrows.map arrowLine) ++ "\x7d\n"

end Digraph

end QueryGraph.Text
