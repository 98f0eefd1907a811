import QueryGraph.Conflict.Rule
import QueryGraph.Expr.Tables
import QueryGraph.FromList
import QueryGraph.JoinKind

/-!
# Join trees

A query block as a binary tree: tables at the leaves, joins inside, conditions on both.

## The model

Every node carries a number, its `id`, by which the outside refers to it. The passes over a tree
change what a node carries and neither its number nor the form of the tree. The tables below a node
are not stored but read off its leaves.

`Tree.ofList` builds the tree of a FROM list: each item is joined to everything before it, so lists
become spines to the left and nested lists subtrees on the right. Nodes are numbered in postorder.
-/

namespace QueryGraph

/-- What a leaf carries. -/
structure Leaf where
  /-- The table. -/
  table : Table
  /-- The node that the table became, once the graph is made. -/
  nodes : NodeSet := ∅
  /-- Join conditions that an index lookup on the table can evaluate. -/
  lookups : List Expr := []
  /-- Conditions on this table alone. -/
  filters : List Expr := []

/-- What a join carries. -/
structure JoinInfo where
  /-- The kind of the join. -/
  kind : JoinKind
  /-- The join conditions, apart from those that are hash keys. -/
  conds : List Expr
  /-- The join conditions that are hash keys. -/
  keys : List Expr := []
  /-- The tables that the conditions read, as recorded before hash keys are told apart. -/
  usedTables : TableSet := ∅
  /-- The nodes of these tables. -/
  usedNodes : NodeSet := ∅
  /-- The nodes below the join. -/
  nodes : NodeSet := ∅
  /-- The conflict rules that are checked when the join is applied. -/
  rules : List ConflictRule := []

/-- All conditions of a join, hash keys first. -/
def JoinInfo.allConds (info : JoinInfo) : List Expr := info.keys ++ info.conds

/-- A binary join tree. -/
inductive Tree where
  /-- A table. -/
  | leaf (id : Nat) (leaf : Leaf)
  /-- A join of two trees. -/
  | join (id : Nat) (info : JoinInfo) (left right : Tree)

/-- A join in a tree together with its two sides. -/
structure JoinNode where
  /-- The number of the node. -/
  id : Nat
  /-- What the join carries. -/
  info : JoinInfo
  /-- The left side. -/
  left : Tree
  /-- The right side. -/
  right : Tree

namespace Tree

/-- The number of the node. -/
def id : Tree → Nat
  | leaf i _ => i
  | join i _ _ _ => i

/-- The tables below the node. -/
def tables : Tree → TableSet
  | leaf _ l => {l.table.number}
  | join _ _ l r => l.tables ∪ r.tables

/-- The nodes of the graph that the tables below became. -/
def nodes : Tree → NodeSet
  | leaf _ l => l.nodes
  | join _ info _ _ => info.nodes

/-- How many nodes the tree has. -/
def size : Tree → Nat
  | leaf _ _ => 1
  | join _ _ l r => l.size + r.size + 1

/-- The subtrees in postorder: left side, right side, the tree itself. -/
def subtrees : Tree → List Tree
  | leaf i l => [leaf i l]
  | join i info l r => l.subtrees ++ r.subtrees ++ [join i info l r]

/-- The numbers of the nodes in postorder. -/
def postorder (t : Tree) : List Nat := t.subtrees.map id

/-- The leaves from left to right, with their numbers. -/
def leaves : Tree → List (Nat × Leaf)
  | leaf i l => [(i, l)]
  | join _ _ l r => l.leaves ++ r.leaves

/-- The filters of all tables, from left to right. -/
def filters (t : Tree) : List Expr := t.leaves.flatMap fun l => l.2.filters

/-- The joins in postorder. -/
def joins : Tree → List JoinNode
  | leaf _ _ => []
  | join i info l r => l.joins ++ r.joins ++ [⟨i, info, l, r⟩]

/-- The subtree with the given number. -/
def find? (i : Nat) (t : Tree) : Option Tree := t.subtrees.find? fun s => s.id = i

/-! ### From a FROM list -/

/-- The kind of join for an item of a FROM list: subqueries decide for themselves. -/
def joinKind (outer : Bool) : FromItem → JoinKind
  | .nest .semi _ => .semi
  | .nest .anti _ => .anti
  | _ => if outer then .left else .inner

mutual

/-- The tree of a FROM list, with its nodes numbered from `start` on. -/
def ofListFrom (start : Nat) : FromList → Tree
  | .single item => ofItemFrom start item
  | .join before item cond outer =>
    let left := ofListFrom start before
    let right := ofItemFrom (start + left.size) item
    join (start + left.size + right.size)
      { kind := joinKind outer item, conds := Expr.conjunctsOf cond } left right

/-- The tree of an item of a FROM list. -/
def ofItemFrom (start : Nat) : FromItem → Tree
  | .table t => leaf start { table := t }
  | .nest _ list => ofListFrom start list

end

/-- The tree of a FROM list. -/
def ofList (list : FromList) : Tree := ofListFrom 0 list

/-! ### Texts -/

/-- A short name for a node: the name of a table, or the symbol and the conditions of a join. An
inner join without conditions is a product. -/
def label : Tree → String
  | leaf _ l => l.table.name
  | join _ info _ _ =>
    let conds := Expr.joinedText info.allConds
    match info.kind, info.allConds.isEmpty with
    | .inner, true => "×"
    | .inner, false => conds
    | kind, true => kind.symbol
    | kind, false => kind.symbol ++ " " ++ conds

/-- What the picture of a tree says of the conditions of a join. -/
def condsText (info : JoinInfo) : String :=
  match info.keys.isEmpty, info.conds.isEmpty with
  | true, true => " (no join conditions)"
  | false, true => " (equijoin condition = " ++ Expr.listText info.keys ++ ")"
  | true, false => " (extra join condition = " ++ Expr.listText info.conds ++ ")"
  | false, false =>
    " (equijoin condition = " ++ Expr.listText info.keys ++ ", extra = " ++
      Expr.listText info.conds ++ ")"

/-- The tree with one line for each node, sides indented below their join. -/
def print (level : Nat) : Tree → String
  | leaf _ l => indent level ++ "* " ++ l.table.name ++ "\n"
  | join _ info l r =>
    indent level ++ "* " ++ info.kind.name ++ condsText info ++ "\n" ++
      l.print (level + 1) ++ r.print (level + 1)
where
  /-- Two blanks for each level. -/
  indent (level : Nat) : String := String.ofList (List.replicate (2 * level) ' ')

end Tree

end QueryGraph
