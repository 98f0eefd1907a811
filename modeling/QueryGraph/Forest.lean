import QueryGraph.JoinGraph.Assembly
import QueryGraph.Tree.Pushdown

/-!
# Forests

Join trees that are built from their leaves up, one node at a time.

## The model

A forest lists its nodes in the order in which they were made, and the number of a node is its place
in the list. A join names its two sides by their numbers; they were there before it, so their numbers
are smaller. `tree?` reads off the tree below a node, and `record` writes back what the nodes of a
tree carry after a pass over it.

`walk` visits the nodes below a node with a stack of those that are still to be visited, each with a
mark on whether its sides have been put on the stack. It ends although the stack may grow, since the
nodes that come in are smaller than the one that they come from.
-/

namespace QueryGraph

/-- A node of a forest. -/
inductive Entry where
  /-- A table. -/
  | leaf (leaf : Leaf)
  /-- A join of two nodes, given by their numbers. -/
  | join (info : JoinInfo) (left right : Nat)

/-- Nodes of join trees by their numbers. -/
structure Forest where
  /-- The nodes, each at the place of its number. -/
  entries : List Entry := []
  /-- The number of the node that counts as the root. -/
  root : Nat := 0

namespace Forest

/-- The number of nodes. -/
def size (f : Forest) : Nat := f.entries.length

/-- Whether every join was made after its two sides. -/
def Ordered (f : Forest) : Prop :=
  ∀ i info l r, f.entries[i]? = some (Entry.join info l r) → l < i ∧ r < i

/-! ### Reading -/

/-- The tree below a node. -/
def tree? (f : Forest) (i : Nat) : Option Tree :=
  match f.entries[i]? with
  | none => none
  | some (.leaf l) => some (.leaf i l)
  | some (.join info l r) =>
    if _h : l < i ∧ r < i then
      match tree? f l, tree? f r with
      | some left, some right => some (.join i info left right)
      | _, _ => none
    else none
  termination_by i
  decreasing_by
    · exact _h.1
    · exact _h.2

/-- The trees below all nodes, in the order of the nodes. -/
def trees (f : Forest) : List Tree := (List.range f.size).filterMap f.tree?

/-- The two sides of a node, if it is a join. -/
def sides? (f : Forest) (i : Nat) : Option (Nat × Nat) :=
  match f.entries[i]? with
  | some (.join _ l r) => some (l, r)
  | _ => none

/-- What a node carries, if it is a table. -/
def leaf? (f : Forest) (i : Nat) : Option Leaf :=
  match f.entries[i]? with
  | some (.leaf l) => some l
  | _ => none

/-! ### Growing -/

/-- The forest with one more node, which becomes the root. -/
def add (f : Forest) (e : Entry) : Forest := ⟨f.entries ++ [e], f.entries.length⟩

/-- The forest with one more table. -/
def addTable (f : Forest) (t : Table) : Forest := f.add (.leaf { table := t })

/-- The forest with one more join, if its two sides are there. -/
def addJoin? (f : Forest) (kind : JoinKind) (left right : Nat) (conds : List Expr) :
    Option Forest :=
  if left < f.size ∧ right < f.size
  then some (f.add (.join { kind := kind, conds := conds } left right)) else none

/-- What a forest keeps of the root of a tree. -/
def entryOf : Tree → Entry
  | .leaf _ l => .leaf l
  | .join _ info l r => .join info l.id r.id

/-- The forest of a tree whose nodes are numbered in postorder from zero on. -/
def ofTree (t : Tree) : Forest := ⟨t.subtrees.map entryOf, t.id⟩

/-! ### Passes -/

/-- The forest with what the nodes of a tree carry. -/
def record (f : Forest) (t : Tree) : Forest :=
  { f with entries := t.subtrees.foldl (fun es s => es.set s.id (entryOf s)) f.entries }

/-- The forest after a pass over the tree below a node, with what else the pass gives. None if the
node does not exist. -/
def pass? {α : Type} (f : Forest) (i : Nat) (p : Tree → Reported (Tree × α)) :
    Option (Reported (Forest × α)) :=
  (f.tree? i).map fun t => do
    let (t, a) ← p t
    return (f.record t, a)

/-- The forest with every condition of a list pushed down from a node, and those that remain. Without
conditions the node is not looked at, so it need not exist. -/
def pushDownAll? (f : Forest) (own : Bool) (conds : List Expr) (i : Nat) :
    Option (Reported (Forest × List Expr)) :=
  if conds.isEmpty then some (pure (f, [])) else f.pass? i (Tree.pushDownAll own conds)

/-! ### Walking -/

/-- The weight of a stack: how much there is still to do. -/
def weight : List (Nat × Bool) → Nat
  | [] => 0
  | (_, true) :: stack => 1 + weight stack
  | (i, false) :: stack => 3 ^ (i + 1) + weight stack

/-- The nodes visited from a stack on. A node is put back with a mark below its two sides, and is
visited when it comes up again. -/
def walkFrom (f : Forest) : List (Nat × Bool) → List Nat
  | [] => []
  | (i, true) :: stack => i :: walkFrom f stack
  | (i, false) :: stack => match f.sides? i with
    | none => walkFrom f ((i, true) :: stack)
    | some (l, r) =>
      if _h : l < i ∧ r < i then walkFrom f ((l, false) :: (r, false) :: (i, true) :: stack)
      else walkFrom f ((i, true) :: stack)
  termination_by stack => weight stack
  decreasing_by
    all_goals simp only [weight]
    · omega
    · have : 0 < 3 ^ i := Nat.pow_pos (by omega)
      rw [Nat.pow_succ]
      omega
    · have hl : 3 ^ (l + 1) ≤ 3 ^ i := Nat.pow_le_pow_right (by omega) _h.1
      have hr : 3 ^ (r + 1) ≤ 3 ^ i := Nat.pow_le_pow_right (by omega) _h.2
      have : 3 ^ 1 ≤ 3 ^ i := Nat.pow_le_pow_right (by omega) (by omega)
      rw [Nat.pow_succ 3 i]
      omega
    · have : 0 < 3 ^ i := Nat.pow_pos (by omega)
      rw [Nat.pow_succ]
      omega

/-- The nodes below a node, each after the two sides of it. -/
def walk (f : Forest) (i : Nat) : List Nat := walkFrom f [(i, false)]

/-- The tables below a node with their numbers, from left to right. -/
def leavesBelow (f : Forest) (i : Nat) : List (Nat × Leaf) :=
  (f.walk i).filterMap fun j => (f.leaf? j).map (j, ·)

/-- The joins below a node, each after those on its two sides. -/
def joinsBelow (f : Forest) (i : Nat) : List Nat :=
  (f.walk i).filter fun j => (f.sides? j).isSome

/-- The operators of two nodes. Leaves have none, and the second node is looked at only if the first
is a join. None at the outside if a node that is looked at does not exist. -/
def operators? (f : Forest) (a b : Nat) : Option (Option (Operator × Operator)) := do
  match (← f.tree? a).operator? with
  | none => return none
  | some p => match (← f.tree? b).operator? with
    | none => return none
    | some q => return some (p, q)

end Forest

/-- The node with the given nodes of the graph below it, and those that its conditions read. -/
def Tree.setNodes (nodes used : NodeSet) : Tree → Tree
  | .leaf i l => .leaf i { l with nodes := nodes }
  | .join i info l r => .join i { info with nodes := nodes, usedNodes := used } l r

/-- The join at the root with the conflict rules that are left, and its hyperedge, for conditions
that read the nodes `used`. -/
def Tree.detectAtRoot (used : NodeSet) : Tree → Reported (Tree × Option Hyperedge)
  | .leaf i l => pure (.leaf i l, none)
  | .join i info l r => do
    let (edge, rules) ← JoinNode.detect ⟨i, info, l, r⟩ used
    return (.join i { info with rules := rules } l r, some edge)

end QueryGraph
