import QueryGraph.Tree.Basic

/-!
# Reordering two joins

When two joins may change places.

## The model

Of a join only its kind, the tables of its two sides and its conditions matter; together they are an
`Operator`. For two operators `a` and `b` and inputs `t1`, `t2` and `t3` there are three exchanges:

    associative   (t1 a t2) b t3  =  t1 a (t2 b t3)
    leftAsscom    (t1 a t2) b t3  =  (t1 b t3) a t2
    rightAsscom   t1 a (t2 b t3)  =  t2 b (t1 a t3)

Whether an exchange keeps the result depends on the kinds, and for outer joins on whether their
conditions reject rows that have been padded with NULL. The two joins need not be parent and child,
so a side is given with all its tables and not only with those next to the other join.
-/

namespace QueryGraph

/-- What reordering has to know of a join. -/
structure Operator where
  /-- The kind of the join. -/
  kind : JoinKind
  /-- The tables of the left side. -/
  left : TableSet
  /-- The tables of the right side. -/
  right : TableSet
  /-- The conditions. -/
  conds : List Expr

namespace Operator

/-- Whether some condition is false or unknown on rows in which all the given tables are NULL. -/
def rejectsNull (o : Operator) (ts : TableSet) : Bool :=
  o.conds.any fun c => ts.overlaps c.rejected

/-- Whether `(t1 a t2) b t3` is `t1 a (t2 b t3)`. -/
def associative (a b : Operator) : Bool :=
  match a.kind, b.kind with
  | .left, .left => b.rejectsNull b.left
  | .full, .left => b.rejectsNull b.left
  | .full, .full => a.rejectsNull a.right && b.rejectsNull b.left
  | .inner, .full => false
  | .inner, _ => true
  | _, _ => false

/-- Whether `(t1 a t2) b t3` is `(t1 b t3) a t2`. -/
def leftAsscom (a b : Operator) : Bool :=
  match a.kind, b.kind with
  | .left, .full => a.rejectsNull a.left
  | .left, _ => true
  | .full, .left => b.rejectsNull b.right
  | .full, .full => a.rejectsNull a.left && b.rejectsNull b.left
  | .full, _ => false
  | _, .full => false
  | _, _ => true

/-- Whether `t1 a (t2 b t3)` is `t2 b (t1 a t3)`. -/
def rightAsscom (a b : Operator) : Bool :=
  match a.kind, b.kind with
  | .full, .full => a.rejectsNull a.right && b.rejectsNull b.right
  | .inner, .inner => true
  | _, _ => false

/-- Whether two operators are associative, left asscom and right asscom. Tables stand in nobody's
way, so without operators all three hold. -/
def exchanges : Option (Operator × Operator) → Bool × Bool × Bool
  | none => (true, true, true)
  | some (a, b) => (a.associative b, a.leftAsscom b, a.rightAsscom b)

end Operator

/-- The operator of a join in a tree. -/
def JoinNode.operator (n : JoinNode) : Operator :=
  ⟨n.info.kind, n.left.tables, n.right.tables, n.info.allConds⟩

/-- The join at the root of a tree, if it is one. -/
def Tree.joinNode? : Tree → Option JoinNode
  | .leaf _ _ => none
  | .join i info l r => some ⟨i, info, l, r⟩

/-- The operator at the root of a tree, if it is a join. -/
def Tree.operator? (t : Tree) : Option Operator := t.joinNode?.map JoinNode.operator

end QueryGraph
