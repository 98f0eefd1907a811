import QueryGraph.Expr.Basic

/-!
# The tables of an expression

Which tables an expression reads, and on which it rejects NULL.

A condition rejects NULL on a table when it is false or unknown on every row in which all columns of
that table are NULL. The sets below are found from the form of the expression alone, so they may be
smaller than they could be.
-/

namespace QueryGraph.Expr

/-- The tables that the expression reads. -/
def tables : Expr → TableSet
  | column c => {c.table}
  | literal _ => ∅
  | compare _ l r => l.tables ∪ r.tables
  | rowEq l r => .unions (list l) ∪ .unions (list r)
  | allEqual ms => .unions (list ms)
  | and args => .unions (list args)
  | or args => .unions (list args)
  | not e => e.tables
  | isNull e => e.tables
  | call _ args _ => .unions (list args)
  | cast e _ => e.tables
  | cached e => e.tables
where
  /-- The tables that each expression of a list reads. -/
  list : List Expr → List TableSet
    | [] => []
    | e :: es => e.tables :: list es

theorem tables.list_eq_map (es : List Expr) : tables.list es = es.map tables := by
  induction es with
  | nil => rfl
  | cons e es ih => simp [tables.list, ih]

/-- Tables on which the expression rejects NULL. What is true of one argument carries over to an
ordinary comparison, an equality of rows or of several members and a conjunction; a disjunction
rejects where all its arguments do. -/
def rejected : Expr → TableSet
  | column c => {c.table}
  | compare .nullSafeEq _ _ => ∅
  | compare _ l r => l.rejected ∪ r.rejected
  | rowEq l r => .unions (list l) ∪ .unions (list r)
  | allEqual ms => .unions (list ms)
  | and args => .unions (list args)
  | or args => .intersections (list args)
  | cast e _ => e.rejected
  | cached e => e.rejected
  | literal _ => ∅
  | not _ => ∅
  | isNull _ => ∅
  | call _ _ _ => ∅
where
  /-- The tables on which each expression of a list rejects NULL. -/
  list : List Expr → List TableSet
    | [] => []
    | e :: es => e.rejected :: list es

theorem rejected.list_eq_map (es : List Expr) : rejected.list es = es.map rejected := by
  induction es with
  | nil => rfl
  | cons e es ih => simp [rejected.list, ih]

/-- Whether the expression reads no table. -/
def isConst (e : Expr) : Bool := e.tables = ∅

/-- The tables that a list of conditions reads. -/
def tablesOf (conds : List Expr) : TableSet := .unions (conds.map tables)

/-- Whether the condition can be a key of a hash join between two sets of tables: an equality that
reads both of them and compares no more than one pair of columns. -/
def isHashKey (left right : TableSet) (e : Expr) : Bool :=
  e.isEquality && e.tables.overlaps left && e.tables.overlaps right && e.rowWidth < 2

/-- A condition that reads no other tables than the given ones and holds whenever the expression
does. Arguments of a conjunction without such a condition are left out; a disjunction needs one of
each argument. -/
def restrict (ts : TableSet) : Expr → Option Expr
  | and args => match list args with
    | [] => none
    | parts => some (conj parts)
  | or args => (all args).map disj
  | e => if e.tables ⊆ ts then some e else none
where
  /-- The restricted conditions of those in a list that have one. -/
  list : List Expr → List Expr
    | [] => []
    | e :: es => match e.restrict ts with
      | some p => p :: list es
      | none => list es
  /-- The restricted conditions of all in a list. -/
  all : List Expr → Option (List Expr)
    | [] => some []
    | e :: es => match e.restrict ts, all es with
      | some p, some ps => some (p :: ps)
      | _, _ => none

theorem restrict.list_eq_filterMap (ts : TableSet) (es : List Expr) :
    restrict.list ts es = es.filterMap (restrict ts) := by
  induction es with
  | nil => rfl
  | cons e es ih => cases h : e.restrict ts <;> simp [restrict.list, ih, h]

end QueryGraph.Expr
