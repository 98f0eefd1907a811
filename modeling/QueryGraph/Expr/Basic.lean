import QueryGraph.BitSet.Basic
import QueryGraph.Value.Comparison

/-!
# Expressions

The conditions of a query block and the expressions inside them.

## The model

An expression is a tree with lists of arguments, so functions on expressions come in pairs: one on
expressions and one, called `list`, on lists of them. The second is the first applied to every
element in all cases; the lemmas `list_eq_map` say so.

`same` is equality as the program sees it. It differs from equality of trees in constants alone: the
two zeros are the same, and a not-a-number is not the same as itself.
-/

namespace QueryGraph

/-- A column of a table. -/
structure Column where
  /-- The number of the table. -/
  table : Nat
  /-- The name that the query gives the table. -/
  tableName : String
  /-- The name of the column. -/
  name : String
  /-- Its type. -/
  type : SqlType
  deriving DecidableEq, Inhabited

/-- The column with its table, as the query refers to it. -/
def Column.text (c : Column) : String := c.tableName ++ "." ++ c.name

/-- A condition or another scalar expression. -/
inductive Expr where
  /-- The value of a column. -/
  | column (c : Column)
  /-- A constant. -/
  | literal (v : Value)
  /-- A comparison. -/
  | compare (op : Comparison) (left right : Expr)
  /-- Equality of two rows, column by column. -/
  | rowEq (left right : List Expr)
  /-- All members are equal to each other. -/
  | allEqual (members : List Expr)
  /-- All arguments hold. -/
  | and (args : List Expr)
  /-- One of the arguments holds. -/
  | or (args : List Expr)
  /-- The negation of a condition. -/
  | not (e : Expr)
  /-- Whether the value is NULL. -/
  | isNull (e : Expr)
  /-- The value of a function. -/
  | call (name : String) (args : List Expr) (type : SqlType)
  /-- A value brought to another type. -/
  | cast (e : Expr) (target : SqlType)
  /-- A constant expression that is evaluated once. -/
  | cached (e : Expr)
  deriving Inhabited

namespace Expr

/-- Induction on expressions, with the hypothesis for every member of a list of arguments. -/
@[elab_as_elim, induction_eliminator]
theorem induct {motive : Expr → Prop}
    (column : ∀ c, motive (column c))
    (literal : ∀ v, motive (literal v))
    (compare : ∀ op l r, motive l → motive r → motive (compare op l r))
    (rowEq : ∀ l r, (∀ e ∈ l, motive e) → (∀ e ∈ r, motive e) → motive (rowEq l r))
    (allEqual : ∀ ms, (∀ e ∈ ms, motive e) → motive (allEqual ms))
    (and : ∀ args, (∀ e ∈ args, motive e) → motive (and args))
    (or : ∀ args, (∀ e ∈ args, motive e) → motive (or args))
    (not : ∀ e, motive e → motive (not e))
    (isNull : ∀ e, motive e → motive (isNull e))
    (call : ∀ f args t, (∀ e ∈ args, motive e) → motive (call f args t))
    (cast : ∀ e t, motive e → motive (cast e t))
    (cached : ∀ e, motive e → motive (cached e)) : (e : Expr) → motive e
  | .column c => column c
  | .literal v => literal v
  | .compare op l r => compare op l r (go l) (go r)
  | .rowEq l r => rowEq l r (list l) (list r)
  | .allEqual ms => allEqual ms (list ms)
  | .and args => and args (list args)
  | .or args => or args (list args)
  | .not e => not e (go e)
  | .isNull e => isNull e (go e)
  | .call f args t => call f args t (list args)
  | .cast e t => cast e t (go e)
  | .cached e => cached e (go e)
where
  /-- The statement for one expression. -/
  go (e : Expr) : motive e :=
    induct column literal compare rowEq allEqual and or not isNull call cast cached e
  /-- The statement for every member of a list. -/
  list : (es : List Expr) → ∀ e ∈ es, motive e
    | [], _, h => nomatch h
    | e :: es, e', h => (List.mem_cons.1 h).elim (fun h => h ▸ go e) (list es e')

/-- The equality of two expressions. -/
def equals (l r : Expr) : Expr := compare .eq l r

/-- The constant that never holds. -/
def never : Expr := literal (.bool false)

/-- The constant that always holds. -/
def always : Expr := literal (.bool true)

/-- The conjunction of a list of conditions; one condition stands for itself. -/
def conj : List Expr → Expr
  | [e] => e
  | es => and es

/-- The disjunction of a list of conditions; one condition stands for itself. -/
def disj : List Expr → Expr
  | [e] => e
  | es => or es

/-- The column that the expression is, if it is one. -/
def column? : Expr → Option Column
  | column c => some c
  | _ => none

/-- The constant that the expression is, if it is one. -/
def literal? : Expr → Option Value
  | literal v => some v
  | _ => none

/-- The type of the value. Conditions are truth values. -/
def type : Expr → SqlType
  | column c => c.type
  | literal v => v.type
  | call _ _ t => t
  | cast _ t => t
  | cached e => e.type
  | _ => .bool

/-- The arguments from left to right. -/
def children : Expr → List Expr
  | column _ => []
  | literal _ => []
  | compare _ l r => [l, r]
  | rowEq l r => l ++ r
  | allEqual ms => ms
  | and args => args
  | or args => args
  | not e => [e]
  | isNull e => [e]
  | call _ args _ => args
  | cast e _ => [e]
  | cached e => [e]

/-- Whether two expressions are written alike. -/
def same : Expr → Expr → Bool
  | column c, column d => c = d
  | literal v, literal w => v.same w
  | compare o l r, compare o' l' r' => o = o' && l.same l' && r.same r'
  | rowEq l r, rowEq l' r' => list l l' && list r r'
  | allEqual ms, allEqual ms' => list ms ms'
  | and args, and args' => list args args'
  | or args, or args' => list args args'
  | not e, not e' => e.same e'
  | isNull e, isNull e' => e.same e'
  | call f args t, call f' args' t' => f = f' && list args args' && t = t'
  | cast e t, cast e' t' => e.same e' && t = t'
  | cached e, cached e' => e.same e'
  | _, _ => false
where
  /-- Whether two lists are written alike, member by member. -/
  list : List Expr → List Expr → Bool
    | [], [] => true
    | e :: es, e' :: es' => e.same e' && list es es'
    | _, _ => false

/-- Whether the expression is an equality of values or of rows. -/
def isEquality : Expr → Bool
  | compare op _ _ => op = .eq
  | rowEq _ _ => true
  | _ => false

/-- How many columns a comparison of rows has on its left; none for other expressions. -/
def rowWidth : Expr → Nat
  | rowEq l _ => l.length
  | _ => 0

/-- The conditions that a condition is the conjunction of, with nested conjunctions laid out in
one list. -/
def conjuncts : Expr → List Expr
  | and args => list args
  | e => [e]
where
  /-- The conjuncts of all conditions of a list. -/
  list : List Expr → List Expr
    | [] => []
    | e :: es => e.conjuncts ++ list es

theorem conjuncts.list_eq_flatMap (es : List Expr) : conjuncts.list es = es.flatMap conjuncts := by
  induction es with
  | nil => rfl
  | cons e es ih => simp [conjuncts.list, ih]

/-- The conjuncts of a condition that need not be there. -/
def conjunctsOf : Option Expr → List Expr
  | some c => c.conjuncts
  | none => []

end Expr

end QueryGraph
