import QueryGraph.Expr.Basic

/-!
# Plain equalities

Equalities of several members become plain equalities, constant comparisons are decided, and nested
conjunctions are laid out in one list.

## The model

`simplify` gives a `Verdict` on a condition: it always holds, it never holds, or it stands for a
list of conditions. Unknown counts as never, since a row is kept only where a condition is true.
An equality of several members with constants among them equates every other member with the first
constant; without one it equates every member with the first.

Below a disjunction, a negation and the like an equality of several members cannot be laid out in a
list; there `expand` puts a conjunction in its place.
-/

namespace QueryGraph

/-- What is known of a condition after simplification. -/
inductive Verdict where
  /-- It holds for every row. -/
  | always
  /-- It holds for no row. -/
  | never
  /-- It holds where all of these conditions do. -/
  | conditions (conds : List Expr)
  deriving Inhabited

namespace Verdict

/-- The verdict on a condition with a known truth value. -/
def ofTruth (t : Option Bool) : Verdict :=
  if t = some true then always else never

/-- The verdict on two conditions that both have to hold. -/
def and : Verdict → Verdict → Verdict
  | never, _ => never
  | _, never => never
  | always, v => v
  | v, always => v
  | conditions cs, conditions ds => conditions (cs ++ ds)

/-- The conditions that are left to be checked; none are left of one that never holds. -/
def remaining : Verdict → List Expr
  | conditions cs => cs
  | _ => []

/-- The verdict as a single condition. -/
def toExpr : Verdict → Expr
  | always => .always
  | never => .never
  | conditions cs => .conj cs

end Verdict

namespace Expr

/-- The verdict on an equality of several members. A lone member is equal to itself where it is not
NULL. -/
def equalities (members : List Expr) : Verdict :=
  let fields := members.filter fun m => m.literal?.isNone
  match members.filterMap literal?, fields with
  | v :: vs, fields =>
    if v.isNull || vs.any (fun w => Comparison.eq.evaluate v w ≠ some true) then .never
    else if fields.isEmpty then .always
    else .conditions (fields.map fun f => f.equals (literal v))
  | [], [] => .always
  | [], [f] => .conditions [not (isNull f)]
  | [], f :: fs => .conditions (fs.map f.equals)

/-- The expression with conjunctions of plain equalities in the place of equalities of several
members. The members themselves stay as they are. -/
def expand : Expr → Expr
  | column c => column c
  | literal v => literal v
  | compare op l r => compare op l.expand r.expand
  | rowEq l r => rowEq (list l) (list r)
  | allEqual ms => (equalities ms).toExpr
  | and args => and (list args)
  | or args => or (list args)
  | not e => not e.expand
  | isNull e => isNull e.expand
  | call f args t => call f (list args) t
  | cast e t => cast e.expand t
  | cached e => cached e.expand
where
  /-- Every expression of a list, expanded. -/
  list : List Expr → List Expr
    | [] => []
    | e :: es => e.expand :: list es

theorem expand.list_eq_map (es : List Expr) : expand.list es = es.map expand := by
  induction es with
  | nil => rfl
  | cons e es ih => simp [expand.list, ih]

/-- The verdict on a condition. -/
def simplify : Expr → Verdict
  | allEqual ms => equalities ms
  | and args => list args
  | literal v => .ofTruth v.truth
  | compare op (literal v) (literal w) => .ofTruth (op.evaluate v w)
  | compare op l r => .conditions [compare op l r]
  | e => .conditions [e.expand]
where
  /-- The verdict on a list of conditions that all have to hold. -/
  list : List Expr → Verdict
    | [] => .always
    | e :: es => e.simplify.and (list es)

/-- Whether some condition of the list can never hold. -/
def contradictory (conds : List Expr) : Bool :=
  conds.any fun c => match c.simplify with
    | .never => true
    | _ => false

/-- A list of conditions, simplified one by one. Where one can never hold, the constant FALSE stands
for all of them. -/
def simplifyAll (conds : List Expr) : List Expr :=
  if contradictory conds then [never] else conds.flatMap fun c => c.simplify.remaining

end Expr

end QueryGraph
