import QueryGraph.Expr.Printer
import QueryGraph.Expr.Tables

/-!
# The final form of a condition

The last touches to a condition before it is planned: the sides of a comparison are brought to one
type, and constant expressions are marked as evaluated once.

## The model

A `Finisher` turns a condition into another one or fails with a `FinishFault`. The default one
inserts casts and then caches. `withCasts` works from the leaves up, so the types that it looks at
are those of arguments that already have their casts. Of several faults the leftmost innermost one
is reported, and the faults of all arguments come before those of the comparison itself.

`withCaches` marks the largest constant expressions that are no literals. The condition as a whole
is never marked.
-/

namespace QueryGraph

/-- Why a condition has no final form. -/
inductive FinishFault where
  /-- Rows with different numbers of columns are compared. -/
  | rowWidths (left right : Nat)
  /-- The two sides of a comparison have no common type. -/
  | incomparable (left right : Expr)
  /-- A reason that another finisher gives. -/
  | other (reason : String)
  deriving Inhabited

/-- The reason in words. -/
def FinishFault.message : FinishFault → String
  | rowWidths l r =>
    "row comparison with " ++ toString l ++ " and " ++ toString r ++ " columns"
  | incomparable l r =>
    "cannot compare " ++ l.text ++ " of type " ++ l.type.name ++
      " with " ++ r.text ++ " of type " ++ r.type.name
  | other reason => reason

namespace Expr

/-- The expression brought to a type. NULL has every type. -/
def castTo (t : SqlType) (e : Expr) : Expr :=
  if e.type = t || e.type = .null then e else cast e t

/-- The two sides of a comparison brought to their common type. -/
def castPair (l r : Expr) : Except FinishFault (Expr × Expr) :=
  if l.type = r.type then .ok (l, r)
  else match l.type.common? r.type with
    | some t => .ok (l.castTo t, r.castTo t)
    | none => .error (.incomparable l r)

/-- The columns of two rows brought to common types, pair by pair. -/
def castRows : List Expr → List Expr → Except FinishFault (List Expr × List Expr)
  | l :: ls, r :: rs => do
    let (l, r) ← castPair l r
    let (ls, rs) ← castRows ls rs
    .ok (l :: ls, r :: rs)
  | ls, rs => .ok (ls, rs)

/-- The expression with casts where the two sides of a comparison have different types. -/
def withCasts : Expr → Except FinishFault Expr
  | column c => .ok (column c)
  | literal v => .ok (literal v)
  | compare op l r => do
    let l ← l.withCasts
    let r ← r.withCasts
    let (l, r) ← castPair l r
    .ok (compare op l r)
  | rowEq ls rs => do
    let ls ← list ls
    let rs ← list rs
    if ls.length ≠ rs.length then .error (.rowWidths ls.length rs.length)
    else
      let (ls, rs) ← castRows ls rs
      .ok (rowEq ls rs)
  | allEqual ms => (list ms).map allEqual
  | and args => (list args).map and
  | or args => (list args).map or
  | not e => e.withCasts.map not
  | isNull e => e.withCasts.map isNull
  | call f args t => (list args).map fun args => call f args t
  | cast e t => e.withCasts.map fun e => cast e t
  | cached e => e.withCasts.map cached
where
  /-- Every expression of a list with its casts. -/
  list : List Expr → Except FinishFault (List Expr)
    | [] => .ok []
    | e :: es => do
      let e ← e.withCasts
      let es ← list es
      .ok (e :: es)

/-- An argument with its largest constant expressions marked: itself, if it is constant and neither
a literal nor marked already. -/
def cacheArg : Expr → Expr
  | column c => mark (column c) (column c)
  | literal v => literal v
  | compare op l r => mark (compare op l r) (compare op l.cacheArg r.cacheArg)
  | rowEq ls rs => mark (rowEq ls rs) (rowEq (list ls) (list rs))
  | allEqual ms => mark (allEqual ms) (allEqual (list ms))
  | and args => mark (and args) (and (list args))
  | or args => mark (or args) (or (list args))
  | not e => mark (not e) (not e.cacheArg)
  | isNull e => mark (isNull e) (isNull e.cacheArg)
  | call f args t => mark (call f args t) (call f (list args) t)
  | cast e t => mark (cast e t) (cast e.cacheArg t)
  | cached e => cached e
where
  /-- Every argument of a list, marked. -/
  list : List Expr → List Expr
    | [] => []
    | e :: es => e.cacheArg :: list es
  /-- The mark on an expression that is constant, and what else becomes of it otherwise. -/
  mark (e marked : Expr) : Expr := if e.isConst then cached e else marked

theorem cacheArg.list_eq_map (es : List Expr) : cacheArg.list es = es.map cacheArg := by
  induction es with
  | nil => rfl
  | cons e es ih => simp [cacheArg.list, ih]

/-- The condition with the constant expressions in its arguments marked. -/
def withCaches : Expr → Expr
  | column c => column c
  | literal v => literal v
  | compare op l r => compare op l.cacheArg r.cacheArg
  | rowEq ls rs => rowEq (ls.map cacheArg) (rs.map cacheArg)
  | allEqual ms => allEqual (ms.map cacheArg)
  | and args => and (args.map cacheArg)
  | or args => or (args.map cacheArg)
  | not e => not e.cacheArg
  | isNull e => isNull e.cacheArg
  | call f args t => call f (args.map cacheArg) t
  | cast e t => cast e.cacheArg t
  | cached e => cached e.cacheArg

end Expr

/-- A way to bring conditions into their final form, which may fail. -/
structure Finisher where
  /-- The condition in its final form. -/
  finish : Expr → Except FinishFault Expr

namespace Finisher

/-- Inserts casts and then marks constant arguments. -/
def default : Finisher := ⟨fun e => e.withCasts.map Expr.withCaches⟩

/-- Leaves every condition as it is. -/
def identity : Finisher := ⟨.ok⟩

instance : Inhabited Finisher := ⟨default⟩

end Finisher

/-- A condition without a final form, as it was before, and why it has none. -/
structure FinishError where
  /-- The condition as it was. -/
  condition : Expr
  /-- What the finisher reported. -/
  fault : FinishFault
  deriving Inhabited

/-- The final form of a condition, or the condition together with the fault. -/
def Finisher.apply (fin : Finisher) (c : Expr) : Except FinishError Expr :=
  (fin.finish c).mapError fun fault => ⟨c, fault⟩

end QueryGraph
