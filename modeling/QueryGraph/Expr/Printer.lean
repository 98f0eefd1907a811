import QueryGraph.Expr.Basic

/-!
# The text of an expression

Expressions as they stand in messages, labels and tables: fully bracketed, on one line unless a
name or a text constant has more than one.
-/

namespace QueryGraph.Expr

/-- The text of an expression. -/
def text : Expr → String
  | column c => c.text
  | literal v => v.text
  | compare op l r => "(" ++ l.text ++ " " ++ op.symbol ++ " " ++ r.text ++ ")"
  | rowEq l r => "((" ++ ", ".intercalate (list l) ++ ") = (" ++ ", ".intercalate (list r) ++ "))"
  | allEqual ms => "multiple equal(" ++ ", ".intercalate (list ms) ++ ")"
  | and args => "(" ++ " and ".intercalate (list args) ++ ")"
  | or args => "(" ++ " or ".intercalate (list args) ++ ")"
  | not e => "(not(" ++ e.text ++ "))"
  | isNull e => "(" ++ e.text ++ " is null)"
  | call f args _ => f ++ "(" ++ ", ".intercalate (list args) ++ ")"
  | cast e t => "cast(" ++ e.text ++ " as " ++ t.name ++ ")"
  | cached e => "<cache>(" ++ e.text ++ ")"
where
  /-- The texts of a list of expressions. -/
  list : List Expr → List String
    | [] => []
    | e :: es => e.text :: list es

theorem text.list_eq_map (es : List Expr) : text.list es = es.map text := by
  induction es with
  | nil => rfl
  | cons e es ih => simp [text.list, ih]

/-- A list of conditions that all have to hold, without brackets around it. -/
def joinedText (conds : List Expr) : String :=
  " and ".intercalate (conds.map text)

/-- A list of conditions as it reads after WHERE. -/
def listText (conds : List Expr) : String :=
  if conds.isEmpty then "(none)" else joinedText conds

end QueryGraph.Expr
