import QueryGraph.Value.Basic

/-!
# Comparisons

The comparison operators and what they say of two constants.
-/

namespace QueryGraph

/-- A comparison operator. -/
inductive Comparison where
  /-- Equality, unknown when a side is NULL. -/
  | eq
  /-- Equality that holds between NULL and NULL, and is never unknown because of NULL. -/
  | nullSafeEq
  /-- Inequality. -/
  | ne
  /-- Less than. -/
  | lt
  /-- Less than or equal. -/
  | le
  /-- Greater than. -/
  | gt
  /-- Greater than or equal. -/
  | ge
  deriving DecidableEq, Inhabited

namespace Comparison

/-- All comparison operators. -/
def all : List Comparison := [eq, nullSafeEq, ne, lt, le, gt, ge]

/-- The sign of the operator. -/
def symbol : Comparison → String
  | eq => "="
  | nullSafeEq => "<=>"
  | ne => "<>"
  | lt => "<"
  | le => "<="
  | gt => ">"
  | ge => ">="

/-- Whether the comparison holds of a left side that is less than, equal to or greater than the
right one. -/
def accepts : Comparison → Ordering → Bool
  | eq, o => o = .eq
  | nullSafeEq, o => o = .eq
  | ne, o => o ≠ .eq
  | lt, o => o = .lt
  | le, o => o ≠ .gt
  | gt, o => o = .gt
  | ge, o => o ≠ .lt

/-- What the comparison says of two constants. -/
def evaluate (op : Comparison) (v w : Value) : Option Bool :=
  if op = nullSafeEq && (v.isNull || w.isNull) then some (v.isNull && w.isNull)
  else (v.compare? w).map op.accepts

end Comparison

end QueryGraph
