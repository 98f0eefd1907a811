import QueryGraph.Double.Places
import QueryGraph.Report

/-!
# Selectivity

The fraction of rows that a condition is expected to let through.

Without statistics an equality keeps one row in ten and a range comparison one in three. Arguments
are taken to be independent. The arithmetic is that of double precision numbers, in the order in
which it is written here. Estimates are handed on as `Double`s: one that comes from outside keeps
all its bits, even when it is no number. An `Estimator` may be handed in as well. It gets the trace
for its explanations, and it has to be one on whose estimates the trace has no influence.
-/

namespace QueryGraph

namespace Selectivity

/-- The selectivity of an equality. -/
def equality : Float := 0.1

/-- The selectivity of a range comparison. -/
def range : Float := 0.3333

/-- The selectivity of anything else. -/
def fallback : Float := 0.1

/-- The least positive selectivity: the smallest normal double. -/
def least : Float := Float.ofBits 0x0010000000000000

/-- The selectivity of a comparison. -/
def ofComparison : Comparison → Float
  | .eq => equality
  | .nullSafeEq => equality
  | .ne => 1.0 - equality
  | .lt => range
  | .le => range
  | .gt => range
  | .ge => range

/-- `r * a ^ n` by repeated squaring, from the lowest bit of the exponent on. -/
def powerFrom (r a : Float) (n : Nat) : Float :=
  let r := if n % 2 = 1 then r * a else r
  if n / 2 = 0 then r else powerFrom r (a * a) (n / 2)
  termination_by n
  decreasing_by omega

/-- The selectivity of that many independent equalities. -/
def ofEqualities (n : Nat) : Float := powerFrom 1.0 equality n

/-- The number, but no less than the least positive selectivity and no more than one. -/
def clamp (x : Float) : Float :=
  if x < least then least else if 1.0 < x then 1.0 else x

end Selectivity

namespace Expr

open Selectivity in
/-- The selectivity of a condition, where a condition that never holds has selectivity zero. -/
def selectivity : Expr → Float
  | compare op _ _ => ofComparison op
  | rowEq l _ => ofEqualities l.length
  | allEqual ms => ofEqualities (ms.length - 1)
  | isNull _ => equality
  | not e => 1.0 - e.selectivity
  | and args => (list args).foldl (· * ·) 1.0
  | or args => (list args).foldl (fun acc s => acc + s - acc * s) 0.0
  | literal v => if v.truth = some true then 1.0 else 0.0
  | cached e => e.selectivity
  | column _ => fallback
  | call _ _ _ => fallback
  | cast _ _ => fallback
where
  /-- The selectivity of each condition of a list. -/
  list : List Expr → List Float
    | [] => []
    | e :: es => e.selectivity :: list es

end Expr

/-- A way to estimate selectivities, which may explain its estimates in the trace. -/
structure Estimator where
  /-- Estimates the fraction of rows that the condition lets through. -/
  run : Expr → Traced Double
  /-- The estimate is the same with a trace and without one, and explanations come at the end. -/
  observed : ∀ c, (run c).Observed

namespace Estimator

/-- The fraction of rows that the condition lets through. -/
def estimate (est : Estimator) (c : Expr) : Double := (est.run c).value

@[simp] theorem value_run (est : Estimator) (c : Expr) : (est.run c).value = est.estimate c := rfl

/-- What the trace says about the estimate. -/
def note (est : Estimator) (c : Expr) : String := (est.run c).trace

/-- The text of a selectivity, with three places. -/
def text (s : Double) : String := s.textWithPlaces 3

/-- Estimates from the form of the condition, kept positive. -/
def default : Estimator where
  run c := do
    let s := byForm c
    Traced.write (" - fallback selectivity for " ++ c.text ++ " = " ++ text s ++ "\n")
    return s
  observed _ := (Traced.observed_write _).bind fun _ => Traced.observed_pure _
where
  /-- The selectivity by form, within bounds. -/
  byForm (c : Expr) : Double := .ofFloat (Selectivity.clamp c.selectivity)

/-- Gives every condition the same selectivity, bit by bit, and no reason. -/
def constant (s : Double) : Estimator := ⟨fun _ => pure s, fun _ => Traced.observed_pure s⟩

instance : Inhabited Estimator := ⟨default⟩

end Estimator

end QueryGraph
