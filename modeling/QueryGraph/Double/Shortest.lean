import QueryGraph.Double.Basic

/-!
# The shortest text of a number

The text of a double precision number with the fewest digits that read back as the same number.

## The model

Around a finite value lies the interval of all reals that round to it: half a gap to either side,
where the gap below a power of two is half as wide, and with the two ends when the significand is
even. On the decimal grid with `n` digits the two neighbours of the value are tried, for `n` from
one up; the first grid with a neighbour inside the interval wins, and of two the nearer one, upwards
on a tie. Everything is exact arithmetic on natural numbers.

The text is positional: no exponent, no point in a whole number, `NaN` without a sign.
-/

namespace QueryGraph

/-- The number `digits * 10 ^ exponent`. -/
structure Decimal where
  /-- The digits, read as a whole number. -/
  digits : Nat
  /-- The power of ten that they count. -/
  exponent : Int
  deriving DecidableEq

namespace Decimal

/-- Positional notation: zeros to the right when the exponent is positive, a point otherwise. -/
def positional (d : Decimal) : String :=
  let ds := Nat.toDigits 10 d.digits
  match d.exponent with
  | .ofNat k => String.ofList (ds ++ List.replicate k '0')
  | .negSucc k =>
    let padded := List.replicate (k + 2 - ds.length) '0' ++ ds
    let whole := padded.length - (k + 1)
    String.ofList (padded.take whole ++ '.' :: padded.drop whole)

/-- The same number without zeros at the end of its digits; at most `n` of them are taken away. -/
def strip : Nat → Decimal → Decimal
  | 0, d => d
  | n + 1, d => if d.digits % 10 = 0 then strip n ⟨d.digits / 10, d.exponent + 1⟩ else d

end Decimal

namespace Double

/-- How many decimal digits stand before the point of `num / den`; negative when zeros follow the
point first. -/
def decimalLength (num den : Nat) : Int :=
  if den ≤ num then ((Nat.toDigits 10 (num / den)).length : Int)
  else match (List.range 400).find? (fun j => den ≤ num * Nat.pow 10 (j + 1)) with
    | some j => -(j : Int)
    | none => -400

/-- The neighbour of the value on the decimal grid of step `10 ^ k` that rounds to it, if there is
one; the nearer of two, and the upper one if both are equally near. -/
def onGrid (x : Double) (k : Int) : Option Decimal :=
  let (num, den) := x.ratio
  let unit := num / x.parts.1
  let below := if x.parts.1 = leadingBit && 2 * leadingBit ≤ x.magnitude then 1 else 2
  let even := x.parts.1 % 2 = 0
  let (up, down) : Nat × Nat := match k with
    | .ofNat j => (1, Nat.pow 10 j)
    | .negSucc j => (Nat.pow 10 (j + 1), 1)
  let value := 4 * num * up
  let low := (4 * num - below * unit) * up
  let high := (4 * num + 2 * unit) * up
  let step := 4 * den * down
  let inside (v : Nat) : Bool := if even then low ≤ v && v ≤ high else low < v && v < high
  let floor := value / step
  let lower := inside (floor * step)
  let upper := inside ((floor + 1) * step)
  let upperNearer : Bool := step ≤ 2 * (value - floor * step)
  if lower && !(upper && upperNearer) then some ⟨floor, k⟩
  else if upper then some ⟨floor + 1, k⟩
  else none

/-- The decimal number with the fewest digits that rounds to a finite, positive value. -/
def shortest (x : Double) : Decimal :=
  let length := decimalLength x.ratio.1 x.ratio.2
  let found := (List.range 18).findSome? fun (n : Nat) => x.onGrid (length - n - 1)
  (found.getD ⟨0, 0⟩).strip 20

/-- The text of a number, with the fewest digits that read back. -/
def text (x : Double) : String :=
  if x.isNaN then "NaN"
  else
    let body :=
      if x.isInfinite then "inf" else if x.isZero then "0" else x.shortest.positional
    if x.isNegative then "-" ++ body else body

end Double

end QueryGraph
