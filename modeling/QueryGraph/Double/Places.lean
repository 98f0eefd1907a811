import QueryGraph.Double.Basic

/-!
# The text of a number with a fixed number of places

The exact value of a double precision number, rounded to a fixed number of decimal places; a value
halfway between two texts goes to the even one. The sign of the number is kept, also where nothing
but zeros is left of it.
-/

namespace QueryGraph

/-- `num / den` rounded to a whole number, halves to the even neighbour. -/
def roundHalfEven (num den : Nat) : Nat :=
  let q := num / den
  let r := 2 * (num % den)
  if r < den || (r = den && q % 2 = 0) then q else q + 1

/-- A number of `10 ^ -places`, with a point before the last `places` digits. -/
def withPoint (places n : Nat) : String :=
  let ds := Nat.toDigits 10 n
  let padded := List.replicate (places + 1 - ds.length) '0' ++ ds
  let whole := padded.length - places
  String.ofList (padded.take whole ++ '.' :: padded.drop whole)

/-- The text of a number with the given positive number of places. -/
def Double.textWithPlaces (places : Nat) (x : Double) : String :=
  if x.isNaN then "NaN"
  else
    let body :=
      if x.isInfinite then "inf"
      else withPoint places (roundHalfEven (x.ratio.1 * Nat.pow 10 places) x.ratio.2)
    if x.isNegative then "-" ++ body else body

end QueryGraph
