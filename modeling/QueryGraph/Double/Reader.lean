import QueryGraph.Double.Basic
import QueryGraph.Text.Blank

/-!
# Reading a number from a text

What a text stands for when it is used as a number.

## The model

Blank characters at both ends do not count. The rest is an optional sign and then either one of the
words `inf`, `infinity` and `nan` in any mixture of cases, or decimal digits with at most one point
among or around them and an optional exponent. The value is the double nearest to the number
written; beyond the largest one it is infinite.
-/

namespace QueryGraph.Double

/-- The number that ASCII digits stand for. -/
def ofDigits (cs : List Char) : Nat :=
  cs.foldl (fun n c => 10 * n + (c.toNat - '0'.toNat)) 0

/-- A sign at the beginning, as whether it is negative, and what follows it. -/
def splitSign : List Char → Bool × List Char
  | '-' :: cs => (true, cs)
  | '+' :: cs => (false, cs)
  | cs => (false, cs)

/-- The digits at the beginning and what follows them. -/
def splitDigits (cs : List Char) : List Char × List Char :=
  (cs.takeWhile Char.isDigit, cs.dropWhile Char.isDigit)

/-- The exponent that a text after the digits stands for: nothing, or a mark, an optional sign and
at least one digit. -/
def exponent? : List Char → Option Int
  | [] => some 0
  | c :: cs =>
    if c = 'e' || c = 'E' then
      let (negative, rest) := splitSign cs
      if rest ≠ [] && rest.all Char.isDigit then
        some (if negative then -(ofDigits rest : Int) else ofDigits rest)
      else none
    else none

/-- The double nearest to `digits * 10 ^ exponent`, where `length` bounds the number of digits.
Exponents far outside the range of doubles are decided without computing the power. -/
def ofScientific (digits length : Nat) (exponent : Int) : Double :=
  if digits = 0 then zero
  else if exponent > 400 then infinity
  else if exponent + length < -400 then zero
  else match exponent with
    | .ofNat e => ofFloat (Float.ofScientific digits false e)
    | .negSucc e => ofFloat (Float.ofScientific digits true (e + 1))

/-- The number of a text without a sign, all of which has to be used. -/
def unsigned? (cs : List Char) : Option Double :=
  let word := cs.map Char.toLower
  if word = ['i', 'n', 'f'] || word = "infinity".toList then some infinity
  else if word = ['n', 'a', 'n'] then some nan
  else
    let (whole, rest) := splitDigits cs
    let (fraction, rest) := match rest with
      | '.' :: rest => splitDigits rest
      | rest => ([], rest)
    let digits := whole ++ fraction
    if digits = [] then none
    else (exponent? rest).map fun e =>
      ofScientific (ofDigits digits) digits.length (e - fraction.length)

/-- The number that a text stands for, if it stands for one. -/
def ofText? (s : String) : Option Double :=
  let (negative, rest) := splitSign (Text.trimmed s.toList)
  (unsigned? rest).map fun x => if negative then x.negate else x

end QueryGraph.Double
