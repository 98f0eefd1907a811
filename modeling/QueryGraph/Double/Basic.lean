/-!
# Double precision numbers

A double precision number as it is stored: 64 bits, of which the first is the sign, the next eleven
the exponent and the rest the fraction. The bits are kept as they are, so that a number that is
only passed on comes out as it went in, whichever of the many not-a-numbers it is.

## The model

Order and equality are read off the bits. The bits after the sign, taken as one number, grow with
the absolute value, so `key` (that number with the sign put in front) orders all numbers and both
zeros have key 0. A not-a-number compares with nothing, not even with itself.

Products are those of floats. Floats know a single not-a-number, though, so which one a product is
gets decided on the bits.
-/

namespace QueryGraph

/-- A double precision number, by its bits. -/
structure Double where
  /-- Sign, exponent and fraction. -/
  bits : UInt64
  deriving DecidableEq, Inhabited

namespace Double

/-- The double of a float. -/
def ofFloat (x : Float) : Double := ⟨x.toBits⟩

/-- The float of a double, where all not-a-numbers become one. -/
def toFloat (x : Double) : Float := Float.ofBits x.bits

/-- The double nearest to an integer. -/
def ofInt (i : Int) : Double := ofFloat (Float.ofInt i)

/-- The double 0.0. -/
def zero : Double := ⟨0⟩

/-- The double 1.0. -/
def one : Double := ⟨0x3ff0000000000000⟩

/-- Positive infinity. -/
def infinity : Double := ⟨0x7ff0000000000000⟩

/-- The plain not-a-number. -/
def nan : Double := ⟨0x7ff8000000000000⟩

/-- Whether the sign bit is set. -/
def isNegative (x : Double) : Bool := x.bits.toNat.testBit 63

/-- The number with its sign bit changed. -/
def negate (x : Double) : Double := ⟨x.bits ^^^ 0x8000000000000000⟩

/-- The bits after the sign as a number, which grows with the absolute value. -/
def magnitude (x : Double) : Nat := x.bits.toNat % 0x8000000000000000

/-- Whether the value is infinite, of either sign. -/
def isInfinite (x : Double) : Bool := x.magnitude = infinity.magnitude

/-- Whether the bits stand for no number. -/
def isNaN (x : Double) : Bool := infinity.magnitude < x.magnitude

/-- Whether the value is zero, of either sign. -/
def isZero (x : Double) : Bool := x.magnitude = 0

/-- The place of the number in the order of all numbers. -/
def key (x : Double) : Int :=
  if x.isNegative then -(x.magnitude : Int) else x.magnitude

/-- The order of two numbers; none if one of them is not a number. -/
def compare? (x y : Double) : Option Ordering :=
  if x.isNaN || y.isNaN then none else some (compare x.key y.key)

/-- Equality of numbers: the zeros are equal, and a not-a-number is equal to nothing. -/
def equal (x y : Double) : Bool := x.compare? y = some .eq

/-- The quiet form of a not-a-number: the first bit of its fraction is set, the others are kept. -/
def quiet (x : Double) : Double := ⟨x.bits ||| 0x0008000000000000⟩

/-- The product, rounded to the nearest double. Of factors that are no numbers, the first is the
product, in its quiet form. -/
def mul (x y : Double) : Double :=
  if x.isNaN then x.quiet else if y.isNaN then y.quiet else ofFloat (x.toFloat * y.toFloat)

instance : Mul Double := ⟨mul⟩

/-- The significand of a power of two: the bit that normal numbers have before their fraction. -/
def leadingBit : Nat := 0x10000000000000

/-- `m` and `e` such that a finite value is `m * 2 ^ e`, apart from the sign. -/
def parts (x : Double) : Nat × Int :=
  let fraction := x.magnitude % leadingBit
  match x.magnitude / leadingBit with
  | 0 => (fraction, -1074)
  | e + 1 => (leadingBit + fraction, (e : Int) - 1074)

/-- Numerator and denominator of a finite value, apart from the sign. -/
def ratio (x : Double) : Nat × Nat :=
  match x.parts with
  | (m, .ofNat e) => (m <<< e, 1)
  | (m, .negSucc e) => (m, 1 <<< (e + 1))

end Double

end QueryGraph
