import QueryGraph.Double.Shortest
import QueryGraph.Double.Reader

/-!
# Types and constants

The types of the columns of a query and the constants that its conditions mention.

A condition is true, false or unknown. Unknown is `none` throughout, and a constant used as a
condition is unknown only when it is NULL.
-/

namespace QueryGraph

/-- The type of a column, a constant or an expression. -/
inductive SqlType where
  /-- The type of NULL alone. -/
  | null
  /-- Truth values. -/
  | bool
  /-- Signed 64-bit integers. -/
  | int
  /-- Double precision numbers. -/
  | double
  /-- Texts. -/
  | varchar
  deriving DecidableEq, Inhabited

namespace SqlType

/-- The name of the type in texts. -/
def name : SqlType → String
  | null => "null"
  | bool => "bool"
  | int => "int"
  | double => "double"
  | varchar => "varchar"

/-- The type that both sides of a comparison are brought to, if there is one: NULL adapts to
anything, truth values count as integers among numbers, and texts are read as doubles when they
meet numbers. Truth values and texts do not compare. -/
def common? : SqlType → SqlType → Option SqlType
  | null, t => some t
  | t, null => some t
  | bool, bool => some bool
  | varchar, varchar => some varchar
  | bool, varchar => none
  | varchar, bool => none
  | int, int => some int
  | bool, int => some int
  | int, bool => some int
  | _, _ => some double

end SqlType

/-- A constant. -/
inductive Value where
  /-- NULL. -/
  | null
  /-- A truth value. -/
  | bool (b : Bool)
  /-- An integer. -/
  | int (i : Int64)
  /-- A double precision number. -/
  | double (x : Double)
  /-- A text. -/
  | varchar (s : String)
  deriving DecidableEq, Inhabited

namespace Value

/-- The type of a constant. -/
def type : Value → SqlType
  | null => .null
  | bool _ => .bool
  | int _ => .int
  | double _ => .double
  | varchar _ => .varchar

/-- Whether the constant is NULL. -/
def isNull (v : Value) : Bool := v = null

/-- The truth value of a constant used as a condition. Numbers are true unless they are zero; a
text counts as the number it stands for, and is false if it stands for none. -/
def truth : Value → Option Bool
  | null => none
  | bool b => some b
  | int i => some (i ≠ 0)
  | double x => some !x.isZero
  | varchar s => some (match Double.ofText? s with
    | some x => !x.isZero
    | none => false)

/-- The number that a constant counts as when constants of different types are compared. -/
def number? : Value → Option Double
  | null => none
  | bool b => some (if b then .one else .zero)
  | int i => some (.ofInt i.toInt)
  | double x => some x
  | varchar s => Double.ofText? s

/-- The order of two constants: texts by their characters, integers exactly, and everything else as
doubles. None if one of them is NULL or they do not compare. -/
def compare? : Value → Value → Option Ordering
  | varchar s, varchar t => some (compare s t)
  | int i, int j => some (compare i.toInt j.toInt)
  | v, w => do
    let x ← v.number?
    let y ← w.number?
    x.compare? y

/-- Whether two constants are written alike: of one type, and equal in it. A not-a-number is unlike
itself. -/
def same : Value → Value → Bool
  | null, null => true
  | bool b, bool c => b = c
  | int i, int j => i = j
  | double x, double y => x.equal y
  | varchar s, varchar t => s = t
  | _, _ => false

/-- The text of a constant. Quotes inside a text are not marked. -/
def text : Value → String
  | null => "NULL"
  | bool true => "TRUE"
  | bool false => "FALSE"
  | int i => toString i.toInt
  | double x => x.text
  | varchar s => "'" ++ s ++ "'"

end Value

end QueryGraph
