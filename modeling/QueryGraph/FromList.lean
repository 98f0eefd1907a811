import QueryGraph.Expr.Printer

/-!
# FROM lists

The FROM clause of a query block: tables and nested lists, each joined to everything before it.

## The model

A list is read from left to right and grows at its right end, so it is never empty and `before` is
at hand where an item is joined. Lists are printed, and their entries counted, from the last to the
first.
-/

namespace QueryGraph

/-- A table of the query block. -/
structure Table where
  /-- Its number, which tells it from the other tables of the block. -/
  number : Nat
  /-- The name that the query gives it. -/
  name : String
  deriving DecidableEq, Inhabited

/-- How a nested list came about. -/
inductive NestKind where
  /-- Written with brackets. -/
  | plain
  /-- From a subquery that asks for a partner. -/
  | semi
  /-- From a subquery that asks for the lack of a partner. -/
  | anti
  deriving DecidableEq, Inhabited

/-- What stands for a nested list in a printed list. -/
def NestKind.placeholder : NestKind → String
  | plain => "(nest)"
  | semi => "(sj-nest)"
  | anti => "(aj-nest)"

mutual

/-- A FROM list. -/
inductive FromList where
  /-- A list of one item. -/
  | single (item : FromItem)
  /-- A list with one more item, the condition that joins it to those before, if there is one, and
  whether it is joined by an outer join. -/
  | join (before : FromList) (item : FromItem) (cond : Option Expr) (outer : Bool)

/-- An item of a FROM list. -/
inductive FromItem where
  /-- A table. -/
  | table (t : Table)
  /-- A nested list. -/
  | nest (kind : NestKind) (list : FromList)

end

namespace FromItem

/-- The name under which the item is printed. -/
def name : FromItem → String
  | table t => t.name
  | nest kind _ => kind.placeholder

/-- Whether the item is the nested list of a semijoin or an antijoin. -/
def isSubquery : FromItem → Bool
  | nest .semi _ => true
  | nest .anti _ => true
  | _ => false

end FromItem

namespace FromList

/-- The entries from the last to the first: the item, and whether it is joined by an outer join. -/
def entries : FromList → List (FromItem × Bool)
  | single item => [(item, false)]
  | join before item _ outer => (item, outer) :: before.entries

mutual

/-- The tables of the list and of the lists in it, from left to right. -/
def tables : FromList → List Table
  | single item => itemTables item
  | join before item _ _ => before.tables ++ itemTables item

/-- The tables of an item. -/
def itemTables : FromItem → List Table
  | .table t => [t]
  | .nest _ list => list.tables

end

mutual

/-- The tables of the list and of the lists in it, every list from the last entry to the first. -/
def storedTables : FromList → List Table
  | single item => itemStoredTables item
  | join before item _ _ => itemStoredTables item ++ before.storedTables

/-- The stored tables of an item. -/
def itemStoredTables : FromItem → List Table
  | .table t => [t]
  | .nest _ list => list.storedTables

end

/-- The tables ordered by number, where tables of one number keep their stored order. -/
def tablesByNumber (list : FromList) : List Table :=
  list.storedTables.mergeSort fun t u => t.number ≤ u.number

/-- The line of an entry. -/
def entryLine (level : Nat) (item : FromItem) (cond : Option Expr) (outer : Bool) : String :=
  let condText := match cond with
    | some c => " " ++ c.text
    | none => ""
  String.ofList (List.replicate (2 * level) ' ') ++ "* " ++ item.name ++ condText ++
    "  join_type=" ++ (if outer then "left" else "inner") ++ "\n"

mutual

/-- The list with one line for each entry, from the last to the first, and the entries of a nested
list indented below it. -/
def print (level : Nat) : FromList → String
  | single item => entryLine level item none false ++ printNested (level + 1) item
  | join before item cond outer =>
    entryLine level item cond outer ++ printNested (level + 1) item ++ before.print level

/-- The lines of the list in an item. -/
def printNested (level : Nat) : FromItem → String
  | .table _ => ""
  | .nest _ list => list.print level

end

end FromList

/-- A query block: what it reads and the condition on its rows. -/
structure QueryBlock where
  /-- The FROM clause. -/
  source : FromList
  /-- The WHERE condition, if there is one. -/
  filter : Option Expr

end QueryGraph
