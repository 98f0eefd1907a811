/-!
# Bordered tables

A table of texts with titles, drawn with lines around its cells. This is one way to draw tables, for
those who ask for no other.

## The model

A cell may have several lines; the row is as high as its highest cell. A column is as wide as its
widest line, titles included, with a blank on either side. Widths are counted roughly: the ideographs
shared by Chinese, Japanese and Korean are taken to be two columns wide, and every other character one,
whatever a terminal makes of it.
-/

namespace QueryGraph.Text

/-- How many columns the character is taken to be wide. -/
def charWidth (c : Char) : Nat :=
  if 0x4e00 ≤ c.toNat && c.toNat ≤ 0x9fff then 2 else 1

/-- How many columns a line is taken to be wide. -/
def lineWidth (cs : List Char) : Nat := cs.foldl (fun n c => n + charWidth c) 0

/-- The lines of a text. A line feed ends a line, with the carriage return before it, if there is
one; what follows the last line feed is a line only if it is not empty. -/
def linesOf (cs : List Char) : List (List Char) := go [] cs
where
  /-- The lines of a text that begins with the given characters, in reverse. -/
  go (line : List Char) : List Char → List (List Char)
    | [] => if line = [] then [] else [line.reverse]
    | '\n' :: cs => (match line with
      | '\r' :: line => line.reverse
      | line => line.reverse) :: go [] cs
    | c :: cs => go (c :: line) cs

namespace Grid

/-- A row of cells, each with its lines. -/
abbrev Row := List (List (List Char))

/-- The cells of a row of texts. -/
def row (cells : List String) : Row := cells.map fun s => linesOf s.toList

/-- The width of a cell. -/
def cellWidth (cell : List (List Char)) : Nat := (cell.map lineWidth).foldl max 0

/-- The widths of the columns, as many as the first row has. -/
def widths (titles : Row) (rows : List Row) : List Nat :=
  titles.mapIdx fun i title =>
    (rows.map fun r => cellWidth (r.getD i [])).foldl max (cellWidth title)

/-- A line between two rows, drawn with the given character. -/
def border (c : Char) (ws : List Nat) : List Char :=
  '+' :: ws.flatMap (fun w => List.replicate (w + 2) c ++ ['+']) ++ ['\n']

/-- Line number `i` of a row. -/
def rowLine (ws : List Nat) (r : Row) (i : Nat) : List Char :=
  '|' :: (ws.zip r).flatMap (fun (w, cell) =>
    let line := cell.getD i []
    ' ' :: line ++ List.replicate (w - lineWidth line) ' ' ++ [' ', '|']) ++ ['\n']

/-- All lines of a row, at least one. -/
def rowLines (ws : List Nat) (r : Row) : List Char :=
  (List.range ((r.map List.length).foldl max 1)).flatMap (rowLine ws r)

/-- The table with the given titles and rows. -/
def text (titles : List String) (rows : List (List String)) : String :=
  let titles := row titles
  let rows := rows.map row
  let ws := widths titles rows
  let body := match rows with
    | [] => border '-' ws
    | rows => rows.flatMap fun r => rowLines ws r ++ border '-' ws
  String.ofList (border '-' ws ++ rowLines ws titles ++ border '=' ws ++ body)

end Grid

end QueryGraph.Text
