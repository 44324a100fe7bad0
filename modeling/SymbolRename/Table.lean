import SymbolRename.Paint
import SymbolRename.Text.Width

/-!
# Tables

A table is drawn with ASCII borders. Every column is as wide as its widest line,
each cell has a blank on both sides, and a cell with several lines makes its row
taller. Colours never change the layout.
-/

namespace SymbolRename

/-- On which side the blanks that fill a cell go. -/
inductive Align
  | left
  | right
deriving DecidableEq, Repr

/-- The content of one field of a table. -/
structure Cell where
  text : String
  align : Align := .left
  style : Option Style := none
deriving DecidableEq, Repr

namespace Cell

/-- A count, which stands at the right. -/
def count (n : Nat) : Cell := { text := toString n, align := .right }

/-- The lines of a cell. -/
def lines (c : Cell) : List (List Char) :=
  go [] c.text.toList
where
  /-- Reads on with the current line reversed in `line`. -/
  go (line : List Char) : List Char → List (List Char)
    | [] => [line.reverse]
    | c :: rest => if c = '\n' then line.reverse :: go [] rest else go (c :: line) rest

/-- The columns that the widest line takes. -/
def width (c : Cell) : Nat := (c.lines.map Text.width).foldl max 0

/-- A line of the cell filled up to the column's width, with a blank on both sides. -/
def fill (c : Cell) (width : Nat) (line : List Char) : Span :=
  let blanks := List.replicate (width - Text.width line) ' '
  let body := match c.align with
    | .left => line ++ blanks
    | .right => blanks ++ line
  ⟨c.style, String.ofList (' ' :: (body ++ [' ']))⟩

/-- The spans of the cell's lines. -/
def spans (c : Cell) (width : Nat) : List Span := c.lines.map (c.fill width)

end Cell

/-- A header and the rows below it. -/
structure Table where
  header : List Cell
  rows : List (List Cell)
deriving Repr

namespace Table

/-- The width of each column's content. -/
def widths (t : Table) : List Nat :=
  (List.range t.header.length).map fun i =>
    ((t.header :: t.rows).map fun row => (row[i]?.elim 0 Cell.width)).foldl max 1

/-- A border with `joint` between the columns. -/
def border (start joint stop fill : Char) (widths : List Nat) : Painted :=
  let bars := widths.map fun w => String.ofList (List.replicate (w + 2) fill)
  Painted.plain (start.toString ++ joint.toString.intercalate bars ++ stop.toString)

/-- One line of a row: the spans of its cells between bars. -/
def rowLine (spans : List Span) : Painted :=
  ⟨none, "|"⟩ :: spans.flatMap fun s => [s, ⟨none, "|"⟩]

/-- The lines of a row; a cell with fewer lines than others is blank below them. -/
def rowLines (widths : List Nat) (row : List Cell) : List Painted :=
  let cells := (row.zip widths).map fun (c, w) => (c.spans w, w)
  let height := (cells.map (·.1.length)).foldl max 0
  (List.range height).map fun i =>
    rowLine (cells.map fun (spans, w) =>
      spans[i]?.getD ⟨none, String.ofList (List.replicate (w + 2) ' ')⟩)

/-- The lines of a table. -/
def lines (t : Table) : List Painted :=
  let widths := t.widths
  let between := border '|' '+' '|' '-' widths
  let edge := border '+' '+' '+' '-' widths
  let body := (t.rows.map (rowLines widths)).intersperse [between]
  edge :: rowLines widths t.header ++ [border '+' '=' '+' '=' widths] ++ body.flatten ++ [edge]

/-- The table as one text. -/
def painted (t : Table) : Painted := (t.lines.intersperse (Painted.plain "\n")).flatten

/-- A header in the header style. -/
def headed (titles : List String) : List Cell :=
  titles.map fun s => { text := s, style := some .header }

end Table

end SymbolRename
