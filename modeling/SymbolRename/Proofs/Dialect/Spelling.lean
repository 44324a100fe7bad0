import SymbolRename.Dialect
import SymbolRename.Identifier
import SymbolRename.Proofs.Text.Decimal
import SymbolRename.Proofs.Text.Utf8

/-!
# Spellings of a capture

How a query tool may write a capture on a line. A spelling holds what the tool is free to choose:
its blanks, an end position, a colon, quotes around the text, and in key-value lines the fields and
their order. `Dialect.Spells` says that a line writes a capture.
-/

namespace SymbolRename

/-! ### Blanks and numerals -/

/-- Any number of blanks. -/
abbrev Dialect.Blanks := {cs : List Char // ∀ c ∈ cs, Text.isBlank c = true}

/-- At least one blank. -/
abbrev Dialect.Gap := {cs : List Char // cs ≠ [] ∧ ∀ c ∈ cs, Text.isBlank c = true}

/-- The characters between two fields of a key-value line: blanks and commas. -/
def Dialect.isSeparator (c : Char) : Bool := Text.isBlank c || c == ','

/-- What stands between two fields of a key-value line. -/
abbrev Dialect.Separator := {cs : List Char // cs ≠ [] ∧ ∀ c ∈ cs, isSeparator c = true}

/-- A count in decimal. -/
def Dialect.numeral (n : Nat) : List Char := Nat.toDigits 10 n

/-- Rows are counted from zero. -/
def Capture.row (c : Capture) : Nat := c.location.line - 1

/-- The blanks of a position in parentheses. -/
structure Dialect.PairBlanks where
  opening : Blanks
  row : Blanks
  comma : Blanks
  column : Blanks
  closing : Blanks

/-- A position in parentheses, as in `(4, 9)`. -/
def Dialect.PairBlanks.print (p : PairBlanks) (row column : Nat) : List Char :=
  p.opening.1 ++ '(' :: (p.row.1 ++ (numeral row ++ (p.comma.1 ++ ',' ::
    (p.column.1 ++ (numeral column ++ (p.closing.1 ++ [')']))))))

/-! ### Positional and at-capture lines -/

/-- A positional line is free in its blanks and its end position. -/
structure Dialect.PositionalSpelling where
  lead : Blanks
  kind : Gap
  row : Gap
  column : Gap
  endRow : Nat
  endRowGap : Gap
  endColumn : Nat
  endColumnGap : Gap
  trail : Blanks

def Dialect.PositionalSpelling.print (s : PositionalSpelling) (c : Capture) : List Char :=
  s.lead.1 ++ (c.kind.word.toList ++ (s.kind.1 ++ (numeral c.row ++ (s.row.1 ++
    (numeral c.location.column ++ (s.column.1 ++ (numeral s.endRow ++ (s.endRowGap.1 ++
      (numeral s.endColumn ++ (s.endColumnGap.1 ++ (c.text.toList ++ s.trail.1)))))))))))

/-- What may stand around a text. -/
inductive Dialect.Wrapping
  | none
  | backticks
  | quotes

def Dialect.Wrapping.wrap : Wrapping → List Char → List Char
  | none, text => text
  | backticks, text => '`' :: (text ++ ['`'])
  | quotes, text => '"' :: (text ++ ['"'])

/-- A colon with blanks before it, or nothing. -/
def Dialect.colon (before : Option Blanks) : List Char :=
  before.elim [] fun blanks => blanks.1 ++ [':']

/-- The end position of an at-capture line behind its hyphen. -/
structure Dialect.Stop where
  hyphen : Blanks
  blanks : PairBlanks
  row : Nat
  column : Nat

def Dialect.Stop.print (s : Stop) : List Char :=
  s.hyphen.1 ++ '-' :: s.blanks.print s.row s.column

/-- An at-capture line may have an end position, a colon behind the kind and one before the text,
and backticks or double quotes around the text. -/
structure Dialect.AtCaptureSpelling where
  lead : Blanks
  kindColon : Option Blanks
  start : PairBlanks
  stop : Option Stop
  textColon : Option Blanks
  text : Blanks
  wrapping : Wrapping
  trail : Blanks

/-- The end of an at-capture line: its text. -/
def Dialect.AtCaptureSpelling.printText (s : AtCaptureSpelling) (c : Capture) : List Char :=
  colon s.textColon ++ (s.text.1 ++ (s.wrapping.wrap c.text.toList ++ s.trail.1))

def Dialect.AtCaptureSpelling.print (s : AtCaptureSpelling) (c : Capture) : List Char :=
  s.lead.1 ++ '@' :: (c.kind.word.toList ++ (colon s.kindColon ++
    (s.start.print c.row c.location.column ++ (s.stop.elim [] Stop.print ++ s.printText c))))

/-! ### Key-value lines -/

/-- The quotes around the text of a key-value line. -/
inductive Dialect.Quote
  | double
  | backtick
  | single

def Dialect.Quote.mark : Quote → Char
  | double => '"'
  | backtick => '`'
  | single => '\''

/-- A field of a key-value line with what it is free in. -/
inductive Dialect.Field
  /-- The kind, perhaps behind a number with a hyphen and behind an `@`. -/
  | kind (blanks : Blanks) (number : Option (Nat × Blanks × Blanks)) (marked : Bool)
  | text (blanks : Blanks) (quote : Quote)
  | row (blanks : Blanks)
  /-- The column under its short or its long key. -/
  | column (blanks : Blanks) (long : Bool)
  | start (blanks : PairBlanks)
  /-- The end position, which nothing is read from. -/
  | stop (blanks : PairBlanks) (row column : Nat)

/-- The word before the colon of a field. -/
def Dialect.Field.name : Field → String
  | .kind _ _ _ => "capture"
  | .text _ _ => "text"
  | .row _ => "row"
  | .column _ long => if long then "column" else "col"
  | .start _ => "start"
  | .stop _ _ _ => "end"

/-- What stands behind the colon of a field. -/
def Dialect.Field.value (c : Capture) : Field → List Char
  | .kind blanks number marked =>
    blanks.1 ++ (number.elim [] (fun (n, before, after) => numeral n ++ (before.1 ++ '-' :: after.1)) ++
      ((if marked then ['@'] else []) ++ c.kind.word.toList))
  | .text blanks quote => blanks.1 ++ quote.mark :: (c.text.toList ++ [quote.mark])
  | .row blanks => blanks.1 ++ numeral c.row
  | .column blanks _ => blanks.1 ++ numeral c.location.column
  | .start blanks => blanks.print c.row c.location.column
  | .stop blanks endRow endColumn => blanks.print endRow endColumn

def Dialect.Field.print (c : Capture) (f : Field) : List Char :=
  f.name.toList ++ ':' :: f.value c

/-- The names of the fields of a line. -/
def Dialect.namesOf (first : Field) (more : List (Separator × Field)) : List String :=
  (first :: more.map Prod.snd).map Field.name

/-- A key-value line is free in its fields and their order, as long as they hold the kind, the text
and a position. -/
structure Dialect.KeyValueSpelling where
  lead : Blanks
  first : Field
  more : List (Separator × Field)
  trail : {cs : List Char // ∀ c ∈ cs, isSeparator c = true}
  hasKind : "capture" ∈ namesOf first more
  hasText : "text" ∈ namesOf first more
  hasPosition : "start" ∈ namesOf first more ∨
    "row" ∈ namesOf first more ∧ ("col" ∈ namesOf first more ∨ "column" ∈ namesOf first more)

/-- The fields of a key-value line behind the first one. -/
def Dialect.printMore (c : Capture) (more : List (Separator × Field)) : List Char :=
  more.flatMap fun (separator, f) => separator.1 ++ f.print c

def Dialect.KeyValueSpelling.print (s : KeyValueSpelling) (c : Capture) : List Char :=
  s.lead.1 ++ (s.first.print c ++ (printMore c s.more ++ s.trail.1))

/-- The line writes the capture in the dialect. -/
def Dialect.Spells (c : Capture) (line : List Char) : Dialect → Prop
  | positional => ∃ s : PositionalSpelling, s.print c = line
  | atCapture => ∃ s : AtCaptureSpelling, s.print c = line
  | keyValue => ∃ s : KeyValueSpelling, s.print c = line

/-- A capture that can be printed and read back: of the file, with a valid identifier as its text,
and with a line and a column that can be counted. -/
structure Dialect.Printable (file : Path) (c : Capture) : Prop where
  file : c.location.file = file
  text : isValidIdentifier c.text = true
  line_pos : 1 ≤ c.location.line
  line_lt : c.location.line < Count.limit - 1
  column_lt : c.location.column < Count.limit - 1

/-- The lines write the captures in order, with lines in between that no dialect reads. -/
inductive Dialect.Writes (d : Dialect) (file : Path) : List (List Char) → List Capture → Prop
  | nil : Writes d file [] []
  | capture {c : Capture} {line : List Char} {lines : List (List Char)} {captures : List Capture}
      (hc : Printable file c) (hline : d.Spells c line) (h : Writes d file lines captures) :
      Writes d file (line :: lines) (c :: captures)
  | other {line : List Char} {lines : List (List Char)} {captures : List Capture}
      (hline : ∀ e : Dialect, e.parseLine line file = .ok none) (h : Writes d file lines captures) :
      Writes d file (line :: lines) captures

end SymbolRename
