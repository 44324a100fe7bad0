import SymbolRename.Fault
import SymbolRename.Capture
import SymbolRename.Text.Words

/-!
# Dialects of query tools

A query tool prints one capture on a line, in one of three dialects:

* positional: `kind row column endRow endColumn text`;
* at-capture: `@kind (row, column) text`, an end position after a hyphen allowed;
* key-value: `capture: kind`, `text: "text"` and a start or a row and column, in
  any order on the line.

Rows and columns are counted from zero. The dialect that reads the most lines of an
output is the one used, and a line that it does not read is passed over.
-/

namespace SymbolRename

/-- The ways in which a query tool writes a capture. -/
inductive Dialect
  | positional
  | atCapture
  | keyValue
deriving DecidableEq, Repr

namespace Dialect

/-- The name of a dialect. -/
def name : Dialect → String
  | positional => "positional"
  | atCapture => "at-capture"
  | keyValue => "key-value"

/-- All dialects, the preferred ones first. -/
def all : List Dialect := [positional, atCapture, keyValue]

/-- The fields of a capture line as they were written. -/
structure Fields where
  kind : List Char
  row : List Char
  column : List Char
  text : List Char
deriving DecidableEq, Repr

/-- A character of a kind name: a word character, a dot or a hyphen. -/
def isKindChar (c : Char) : Bool := Text.isWord c || c == '.' || c == '-'

/-- The longest beginning whose characters satisfy `p`, if there is one, and the rest. -/
def run? (p : Char → Bool) (cs : List Char) : Option (List Char × List Char) :=
  let run := cs.takeWhile p
  if run.isEmpty then none else some (run, cs.drop run.length)

/-- What follows the blanks at the beginning. -/
def skipBlanks (cs : List Char) : List Char := cs.dropWhile Text.isBlank

/-- What follows one blank or more. -/
def blanks? (cs : List Char) : Option (List Char) := (run? Text.isBlank cs).map (·.2)

/-- What follows the given character, with blanks before it allowed. -/
def mark? (c : Char) (cs : List Char) : Option (List Char) :=
  match skipBlanks cs with
  | d :: rest => if d = c then some rest else none
  | [] => none

/-- A number after blanks. -/
def number? (cs : List Char) : Option (List Char × List Char) :=
  run? Text.isDecimal (skipBlanks cs)

/-- A pair `(row, column)`, blanks allowed around each part. -/
def pair? (cs : List Char) : Option ((List Char × List Char) × List Char) := do
  let (row, cs) ← number? (← mark? '(' cs)
  let (column, cs) ← number? (← mark? ',' cs)
  return ((row, column), ← mark? ')' cs)

/-- The text between blanks that fills the rest of a line; it stays on one line. -/
def lineText? (cs : List Char) : Option (List Char) :=
  let text := Text.trimChars cs
  if text.isEmpty || text.contains '\n' then none else some text

/-- Fields of a positional line. -/
def positionalFields? (line : List Char) : Option Fields := do
  let cs := skipBlanks line
  let first ← cs.head?
  if !(first.isAlpha || first == '_' || first == '@') then none
  else
    let more := (cs.drop 1).takeWhile isKindChar
    let (row, cs) ← run? Text.isDecimal (← blanks? (cs.drop (1 + more.length)))
    let (column, cs) ← run? Text.isDecimal (← blanks? cs)
    let (_, cs) ← run? Text.isDecimal (← blanks? cs)
    let (_, cs) ← run? Text.isDecimal (← blanks? cs)
    return ⟨first :: more, row, column, ← lineText? (← blanks? cs)⟩

/-- How the rest of an at-capture line can be read as its text. -/
inductive Tail
  /-- The rest is no text. -/
  | unreadable
  /-- The rest is nothing but blanks, which name nothing. -/
  | blank
  | text (cs : List Char)
deriving DecidableEq, Repr

/-- Reads the rest of a line as its text, after a colon if one comes first; a colon
that nothing follows is the text itself. -/
def tail (cs : List Char) : Tail :=
  let onlyBlanks := fun blanks : List Char =>
    if blanks.any (· != '\n') then Tail.blank else .unreadable
  match skipBlanks cs with
  | [] => onlyBlanks cs
  | ':' :: rest =>
    match skipBlanks rest with
    | [] =>
      match onlyBlanks rest with
      | .blank => .blank
      | _ => .text [':']
    | _ => (lineText? rest).elim .unreadable .text
  | _ => (lineText? cs).elim .unreadable .text

/-- The end position after a hyphen. -/
def range? (cs : List Char) : Option (List Char) := do
  let (_, rest) ← pair? (← mark? '-' cs)
  return rest

/-- Fields of an at-capture line; what looks like an end position is the text if
nothing else is. -/
def atCaptureFields? (line : List Char) : Option Fields := do
  let (kind, cs) ← run? isKindChar (← mark? '@' line)
  let ((row, column), cs) ← pair? ((mark? ':' cs).getD cs)
  let found := match range? cs with
    | some rest =>
      match tail rest with
      | .unreadable => tail cs
      | readable => readable
    | none => tail cs
  match found with
  | .text text => return ⟨kind, row, column, text⟩
  | _ => none

/-- The first answer of `read` at the places after an occurrence of `key`; `before`
is the character before the rest of the line. -/
def search {α : Type} (key : List Char) (bounded : Bool) (read : List Char → Option α)
    (before : Option Char) : List Char → Option α
  | [] => none
  | c :: rest =>
    let here :=
      if key.isPrefixOf (c :: rest) && !(bounded && before.any Text.isWord) then
        read ((c :: rest).drop key.length)
      else none
    here.or (search key bounded read (some c) rest)

/-- A kind name after an optional number and hyphen and an optional `@`. -/
def keyedKind? (cs : List Char) : Option (List Char) :=
  let named := fun cs : List Char =>
    (run? isKindChar (match cs with
      | '@' :: rest => rest
      | _ => cs)).map (·.1)
  let cs := skipBlanks cs
  let numbered := do
    let (_, rest) ← run? Text.isDecimal cs
    named (skipBlanks (← mark? '-' rest))
  numbered.or (named cs)

/-- The text inside double quotes, where a backslash keeps the next character from
ending it; the backslashes stay. -/
def doubleQuoted? (read : List Char) : List Char → Option (List Char)
  | [] => none
  | '"' :: _ => some read.reverse
  | '\\' :: c :: rest => if c = '\n' then none else doubleQuoted? (c :: '\\' :: read) rest
  | c :: rest => if c = '\\' then none else doubleQuoted? (c :: read) rest

/-- The text up to the next `quote`. -/
def quoted? (quote : Char) (cs : List Char) : Option (List Char) :=
  let text := cs.takeWhile (· != quote)
  if text.length < cs.length then some text else none

/-- A text in double quotes, backticks or single quotes. -/
def keyedText? (cs : List Char) : Option (List Char) :=
  match skipBlanks cs with
  | '"' :: rest => doubleQuoted? [] rest
  | '`' :: rest => quoted? '`' rest
  | '\'' :: rest => quoted? '\'' rest
  | _ => none

/-- Each escaped double quote as a plain one. -/
def unescapeQuotes : List Char → List Char
  | '\\' :: '"' :: rest => '"' :: unescapeQuotes rest
  | c :: rest => c :: unescapeQuotes rest
  | [] => []

/-- The key of a value in a key-value line. -/
def key (s : String) : List Char := s.toList ++ [':']

/-- Fields of a key-value line; a start position is preferred to a row and column. -/
def keyValueFields? (line : List Char) : Option Fields := do
  let kind ← search (key "capture") false keyedKind? none line
  let text ← search (key "text") false keyedText? none line
  let start := search (key "start") false (fun cs => (pair? cs).map (·.1)) none line
  let count := fun cs => (number? cs).map (·.1)
  let (row, column) ← start.or (do
    let row ← search (key "row") true count none line
    let column ← searchColumn count none line
    return (row, column))
  return ⟨kind, row, column, unescapeQuotes text⟩
where
  /-- The first column, under either of its keys. -/
  searchColumn (count : List Char → Option (List Char)) (before : Option Char) :
      List Char → Option (List Char)
    | [] => none
    | c :: rest =>
      let here := fun k : List Char =>
        if k.isPrefixOf (c :: rest) && !before.any Text.isWord then
          count ((c :: rest).drop k.length)
        else none
      ((here (key "col")).or (here (key "column"))).or (searchColumn count (some c) rest)

/-- The fields of a line in a dialect. -/
def fields? : Dialect → List Char → Option Fields
  | positional => positionalFields?
  | atCapture => atCaptureFields?
  | keyValue => keyValueFields?

/-- The text without one layer of backticks or double quotes around it. -/
def unquote (text : List Char) : List Char :=
  let text := Text.trimChars text
  let strip := fun q : Char =>
    if 2 ≤ text.length ∧ text.head? = some q ∧ text.getLast? = some q then
      some (text.drop 1).dropLast
    else none
  ((strip '`').or (strip '"')).getD text

/-- The capture that the fields describe: a known kind, machine-sized positions and
a text that is not empty. Its line is the row plus one. -/
def build (f : Fields) (file : Path) : Except Cause (Option Capture) :=
  match CaptureKind.ofName? (String.ofList f.kind), Count.read? f.row, Count.read? f.column with
  | some kind, some row, some column =>
    let text := unquote f.text
    if text.isEmpty then .ok none
    else match Count.add? row 1 with
      | some line => .ok (some ⟨kind, ⟨file, line, column⟩, String.ofList text⟩)
      | none => .error .overflow
  | _, _, _ => .ok none

/-- The capture on a line, if the dialect reads one there. -/
def parseLine (d : Dialect) (line : List Char) (file : Path) : Except Cause (Option Capture) :=
  match d.fields? line with
  | some f => build f file
  | none => .ok none

/-- The captures on the lines of an output that the dialect reads. -/
def parseLines (d : Dialect) (file : Path) (lines : List (List Char)) :
    Except Cause (List Capture) := do
  return (← lines.mapM (d.parseLine · file)).filterMap id

/-- The dialect that reads the most lines, of several the first; none if no dialect
reads any. -/
def best (counts : List (Dialect × Nat)) : Option Dialect :=
  (counts.foldl (fun (best : Option (Dialect × Nat)) (d, count) =>
    if count = 0 then best
    else match best with
      | none => some (d, count)
      | some (_, most) => if most < count then some (d, count) else best) none).map (·.1)

/-- How many lines of an output each dialect reads. -/
def counts (output : String) (file : Path) : Except Cause (List (Dialect × Nat)) :=
  let lines := Text.lines output.toList
  all.mapM fun d => do return (d, (← d.parseLines file lines).length)

/-- The dialect of an output. -/
def detect (output : String) (file : Path) : Except Cause (Option Dialect) := do
  return best (← counts output file)

/-- Puts a capture behind those of positions up to its own. -/
def insertByPosition (c : Capture) : List Capture → List Capture
  | [] => [c]
  | d :: rest =>
    if Location.before (c.location.line, c.location.column) (d.location.line, d.location.column)
    then c :: d :: rest
    else d :: insertByPosition c rest

/-- Captures by line and column; equal positions keep their order. -/
def sortByPosition (captures : List Capture) : List Capture :=
  captures.foldl (fun sorted c => insertByPosition c sorted) []

/-- The captures of an output in source order. -/
def parseCaptures (output : String) (file : Path) : Except Cause (List Capture) := do
  match ← detect output file with
  | none => return []
  | some d => return sortByPosition (← d.parseLines file (Text.lines output.toList))

end Dialect

end SymbolRename
