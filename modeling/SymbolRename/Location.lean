import SymbolRename.Path
import SymbolRename.Text.Blank
import SymbolRename.Text.Number

/-!
# Positions and line ranges

A position names a file, a line counted from one and a column counted in bytes
from zero. A line range is written `10:20`, `10-20` or as a single line.
-/

namespace SymbolRename

/-- A position in a source file: lines start at one, byte columns at zero. -/
structure Location where
  file : Path
  line : Nat
  column : Nat
deriving DecidableEq, Repr

namespace Location

/-- The position as shown to people, with the column counted from one; none if
that count would be too large. -/
def display? (l : Location) : Option String :=
  (Count.add? l.column 1).map fun column => s!"{l.file.text}:{l.line}:{column}"

/-- Positions of one file are ordered by line, then column. -/
def before (a b : Nat × Nat) : Bool := a.1 < b.1 || (a.1 == b.1 && a.2 < b.2)

end Location

/-- An inclusive range of line numbers. -/
structure LineRange where
  start : Nat
  stop : Nat
deriving DecidableEq, Repr

namespace LineRange

/-- Why a line range is refused. -/
inductive Fault
  /-- The bounds are out of order, or start at zero. -/
  | bounds (start stop : Nat)
  /-- The text is not a line range. -/
  | text (s : String)
deriving DecidableEq, Repr

/-- A line range needs `1 ≤ start ≤ stop`. -/
def make (start stop : Nat) : Except Fault LineRange :=
  if start = 0 ∨ stop < start then .error (.bounds start stop) else .ok ⟨start, stop⟩

/-- The line lies in the range, bounds included. -/
def contains (r : LineRange) (line : Nat) : Bool := r.start ≤ line && line ≤ r.stop

/-- The range as text, both bounds written. -/
def display (r : LineRange) : String := s!"{r.start}:{r.stop}"

/-- Splits at the first `:` or `-`. -/
def splitBounds? : List Char → Option (List Char × List Char)
  | [] => none
  | c :: rest =>
    if c = ':' ∨ c = '-' then some ([], rest)
    else (splitBounds? rest).map fun (before, after) => (c :: before, after)

/-- Reads `10:20`, `10-20` or `15`; blanks around a number are ignored. -/
def parse (s : String) : Except Fault LineRange :=
  let number := fun cs => ((Count.read? (Text.trimChars cs)).elim (.error (.text s)) .ok)
  match splitBounds? s.toList with
  | some (before, after) => do make (← number before) (← number after)
  | none => do
    let line ← number s.toList
    make line line

theorem contains_iff {r : LineRange} {line : Nat} :
    r.contains line = true ↔ r.start ≤ line ∧ line ≤ r.stop := by
  simp [contains]

end LineRange

end SymbolRename
