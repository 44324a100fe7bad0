import SymbolRename.Change
import SymbolRename.Fault
import SymbolRename.Identifier
import SymbolRename.Occurrence
import SymbolRename.Text.Utf8

/-!
# Rewriting a file

`Rewrite.rewrite` replaces exactly the spans of the given occurrences. Every span is
checked first: it has to hold the old name with no identifier byte on either side,
and one span that does not rejects the whole file.
-/

namespace SymbolRename.Rewrite

/-- Why a file is not rewritten. -/
inductive Fault
  /-- The file has no such line. -/
  | outside (location : Location)
  /-- The span does not hold the name as a whole identifier. -/
  | mismatch (location : Location) (name : String)
  /-- The span's offset is too large a number. -/
  | overflow
  /-- The spans are out of order. -/
  | crossing
deriving DecidableEq, Repr

/-- The wording of a fault for one file; the other faults stop everything. -/
def Fault.message (f : Fault) : Except Cause String :=
  match f with
  | outside l => (l.display?).elim (.error .overflow) fun place => .ok s!"{place} is outside the file"
  | mismatch l name =>
    (l.display?).elim (.error .overflow) fun place =>
      .ok s!"{place} does not hold '{name}' as a whole identifier"
  | overflow => .error .overflow
  | crossing => .error .crossing

/-- The offsets just after each line feed, counted from `offset`. -/
def startsAfter (offset : Nat) : Bytes → List Nat
  | [] => []
  | b :: rest =>
    if b = Bytes.newline then (offset + 1) :: startsAfter (offset + 1) rest
    else startsAfter (offset + 1) rest

/-- The offset of the beginning of each line. -/
def lineStarts (content : Bytes) : List Nat := 0 :: startsAfter 0 content

/-- The bytes of a line, counted from one, without its line feed. -/
def lineBytes (content : Bytes) (line : Nat) : Bytes :=
  ((content.drop ((lineStarts content)[line - 1]?.getD content.length)).takeWhile
    (· != Bytes.newline))

/-- The text of a line without the carriage returns at its end. -/
def lineText (content : Bytes) (line : Nat) : String :=
  Utf8.decodeLossy (((lineBytes content line).reverse.dropWhile (· == 0x0d)).reverse)

/-- The bytes from one offset up to another. -/
def slice (content : Bytes) (start stop : Nat) : Bytes := (content.drop start).take (stop - start)

/-- The byte before an offset is no identifier byte. -/
def opens (content : Bytes) (offset : Nat) : Bool :=
  offset == 0 || !(content[offset - 1]?.any isIdentifierByte)

/-- The byte at an offset is no identifier byte. -/
def closes (content : Bytes) (offset : Nat) : Bool :=
  !(content[offset]?.any isIdentifierByte)

/-- The span holds the name as a whole identifier. -/
def holds (content name : Bytes) (offset : Nat) : Bool :=
  Bytes.startsWith (content.drop offset) name && opens content offset &&
    closes content (offset + name.length)

/-- The offset of an occurrence that was checked. -/
def offsetOf (content : Bytes) (starts : List Nat) (old : String) (o : Occurrence) :
    Except Fault Nat :=
  let start? := if o.location.line = 0 then none else starts[o.location.line - 1]?
  match start? with
  | none => .error (.outside o.location)
  | some start =>
    match Count.add? start o.location.column with
    | none => .error .overflow
    | some offset =>
      if (Count.add? offset (bytes old).length).isNone then .error .overflow
      else if holds content (bytes old) offset then .ok offset
      else .error (.mismatch o.location old)

/-- The content with the spans at the given offsets replaced; `cursor` is the end of
the last span, and each span has to begin after it. -/
def splice (content old new : Bytes) (cursor : Nat) : List Nat → Except Fault Bytes
  | [] => .ok (content.drop cursor)
  | offset :: rest =>
    if offset < cursor then .error .crossing
    else do
      let tail ← splice content old new (offset + old.length) rest
      return slice content cursor offset ++ new ++ tail

/-- The changes that occurrences report, from the contents before and after. -/
def changesOf (before after : Bytes) (occurrences : List Occurrence) : List Change :=
  occurrences.map fun o =>
    ⟨o.location, o.role, lineText before o.location.line, lineText after o.location.line⟩

/-- The content with every occurrence of `old` replaced by `new`, and what changed. -/
def rewrite (content : Bytes) (occurrences : List Occurrence) (old new : String) :
    Except Fault (Bytes × List Change) := do
  let offsets ← occurrences.mapM (offsetOf content (lineStarts content) old)
  let rewritten ← splice content (bytes old) (bytes new) 0 offsets
  return (rewritten, changesOf content rewritten occurrences)

end SymbolRename.Rewrite
