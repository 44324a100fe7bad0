import SymbolRename.Disk
import SymbolRename.Lexer
import SymbolRename.Occurrence

/-!
# Sources of captures

A source reports the uses of a name in a file. It is given the content of the file,
which can differ from what is on disk, and may look at the disk besides, as an
external tool does.
-/

namespace SymbolRename

/-- What reports captures: from the disk, the path and content of a file and a name. -/
abbrev Source := Disk → Path → String → String → Except Cause (List Capture)

/-- What is told besides results. -/
structure Remarks where
  /-- What is told about the answer of a source, which is given what the source is
  given. -/
  ofAnswer : Disk → Path → String → String → List String := fun _ _ _ _ => []
  /-- Each search for candidate files is told. -/
  searches : Bool := false

namespace Remarks

/-- Nothing is told. -/
def silent : Remarks := {}

end Remarks

namespace Source

/-- The built-in source: the lexer of the file's language. -/
def lexical : Source := fun _ path content name =>
  .ok (Lexer.captures path (bytes content) name)

/-- The occurrences of a name in one file; a file whose text does not contain the
name has none, and the source is not asked. -/
def occurrences (source : Source) (d : Disk) (path : Path) (content name : String)
    (range : Option LineRange) : Except Cause (List Occurrence) :=
  if Bytes.contains (bytes name) (bytes content) then do
    return Occurrence.select (← source d path content name) name range
  else .ok []

end Source

end SymbolRename
