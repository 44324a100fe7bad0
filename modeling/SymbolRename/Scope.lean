import SymbolRename.Location

/-!
# Scopes

A rename runs in one file, in a line range of one file, or in every file below some
roots.
-/

namespace SymbolRename

/-- Where a rename applies. -/
inductive Scope
  | file (path : Path)
  | lines (path : Path) (range : LineRange)
  | project (roots : List Path)
deriving DecidableEq, Repr

namespace Scope

/-- The line range of a scope that has one. -/
def range? : Scope → Option LineRange
  | lines _ range => some range
  | _ => none

/-- The scope as shown to people. -/
def display : Scope → String
  | file path => path.text
  | lines path range => s!"{path.text}:{range.display}"
  | project roots => ", ".intercalate (roots.map (·.text))

end Scope

end SymbolRename
