import SymbolRename.Disk
import SymbolRename.Mapping.Text

/-!
# Mapping files

A mapping set can come from a file.
-/

namespace SymbolRename.Mapping

/-- The mapping set that a file holds. -/
def load (d : Disk) (path : Path) : Except InputFault (List Mapping) := do
  parse (← (d.readText path).mapError (.mappingFile path))

end SymbolRename.Mapping
