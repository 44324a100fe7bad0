import SymbolRename.Change
import SymbolRename.Plan

/-!
# Batch reports

What a batch reports: the net effect of each mapping and of the whole batch.
-/

namespace SymbolRename

/-- The net effect of one mapping. -/
structure MappingReport where
  old : String
  new : String
  changes : Nat := 0
  filesTouched : PathSet := []
  /-- The changed places, which only a preview shows. -/
  locations : List Change := []
deriving DecidableEq, Repr

/-- The effect of a batch. -/
structure Report where
  mappings : List MappingReport := []
  totalChanges : Nat := 0
  totalFiles : Nat := 0
  circularRenames : Nat := 0
  dryRun : Bool := false
  stepsExecuted : Nat := 0
  interrupted : Bool := false
  warnings : List String := []
  ambiguities : List Ambiguity := []
  failures : List FileFailure := []
deriving DecidableEq, Repr

end SymbolRename
