import SymbolRename.Role

/-!
# Changes and failures

What a rename reports: the places it changed, with the line before and after, and
the files it could not process.
-/

namespace SymbolRename

/-- A renamed use, with its whole line before and after the rename. -/
structure Change where
  location : Location
  role : Role
  before : String
  after : String
deriving DecidableEq, Repr

/-- A file that a rename could not process; other files are not affected. -/
structure FileFailure where
  path : Path
  /-- The index of the mapping whose step failed, in a batch. -/
  mapping : Option Nat := none
  message : String
deriving DecidableEq, Repr

/-- A list of paths in their order, each once however it is spelled. -/
abbrev PathSet := List Path

namespace PathSet

/-- Adds a path; one that is there already stays as it was spelled first. -/
def insert (p : Path) : PathSet → PathSet
  | [] => [p]
  | q :: rest =>
    match p.compare q with
    | .lt => p :: q :: rest
    | .eq => q :: rest
    | .gt => q :: insert p rest

/-- Adds paths one after the other. -/
def insertAll (paths : List Path) (s : PathSet) : PathSet := paths.foldl (fun s p => insert p s) s

/-- The paths of a list, in their order and each once. -/
def ofList (paths : List Path) : PathSet := insertAll paths []

end PathSet

/-- What a rename did. -/
structure Outcome where
  changes : List Change := []
  filesTouched : PathSet := []
  failures : List FileFailure := []
deriving DecidableEq, Repr

end SymbolRename
