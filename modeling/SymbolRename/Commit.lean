import SymbolRename.Batch

/-!
# Commits

A batch can commit the files that it changed. Without files there is nothing to
commit; files outside a work tree cannot be committed.
-/

namespace SymbolRename.CommitHook

/-- What the version control tool says outside a work tree. -/
def noWorkTree : String :=
  "Not in a git repository: git rev-parse failed: " ++
    "fatal: not a git repository (or any of the parent directories): .git"

/-- The commits of a project that lies in no work tree. -/
def outsideWorkTree : CommitHook := fun _ files =>
  if files.isEmpty then .ok "nothing to commit" else .error noWorkTree

end SymbolRename.CommitHook
