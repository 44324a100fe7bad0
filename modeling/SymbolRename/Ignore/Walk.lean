import SymbolRename.Disk
import SymbolRename.Ignore.Rule

/-!
# The files below a directory

A walk lists the files below a root that are not skipped. An entry is skipped when
the ignore files of the directories above it or their repository say so, or when it
is hidden and they say nothing; nothing below a skipped directory is listed. How much
is skipped depends on the level: from level 1 on the version control's ignore files
do not count, from level 2 on nothing is skipped.
-/

namespace SymbolRename.Ignore

/-- The names of ignore files at a level. The files of one group are read as one,
and an earlier group has precedence. -/
def fileGroups (level : Nat) : List (List String) :=
  match level with
  | 0 => [[".gitignore", ".rgignore", ".refactorignore"], [".ignore"]]
  | 1 => [[".rgignore", ".refactorignore"], [".ignore"]]
  | _ => []

/-- Hidden entries are skipped at the first two levels. -/
def skipsHidden (level : Nat) : Bool := level < 2

/-- A hidden name begins with a dot. -/
def isHidden (name : String) : Bool := name.toList.head? == some '.'

/-- The rules that a group of ignore files in a directory holds. -/
def groupRules (d : Disk) (directory : Place) (names : List String) : List Rule :=
  names.flatMap fun name =>
    match d.nodeAt? (directory ++ [name]) with
    | some (.file content _) => rulesOf content
    | _ => []

/-- The directories above a place, the nearest first, each with the names that lead
from it to the place. -/
def above (p : Place) : List (Place × Place) :=
  (List.range p.length).reverse.map fun i => (p.take i, p.drop i)

/-- What a group of ignore files says about an entry: the nearest directory that
says anything decides. -/
def groupVerdict? (d : Disk) (names : List String) (p : Place) (isDirectory : Bool) :
    Option Verdict :=
  (above p).findSome? fun (directory, rest) =>
    verdict? (groupRules d directory names) ("/".intercalate rest) isDirectory

/-- The directory that makes the one above it a work tree. -/
def repositoryName : String := ".git"

/-- Where a repository keeps its own rules for its work tree. -/
def repositoryRules : Place := [repositoryName, "info", "exclude"]

/-- What the repository of the nearest work tree says about an entry. -/
def repositoryVerdict? (d : Disk) (p : Place) (isDirectory : Bool) : Option Verdict := do
  let (directory, rest) ←
    (above p).find? fun (directory, _) => (d.nodeAt? (directory ++ [repositoryName])).isSome
  match d.nodeAt? (directory ++ repositoryRules) with
  | some (.file content _) => verdict? (rulesOf content) ("/".intercalate rest) isDirectory
  | _ => none

/-- The rules of repositories count at the first two levels. -/
def heedsRepositories (level : Nat) : Bool := level < 2

/-- What all rules that count at a level say about an entry; those of ignore files
have precedence. -/
def entryVerdict? (d : Disk) (level : Nat) (p : Place) (isDirectory : Bool) : Option Verdict :=
  ((fileGroups level).findSome? fun names => groupVerdict? d names p isDirectory).or
    (if heedsRepositories level then repositoryVerdict? d p isDirectory else none)

/-- The entry is skipped at a level. -/
def skips (d : Disk) (level : Nat) (p : Place) (isDirectory : Bool) : Bool :=
  match entryVerdict? d level p isDirectory with
  | some .ignore => true
  | some .keep => false
  | none => skipsHidden level && (p.getLast?.any isHidden)

/-- The file and the directories between it and the root are not skipped. -/
def isReached (d : Disk) (level : Nat) (root below : Place) : Bool :=
  (List.range below.length).all fun i =>
    !skips d level (root ++ below.take (i + 1)) (i + 1 < below.length)

/-- The names that lead from the root to each file that is reached. -/
def reached (d : Disk) (level : Nat) (root : Place) : List Place :=
  d.nodes.filterMap fun (p, n) =>
    match n with
    | .file _ _ =>
      let below := p.drop root.length
      if root.isPrefixOf p && isReached d level root below then some below else none
    | .directory _ => none

/-- The files that a walk from a root lists, each spelled as the root continued. -/
def walk (d : Disk) (level : Nat) (root : Path) : List Path :=
  match d.open? root with
  | .ok (p, .directory _) =>
    (reached d level p).map fun below => root.join ⟨"/".intercalate below⟩
  | _ => []

end SymbolRename.Ignore
