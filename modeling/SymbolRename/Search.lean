import SymbolRename.Change
import SymbolRename.Ignore.Walk
import SymbolRename.Store
import SymbolRename.Text.Literal

/-!
# Candidate files

A search lists the files whose bytes contain one of some needles. It is a filter
only: a candidate may hold a needle in a string or as a part of a longer name.
-/

namespace SymbolRename

/-- Which files of a project are searched. -/
structure Filter where
  /-- Globs of which a path has to match one, if there are any. -/
  includes : List String := []
  /-- Globs of which a path must match none. -/
  excludes : List String := []
  /-- The extensions that are searched; all if there are none. -/
  extensions : List String := []
  /-- How little is skipped. -/
  level : Nat := 0
deriving DecidableEq, Repr

namespace Search

/-- The directory of the program's own files, which is never searched. -/
def stateDirectory : String := ".refactor"

/-- The globs of a list; a name without dots or wildcards, and one with a slash at
its end, stand for what is below them too. -/
def globTexts (pattern : String) : List String :=
  let cs := pattern.toList
  if cs.getLast? = some '/' then [pattern, pattern ++ "**"]
  else if cs.contains '*' || cs.contains '?' || cs.contains '.' then [pattern]
  else [pattern, pattern ++ "/**"]

/-- Reads the globs of a list; an empty list is no restriction. -/
def globs? (patterns : List String) : Except InputFault (Option (List Glob)) := do
  if patterns.isEmpty then return none
  else
    return some (← (patterns.flatMap globTexts).mapM fun text =>
      (Glob.parse {} text).mapError (.glob text))

/-- One of the globs stands for the path. -/
def anyAccepts (globs : List Glob) (path : String) : Bool := globs.any (·.accepts path)

/-- The bytes that mark the encoding of a text. -/
def encodingMarks : List Bytes :=
  [[0xef, 0xbb, 0xbf], [0, 0, 0xfe, 0xff], [0xff, 0xfe, 0, 0], [0xfe, 0xff], [0xff, 0xfe]]

/-- The bytes with which binary formats without zero bytes begin. -/
def binaryMarks : List Bytes := [bytes "%PDF", [0x89, 0x50, 0x4e, 0x47]]

/-- How much of a file is looked at to tell text from binary data. -/
def inspectedSize : Nat := 1024

/-- Binary data has a zero byte near its beginning or a known mark at it, and no mark
of a text's encoding. -/
def isBinary (content : Bytes) : Bool :=
  !(encodingMarks.any content.startsWith) &&
    ((content.take inspectedSize).contains 0 || binaryMarks.any content.startsWith)

/-- The extension of the path is one that is searched. -/
def extensionAllowed (f : Filter) (path : Path) : Bool :=
  f.extensions.isEmpty ||
    path.extension?.any fun extension =>
      f.extensions.any fun allowed =>
        Text.lower (String.ofList (allowed.toList.dropWhile (· == '.'))) == Text.lower extension

/-- From level 3 on, binary data is searched as text. -/
def binaryAsText (f : Filter) : Bool := 3 ≤ f.level

/-- The file is read, counts as text and contains a needle. -/
def holds (s : Store) (f : Filter) (needles : List Bytes) (path : Path) : Bool :=
  match s.read path with
  | .error _ => false
  | .ok content =>
    (binaryAsText f || !isBinary content) && needles.any fun needle => Bytes.contains needle content

/-- A walked path seen from the first root above it. -/
def relativeTo (roots : List Path) (path : Path) : Path :=
  (roots.findSome? fun root => path.below? root).getD path

/-- The path lies in a directory of the program's own files. -/
def inStateDirectory (path : Path) : Bool := path.components.contains (.name stateDirectory)

/-- A walked file passes the filter. -/
def admits (f : Filter) (includes excludes : Option (List Glob)) (roots : List Path)
    (path : Path) : Bool :=
  let relative := relativeTo roots path
  !inStateDirectory relative && extensionAllowed f path &&
    includes.all (anyAccepts · relative.text) && !excludes.any (anyAccepts · relative.text)

/-- The files that are looked at: the roots that are files, and the walked files that
pass the filter. Without roots the current directory is walked. -/
def searched (s : Store) (roots : List Path) (f : Filter) (includes excludes : Option (List Glob)) :
    List Path :=
  let (files, directories) := roots.partition s.disk.isFile
  let walked := (if roots.isEmpty then [⟨"."⟩] else directories).flatMap
    (Ignore.walk s.disk f.level)
  files ++ walked.filter (admits f includes excludes directories)

/-- The files that contain one of the needles, in their order and each once. -/
def candidates (s : Store) (roots : List Path) (f : Filter) (needles : List String) :
    Except Cause (List Path) := do
  let needles := (needles.filter (· != "")).map bytes
  if needles.isEmpty then return []
  else
    let includes ← (globs? f.includes).mapError .input
    let excludes ← (globs? f.excludes).mapError .input
    return PathSet.ofList ((searched s roots f includes excludes).filter (holds s f needles))

/-- What can be told about a search: how many files it found, and what for. -/
def remark (found : List Path) (needles : List String) : String :=
  let listed := ", ".intercalate (needles.map Text.literal)
  s!"SEARCH: {found.length} candidate files for [{listed}]"

end Search

end SymbolRename
