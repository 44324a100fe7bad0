import SymbolRename.Mapping
import SymbolRename.Rewrite
import SymbolRename.Scope
import SymbolRename.Search
import SymbolRename.Source

/-!
# Renames

A rename replaces one name by another in every file of a scope. Files are
independent: one that cannot be read, located or written is reported as a failure,
and the others are renamed all the same. All access goes through a store, so a dry
run is the same computation over an overlay.
-/

namespace SymbolRename

/-- What a rename works with: where captures come from and which files are searched. -/
structure Engine where
  source : Source
  filter : Filter
  /-- What is told on the way. -/
  remarks : Remarks := .silent

namespace Rename

/-- Why one file is not searched or renamed. -/
inductive FileFault
  | unreadable (fault : SymbolRename.FileFault)
  | notText
  | source (cause : Cause)
  | span (fault : Rewrite.Fault)
  | unwritable (fault : SymbolRename.FileFault)
deriving DecidableEq, Repr

/-- The wording of a file's fault; some faults of the source and of spans stop
everything instead. -/
def FileFault.message : FileFault → Except Cause String
  | unreadable fault => .ok s!"failed to read: {fault.message}"
  | notText => .ok "file is not valid UTF-8"
  | source .overflow => .error .overflow
  | source .crossing => .error .crossing
  | source cause => .ok cause.message
  | span fault => fault.message
  | unwritable fault => .ok s!"failed to write: {fault.message}"

/-- The text of a file. -/
def readText (s : Store) (path : Path) : Except FileFault String := do
  let content ← (s.read path).mapError .unreadable
  (Utf8.decode? content).elim (.error .notText) .ok

/-- The files that a rename looks at: the file of the scope, or every file below its
roots that contains the name. -/
def candidates (e : Engine) (s : Store) (name : String) : Scope → Except Cause (List Path)
  | .file path | .lines path _ =>
    if s.exists path then .ok [path] else .error (.fileNotFound path)
  | .project roots => Search.candidates s roots e.filter [name]

/-- The occurrences of a name in one file. -/
def locate (e : Engine) (s : Store) (path : Path) (name : String) (range : Option LineRange) :
    Except FileFault (String × List Occurrence) := do
  let content ← readText s path
  let found ← (e.source.occurrences s.disk path content name range).mapError .source
  return (content, found)

/-- What is told when a name is located in a file. -/
def remarks (e : Engine) (s : Store) (path : Path) (name : String) : List String :=
  match readText s path with
  | .ok content =>
    if Bytes.contains (bytes name) (bytes content) then
      e.remarks.ofAnswer s.disk path content name
    else []
  | .error _ => []

/-- What is told when the files of a scope were searched for a name. -/
def searchRemarks (e : Engine) (name : String) (found : List Path) : Scope → List String
  | .project _ => if e.remarks.searches then [Search.remark found [name]] else []
  | _ => []

/-! ### Finding -/

/-- What has been found so far. -/
structure Findings where
  occurrences : List Occurrence := []
  failures : List FileFailure := []
  /-- What was told on the way. -/
  remarks : List String := []
deriving DecidableEq, Repr

/-- Adds what one file holds. -/
def Findings.visit (e : Engine) (s : Store) (name : String) (range : Option LineRange)
    (f : Findings) (path : Path) : Except Cause Findings :=
  let f := { f with remarks := f.remarks ++ Rename.remarks e s path name }
  match locate e s path name range with
  | .ok (_, found) => .ok { f with occurrences := f.occurrences ++ found }
  | .error fault => do
    return { f with failures := f.failures ++ [⟨path, none, ← fault.message⟩] }

/-- The occurrences of a name in a scope; nothing is changed. -/
def find (e : Engine) (s : Store) (name : String) (scope : Scope) : Except Cause Findings := do
  if !isValidIdentifier name then .error (.input (.notIdentifier name))
  else
    let paths ← candidates e s name scope
    paths.foldlM (Findings.visit e s name scope.range?)
      { remarks := searchRemarks e name paths scope }

/-! ### Renaming -/

/-- The store after a name was replaced in one file, and what changed. -/
def inFile (e : Engine) (s : Store) (path : Path) (old new : String)
    (range : Option LineRange) : Except FileFault (Store × List Change) := do
  let (content, found) ← locate e s path old range
  if found.isEmpty then return (s, [])
  else
    let (rewritten, changes) ← (Rewrite.rewrite (bytes content) found old new).mapError .span
    return (← (s.write path rewritten).mapError .unwritable, changes)

/-- A rename that is under way. -/
structure Progress where
  store : Store
  /-- The messages for the log, in order. -/
  log : List String := []
  outcome : Outcome := {}
  /-- What was told on the way. -/
  remarks : List String := []
  /-- What stopped the rename before its last file. -/
  stopped : Option Cause := none

namespace Progress

/-- One more message for the log. -/
def note (p : Progress) (message : String) : Progress := { p with log := p.log ++ [message] }

/-- Renames in one more file. -/
def visit (e : Engine) (old new : String) (range : Option LineRange) (p : Progress)
    (path : Path) : Progress :=
  if p.stopped.isSome then p
  else
    let p := { p with remarks := p.remarks ++ Rename.remarks e p.store path old }
    match inFile e p.store path old new range with
    | .ok (_, []) => p
    | .ok (store, changes) =>
      let p := p.note s!"{path.text}: {old} -> {new} ({changes.length} changes)"
      let outcome := { p.outcome with
        changes := p.outcome.changes ++ changes
        filesTouched := PathSet.insert path p.outcome.filesTouched }
      { p with store := store, outcome := outcome }
    | .error fault =>
      match fault.message with
      | .error cause => { p with stopped := some cause }
      | .ok message =>
        let p := p.note s!"FAILED {path.text}: {message}"
        { p with outcome := { p.outcome with
            failures := p.outcome.failures ++ [⟨path, none, message⟩] } }

end Progress

/-- Replaces `old` by `new` in the files of a scope. -/
def run (e : Engine) (s : Store) (old new : String) (scope : Scope) : Progress :=
  let files : Except Cause (List Path) := do
    (Mapping.validateNames old new).mapError .input
    candidates e s old scope
  match files with
  | .error cause => { store := s, stopped := some cause }
  | .ok paths =>
    paths.foldl (Progress.visit e old new scope.range?)
      { store := s, remarks := searchRemarks e old paths scope }

end Rename

end SymbolRename
