import SymbolRename.Fault
import SymbolRename.Text.Utf8

/-!
# The file tree

A disk holds files and directories at absolute places, and is seen by one process
that has a current directory. A path is followed name by name: every place on the
way has to be a directory. `nodeAt?_put` and `nodeAt?_drop` say what the two ways to
change a disk do to what stands at a place.
-/

namespace SymbolRename

/-- What stands at a place, with its permission bits. -/
inductive Node
  | file (content : Bytes) (mode : Nat)
  | directory (mode : Nat)
deriving DecidableEq, Repr

/-- A file tree as one process sees it. -/
structure Disk where
  /-- The current directory. -/
  here : Place
  /-- The number of the process. -/
  process : Nat
  /-- What stands where; the root is always a directory. -/
  nodes : List (Place × Node)
deriving Repr

namespace Node

/-- The permissions of new files. -/
def fileMode : Nat := 0o644

/-- The permissions of new directories. -/
def directoryMode : Nat := 0o755

/-- The permission bits. -/
def mode : Node → Nat
  | file _ mode => mode
  | directory mode => mode

end Node

namespace Disk

/-- What stands at a place. -/
def nodeAt? (d : Disk) (p : Place) : Option Node :=
  if p = [] then some (.directory Node.directoryMode) else d.nodes.lookup p

/-- The node list with a node put at a place. -/
def putNode (p : Place) (n : Node) : List (Place × Node) → List (Place × Node)
  | [] => [(p, n)]
  | (q, m) :: rest => if q = p then (p, n) :: rest else (q, m) :: putNode p n rest

/-- The disk with a node put at a place. -/
def put (d : Disk) (p : Place) (n : Node) : Disk := { d with nodes := putNode p n d.nodes }

/-- The disk with nothing at a place. -/
def drop (d : Disk) (p : Place) : Disk := { d with nodes := d.nodes.filter (·.1 != p) }

theorem lookup_putNode {p q : Place} {n : Node} {nodes : List (Place × Node)} :
    (putNode p n nodes).lookup q = if q = p then some n else nodes.lookup q := by
  induction nodes with
  | nil =>
    by_cases h : q = p
    · simp [putNode, h]
    · have hb : (q == p) = false := by simpa using h
      simp [putNode, List.lookup_cons, h, hb]
  | cons entry rest ih =>
    obtain ⟨r, m⟩ := entry
    by_cases hr : r = p
    · subst hr
      by_cases h : q = r
      · simp [putNode, h]
      · have hb : (q == r) = false := by simpa using h
        simp [putNode, List.lookup_cons, h, hb]
    · by_cases h : q = r
      · subst h
        simp [putNode, hr]
      · have hb : (q == r) = false := by simpa using h
        simp [putNode, List.lookup_cons, hr, hb, ih]

/-- A node that is put at a place is found there, and all others stay. -/
theorem nodeAt?_put {d : Disk} {p q : Place} {n : Node} (h : p ≠ []) :
    (d.put p n).nodeAt? q = if q = p then some n else d.nodeAt? q := by
  unfold nodeAt? put
  by_cases hq : q = []
  · subst hq
    simp [Ne.symm h]
  · simp [hq, lookup_putNode]

/-- Nothing is found at a place that was emptied, and all other nodes stay. -/
theorem nodeAt?_drop {d : Disk} {p q : Place} (h : p ≠ []) :
    (d.drop p).nodeAt? q = if q = p then none else d.nodeAt? q := by
  unfold nodeAt? drop
  by_cases hq : q = []
  · subst hq
    simp [Ne.symm h]
  · simp only [hq, if_false]
    induction d.nodes with
    | nil => simp
    | cons entry rest ih =>
      obtain ⟨r, m⟩ := entry
      by_cases hr : r = p
      · subst hr
        by_cases h : q = r
        · subst h
          simpa using ih
        · have hb : (q == r) = false := by simpa using h
          simpa [List.lookup_cons, hb, h] using ih
      · by_cases h : q = r
        · subst h
          simp [hr]
        · have hb : (q == r) = false := by simpa using h
          simpa [List.lookup_cons, hb, hr] using ih

/-! ### Following paths -/

/-- The longest name a file can have, in bytes. -/
def longestName : Nat := 255

/-- The longest path that can be followed, in bytes. -/
def longestPath : Nat := 4095

/-- One step from a place that has to be a directory. -/
def follow (d : Disk) (p : Place) (segment : String) : Except FileFault Place :=
  match d.nodeAt? p with
  | none => .error .missing
  | some (.file _ _) => .error .notDirectory
  | some (.directory _) =>
    if segment = "" ∨ segment = "." then .ok p
    else if segment = ".." then .ok p.dropLast
    else if longestName < (bytes segment).length then .error .nameTooLong
    else .ok (p ++ [segment])

/-- The place that a path names, whether or not something stands there; a slash or
dot at the end asks for a directory. -/
def locate (d : Disk) (path : Path) : Except FileFault Place :=
  if path.text = "" then .error .missing
  else if path.text.toList.contains '\x00' then .error .nulInName
  else if longestPath < (bytes path.text).length then .error .nameTooLong
  else path.segments.foldlM d.follow (if path.isAbsolute then [] else d.here)

/-- What a path leads to. -/
def open? (d : Disk) (path : Path) : Except FileFault (Place × Node) := do
  let p ← d.locate path
  match d.nodeAt? p with
  | none => .error .missing
  | some n => .ok (p, n)

/-- The path leads to a file. -/
def isFile (d : Disk) (path : Path) : Bool :=
  match d.open? path with
  | .ok (_, .file _ _) => true
  | _ => false

theorem isFile_iff {d : Disk} {path : Path} :
    d.isFile path = true ↔ ∃ p content mode, d.open? path = .ok (p, .file content mode) := by
  unfold isFile
  cases hopen : d.open? path with
  | error fault => simp
  | ok found =>
    obtain ⟨p, n⟩ := found
    cases n <;> simp

/-- The path leads to a directory. -/
def isDirectory (d : Disk) (path : Path) : Bool :=
  match d.open? path with
  | .ok (_, .directory _) => true
  | _ => false

/-- The path leads somewhere. -/
def «exists» (d : Disk) (path : Path) : Bool := (d.open? path).isOk

/-- The absolute path without detours to what the path leads to. -/
def canonical (d : Disk) (path : Path) : Path :=
  match d.open? path with
  | .ok (p, _) => p.toPath
  | .error _ => path

/-- The current directory as a path. -/
def herePath (d : Disk) : Path := d.here.toPath

/-! ### Reading -/

/-- The content of a file. -/
def read (d : Disk) (path : Path) : Except FileFault Bytes := do
  match ← d.open? path with
  | (_, .file content _) => return content
  | (_, .directory _) => .error .isDirectory

/-- The content of a file as text. -/
def readText (d : Disk) (path : Path) : Except FileFault String := do
  match Utf8.decode? (← d.read path) with
  | some s => return s
  | none => .error .notUtf8

/-- The names of the directories in a directory. -/
def directoriesIn (d : Disk) (path : Path) : List String :=
  match d.open? path with
  | .ok (p, .directory _) =>
    d.nodes.filterMap fun (q, n) =>
      match n with
      | .directory _ => if q.dropLast = p ∧ q ≠ [] then q.getLast? else none
      | .file _ _ => none
  | _ => []

/-! ### Changing -/

/-- The path without the slashes at its end; the root stays. -/
def withoutSlash (path : Path) : Path :=
  let text := String.ofList (Text.dropTrailing (· == '/') path.text.toList)
  if text = "" then path else ⟨text⟩

/-- The place where a file can be written: not a directory, and its own directory
is there. -/
def locateForWrite (d : Disk) (path : Path) : Except FileFault (Place × Option Node) := do
  let bare := withoutSlash path
  let p ← d.locate bare
  match d.nodeAt? p with
  | some (.directory _) => .error .isDirectory
  | found => if bare = path then .ok (p, found) else .error .isDirectory

/-- Writes a file over what it held; a new file gets the usual permissions. -/
def write (d : Disk) (path : Path) (content : Bytes) : Except FileFault Disk := do
  let (p, found) ← d.locateForWrite path
  return d.put p (.file content ((found.map Node.mode).getD Node.fileMode))

/-- Writes a file that must not exist yet. -/
def writeNew (d : Disk) (path : Path) (content : Bytes) : Except FileFault Disk := do
  if d.exists path then .error .exists else d.write path content

/-- Adds to the end of a file, which is created if it is missing. -/
def append (d : Disk) (path : Path) (content : Bytes) : Except FileFault Disk := do
  let (p, found) ← d.locateForWrite path
  match found with
  | some (.file old mode) => return d.put p (.file (old ++ content) mode)
  | _ => return d.put p (.file content Node.fileMode)

/-- The path with another extension. -/
def withExtension (path : Path) (extension : String) : Path :=
  match path.fileName? with
  | none => path
  | some name =>
    let stem := match Path.extensionOf? name with
      | some old => String.ofList (name.toList.take (name.length - old.length - 1))
      | none => name
    let segments := (path.segments.reverse.dropWhile fun s => (Path.stepOf? s).isNone).drop 1
    Path.ofSegments (segments.reverse ++ [stem ++ "." ++ extension])

/-- The scratch file beside a path, named for the process. -/
def scratch (d : Disk) (path : Path) : Path :=
  withExtension path s!"{d.process}.refactor.tmp"

/-- Puts new content in the place of a file in one move, by way of a scratch file
that leaves no trace; the permissions stay. -/
def replace (d : Disk) (path : Path) (content : Bytes) : Except FileFault Disk := do
  let (p, n) ← d.open? path
  let (q, _) ← d.locateForWrite (d.scratch path)
  match n with
  | .directory _ => .error .isDirectory
  | .file _ mode => return (d.drop q).put p (.file content mode)

/-- Removes a file. -/
def remove (d : Disk) (path : Path) : Except FileFault Disk := do
  match ← d.open? path with
  | (p, .file _ _) => return d.drop p
  | (_, .directory _) => .error .isDirectory

/-- Makes one directory. -/
def makeDirectory (d : Disk) (path : Path) : Except FileFault Disk := do
  let p ← d.locate (withoutSlash path)
  match d.nodeAt? p with
  | some _ => .error .exists
  | none => return d.put p (.directory Node.directoryMode)

/-- Makes a directory and those above it as far as they are missing. `fuel` bounds
how many there are. -/
def makeDirectoriesFrom : Nat → Disk → Path → Except FileFault Disk
  | 0, d, _ => .ok d
  | fuel + 1, d, path =>
    if path.text = "" then .ok d
    else match d.makeDirectory path with
      | .ok d => .ok d
      | .error .missing =>
        match path.parent? with
        | none => .error .missing
        | some parent => do
          let d ← makeDirectoriesFrom fuel d parent
          match d.makeDirectory path with
          | .ok d => .ok d
          | .error fault => if d.isDirectory path then .ok d else .error fault
      | .error fault => if d.isDirectory path then .ok d else .error fault

/-- Makes a directory and those above it as far as they are missing. -/
def makeDirectories (d : Disk) (path : Path) : Except FileFault Disk :=
  makeDirectoriesFrom (path.components.length + 2) d path

/-- Copies a file with its permissions. -/
def copy (d : Disk) (source target : Path) : Except FileFault Disk := do
  match ← d.open? source with
  | (_, .directory _) => .error .notRegular
  | (_, .file content mode) =>
    let (p, _) ← d.locateForWrite target
    return d.put p (.file content mode)

/-- Sets the permission bits. -/
def setMode (d : Disk) (path : Path) (mode : Nat) : Except FileFault Disk := do
  match ← d.open? path with
  | (p, .file content _) => return d.put p (.file content mode)
  | (p, .directory _) => return d.put p (.directory mode)

end Disk

end SymbolRename
