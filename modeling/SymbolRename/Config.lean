import SymbolRename.Failure
import SymbolRename.QueryCommand
import SymbolRename.Search
import SymbolRename.Toml.Printer
import SymbolRename.Toml.Reader

/-!
# The configuration of a project

A TOML file with two tables, every member of which can be left out. Unknown members
are passed over; a known one of the wrong type makes the file malformed.
-/

namespace SymbolRename

/-- What operations do unless they are told otherwise. -/
structure Defaults where
  includes : List String := []
  excludes : List String := []
  extensions : List String := []
  /-- How little is skipped in a search. -/
  level : Nat := 0
  /-- Whether to use colours, if that is settled. -/
  color : Option Bool := none
  /-- A batch saves files before each step. -/
  snapshots : Bool := true
  /-- A batch commits what it changed. -/
  commit : Bool := false
deriving DecidableEq, Repr

/-- The external query tool; without a command the built-in lexers are used. -/
structure QueryConfig where
  command : Option String := none
  queryFile : Option String := none
deriving DecidableEq, Repr

/-- The configuration of a project. -/
structure Config where
  defaults : Defaults := {}
  query : QueryConfig := {}
deriving DecidableEq, Repr

namespace Config

/-- A member with its value read, or the default if there is none. -/
def member {α : Type} (v : Option Toml) (read : Toml → Option α) (default : α) : Option α :=
  v.elim (some default) read

/-- The first number that is too large for a level. -/
def levelLimit : Nat := 256

/-- The names of the members of the defaults, in order. -/
def defaultsNames : List String :=
  ["include", "exclude", "extensions", "unrestricted_level", "use_color", "create_snapshots",
    "commit"]

/-- Reads the defaults. -/
def defaults? (v : Toml) : Option Defaults := do
  let get ← v.record? defaultsNames
  return {
    includes := ← member (get "include") Toml.strings? []
    excludes := ← member (get "exclude") Toml.strings? []
    extensions := ← member (get "extensions") Toml.strings? []
    level := ← member (get "unrestricted_level") (Toml.below? levelLimit) 0
    color := ← member (get "use_color") (fun v => v.boolean?.map some) none
    snapshots := ← member (get "create_snapshots") Toml.boolean? true
    commit := ← member (get "commit") Toml.boolean? false }

/-- Reads the query tool. -/
def query? (v : Toml) : Option QueryConfig := do
  let get ← v.record? ["command", "query_file"]
  return {
    command := ← member (get "command") (fun v => v.string?.map some) none
    queryFile := ← member (get "query_file") (fun v => v.string?.map some) none }

/-- The configuration in a file's text, unless it is malformed. -/
def parse? (text : String) : Option Config := do
  let members ← Toml.parse? text
  return {
    defaults := ← member (members.lookup "defaults") defaults? {}
    query := ← member (members.lookup "query") query? {} }

/-- The text of a configuration; members that are not settled are left out. -/
def render (c : Config) : String :=
  let truth := fun b : Bool => if b then "true" else "false"
  let optional := fun (key : String) (v : Option String) => v.elim "" (Toml.line key)
  let d := c.defaults
  "[defaults]\n" ++ Toml.line "include" (Toml.quotedList d.includes) ++
    Toml.line "exclude" (Toml.quotedList d.excludes) ++
    Toml.line "extensions" (Toml.quotedList d.extensions) ++
    Toml.line "unrestricted_level" (toString d.level) ++
    optional "use_color" (d.color.map truth) ++
    Toml.line "create_snapshots" (truth d.snapshots) ++
    Toml.line "commit" (truth d.commit) ++
    "\n[query]\n" ++ optional "command" (c.query.command.map Toml.quoted) ++
    optional "query_file" (c.query.queryFile.map Toml.quoted)

/-- The file's name in the directory of the program's own files. -/
def fileName : String := "config.toml"

/-- The place of a project's configuration. -/
def pathIn (root : Path) : Path := (root.join ⟨Search.stateDirectory⟩).join ⟨fileName⟩

/-- The configuration in a file. -/
def loadFile (d : Disk) (path : Path) : Except Failure Config := do
  let text ← (d.readText path).mapError .ofFile
  (parse? text).elim (.error { trouble := .configuration }) .ok

/-- The configuration of a project, which may have no file of its own. -/
def load (d : Disk) (root : Path) : Except Failure Config :=
  if d.exists (pathIn root) then loadFile d (pathIn root) else .ok {}

/-- Writes a configuration to a file, whose directory is made if it is missing. -/
def save (d : Disk) (path : Path) (c : Config) : Except Failure Disk :=
  Except.mapError .ofFile do
    let d ← path.parent?.elim (pure d) d.makeDirectories
    d.write path (bytes c.render)

/-- The files that a search looks at. -/
def filter (c : Config) : Filter :=
  { includes := c.defaults.includes
    excludes := c.defaults.excludes
    extensions := c.defaults.extensions
    level := c.defaults.level }

/-- The query file, seen from the root of the project. -/
def queryFile? (c : Config) (root : Path) : Option Path :=
  c.query.queryFile.map fun file => root.join ⟨file⟩

/-- The query command that the configuration asks for, if it does. -/
def queryCommand (c : Config) (root : Path) : Except InputFault (Option QueryCommand) :=
  match c.query.command with
  | none => .ok none
  | some line => do return some (← QueryCommand.parse line (c.queryFile? root))

example : parse? "defaults.commit = true\n" = some { defaults := { commit := true } } := by
  decide +kernel

end Config

end SymbolRename
