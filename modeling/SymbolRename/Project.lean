import SymbolRename.Batch
import SymbolRename.Config
import SymbolRename.Lock
import SymbolRename.Preview

/-!
# Projects

A project is a directory with an own directory for the program's files. Opening it
reads its configuration and settles where captures come from and which files are
searched.
-/

namespace SymbolRename

/-- What somebody wants to be told besides results. -/
structure Verbosity where
  /-- How answers of a query command are read. -/
  answers : Bool := false
  /-- What searches find. -/
  searches : Bool := false
deriving DecidableEq, Repr

/-- What the machine offers to an operation besides the disk. -/
structure Surroundings where
  machine : Machine
  programs : Programs
  commits : CommitHook
  verbosity : Verbosity := {}

/-- Settings of an operation that win over the configuration. -/
structure ProjectOptions where
  /-- The root of the project; else it is the current directory. -/
  workingDir : Option Path := none
  /-- Where to search; the whole project if there are none. -/
  paths : List Path := []
  level : Option Nat := none
  queryCommand : Option String := none
  color : Option Bool := none
deriving DecidableEq, Repr

/-- A project that is open for one operation. -/
structure Project where
  root : Path
  config : Config
  engine : Engine

namespace Project

/-- The highest level of a search. -/
def highestLevel : Nat := 3

/-- The query command of the options, or the one that is configured, if any. -/
def queryCommand (o : ProjectOptions) (c : Config) (root : Path) :
    Except Failure (Option QueryCommand) :=
  match o.queryCommand with
  | some line =>
    match QueryCommand.parse line (c.queryFile? root) with
    | .ok command => .ok (some command)
    | .error fault => .error (.ofInput fault)
  | none =>
    (c.queryCommand root).mapError fun fault =>
      (Failure.ofInput fault).within "Failed to set up the query command"

/-- The engine that asks a query command, or else the built-in lexers. -/
def engineFor (env : Surroundings) (filter : Filter) (command : Option QueryCommand) : Engine :=
  let remarks : Remarks := { searches := env.verbosity.searches }
  match command with
  | none => ⟨.lexical, filter, remarks⟩
  | some c =>
    ⟨c.source env.programs, filter,
      if env.verbosity.answers then { remarks with ofAnswer := c.remarks env.programs }
      else remarks⟩

/-- Opens the project of the options. -/
def «open» (env : Surroundings) (o : ProjectOptions) (d : Disk) : Except Failure Project := do
  let root := d.canonical (o.workingDir.getD d.herePath)
  let config ← (Config.load d root).mapError (·.within "Failed to load .refactor/config.toml")
  let level := (o.level.map (min · highestLevel)).getD config.defaults.level
  let command ← queryCommand o config root
  return ⟨root, config, engineFor env { config.filter with level := level } command⟩

/-- The directory of the program's own files. -/
def stateDir (p : Project) : Path := p.root.join ⟨Search.stateDirectory⟩

/-- A path seen from the root of the project. -/
def resolve (p : Project) (path : Path) : Path := p.root.join path

/-- Where a search starts: the given paths, or the root without any. -/
def roots (p : Project) (d : Disk) (paths : List Path) : List Path :=
  if paths.isEmpty then [p.root] else paths.map fun path => d.canonical (p.resolve path)

/-- The scope of a rename: a file, some of its lines, or the searched paths. -/
def scope (p : Project) (d : Disk) (file : Option Path) (lines : Option LineRange)
    (paths : List Path) : Except Failure Scope :=
  match file, lines with
  | some file, some range => .ok (.lines (p.resolve file) range)
  | some file, none => .ok (.file (p.resolve file))
  | none, some _ => .error (.ofInput .linesWithoutFile)
  | none, none => .ok (.project (p.roots d paths))

/-- Previews are coloured if the options or the configuration ask for it. -/
def colored (p : Project) (o : ProjectOptions) : Bool :=
  useColor (o.color.or p.config.defaults.color) false

end Project

end SymbolRename
