import SymbolRename.CommandLine.Command
import SymbolRename.Mapping.File

/-!
# The command line

Runs a command line: what it prints, what it complains about, and the status with
which it ends.
-/

namespace SymbolRename.CommandLine

/-- What a command line leaves behind besides the disk. -/
structure Printed where
  code : Nat
  output : String := ""
  complaints : String := ""
deriving DecidableEq, Repr

/-- The status for arguments that make no command, and for input that is refused. -/
def inputStatus : Nat := 2

/-- The status of all other failures. -/
def failureStatus : Nat := 3

/-- The name and version that the program tells. -/
def versionAnswer : VersionAnswer := ⟨"refactor", "0.1.0"⟩

/-- What is printed for arguments that make no command. -/
def usage : Printed :=
  { code := inputStatus, complaints := "error: the arguments make no command\n" }

/-- What is printed for a failure. -/
def failed (f : Failure) : Printed :=
  { code := if f.trouble.isInput then inputStatus else failureStatus
    complaints := s!"Error: {f.message}\n" }

/-- What is printed for an answer: its JSON text, or its summary after the preview. -/
def answered (i : Invocation) (summary : String) (json : Json) (preview : Option String) :
    Printed :=
  { code := 0
    output := match i.output with
      | .json => json.render
      | .summary => (if i.quiet then "" else preview.elim "" (· ++ "\n")) ++ summary }

/-- What is printed for an answer with a preview; what was told on the way goes with
the complaints. -/
def shown {α : Type} (i : Invocation) (s : Shown α) (summary : String) (json : Json) : Printed :=
  { answered i summary json s.preview with
    complaints := String.join (s.remarks.map (· ++ "\n")) }

/-- What is printed for the outcome of an operation. -/
def report {α : Type} (r : Except Failure α) (print : α → Printed) : Printed :=
  match r with
  | .ok a => print a
  | .error f => failed f

/-- The mappings of a command: first those of the file, then the pairs. -/
def loadMappings (d : Disk) (m : MappingArguments) : Except Failure (List Mapping) := do
  let ofFile ← match m.file with
    | none => pure []
    | some path =>
      (Mapping.load d path).mapError fun fault =>
        (Failure.ofInput fault).within s!"Failed to load mappings from {path.text}"
  let ofPairs ←
    if m.pairs.isEmpty then pure [] else (Mapping.parsePairs m.pairs).mapError Failure.ofInput
  return ofFile ++ ofPairs

/-- The settings of a command line for operations. -/
def optionsOf (i : Invocation) (paths : List Path) : ProjectOptions :=
  { paths := paths
    level := if i.level = 0 then none else some i.level
    queryCommand := i.queryCommand
    color := if i.noColor then some false else none }

/-- What is told when a batch stopped early. -/
def interruptedText : String := "Batch interrupted; completed steps stay applied.\n"

/-- Runs a batch with the mappings of its arguments. -/
def runBatch (env : Surroundings) (i : Invocation) (d : Disk) (m : MappingArguments)
    (paths : List Path) (flags : Operation.BatchFlags) : Disk × Printed :=
  match loadMappings d m with
  | .error f => (d, failed f)
  | .ok mappings =>
    let (d, r) := Operation.batch env (optionsOf i paths) d mappings flags false i.preview
    (d, report r fun s =>
      let p := shown i s s.answer.summary s.answer.json
      if s.answer.report.interrupted then { p with complaints := p.complaints ++ interruptedText }
      else p)

/-- Runs a command in the current directory. -/
def runCommand (env : Surroundings) (i : Invocation) (d : Disk) : Disk × Printed :=
  match i.command with
  | .find name scope =>
    let r := Operation.find env (optionsOf i scope.paths) d name scope.file scope.lines i.preview
    (d, report r fun s => shown i s s.answer.summary s.answer.json)
  | .rename old new scope dryRun =>
    let (d, r) := Operation.rename env (optionsOf i scope.paths) d old new scope.file scope.lines
      dryRun i.preview
    (d, report r fun s => shown i s s.answer.summary s.answer.json)
  | .plan m paths =>
    let r := do
      Operation.plan env (optionsOf i paths) d (← loadMappings d m) i.preview
    (d, report r fun s => shown i s s.answer.summary s.answer.json)
  | .batch m paths flags => runBatch env i d m paths flags
  | .restore id =>
    let (d, r) := Operation.restore env (optionsOf i []) d id
    (d, report r fun a => answered i a.summary a.json none)
  | .version =>
    let p := answered i versionAnswer.summary versionAnswer.json none
    (d, { p with output := p.output ++ "\n" })

/-- The disk seen from another directory. -/
def enter (d : Disk) (directory : Path) : Except FileFault Disk := do
  match ← d.open? directory with
  | (p, .directory _) => return { d with here := p }
  | (_, .file _ _) => .error .notDirectory

/-- Runs a command line; the current directory is the same afterwards. -/
def run (env : Surroundings) (v : Variables) (arguments : List String) (d : Disk) :
    Disk × Printed :=
  match Invocation.parse? v arguments with
  | none => (d, usage)
  | some i =>
    match i.directory.elim (.ok d) (enter d) with
    | .error fault =>
      let directory := (i.directory.map (·.text)).getD ""
      let failure := (Failure.ofFile fault).within s!"Failed to change to directory: {directory}"
      (d, { failed failure with code := inputStatus })
    | .ok inside =>
      let (after, printed) := runCommand { env with verbosity := v.verbosity } i inside
      ({ after with here := d.here }, printed)

end SymbolRename.CommandLine
