import SymbolRename.CommandLine.Option
import SymbolRename.Operation

/-!
# Commands

The commands of the command line and their options. Some options belong to all
commands and can stand before or after the command's name.
-/

namespace SymbolRename.CommandLine

/-- How an answer is printed. -/
inductive OutputFormat
  | summary
  | json
deriving DecidableEq, Repr

/-- Where a name is looked for. -/
structure ScopeArguments where
  file : Option Path
  lines : Option LineRange
  paths : List Path
deriving DecidableEq, Repr

/-- Where mappings come from: a file, pairs on the command line, or both. -/
structure MappingArguments where
  file : Option Path
  pairs : List String
deriving DecidableEq, Repr

/-- A command. -/
inductive Command
  | find (name : String) (scope : ScopeArguments)
  | rename (old new : String) (scope : ScopeArguments) (dryRun : Bool)
  | plan (mappings : MappingArguments) (paths : List Path)
  | batch (mappings : MappingArguments) (paths : List Path) (flags : Operation.BatchFlags)
  | restore (id : String)
  | version
deriving DecidableEq, Repr

/-- A command with what all commands have. -/
structure Invocation where
  command : Command
  preview : PreviewKind
  quiet : Bool
  noColor : Bool
  /-- How often the search was asked to skip less. -/
  level : Nat
  directory : Option Path
  queryCommand : Option String
  output : OutputFormat
deriving DecidableEq, Repr

/-! ### Options -/

/-- The options of all commands. -/
def globalOptions : List OptionSpec :=
  [{ long := "no-color" }, { long := "unrestricted", short := some 'u', repeats := true },
    { long := "", short := some 'C', takesValue := true },
    { long := "query-cmd", takesValue := true }, { long := "output", takesValue := true }]

/-- The options of commands that show something. -/
def previewOptions : List OptionSpec :=
  [{ long := "preview", takesValue := true }, { long := "quiet", short := some 'q' }]

/-- The options that narrow a scope. -/
def scopeOptions : List OptionSpec :=
  [{ long := "file", takesValue := true }, { long := "lines", takesValue := true }]

/-- The options that name mappings. -/
def mappingOptions : List OptionSpec :=
  [{ long := "mappings", short := some 'm', takesValue := true },
    { long := "map", takesValue := true, repeats := true }]

/-- The option of commands that can leave the files alone. -/
def dryRunOption : OptionSpec := { long := "dry-run" }

/-- The options of a command, besides those of all commands. -/
def optionsOf? (command : String) : Option (List OptionSpec) :=
  match command with
  | "find" => some (scopeOptions ++ previewOptions)
  | "rename" => some (dryRunOption :: scopeOptions ++ previewOptions)
  | "plan" => some (mappingOptions ++ previewOptions)
  | "batch" =>
    some (dryRunOption :: { long := "commit" } :: { long := "no-snapshot" } ::
      mappingOptions ++ previewOptions)
  | "restore" => some []
  | "version" => some []
  | _ => none

/-! ### Values -/

/-- A path on the command line is not empty. -/
def path? (text : String) : Option Path := if text = "" then none else some ⟨text⟩

/-- The value of an option, which is read if it is given. -/
def read? {α : Type} (read : String → Option α) (text : Option String) : Option (Option α) :=
  text.elim (some none) fun t => (read t).map some

/-- The name of a preview format, in small letters. -/
def previewKind? (text : String) : Option PreviewKind :=
  match text with
  | "table" => some .table
  | "diff" => some .diff
  | "none" => some .none
  | _ => none

/-- The name of an output format. -/
def outputFormat? (text : String) : Option OutputFormat :=
  match text with
  | "summary" => some .summary
  | "json" => some .json
  | _ => none

/-- The truth value of a variable. -/
def truth? (text : String) : Option Bool :=
  match text with
  | "true" => some true
  | "false" => some false
  | _ => none

/-- The scope of a command: lines need a file, and a file leaves no paths to search. -/
def scope? (arguments : List Argument) (paths : List String) : Option ScopeArguments := do
  let file ← read? path? (Argument.value? "file" arguments)
  let lines ← read? (fun t => (LineRange.parse t).toOption) (Argument.value? "lines" arguments)
  let paths ← paths.mapM path?
  if (lines.isSome && file.isNone) || (file.isSome && !paths.isEmpty) then none
  else some ⟨file, lines, paths⟩

/-- The mappings of a command, of which there have to be some. -/
def mappings? (arguments : List Argument) : Option MappingArguments := do
  let file ← read? path? (Argument.value? "mappings" arguments)
  let pairs := Argument.values "map" arguments
  if file.isNone && pairs.isEmpty then none else some ⟨file, pairs⟩

/-- The command with the given name and arguments. -/
def command? (name : String) (arguments : List Argument) : Option Command :=
  let dryRun := Argument.has "dry-run" arguments
  match name, Argument.words arguments with
  | "find", name :: paths => do return .find name (← scope? arguments paths)
  | "rename", old :: new :: paths => do
    return .rename old new (← scope? arguments paths) dryRun
  | "plan", paths => do return .plan (← mappings? arguments) (← paths.mapM path?)
  | "batch", paths => do
    let flags := ⟨dryRun, Argument.has "commit" arguments, Argument.has "no-snapshot" arguments⟩
    return .batch (← mappings? arguments) (← paths.mapM path?) flags
  | "restore", [] => some (.restore Operation.latest)
  | "restore", [id] => some (.restore id)
  | "version", [] => some .version
  | _, _ => none

/-- What a command previews unless it is told otherwise. -/
def defaultPreview : Command → PreviewKind
  | .rename _ _ _ _ => .diff
  | _ => .table

/-! ### Whole command lines -/

/-- The variables that a command line heeds. -/
structure Variables where
  /-- Stands in for the option against colours. -/
  noColor : Option String
  /-- Stands in for the option with a query command. -/
  queryCommand : Option String
  /-- Whatever it holds, it asks to tell how answers of a query command are read. -/
  tellAnswers : Option String
  /-- Whatever it holds, it asks to tell what searches find. -/
  tellSearches : Option String

/-- What the variables ask to be told. -/
def Variables.verbosity (v : Variables) : Verbosity :=
  ⟨v.tellAnswers.isSome, v.tellSearches.isSome⟩

/-- The highest count of an option. -/
def highestCount : Nat := 255

/-- The invocation that a command line stands for. An option after the command's name
wins over one before it, and both win over a variable. -/
def Invocation.parse? (v : Variables) (arguments : List String) : Option Invocation := do
  let (before, rest) ← readArguments? globalOptions true none arguments
  match rest with
  | [] => none
  | name :: rest =>
    let specs := globalOptions ++ (← optionsOf? name)
    let (after, _) ← readArguments? specs false none rest
    if !(givenOnce globalOptions before && givenOnce specs after) then none
    else
      let value? := fun key => (Argument.value? key after).or (Argument.value? key before)
      let counted := fun key arguments => min highestCount (Argument.count key arguments)
      let level := counted "unrestricted" after
      let command ← command? name after
      let asked ← read? truth? v.noColor
      let directory ← read? path? (value? "C")
      let output ← read? outputFormat? (value? "output")
      let preview ← read? previewKind? (Argument.value? "preview" after)
      return {
        command
        preview := preview.getD (defaultPreview command)
        quiet := Argument.has "quiet" after
        noColor :=
          Argument.has "no-color" after || Argument.has "no-color" before || asked.getD false
        level := if level = 0 then counted "unrestricted" before else level
        directory
        queryCommand := (value? "query-cmd").or v.queryCommand
        output := output.getD .summary }

end SymbolRename.CommandLine
