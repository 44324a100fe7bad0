import SymbolRename.Glob
import SymbolRename.Json.Reader
import SymbolRename.Location

/-!
# Faults

Everything that can stop an operation, as causes. `Fault.message` is the wording:
the contexts an operation adds around a cause come first, each followed by a colon.
-/

namespace SymbolRename

/-- Why the file system refused an operation. -/
inductive FileFault
  | missing
  | notDirectory
  | exists
  | isDirectory
  | notEmpty
  | nameTooLong
  | nulInName
  | notUtf8
  /-- What should be copied is no file. -/
  | notRegular
  /-- A directory cannot be mapped into memory. -/
  | noDevice
  /-- The file was there when the edit began. -/
  | vanished (path : Path)
  /-- A store that refuses a path, with the word for what it refused. -/
  | refused (action : String)
  /-- The content is no JSON of the expected shape. -/
  | malformed (fault : Json.Fault)
deriving DecidableEq, Repr

/-- The wording of a file fault. -/
def FileFault.message : FileFault → String
  | missing => "No such file or directory (os error 2)"
  | notDirectory => "Not a directory (os error 20)"
  | «exists» => "File exists (os error 17)"
  | isDirectory => "Is a directory (os error 21)"
  | notEmpty => "Directory not empty (os error 39)"
  | nameTooLong => "File name too long (os error 36)"
  | nulInName => "file name contained an unexpected NUL byte"
  | notUtf8 => "stream did not contain valid UTF-8"
  | notRegular => "the source path is neither a regular file nor a symlink to a regular file"
  | noDevice => "No such device (os error 19)"
  | vanished path => s!"{path.text} no longer exists"
  | refused action => s!"{action} refused"
  | malformed fault => fault.message

/-- What is wrong with the input of an operation. -/
inductive InputFault
  | lineRange (fault : LineRange.Fault)
  | notIdentifier (name : String)
  | sameNames (name : String)
  | noMappings
  /-- A name of the mapping with this number is no identifier. -/
  | mappingName (number : Nat) (old new name : String)
  | mappingToItself (number : Nat) (old : String)
  | mappingJson (fault : Json.Fault)
  | mappingEntries (problem : Json.Problem)
  | mappingValue (old value : String)
  | mappingLine (number : Nat) (text : String)
  | mappingFile (path : Path) (fault : FileFault)
  | glob (text : String) (fault : Glob.Fault)
  | emptyQueryCommand
  /-- The query command names a query file, and there is none. -/
  | missingQueryFile
  /-- A line range without a file. -/
  | linesWithoutFile
  | unknownSnapshot (id : String)
  | noSnapshots
  /-- A request that is refused, in the words of who refused it. -/
  | refused (what : String)
deriving DecidableEq, Repr

/-- The wording of an input fault. -/
def InputFault.message : InputFault → String
  | lineRange (.bounds start stop) =>
    s!"line range {start}:{stop} must satisfy 1 <= start <= end"
  | lineRange (.text s) => s!"invalid line range '{s}'"
  | notIdentifier name => s!"'{name}' is not a valid identifier"
  | sameNames name => s!"old and new names are both '{name}'"
  | noMappings => "mapping set is empty"
  | mappingName number old new name =>
    s!"mapping {number} ({old} -> {new}): '{name}' is not a valid identifier"
  | mappingToItself number old => s!"mapping {number} renames '{old}' to itself"
  | mappingJson fault => s!"malformed mapping JSON: {fault.message}"
  | mappingEntries problem =>
    s!"mapping entries need string \"old\" and \"new\" fields: {problem.message}"
  | mappingValue old value => s!"mapping for '{old}' must be a string, got {value}"
  | mappingLine number text =>
    s!"line {number}: expected 'old=new', 'old -> new' or 'old new', got '{text}'"
  | mappingFile path fault => s!"cannot read mapping file {path.text}: {fault.message}"
  | glob text fault => s!"invalid glob: error parsing glob '{text}': {fault.message}"
  | emptyQueryCommand => "query command must not be empty"
  | missingQueryFile => "query command uses \x7bquery\x7d but no query file is configured"
  | linesWithoutFile => "--lines requires --file"
  | unknownSnapshot id => s!"no snapshot named '{id}'"
  | noSnapshots => "no batch snapshots to restore"
  | refused what => s!"{what} refused"

/-- The cause of a stopped operation. -/
inductive Cause
  | input (fault : InputFault)
  | fileNotFound (path : Path)
  /-- The query tool failed for a file. -/
  | query (path : Path) (message : String)
  | io (fault : FileFault)
  /-- A count would pass the largest machine number. -/
  | overflow
  /-- Spans to replace are out of order. -/
  | crossing
deriving DecidableEq, Repr

/-- The wording of a cause. -/
def Cause.message : Cause → String
  | input fault => s!"invalid input: {fault.message}"
  | fileNotFound path => s!"file not found: {path.text}"
  | query path message => s!"query tool failed for {path.text}: {message}"
  | io fault => s!"IO error: {fault.message}"
  | overflow => "a count is too large"
  | crossing => "spans are out of order"

end SymbolRename
