import SymbolRename.Dialect
import SymbolRename.Source
import SymbolRename.Text.Replace
import SymbolRename.Tool

/-!
# Query commands

A query command runs an external tool for each file and reads the captures that it
prints. The tool is pointed at a temporary copy of the content in question, so it
sees edits that are not on disk yet. The command is a template with placeholders for
the file, the name and the query file.
-/

namespace SymbolRename

/-- The template of a tool's command line. -/
structure QueryCommand where
  program : String
  arguments : List String
  queryFile : Option Path
deriving DecidableEq, Repr

namespace QueryCommand

/-- The placeholder of the copy's path. -/
def fileMark : String := "\x7bfile\x7d"

/-- The placeholder of the name that is looked for. -/
def nameMark : String := "\x7bname\x7d"

/-- The placeholder of the query file's path. -/
def queryMark : String := "\x7bquery\x7d"

/-- A command needs a program, and a query file if it names one. -/
def make (words : List String) (queryFile : Option Path) : Except InputFault QueryCommand :=
  let named := words.any fun w => Text.occursIn queryMark.toList w.toList
  match words with
  | [] => .error .emptyQueryCommand
  | program :: arguments =>
    if Text.trim program = "" then .error .emptyQueryCommand
    else if queryFile.isNone && named then .error .missingQueryFile
    else .ok ⟨program, arguments, queryFile⟩

/-- The command on a line, whose words are separated by blanks. -/
def parse (line : String) (queryFile : Option Path) : Except InputFault QueryCommand :=
  make ((Text.words line.toList).map String.ofList) queryFile

/-- An argument with its placeholders filled in. -/
def expand (c : QueryCommand) (file : Path) (name argument : String) : String :=
  let filled := Text.replace nameMark name (Text.replace fileMark file.text argument)
  c.queryFile.elim filled fun query => Text.replace queryMark query.text filled

/-- Where the temporary copy of a file goes: with the extension of the file, so that
the tool picks the right language. -/
def copyPath (path : Path) : Path :=
  let extension := path.extension?.elim "" fun e => s!".{e}"
  ⟨s!"/tmp/.refactor-query-000000{extension}"⟩

/-- The output of the tool for a file. -/
def output (c : QueryCommand) (programs : Programs) (d : Disk) (file : Path) (name : String) :
    Except Cause String :=
  match programs d c.program (c.arguments.map (c.expand file name)) with
  | none => .error (.query file s!"failed to run {c.program}: {FileFault.missing.message}")
  | some r =>
    if r.status = 0 then .ok (Utf8.decodeLossy r.output)
    else
      let complaints := Text.trim (Utf8.decodeLossy r.complaints)
      .error (.query file s!"{c.program} exited with exit status: {r.status}: {complaints}")

/-- The output of the tool for a content: the tool reads the temporary copy. -/
def answer (c : QueryCommand) (programs : Programs) (d : Disk) (path : Path)
    (content name : String) : Except Cause String := do
  let copy := copyPath path
  let d ← (d.write copy (bytes content)).mapError .io
  c.output programs d copy name

/-- The source that runs the command. -/
def source (c : QueryCommand) (programs : Programs) : Source := fun d path content name => do
  Dialect.parseCaptures (← c.answer programs d path content name) path

/-- What can be told about an answer: how many lines of it each dialect reads. -/
def remarks (c : QueryCommand) (programs : Programs) (d : Disk) (path : Path)
    (content name : String) : List String :=
  let counted := do Dialect.counts (← c.answer programs d path content name) path
  match counted with
  | .ok counts => counts.map fun (d, count) => s!"QUERY: dialect {d.name} parsed {count} lines"
  | .error _ => []

end QueryCommand

end SymbolRename
