import SymbolRename.Disk
import SymbolRename.Text.Replace

/-!
# Tools

A tool is a program that a query command runs. It reads the disk and answers with
its output, its complaints and a status, which is zero for success.
-/

namespace SymbolRename

/-- What a program answers. -/
structure ToolResult where
  output : Bytes := []
  complaints : Bytes := []
  status : Nat := 0
deriving DecidableEq, Repr

/-- The programs at hand: by name and arguments; none if there is no such program. -/
abbrev Programs := Disk → String → List String → Option ToolResult

namespace ToolResult

/-- A result that prints a text. -/
def print (s : String) : ToolResult := { output := bytes s }

/-- A result that fails without a word. -/
def fail (status : Nat) : ToolResult := { status := status }

/-- One result after the other, with the status of the later. -/
def followedBy (a b : ToolResult) : ToolResult :=
  ⟨a.output ++ b.output, a.complaints ++ b.complaints, b.status⟩

end ToolResult

namespace Tool

/-- The wording of a file fault in a tool's complaint. -/
def complaint : FileFault → String
  | .missing => "No such file or directory"
  | .notDirectory => "Not a directory"
  | .isDirectory => "Is a directory"
  | .nameTooLong => "File name too long"
  | fault => fault.message

/-- Prints one file. A lone hyphen is the standard input, which is empty. -/
def catFile (d : Disk) (name : String) : ToolResult :=
  if name = "-" then {}
  else match d.read ⟨name⟩ with
    | .ok content => { output := content }
    | .error fault =>
      { complaints := bytes s!"cat: {name}: {complaint fault}\n", status := 1 }

/-- Prints files one after the other; a single missing one makes it fail. -/
def cat (d : Disk) (names : List String) : ToolResult :=
  names.foldl (fun r name =>
    let next := catFile d name
    { r.followedBy next with status := max r.status next.status }) {}

/-- Prints its arguments on one line; `-n` leaves the end of the line out. -/
def echo (arguments : List String) : ToolResult :=
  match arguments with
  | "-n" :: rest => .print (" ".intercalate rest)
  | _ => .print (" ".intercalate arguments ++ "\n")

/-- What an escape of `printf` stands for. -/
def escaped (c : Char) : List Char :=
  match c with
  | 'n' => ['\n']
  | 't' => ['\t']
  | 'r' => ['\r']
  | '\\' => ['\\']
  | _ => ['\\', c]

/-- Fills a format with arguments: escapes, `%s` and `%%`. -/
def format (arguments : List String) : List Char → List Char
  | '\\' :: c :: rest => escaped c ++ format arguments rest
  | '%' :: 's' :: rest => (arguments.headD "").toList ++ format arguments.tail rest
  | '%' :: '%' :: rest => '%' :: format arguments rest
  | c :: rest => c :: format arguments rest
  | [] => []

/-- Prints a format. -/
def printf (arguments : List String) : ToolResult :=
  match arguments with
  | [] => .fail 2
  | f :: rest => .print (String.ofList (format rest f.toList))

/-- The utilities, by name. -/
def utility? : Programs := fun d name arguments =>
  match name with
  | "cat" => some (cat d arguments)
  | "echo" => some (echo arguments)
  | "printf" => some (printf arguments)
  | "true" => some {}
  | "false" => some (.fail 1)
  | _ => none

end Tool

end SymbolRename
