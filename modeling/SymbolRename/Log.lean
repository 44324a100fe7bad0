import SymbolRename.Clock
import SymbolRename.Disk

/-!
# The log

A log is a file to which lines are added, each after the time in brackets. What
cannot be written is lost: a log that fails does not fail the command.
-/

namespace SymbolRename

/-- The file of an open log. -/
structure Log where
  path : Path
deriving DecidableEq, Repr

namespace Log

/-- The name of the log in a directory. -/
def fileName : String := "refactor.log"

/-- Opens the log of a directory, which is made if it is missing. -/
def start (d : Disk) (directory : Path) : Except FileFault (Disk × Log) := do
  let d ← d.makeDirectories directory
  let path := directory.join ⟨fileName⟩
  return (← d.append path [], ⟨path⟩)

/-- A message as it stands in the log. -/
def line (now : Nat) (message : String) : String :=
  s!"[{(CalendarTime.ofSeconds now).text}] {message}\n"

/-- Adds a message. -/
def add (log : Log) (now : Nat) (d : Disk) (message : String) : Disk :=
  if d.isFile log.path then
    match d.append log.path (bytes (line now message)) with
    | .ok d => d
    | .error _ => d
  else d

/-- Adds messages in order. -/
def addAll (log : Log) (now : Nat) (d : Disk) (messages : List String) : Disk :=
  messages.foldl (log.add now) d

end Log

end SymbolRename
