import SymbolRename.Fault

/-!
# Failures of commands

A failure is what stopped a command, with the actions that were under way, the
outermost first.
-/

namespace SymbolRename

/-- What stopped a command. -/
inductive Trouble
  | cause (c : Cause)
  /-- A file that only the command itself needs. -/
  | file (fault : FileFault)
  /-- Another process holds the lock. -/
  | lockHeld (process : Nat) (path : Path)
  /-- The configuration file is malformed. -/
  | configuration
deriving DecidableEq, Repr

/-- What stopped a command and what it was doing. -/
structure Failure where
  contexts : List String := []
  trouble : Trouble
deriving DecidableEq, Repr

namespace Trouble

/-- The wording, followed by the wording of what lies behind it. -/
def messages : Trouble → List String
  | cause (.io fault) => [Cause.message (.io fault), fault.message]
  | cause c => [c.message]
  | file fault => [fault.message]
  | lockHeld process path =>
    [s!"Another refactor process is already running (PID: {process}). " ++
      s!"If this is incorrect, remove the lock file at: {path.text}"]
  | configuration => []

/-- The trouble lies with what the user asked for. -/
def isInput : Trouble → Bool
  | cause (.input _) => true
  | cause (.fileNotFound _) => true
  | _ => false

end Trouble

namespace Failure

/-- A failure outside any action. -/
def ofCause (c : Cause) : Failure := { trouble := .cause c }

/-- A failure of the input. -/
def ofInput (f : InputFault) : Failure := .ofCause (.input f)

/-- A failure of a file. -/
def ofFile (f : FileFault) : Failure := { trouble := .file f }

/-- The failure seen from an action around it. -/
def within (context : String) (f : Failure) : Failure :=
  { f with contexts := context :: f.contexts }

/-- The wording: the contexts and the trouble, each followed by what lies behind it. -/
def message (f : Failure) : String := ": ".intercalate (f.contexts ++ f.trouble.messages)

end Failure

end SymbolRename
