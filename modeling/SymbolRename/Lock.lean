import SymbolRename.Failure
import SymbolRename.Disk

/-!
# The lock

A command that changes files holds a lock: a file with the number of its process and
the time. A lock that is too old, that nobody holds any more or that cannot be read
is taken over.
-/

namespace SymbolRename

/-- A lock that is held: its file, and what was written there. -/
structure Lock where
  path : Path
  content : String
deriving DecidableEq, Repr

/-- What the machine tells besides its files: the time, and which processes run. -/
structure Machine where
  now : Nat
  running : Nat → Bool

namespace Lock

/-- The name of the lock in a directory. -/
def fileName : String := "refactor.lock"

/-- The age from which a lock counts for nothing, less one second. -/
def longestAge : Nat := 300

/-- The first number that is too large for a process. -/
def processLimit : Nat := Nat.pow 2 32

/-- The process and the time that a lock file names. -/
def holder? (content : String) : Option (Nat × Nat) := do
  let (process, time) ← Text.splitOnce? [':'] (Text.trim content).toList
  return (← (Count.read? process).filter (· < processLimit), ← Count.read? time)

/-- The process that holds a lock with this content. -/
def heldBy? (m : Machine) (content : String) : Option Nat := do
  let (process, time) ← holder? content
  if m.now - time ≤ longestAge && m.running process then some process else none

/-- What a process writes into its lock. -/
def contentOf (process now : Nat) : String := s!"{process}:{now}"

/-- First step: makes sure that there is no lock, which may mean to remove one. -/
def clear (m : Machine) (d : Disk) (path : Path) : Except Failure Disk :=
  match d.readText path with
  | .error _ => .ok d
  | .ok content =>
    match heldBy? m content with
    | some process => .error { trouble := .lockHeld process path }
    | none =>
      (d.remove path).mapError fun fault =>
        (Failure.ofFile fault).within "Failed to remove stale lock file"

/-- Takes the lock of a directory, which is made if it is missing. -/
def acquire (m : Machine) (d : Disk) (directory : Path) : Disk × Except Failure Lock :=
  let path := directory.join ⟨fileName⟩
  match clear m d path with
  | .error f => (d, .error f)
  | .ok d =>
    match d.makeDirectories directory with
    | .error fault =>
      (d, .error ((Failure.ofFile fault).within "Failed to create .refactor directory"))
    | .ok d =>
      let content := contentOf d.process m.now
      match d.writeNew path (bytes content) with
      | .error fault => (d, .error ((Failure.ofFile fault).within "Failed to create lock file"))
      | .ok d => (d, .ok ⟨path, content⟩)

/-- The file still holds what was written when the lock was taken. -/
def isOurs (d : Disk) (lock : Lock) : Bool :=
  match d.readText lock.path with
  | .ok content => Text.trim content == lock.content
  | .error _ => false

/-- Gives the lock up; one that somebody else took over stays. -/
def release (d : Disk) (lock : Lock) : Disk :=
  if isOurs d lock then
    match d.remove lock.path with
    | .ok d => d
    | .error _ => d
  else d

end Lock

end SymbolRename
