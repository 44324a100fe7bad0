import SymbolRename.CommandLine
import SymbolRename.Tool.Shell
import Std.Time.DateTime.Timestamp

/-!
# The program

Reads the files below the current directory and those that arguments name, runs the
command line on them, writes back what changed, and prints.
-/

namespace SymbolRename.Program

/-- An entry of a directory with everything below it. Links are not followed. -/
partial def loadEntry (above : Place) (entry : IO.FS.DirEntry) : IO (List (Place × Node)) := do
  let place := above ++ [entry.fileName]
  match (← entry.path.symlinkMetadata).type with
  | .dir =>
    let below ← (← entry.path.readDir).toList.mapM (loadEntry place)
    return (place, .directory Node.directoryMode) :: below.flatten
  | .file =>
    try
      return [(place, .file (← IO.FS.readBinFile entry.path).data.toList Node.fileMode)]
    catch _ => return []
  | _ => return []

/-- A directory or file with everything below it. -/
def loadTree (path : String) : IO (List (Place × Node)) := do
  let real ← IO.FS.realPath path
  let place := real.toString.splitOn "/" |>.filter (· != "")
  if ← real.isDir then
    let below ← (← real.readDir).toList.mapM (loadEntry place)
    return (place, .directory Node.directoryMode) :: below.flatten
  else return [(place, .file (← IO.FS.readBinFile real).data.toList Node.fileMode)]

/-- The directories above a place. -/
def directoriesAbove (p : Place) : List (Place × Node) :=
  (List.range p.length).map fun i => (p.take i, .directory Node.directoryMode)

/-- Adds what is there below a path, unless it is known already. -/
def addTree (nodes : List (Place × Node)) (path : String) : IO (List (Place × Node)) := do
  try
    let found ← loadTree path
    let all := (found.head?.elim [] fun (p, _) => directoriesAbove p) ++ found
    return nodes ++ all.filter fun (p, _) => (nodes.lookup p).isNone
  catch _ => return nodes

/-- The numbers of the processes that run. -/
def processes : IO (List Nat) := do
  try
    let entries ← (← IO.FS.realPath "/proc").readDir
    return entries.toList.filterMap (·.fileName.toNat?)
  catch _ => return []

/-- The number of this process. -/
def thisProcess : IO Nat := do
  try
    let words := (← IO.FS.readFile "/proc/self/stat").splitOn " "
    return (words.head?.bind String.toNat?).getD 0
  catch _ => return 0

/-- Writes back the files that are new or other than before, and removes the files
that are gone. -/
def writeBack (before after : Disk) : IO Unit := do
  for (p, n) in after.nodes do
    if before.nodes.lookup p != some n then
      match n with
      | .directory _ => IO.FS.createDirAll p.toPath.text
      | .file content _ =>
        IO.FS.createDirAll (Place.toPath p.dropLast).text
        IO.FS.writeBinFile p.toPath.text ⟨content.toArray⟩
  for (p, n) in before.nodes do
    if let .file _ _ := n then
      if (after.nodes.lookup p).isNone then IO.FS.removeFile p.toPath.text

/-- The directory for temporary copies, which is there even if nothing in it is
read. -/
def temporary : List (Place × Node) := [(["tmp"], .directory Node.directoryMode)]

/-- Runs the command line and answers with its status. -/
def run (arguments : List String) : IO UInt32 := do
  let here := (← IO.currentDir).toString.splitOn "/" |>.filter (· != "")
  let found ← ("." :: arguments).foldlM addTree []
  let nodes := found ++ temporary.filter fun (p, _) => (found.lookup p).isNone
  let d : Disk := { here, process := ← thisProcess, nodes }
  let now := (← Std.Time.Timestamp.now).toSecondsSinceUnixEpoch.val.toNat
  let running ← processes
  let env : Surroundings :=
    { machine := ⟨now, running.contains⟩
      programs := Shell.programs
      commits := CommitHook.outsideWorkTree }
  let heeded : CommandLine.Variables :=
    ⟨← IO.getEnv "NO_COLOR", ← IO.getEnv "REFACTOR_QUERY_CMD",
      ← IO.getEnv "REFACTOR_DEBUG_QUERY", ← IO.getEnv "REFACTOR_DEBUG_SEARCH"⟩
  let (after, printed) := CommandLine.run env heeded arguments d
  writeBack d after
  IO.print printed.output
  IO.eprint printed.complaints
  return UInt32.ofNat printed.code

end SymbolRename.Program

/-- The command line of the program. -/
def main (arguments : List String) : IO UInt32 := SymbolRename.Program.run arguments
