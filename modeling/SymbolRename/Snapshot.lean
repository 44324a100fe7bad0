import SymbolRename.Batch
import SymbolRename.Digest.Sha256
import SymbolRename.Snapshot.Manifest

/-!
# Snapshots

A snapshot is a directory with copies of files, and a manifest that tells what was
copied. Putting it back gives each file the content it had when it was first saved.
-/

namespace SymbolRename

/-- A snapshot that is open. -/
structure Snapshot where
  directory : Path
  /-- What was saved, in order. -/
  entries : List SnapshotEntry
deriving DecidableEq, Repr

namespace Snapshot

/-- The manifest's place in a snapshot. -/
def manifestPath (directory : Path) : Path := directory.join ⟨"manifest.json"⟩

/-- The name of the copy of a file: the digest of its path. -/
def key (path : Path) : String := Sha256.hex (bytes path.text)

/-- The digest of a file's content. -/
def checksum (d : Disk) (path : Path) : Except FileFault String := do
  return Sha256.hex (← d.read path)

/-- Makes the directory of a new snapshot. -/
def create (d : Disk) (backups : Path) (id : String) : Except Cause (Disk × Snapshot) := do
  let directory := backups.join ⟨id⟩
  return (← (d.makeDirectories directory).mapError .io, ⟨directory, []⟩)

/-- Opens a snapshot of an earlier run; without a manifest it has no entries. -/
def load (d : Disk) (directory : Path) : Except Cause Snapshot :=
  let manifest := manifestPath directory
  if d.isFile manifest then do
    let text ← (d.readText manifest).mapError .io
    let entries ← (Manifest.parse text).mapError fun fault => .io (.malformed fault)
    return ⟨directory, entries⟩
  else .ok ⟨directory, []⟩

/-- A snapshot, the disk it is on, and what stopped the last action. -/
structure Taken where
  disk : Disk
  snapshot : Snapshot
  fault : Option Cause := none

/-- Copies one more file, unless something went wrong already. -/
def Taken.copy (label : String) (t : Taken) (path : Path) : Taken :=
  if t.fault.isSome then t
  else
    let backup := (t.snapshot.directory.join ⟨label⟩).join ⟨key path⟩
    match t.disk.copy path backup with
    | .error fault => { t with fault := some (.io fault) }
    | .ok d =>
      match checksum d path with
      | .error fault => { t with disk := d, fault := some (.io fault) }
      | .ok digest =>
        let entries := t.snapshot.entries ++ [⟨label, path, backup, digest⟩]
        { t with disk := d, snapshot := { t.snapshot with entries := entries } }

/-- Writes the manifest, unless something went wrong already. -/
def Taken.writeManifest (t : Taken) : Taken :=
  if t.fault.isSome then t
  else
    let text := Manifest.render t.snapshot.entries
    match t.disk.write (manifestPath t.snapshot.directory) (bytes text) with
    | .error fault => { t with fault := some (.io fault) }
    | .ok d => { t with disk := d }

/-- Saves files under a label. -/
def take (d : Disk) (s : Snapshot) (label : String) (files : List Path) : Taken :=
  if files.isEmpty then { disk := d, snapshot := s }
  else match d.makeDirectories (s.directory.join ⟨label⟩) with
    | .error fault => { disk := d, snapshot := s, fault := some (.io fault) }
    | .ok d => (files.foldl (Taken.copy label) { disk := d, snapshot := s }).writeManifest

/-- The hook of a batch that saves files in a snapshot. -/
def hook : SnapshotHook Snapshot := fun s d label files =>
  let t := take d s label files
  { state := t.snapshot, disk := t.disk, fault := t.fault }

/-- The first entry of each file, in order. -/
def firstEntries (entries : List SnapshotEntry) : List SnapshotEntry :=
  go [] entries
where
  /-- Passes over the files that were met already. -/
  go (met : List Path) : List SnapshotEntry → List SnapshotEntry
    | [] => []
    | e :: rest =>
      if met.any (·.same e.original) then go met rest else e :: go (e.original :: met) rest

/-- A disk to which files are put back, the files so far, and what stopped it. -/
structure Restored where
  disk : Disk
  files : List Path := []
  fault : Option Cause := none

/-- Puts one more file back, unless something went wrong already. -/
def Restored.putBack (r : Restored) (e : SnapshotEntry) : Restored :=
  if r.fault.isSome then r
  else
    let result := do
      let content ← r.disk.read e.backup
      if r.disk.isFile e.original then r.disk.replace e.original content
      else r.disk.write e.original content
    match result with
    | .error fault => { r with fault := some (.io fault) }
    | .ok d => { r with disk := d, files := r.files ++ [e.original] }

/-- Puts every file back to the content it had when it was first saved. -/
def restore (d : Disk) (s : Snapshot) : Restored :=
  (firstEntries s.entries).foldl Restored.putBack { disk := d }

end Snapshot

end SymbolRename
