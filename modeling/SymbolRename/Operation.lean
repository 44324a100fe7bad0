import SymbolRename.Commit
import SymbolRename.Log
import SymbolRename.Preview
import SymbolRename.Project
import SymbolRename.Snapshot

/-!
# Operations

What a user can ask for: to find a name, to rename it, to plan or run a batch, and to
put a snapshot back. An operation that changes files holds the lock of its project
meanwhile and gives it up whatever happens; a dry run changes nothing and needs no
lock.
-/

namespace SymbolRename

/-- An answer, and what a preview shows with it. -/
structure Shown (α : Type) where
  answer : α
  preview : Option String
  /-- What was told on the way. -/
  remarks : List String := []

/-- The disk after an operation, and its answer. -/
abbrev Result (α : Type) := Disk × Except Failure α

namespace Operation

/-- A step that can fail, with the action that is under way. -/
def attempt {α : Type} (context : String) (r : Except Cause α) : Except Failure α :=
  r.mapError fun cause => (Failure.ofCause cause).within context

/-- What an action under the lock leaves: the disk, messages for the log, and its
answer. -/
structure Acted (α : Type) where
  disk : Disk
  messages : List String
  answer : Except Failure α

/-- Runs an action that changes files: under the lock of the project, and with its
messages added to the log. -/
def guarded {α : Type} (m : Machine) (p : Project) (d : Disk) (action : Disk → Acted α) :
    Result α :=
  match Lock.acquire m d p.stateDir with
  | (d, .error failure) =>
    (d, .error (failure.within "Failed to acquire lock for refactor operation"))
  | (d, .ok lock) =>
    match Log.start d p.stateDir with
    | .error fault =>
      (Lock.release d lock, .error ((Failure.ofFile fault).within "Failed to open refactor.log"))
    | .ok (d, log) =>
      let acted := action d
      (Lock.release (log.addAll m.now acted.disk acted.messages) lock, acted.answer)

/-! ### Finding -/

/-- The occurrences that an answer previews; none if there are none. -/
def findPreview (d : Disk) (kind : PreviewKind) (color : Bool) (found : List Occurrence) :
    Except Failure (Option String) :=
  if kind = .none ∨ found.isEmpty then .ok none
  else match Preview.occurrences? d.herePath found with
    | some painted => .ok (some (painted.render color))
    | none => .error (.ofCause .overflow)

/-- Finds every occurrence of a name. -/
def find (env : Surroundings) (o : ProjectOptions) (d : Disk) (name : String)
    (file : Option Path) (lines : Option LineRange) (kind : PreviewKind) :
    Except Failure (Shown FindAnswer) := do
  let p ← Project.open env o d
  let scope ← p.scope d file lines o.paths
  let found ← attempt s!"Failed to find '{name}'" (Rename.find p.engine { disk := d } name scope)
  let preview ← findPreview d kind (p.colored o) found.occurrences
  return ⟨⟨name, found.occurrences, found.failures⟩, preview, found.remarks⟩

/-! ### Renaming -/

/-- The messages before and after a rename in the log. -/
def renameMessages (old new : String) (scope : Scope) (r : Rename.Progress) : List String :=
  let o := r.outcome
  s!"Rename {old} -> {new} in {scope.display}" :: r.log ++
    if r.stopped.isSome then []
    else [s!"Rename {old} -> {new} finished: {o.changes.length} changes " ++
      s!"in {o.filesTouched.length} files, {o.failures.length} failures"]

/-- The changes that an answer previews; none if there are none. -/
def renamePreview (d : Disk) (kind : PreviewKind) (color : Bool) (old new : String)
    (changes : List Change) : Option String :=
  if kind = .none ∨ changes.isEmpty then none
  else some ((Preview.diff d.herePath changes old new).render color)

/-- The answer of a rename that is over. -/
def renameAnswer (d : Disk) (kind : PreviewKind) (color : Bool) (old new : String)
    (dryRun : Bool) (r : Rename.Progress) : Except Failure (Shown RenameAnswer) :=
  match r.stopped with
  | some cause => attempt s!"Failed to rename '{old}' to '{new}'" (.error cause)
  | none =>
    let preview := renamePreview d kind color old new r.outcome.changes
    .ok ⟨⟨old, new, dryRun, r.outcome⟩, preview, r.remarks⟩

/-- Renames a name in a scope. -/
def rename (env : Surroundings) (o : ProjectOptions) (d : Disk) (old new : String)
    (file : Option Path) (lines : Option LineRange) (dryRun : Bool) (kind : PreviewKind) :
    Result (Shown RenameAnswer) :=
  let opened := do
    let p ← Project.open env o d
    return (p, ← p.scope d file lines o.paths)
  match opened with
  | .error failure => (d, .error failure)
  | .ok (p, scope) =>
    let run := fun s : Store => Rename.run p.engine s old new scope
    let answer := renameAnswer d kind (p.colored o) old new dryRun
    if dryRun then (d, answer (run { disk := d, overlay := some [] }))
    else guarded env.machine p d fun d =>
      let r := run { disk := d }
      ⟨r.store.disk, renameMessages old new scope r, answer r⟩

/-! ### Planning -/

/-- Plans a batch. -/
def plan (env : Surroundings) (o : ProjectOptions) (d : Disk) (mappings : List Mapping)
    (kind : PreviewKind) : Except Failure (Shown PlanAnswer) := do
  let p ← Project.open env o d
  let plan ← attempt "Failed to plan batch"
    (Batch.plan p.engine.filter d (p.roots d o.paths) mappings)
  let preview :=
    if kind = .none then none
    else some ((Preview.steps plan mappings).render (p.colored o))
  return ⟨⟨mappings, plan⟩, preview, Batch.planRemarks p.engine d (p.roots d o.paths)⟩

/-! ### Batches -/

/-- How a batch runs. -/
structure BatchFlags where
  dryRun : Bool := false
  /-- Commit, whatever is configured. -/
  commit : Bool := false
  /-- Save no files, whatever is configured. -/
  noSnapshot : Bool := false
deriving DecidableEq, Repr

/-- The directory of all snapshots of a project. -/
def backupsDir (p : Project) : Path := p.stateDir.join ⟨"backups"⟩

/-- How much of a mapping set's digest is a part of its batch's name. -/
def hashLength : Nat := 8

/-- The name of a batch: the time, which orders names, and a mark of its mappings. -/
def batchId (now : Nat) (mappings : List Mapping) : String :=
  let hash := String.ofList ((Plan.setHash mappings).toList.take hashLength)
  s!"{(CalendarTime.ofSeconds now).stamp}-{hash}"

/-- The report as a preview shows it: a table, or the changes of each mapping. -/
def batchPreview (d : Disk) (kind : PreviewKind) (color : Bool) (r : Report) : Option String :=
  match kind with
  | .none => none
  | .table => some ((Preview.report r).render color)
  | .diff =>
    some (String.join ((r.mappings.filter fun m => !m.locations.isEmpty).map fun m =>
      s!"# {m.old} -> {m.new}\n" ++
        (Preview.diff d.herePath m.locations m.old m.new).render color))

/-- The answer of a batch that is over. -/
def batchAnswer {σ : Type} (d : Disk) (kind : PreviewKind) (color : Bool)
    (snapshotDir : Option Path) (run : Except Cause (Batch.State σ)) :
    Except Failure (Shown BatchAnswer) := do
  let context := "Failed to run batch"
  let st ← attempt context run
  let r ← attempt context (st.stopped.elim (.ok st.report) .error)
  return ⟨⟨r, snapshotDir⟩, batchPreview d kind color r, st.remarks⟩

/-- Runs a batch with a hook and gathers what it leaves. -/
def runBatch {σ : Type} (b : Batch.Options) (hook : SnapshotHook σ)
    (commits : Option CommitHook) (mappings : List Mapping) (d : Disk) (state : σ)
    (interrupt : Bool)
    (answer : Except Cause (Batch.State σ) → Except Failure (Shown BatchAnswer)) :
    Acted (Shown BatchAnswer) :=
  let run := Batch.run b hook commits mappings d state interrupt
  match run with
  | .error _ => ⟨d, [], answer run⟩
  | .ok st => ⟨st.store.disk, st.log, answer run⟩

/-- Runs a batch of mappings. -/
def batch (env : Surroundings) (o : ProjectOptions) (d : Disk) (mappings : List Mapping)
    (flags : BatchFlags) (interrupt : Bool) (kind : PreviewKind) : Result (Shown BatchAnswer) :=
  let opened := do
    (Mapping.validate mappings).mapError Failure.ofInput
    Project.open env o d
  match opened with
  | .error failure => (d, .error failure)
  | .ok p =>
    let b : Batch.Options := ⟨p.engine, p.roots d o.paths, flags.dryRun⟩
    if flags.dryRun then
      let run := Batch.run b .nothing none mappings d () interrupt
      (d, batchAnswer d kind (p.colored o) none run)
    else guarded env.machine p d fun d =>
      let commits :=
        if flags.commit || p.config.defaults.commit then some env.commits else none
      if p.config.defaults.snapshots && !flags.noSnapshot then
        match Snapshot.create d (backupsDir p) (batchId env.machine.now mappings) with
        | .error cause => ⟨d, [], attempt "Failed to create snapshot directory" (.error cause)⟩
        | .ok (d, snapshot) =>
          runBatch b Snapshot.hook commits mappings d snapshot interrupt
            (batchAnswer d kind (p.colored o) (some snapshot.directory))
      else
        runBatch b .nothing commits mappings d () interrupt
          (batchAnswer d kind (p.colored o) none)

/-! ### Restoring -/

/-- The name that stands for the last snapshot. -/
def latest : String := "latest"

/-- The last of some names in their order. -/
def lastOf? (names : List String) : Option String :=
  names.foldl (fun best name =>
    match best with
    | some b => if b < name then some name else some b
    | none => some name) none

/-- The name and directory of a snapshot. -/
def resolveSnapshot (d : Disk) (backups : Path) (id : String) :
    Except Failure (String × Path) :=
  if id = latest then
    match lastOf? (d.directoriesIn backups) with
    | some name => .ok (name, backups.join ⟨name⟩)
    | none => .error (.ofInput .noSnapshots)
  else if d.isDirectory (backups.join ⟨id⟩) then .ok (id, backups.join ⟨id⟩)
  else .error (.ofInput (.unknownSnapshot id))

/-- Puts the files of a snapshot back. -/
def putBack (d : Disk) (name : String) (directory : Path) : Acted RestoreAnswer :=
  let context := s!"Failed to restore snapshot '{name}'"
  match Snapshot.load d directory with
  | .error cause => ⟨d, [], attempt context (.error cause)⟩
  | .ok snapshot =>
    let r := Snapshot.restore d snapshot
    match r.fault with
    | some cause => ⟨r.disk, [], attempt context (.error cause)⟩
    | none =>
      ⟨r.disk, [s!"Restore {name}: {r.files.length} files"], .ok ⟨name, directory, r.files⟩⟩

/-- Puts the files that a batch changed back. -/
def restore (env : Surroundings) (o : ProjectOptions) (d : Disk) (id : String) :
    Result RestoreAnswer :=
  let opened := do
    let p ← Project.open env o d
    return (p, ← resolveSnapshot d (backupsDir p) id)
  match opened with
  | .error failure => (d, .error failure)
  | .ok (p, name, directory) => guarded env.machine p d fun d => putBack d name directory

end Operation

end SymbolRename
