import SymbolRename.Proofs.Operation.Restoring
import SymbolRename.Proofs.Snapshot.Single

/-!
# Batches that run one after the other

The snapshots of batches of one project stay apart as long as their names differ: a batch leaves
what was saved before alone, so that each snapshot is kept through the whole history
(`Operation.History.stands`). Putting any of them back, by its name or by the word for the last one,
gives the files that its batch changed what they held just before.

Two batches of one second have names that differ in the marks of their mappings only. The same
mappings give the same name, and other marks need not ascend, so that the word for the last snapshot
can mean one that was made before the last (`Operation.latest_misses`).
-/

namespace SymbolRename

/-- The disk as it is for everybody. -/
def Disk.shared (d : Disk) : Disk := d.seenFrom [] 0

/-- What is touched for one is touched for everybody. -/
theorem Disk.Keeps.shared {own : Place → Bool} {may : Place → Prop} {d e : Disk} {here : Place}
    {process : Nat} (h : (d.seenFrom here process).Keeps own may e) :
    d.shared.Keeps own may e.shared := h.seenFrom [] 0 0

namespace Operation

/-- A batch that has run, with the disk before and after it. -/
structure Ran where
  call : BatchCall
  before : Disk
  after : Disk

/-- Batches have run in a project one after the other, have succeeded and have saved files. -/
inductive History (project : Place) (start : Disk) : List Ran → Disk → Prop where
  | nil : History project start [] start
  | snoc {runs d e} (c : BatchCall) (h : History project start runs d)
      (hrun : c.Succeeds project d e) : History project start (runs ++ [⟨c, d, e⟩]) e

/-- What is expected of a history: its batches have names of their own, which nothing among the
backups has before the first of them. -/
structure Orderly (project : Place) (start : Disk) (runs : List Ran) : Prop where
  home : start.HasProject project
  named : ∀ p, project.inState p = false → (start.nodeAt? p).isSome = true → p.IsNamed
  keys : Batch.KeysDiffer project.inState start
  /-- Nothing among the backups at the start has the name of a batch. -/
  unused : ∀ r ∈ runs, ∀ names, start.nodeAt? (project.snapshot r.call.id ++ names) = none
  clear : ∀ r ∈ runs, (r.call.view start).ScratchClear project.inState
  outside : ∀ r ∈ runs, r.call.SearchesOutside project r.before
  now : ∀ r ∈ runs, r.call.now < CalendarTime.lastMoment
  /-- The clock does not go back. -/
  clock : runs.Pairwise fun r r' => r.call.now ≤ r'.call.now
  /-- In one second the marks of the mappings tell the batches apart. -/
  marks : runs.Pairwise fun r r' => r.call.now = r'.call.now → r.call.id ≠ r'.call.id

/-- A batch comes last by its name: none of its second has a later one, and nothing that stood among
the backups before. -/
structure ComesLast (project : Place) (start : Disk) (runs : List Ran) (r : Ran) : Prop where
  last : runs.getLast? = some r
  earlier : ∀ name names, (start.nodeAt? (project.backups ++ name :: names)).isSome = true →
    name < r.call.id
  marks : ∀ s ∈ runs, s.call.now = r.call.now → s.call.id ≤ r.call.id

/-- What some batches may touch. -/
def Touched (project : Place) (runs : List Ran) (p : Place) : Prop :=
  ∃ r ∈ runs, BatchCall.Touches project r.call.id p

/-- What is so after a batch: its snapshot is kept, with all files that it has changed. -/
structure Remembered (project : Place) (r : Ran) (d : Disk) : Prop where
  keeps : r.before.shared.Keeps project.inState (fun _ => True) d.shared
  saved : ∃ entries, Snapshot.Kept project.inState (project.snapshot r.call.id) r.before.shared
      d.shared (project.snapshot r.call.id).toPath entries ∧
    ∀ p n, r.before.nodeAt? p = some n → project.inState p = false → r.after.nodeAt? p = some n ∨
      ∃ content content' mode, n = .file content mode ∧
        r.after.nodeAt? p = some (.file content' mode) ∧
        ∃ x ∈ entries, r.before.shared.target x.original = p

/-- What is so after a history. -/
structure Stands (project : Place) (start : Disk) (runs : List Ran) (d : Disk) : Prop where
  keeps : start.shared.Keeps project.inState (Touched project runs) d.shared
  released : runs ≠ [] → d.IsReleased project
  remembered : ∀ r ∈ runs, Remembered project r d

variable {project : Place} {start d e : Disk} {runs : List Ran} {r : Ran} {c : BatchCall}

/-! ### Names of snapshots -/

theorem Orderly.differ (h : Orderly project start runs) :
    runs.Pairwise fun r r' => r.call.id ≠ r'.call.id := by
  refine (h.clock.and h.marks).imp_of_mem fun {r r'} _ hr' hboth => ?_
  rcases Nat.lt_or_eq_of_le hboth.1 with hless | hsame
  · exact String.ne_of_lt (batchId_lt hless (h.now r' hr') r.call.mappings r'.call.mappings)
  · exact hboth.2 hsame

/-- The batch that comes last has the last of all names. -/
theorem ComesLast.le (h : ComesLast project start runs r) (horderly : Orderly project start runs) :
    ∀ s ∈ runs, s.call.id ≤ r.call.id := by
  intro s hs
  obtain ⟨others, rfl⟩ := List.getLast?_eq_some_iff.mp h.last
  have hclock : s.call.now ≤ r.call.now := by
    rcases List.mem_append.mp hs with hother | hself
    · exact (List.pairwise_append.mp horderly.clock).2.2 s hother r (List.mem_singleton_self r)
    · rw [List.mem_singleton.mp hself]
  rcases Nat.lt_or_eq_of_le hclock with hless | hsame
  · have hnow := horderly.now r (List.mem_append_right others (List.mem_singleton_self r))
    exact le_of_lt (batchId_lt hless hnow s.call.mappings r.call.mappings)
  · exact h.marks s hs hsame

theorem Orderly.left {later : List Ran} (h : Orderly project start (runs ++ later)) :
    Orderly project start runs := by
  have hmem : ∀ r ∈ runs, r ∈ runs ++ later := fun r hr => List.mem_append_left later hr
  exact ⟨h.home, h.named, h.keys, fun r hr => h.unused r (hmem r hr),
    fun r hr => h.clear r (hmem r hr), fun r hr => h.outside r (hmem r hr),
    fun r hr => h.now r (hmem r hr), (List.pairwise_append.mp h.clock).1,
    (List.pairwise_append.mp h.marks).1⟩

/-- Below the backups a batch touches its own snapshot only. -/
theorem eq_of_touches {id name : String} {names : List String}
    (h : BatchCall.Touches project id (project.backups ++ name :: names)) : name = id := by
  have hplace : project.backups ++ name :: names = project.snapshot name ++ names :=
    List.append_cons _ _ _
  rw [hplace] at h
  rcases h with hout | hguard | hsame | hprefix
  · rw [Place.inState_snapshot] at hout
    cases hout
  · exact absurd hguard (Place.not_isGuard_snapshot project name names)
  · exact absurd (congrArg List.length hsame) (by simp [Place.snapshot])
  · have hbelow : [id] <+: name :: names := by
      unfold Place.snapshot at hprefix
      rwa [List.append_assoc, List.prefix_append_right_inj] at hprefix
    exact (List.cons_prefix_cons.mp hbelow).1.symm

theorem not_touches_snapshot {id name : String} (hne : name ≠ id) (names : List String) :
    ¬ BatchCall.Touches project id (project.snapshot name ++ names) := by
  have hplace : project.snapshot name ++ names = project.backups ++ name :: names :=
    (List.append_cons _ _ _).symm
  rw [hplace]
  exact fun h => hne (eq_of_touches h)

/-- What stands among the backups was there at the start, or is what a batch has saved. -/
theorem Stands.exists_of_backups (h : Stands project start runs d) {name : String}
    {names : List String} (hsome : (d.nodeAt? (project.backups ++ name :: names)).isSome = true) :
    (start.nodeAt? (project.backups ++ name :: names)).isSome = true ∨
      ∃ r ∈ runs, r.call.id = name := by
  by_cases htouched : Touched project runs (project.backups ++ name :: names)
  · obtain ⟨r, hr, htouches⟩ := htouched
    exact .inr ⟨r, hr, (eq_of_touches htouches).symm⟩
  · have hsame : d.nodeAt? (project.backups ++ name :: names) = start.nodeAt? _ :=
      h.keeps.nodes _ htouched
    exact .inl (hsame ▸ hsome)

/-! ### One more batch -/

theorem Stands.hasProject (h : Stands project start runs d)
    (horderly : Orderly project start runs) : d.HasProject project := by
  have hhome : start.shared.HasProject project := ⟨horderly.home.named, horderly.home.way⟩
  exact ⟨horderly.home.named, (h.keeps.hasProject hhome).way⟩

/-- Where no file had the name of a scratch file of a process, none has it after a history. -/
theorem Stands.scratchClear (h : Stands project start runs d) {here : Place} {process : Nat}
    (hclear : (start.seenFrom here process).ScratchClear project.inState) :
    (d.seenFrom here process).ScratchClear project.inState := by
  have hseen : (start.seenFrom here process).Keeps project.inState (Touched project runs)
      (d.seenFrom here process) := h.keeps.seenFrom here process process
  exact hseen.scratchClear rfl hclear

/-- A history leaves what its next batch expects. -/
theorem Stands.ready (h : Stands project start runs d)
    (horderly : Orderly project start (runs ++ [⟨c, d, e⟩])) : c.Ready project d := by
  have hlast : (⟨c, d, e⟩ : Ran) ∈ runs ++ [⟨c, d, e⟩] :=
    List.mem_append_right runs List.mem_cons_self
  have hnamed := horderly.home.named
  refine ⟨h.hasProject horderly.left, fun p hp hsome => ?_, ?_, ?_, fun names => ?_,
    horderly.outside ⟨c, d, e⟩ hlast, horderly.now ⟨c, d, e⟩ hlast⟩
  · refine horderly.named p hp ?_
    have hsame : (d.shared.nodeAt? p).isSome = (start.shared.nodeAt? p).isSome :=
      h.keeps.isSome_nodeAt? hp
    exact hsame.symm.trans hsome
  · have hkeys : Batch.KeysDiffer project.inState d.shared :=
      Batch.KeysDiffer.keeps (d := start.shared) horderly.keys h.keeps
    exact hkeys
  · exact h.scratchClear (horderly.clear ⟨c, d, e⟩ hlast)
  · refine Option.not_isSome_iff_eq_none.mp fun hsome => ?_
    have hplace : project.snapshot c.id ++ names = project.backups ++ c.id :: names :=
      (List.append_cons _ _ _).symm
    rw [hplace] at hsome
    rcases h.exists_of_backups hsome with hstart | ⟨r, hr, hid⟩
    · rw [← hplace, horderly.unused ⟨c, d, e⟩ hlast names] at hstart
      cases hstart
    · exact (List.pairwise_append.mp horderly.differ).2.2 r hr ⟨c, d, e⟩
        (List.mem_singleton_self _) hid

/-- A later batch keeps what was saved before. -/
theorem Remembered.keeps_later (h : Remembered project r d)
    (hkeeps : (c.view d).Keeps project.inState (BatchCall.Touches project c.id) e)
    (hne : r.call.id ≠ c.id) : Remembered project r e := by
  have hshared := hkeeps.shared
  obtain ⟨entries, hkept, hcovers⟩ := h.saved
  exact ⟨h.keeps.trans (hshared.mono fun _ _ => trivial), entries,
    hkept.keeps hshared (not_touches_snapshot hne), hcovers⟩

/-- What a batch leaves is remembered. -/
theorem remembered_of_saves (h : c.Saves project d e) : Remembered project ⟨c, d, e⟩ e := by
  obtain ⟨entries, hkept, hcovers⟩ := h.saved
  refine ⟨h.keeps.shared.mono fun _ _ => trivial, entries, hkept.seenFrom [] 0 0,
    fun p n hn hp => (hcovers p n hn hp).imp_right ?_⟩
  rintro ⟨content, content', mode, hwas, hnow, x, hx, rfl⟩
  exact ⟨content, content', mode, hwas, hnow, x, hx,
    (Disk.target_seenFrom (hkept.paths x hx).1).symm.trans rfl⟩

/-- One more batch saves its files beside what the others have saved. -/
theorem Stands.snoc (h : Stands project start runs d) (hrun : c.Succeeds project d e)
    (horderly : Orderly project start (runs ++ [⟨c, d, e⟩])) :
    Stands project start (runs ++ [⟨c, d, e⟩]) e := by
  have hsaves := hrun.saves (h.ready horderly)
  refine ⟨?_, fun _ => hsaves.released, fun r hr => ?_⟩
  · refine (h.keeps.mono ?_).trans (hsaves.keeps.shared.mono fun p hp => ?_)
    · rintro p ⟨r, hr, hp⟩
      exact ⟨r, List.mem_append_left _ hr, hp⟩
    · exact ⟨_, List.mem_append_right _ List.mem_cons_self, hp⟩
  · rcases List.mem_append.mp hr with hr | hr
    · have hne := (List.pairwise_append.mp horderly.differ).2.2 r hr ⟨c, d, e⟩
        (List.mem_singleton_self _)
      exact (h.remembered r hr).keeps_later hsaves.keeps hne
    · obtain rfl := List.mem_singleton.mp hr
      exact remembered_of_saves hsaves

/-- Every snapshot of a history is kept. The induction is on the batches that have run. -/
theorem History.stands (h : History project start runs d)
    (horderly : Orderly project start runs) : Stands project start runs d := by
  induction h with
  | nil => exact ⟨.refl _ _ _, fun hnil => absurd rfl hnil, fun r hr => absurd hr List.not_mem_nil⟩
  | snoc c _ hrun ih => exact (ih horderly.left).snoc hrun horderly

/-! ### Putting a snapshot back -/

/-- A call that puts a snapshot back, by a process in a directory. -/
structure RestoreCall where
  env : Surroundings
  options : ProjectOptions
  name : String
  here : Place
  process : Nat

namespace RestoreCall

/-- The disk as the caller sees it. -/
def view (c : RestoreCall) (d : Disk) : Disk := d.seenFrom c.here c.process

/-- The snapshot is put back. -/
def run (c : RestoreCall) (d : Disk) : Result RestoreAnswer :=
  restore c.env c.options (c.view d) c.name

/-- The call is one in the project, and beside all files of the snapshot a scratch file can be
written. -/
structure Fits (project : Place) (c : RestoreCall) (id : String) (d : Disk) : Prop where
  opens : ∃ mode, (c.view d).open? (c.options.workingDir.getD (c.view d).herePath) =
    .ok (project, .directory mode)
  configured : ∃ p, Project.open c.env c.options (c.view d) = .ok p
  clear : (c.view d).ScratchClear project.inState
  writable : ∀ snapshot, Snapshot.load (c.view d) (project.snapshot id).toPath = .ok snapshot →
    ∀ x ∈ snapshot.entries, ∃ place,
      (c.view d).locateForWrite ((c.view d).scratch x.original) = .ok place

end RestoreCall

/-- The batch runs, and a given hook saves the files. -/
def BatchCall.runUnder (hook : SnapshotHook Snapshot) (c : BatchCall) (d : Disk) :
    Result (Shown BatchAnswer) :=
  let opened := do
    (Mapping.validate c.mappings).mapError Failure.ofInput
    Project.open c.env c.options (c.view d)
  match opened with
  | .ok p =>
    let b : Batch.Options := ⟨p.engine, p.roots (c.view d) c.options.paths, c.flags.dryRun⟩
    if c.flags.dryRun then
      let run := Batch.run b .nothing none c.mappings (c.view d) () c.interrupt
      (c.view d, batchAnswer (c.view d) c.kind (p.colored c.options) none run)
    else guarded c.env.machine p (c.view d) fun d =>
      let commits :=
        if c.flags.commit || p.config.defaults.commit then some c.env.commits else none
      if p.config.defaults.snapshots && !c.flags.noSnapshot then
        match Snapshot.create d (backupsDir p) (batchId c.env.machine.now c.mappings) with
        | .ok (d, snapshot) =>
          runBatch b hook commits c.mappings d snapshot c.interrupt
            (batchAnswer d c.kind (p.colored c.options) (some snapshot.directory))
        | .error cause => ⟨d, [], attempt "Failed to create snapshot directory" (.error cause)⟩
      else
        runBatch b .nothing commits c.mappings d () c.interrupt
          (batchAnswer d c.kind (p.colored c.options) none)
  | .error failure => (c.view d, .error failure)

/-- The disk that a batch leaves. -/
def BatchCall.leaves (c : BatchCall) (d : Disk) : Disk := (c.run d).1

/-- The batch succeeds in the project and saves files. -/
def BatchCall.saves (c : BatchCall) (d : Disk) : Bool :=
  decide ((c.view d).open? ⟨"/w"⟩ = .ok (["w"], .directory 493)) &&
    (c.run d).2.toOption.any fun shown => shown.answer.snapshotDir.isSome

end Operation

end SymbolRename
