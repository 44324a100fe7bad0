import SymbolRename.Proofs.Batch.Upkeep
import SymbolRename.Proofs.Operation.Guard
import SymbolRename.Proofs.Operation.Ids

/-!
# A batch that saves its files

A batch is called by a process in some directory. When it succeeds and has saved files, its snapshot
is kept below the backups of the project, and of the rest of the disk it has touched the files that
it searched, the lock and the log: `Operation.BatchCall.Succeeds.saves`.
-/

namespace SymbolRename

namespace Place

/-- The directory of all snapshots of a project. -/
def backups (project : Place) : Place := project.stateDir ++ ["backups"]

/-- The directory of one snapshot. -/
def snapshot (project : Place) (id : String) : Place := project.backups ++ [id]

variable {project : Place} {id : String}

theorem IsNamed.backups (h : project.IsNamed) : project.backups.IsNamed :=
  h.stateDir.concat (by decide)

theorem IsNamed.snapshot (h : project.IsNamed) (hid : Path.IsName id) :
    (project.snapshot id).IsNamed := h.backups.concat hid

theorem snapshot_append (project : Place) (id : String) (names : List String) :
    project.snapshot id ++ names = project.stateDir ++ ("backups" :: id :: names) := by
  unfold snapshot backups
  simp

/-- What is below a snapshot is not touched around an action. -/
theorem not_isGuard_snapshot (project : Place) (id : String) (names : List String) :
    ¬ IsGuard project (project.snapshot id ++ names) := by
  rw [snapshot_append]
  rintro (hsame | hsame | hsame)
  · exact absurd (congrArg List.length hsame) (by simp)
  · exact absurd (congrArg List.length hsame) (by simp [lockFile])
  · exact absurd (congrArg List.length hsame) (by simp [logFile])

theorem inState_snapshot (project : Place) (id : String) (names : List String) :
    project.inState (project.snapshot id ++ names) = true := by
  rw [snapshot_append]
  exact inState_below project _

theorem inState_self (project : Place) : project.inState project = false := by
  refine Bool.eq_false_iff.mpr fun h => ?_
  have hlength := (inState_iff.mp h).length_le
  simp at hlength

/-- The path of a place outside of the state directory comes through nothing in it. -/
theorem avoids_toPath (d : Disk) {p : Place} (hp : p.IsNamed) (hout : project.inState p = false) :
    d.Avoids project.inState p.toPath := by
  have hthrough : ∀ (names : List String) (start q : Place), (∀ name ∈ names, Path.IsName name) →
      q ∈ start.through names → q <+: start ++ names := by
    intro names
    induction names with
    | nil =>
      intro start q _ hq
      rw [List.mem_singleton.mp hq, List.append_nil]
    | cons name rest ih =>
      intro start q hnames hq
      obtain ⟨hname, hrest⟩ := List.forall_mem_cons.mp hnames
      rcases List.mem_cons.mp hq with rfl | hq
      · exact List.prefix_append _ _
      · rw [step_eq_append hname.step] at hq
        rw [List.append_cons]
        exact ih _ q hrest hq
  intro q hq
  refine inState_of_prefix hout ?_
  unfold Disk.route at hq
  rw [isAbsolute_toPath, if_pos rfl] at hq
  by_cases hroot : p = []
  · subst hroot
    revert hq
    rw [show (toPath []).segments = ["", ""] by decide]
    intro hq
    fin_cases hq <;> exact List.nil_prefix
  · rw [segments_toPath hp hroot] at hq
    rcases List.mem_cons.mp hq with rfl | hq
    · exact List.nil_prefix
    · exact hthrough p [] q hp hq

/-- A place whose path comes through nothing in the state directory is outside of it. -/
theorem inState_of_avoids {d : Disk} {p : Place} (hnamed : project.IsNamed)
    (h : d.Avoids project.inState p.toPath) : project.inState p = false := by
  refine Bool.eq_false_iff.mpr fun hstate => ?_
  obtain ⟨rest, rfl⟩ := inState_iff.mp hstate
  have hroute : project.stateDir ∈ d.route (toPath (project.stateDir ++ rest)) := by
    have hmem := @Disk.mem_route_names d (toPath []) project.stateDir rest (by simp [stateDir])
      hnamed.stateDir
    have hjoin : (toPath []).join ⟨"/".intercalate (project.stateDir ++ rest)⟩ =
        toPath (project.stateDir ++ rest) := by
      unfold Path.join
      rw [Path.isAbsolute_intercalate (by simp [stateDir]) hnamed.stateDir]
      rfl
    rwa [target_toPath d isNamed_nil, List.nil_append, hjoin] at hmem
  have hout := h _ hroute
  rw [inState_stateDir] at hout
  cases hout

end Place

namespace Operation

/-! ### A batch that has run -/

section Answer

variable {env : Surroundings} {o : ProjectOptions} {d e : Disk} {mappings : List Mapping}
  {flags : BatchFlags} {interrupt : Bool} {kind : PreviewKind} {shown : Shown BatchAnswer}

theorem batchAnswer_eq_ok {σ : Type} {color : Bool} {snapshotDir : Option Path}
    {run : Except Cause (Batch.State σ)}
    (h : batchAnswer d kind color snapshotDir run = .ok shown) :
    shown.answer.snapshotDir = snapshotDir ∧ ∃ st, run = .ok st := by
  obtain ⟨st, hst, h⟩ := bind_eq_ok_iff.mp h
  obtain ⟨report, _, h⟩ := bind_eq_ok_iff.mp h
  obtain rfl := Except.ok.inj h
  exact ⟨rfl, st, mapError_eq_ok_iff.mp hst⟩

/-- What a run leaves is what its batch leaves. -/
theorem runBatch_eq_ok {σ : Type} {o : Batch.Options} {hook : SnapshotHook σ}
    {commits : Option CommitHook} {state : σ} {color : Bool} {snapshotDir : Option Path}
    (h : (runBatch o hook commits mappings d state interrupt
      (batchAnswer e kind color snapshotDir)).answer = .ok shown) :
    shown.answer.snapshotDir = snapshotDir ∧
      ∃ st, Batch.run o hook commits mappings d state interrupt = .ok st ∧
        (runBatch o hook commits mappings d state interrupt
          (batchAnswer e kind color snapshotDir)).disk = st.store.disk := by
  unfold runBatch at h ⊢
  dsimp only at h ⊢
  cases hrun : Batch.run o hook commits mappings d state interrupt with
  | error cause =>
    rw [hrun] at h
    obtain ⟨_, st, hst⟩ := batchAnswer_eq_ok h
    cases hst
  | ok st =>
    rw [hrun] at h
    exact ⟨(batchAnswer_eq_ok h).1, st, rfl, rfl⟩

/-- How a batch that saves its files comes to its answer: it makes the directory of a snapshot and
runs. -/
structure SavingRun (o : Batch.Options) (backups : Path) (id : String) (mappings : List Mapping)
    (interrupt : Bool) (d made e : Disk) : Prop where
  create : d.makeDirectories (backups.join ⟨id⟩) = .ok made
  run : ∃ commits st, Batch.run o Snapshot.hook commits mappings made ⟨backups.join ⟨id⟩, []⟩
    interrupt = .ok st ∧ st.store.disk = e

/-- The action of a batch that saves its files. -/
theorem exists_savingRun (h : batch env o d mappings flags interrupt kind = (e, .ok shown))
    (hsaved : shown.answer.snapshotDir.isSome = true) :
    ∃ p action, Project.open env o d = .ok p ∧
      guarded env.machine p d action = (e, .ok shown) ∧
      ∀ inside, (action inside).answer = .ok shown → ∃ made,
        SavingRun ⟨p.engine, p.roots d o.paths, false⟩ (backupsDir p)
          (batchId env.machine.now mappings) mappings interrupt inside made
          (action inside).disk := by
  unfold batch at h
  dsimp only at h
  split at h
  · cases (Prod.mk.inj h).2
  rename_i p hopened
  obtain ⟨_, _, hopen⟩ := bind_eq_ok_iff.mp hopened
  by_cases hdry : flags.dryRun = true
  · rw [if_pos hdry] at h
    obtain ⟨hnone, _⟩ := batchAnswer_eq_ok (Prod.mk.inj h).2
    rw [hnone] at hsaved
    cases hsaved
  · rw [if_neg hdry] at h
    refine ⟨p, _, hopen, h, fun inside hinside => ?_⟩
    rw [Bool.eq_false_iff.mpr hdry] at hinside ⊢
    split at hinside
    · rename_i hsaves
      rw [if_pos hsaves]
      split at hinside
      · cases hinside
      · rename_i made snapshot hcreate
        obtain ⟨d, hmake, hcreated⟩ := bind_eq_ok_iff.mp hcreate
        obtain ⟨rfl, rfl⟩ := Prod.mk.inj (Except.ok.inj hcreated)
        obtain ⟨_, st, hrun, hdisk⟩ := runBatch_eq_ok hinside
        exact ⟨d, mapError_eq_ok_iff.mp hmake, _, st, hrun, hdisk.symm⟩
    · obtain ⟨hnone, _⟩ := runBatch_eq_ok hinside
      rw [hnone] at hsaved
      cases hsaved

end Answer

/-! ### The project -/

section Opened

variable {project : Place} {p : Project}

theorem root_of_open {env : Surroundings} {o : ProjectOptions} {d : Disk} {mode : Nat}
    (h : Project.open env o d = .ok p)
    (hopen : d.open? (o.workingDir.getD d.herePath) = .ok (project, .directory mode)) :
    p.root = project.toPath := by
  obtain ⟨config, _, h⟩ := bind_eq_ok_iff.mp h
  obtain ⟨command, _, h⟩ := bind_eq_ok_iff.mp h
  obtain rfl := Except.ok.inj h
  show d.canonical (o.workingDir.getD d.herePath) = project.toPath
  unfold Disk.canonical
  rw [hopen]

theorem stateDir_of_root (hnamed : project.IsNamed) (hroot : p.root = project.toPath) :
    p.stateDir = project.stateDir.toPath := by
  unfold Project.stateDir
  rw [hroot]
  exact Place.join_toPath hnamed (by decide)

theorem backupsDir_of_root (hnamed : project.IsNamed) (hroot : p.root = project.toPath) :
    backupsDir p = project.backups.toPath := by
  unfold backupsDir
  rw [stateDir_of_root hnamed hroot]
  exact Place.join_toPath hnamed.stateDir (by decide)

end Opened

/-! ### Calls -/

/-- A call of a batch, by a process in a directory. -/
structure BatchCall where
  env : Surroundings
  options : ProjectOptions
  mappings : List Mapping
  flags : BatchFlags
  interrupt : Bool
  kind : PreviewKind
  here : Place
  process : Nat

namespace BatchCall

/-- The second of the call. -/
def now (c : BatchCall) : Nat := c.env.machine.now

/-- The name of the batch. -/
def id (c : BatchCall) : String := batchId c.now c.mappings

/-- The disk as the caller sees it. -/
def view (c : BatchCall) (d : Disk) : Disk := d.seenFrom c.here c.process

/-- The batch runs. -/
def run (c : BatchCall) (d : Disk) : Result (Shown BatchAnswer) :=
  batch c.env c.options (c.view d) c.mappings c.flags c.interrupt c.kind

/-- The batch runs in a project, succeeds, and has saved files. -/
structure Succeeds (project : Place) (c : BatchCall) (d e : Disk) : Prop where
  opens : ∃ mode, (c.view d).open? (c.options.workingDir.getD (c.view d).herePath) =
    .ok (project, .directory mode)
  runs : ∃ shown, c.run d = (e, .ok shown) ∧ shown.answer.snapshotDir.isSome = true

/-- No search of the call comes through the state directory. -/
def SearchesOutside (project : Place) (c : BatchCall) (d : Disk) : Prop :=
  ∀ path ∈ c.options.paths,
    (c.view d).Avoids project.inState ((c.view d).canonical (project.toPath.join path))

/-- What a batch may touch besides the files that it searches. -/
def Touches (project : Place) (id : String) (p : Place) : Prop :=
  project.inState p = false ∨ project.IsGuard p ∨ p = project.backups ∨ project.snapshot id <+: p

/-- What is expected of the disk before a call. -/
structure Ready (project : Place) (c : BatchCall) (d : Disk) : Prop where
  home : d.HasProject project
  named : ∀ p, project.inState p = false → (d.nodeAt? p).isSome = true → p.IsNamed
  keys : Batch.KeysDiffer project.inState d
  clear : (c.view d).ScratchClear project.inState
  /-- Nothing has been saved under the name of the batch. -/
  free : ∀ names, d.nodeAt? (project.snapshot c.id ++ names) = none
  outside : c.SearchesOutside project d
  now : c.now < CalendarTime.lastMoment

/-- What a batch that has saved files leaves: its snapshot is kept, and every file that has changed
was saved. -/
structure Saves (project : Place) (c : BatchCall) (d e : Disk) : Prop where
  keeps : (c.view d).Keeps project.inState (Touches project c.id) e
  released : e.IsReleased project
  saved : ∃ entries, Snapshot.Kept project.inState (project.snapshot c.id) (c.view d) e
      (project.snapshot c.id).toPath entries ∧
    ∀ p n, d.nodeAt? p = some n → project.inState p = false → e.nodeAt? p = some n ∨
      ∃ content content' mode, n = .file content mode ∧ e.nodeAt? p = some (.file content' mode) ∧
        ∃ x ∈ entries, (c.view d).target x.original = p

variable {project : Place} {c : BatchCall} {d e : Disk}

/-- The searches of a call that is ready stay out of the state directory. -/
theorem Ready.fits (h : c.Ready project d) {p : Project} (hroot : p.root = project.toPath) :
    Batch.Fits project.inState ⟨p.engine, p.roots (c.view d) c.options.paths, false⟩ (c.view d) := by
  have hnamed := h.home.named
  have hroots : ∀ root ∈ Batch.stepRoots ⟨p.engine, p.roots (c.view d) c.options.paths, false⟩,
      (c.view d).Avoids project.inState root ∧ Search.IsStart (c.view d) root := by
    intro root hmem
    unfold Batch.stepRoots Project.roots Project.resolve at hmem
    rw [hroot] at hmem
    by_cases hnone : c.options.paths.isEmpty = true
    · simp only [hnone, if_true, List.isEmpty_cons, Bool.false_eq_true, if_false,
        List.mem_singleton] at hmem
      subst hmem
      exact ⟨Place.avoids_toPath _ hnamed (Place.inState_self project), .inl ⟨project, hnamed, rfl⟩⟩
    · simp only [hnone, Bool.false_eq_true, if_false, List.isEmpty_map] at hmem
      obtain ⟨path, hpath, rfl⟩ := List.mem_map.mp hmem
      have havoids := h.outside path hpath
      refine ⟨havoids, ?_⟩
      unfold Disk.canonical at havoids ⊢
      cases hopen : (c.view d).open? (project.toPath.join path) with
      | error fault =>
        refine .inr fun q n hfound => ?_
        rw [hopen] at hfound
        cases hfound
      | ok found =>
        obtain ⟨q, n⟩ := found
        rw [hopen] at havoids
        refine .inl ⟨q, h.named q (Place.inState_of_avoids hnamed havoids) ?_, rfl⟩
        have hnode := Disk.nodeAt?_of_open? hopen
        exact (congrArg Option.isSome hnode).trans rfl
  exact ⟨Search.apart_stateDirectory _ hnamed fun root hmem => (hroots root hmem).1,
    fun root hmem => (hroots root hmem).2, h.named, h.clear⟩

/-- Making the directory of a snapshot makes this one and that of all snapshots, if they are
missing. -/
theorem keeps_of_makeDirectories {id : String} {inside made : Disk} {mode : Nat}
    (hproject : inside.HasProject project) (hid : Path.IsName id)
    (hopen : inside.open? project.stateDir.toPath = .ok (project.stateDir, .directory mode))
    (hmake : inside.makeDirectories (project.snapshot id).toPath = .ok made) :
    inside.Keeps project.inState (fun p => p = project.backups ∨ p = project.snapshot id) made := by
  refine .of_makeDirectories (hproject.named.snapshot hid) hmake fun q hq hnone => ?_
  have hbelow : q = project.backups ∨ q = project.snapshot id := by
    rcases List.prefix_concat_iff.mp hq with hsame | hq
    · exact .inr hsame
    · rcases List.prefix_concat_iff.mp hq with hsame | hq
      · exact .inl hsame
      · -- The state directory and what is above it are there.
        rcases List.prefix_concat_iff.mp hq with hsame | hq
        · rw [hsame] at hnone
          exact absurd (hnone.symm.trans (Disk.nodeAt?_of_open? hopen)) nofun
        · obtain ⟨mode, hmode⟩ := hproject.way q hq
          rw [hnone] at hmode
          cases hmode
  refine ⟨?_, hbelow⟩
  rcases hbelow with rfl | rfl
  · exact Place.inState_below project ["backups"]
  · have hown := Place.inState_snapshot project id []
    rwa [List.append_nil] at hown

/-- What the action of a batch may touch. -/
def ActionTouches (project : Place) (id : String) (p : Place) : Prop :=
  project.inState p = false ∨ p = project.backups ∨ project.snapshot id <+: p

theorem ActionTouches.touches {id : String} {p : Place} (h : ActionTouches project id p) :
    Touches project id p := h.imp_right .inr

/-- The action leaves the lock and the log alone. -/
theorem not_actionTouches {id name : String} (hname : name ≠ "backups") :
    ¬ ActionTouches project id (project.stateDir ++ [name]) := by
  rintro (hout | hsame | hprefix)
  · rw [Place.inState_below] at hout
    cases hout
  · exact hname (List.cons.inj (List.append_cancel_left hsame)).1
  · have hlength := hprefix.length_le
    simp [Place.snapshot, Place.backups] at hlength

/-- The run of a call that is ready is one whose snapshot is kept. -/
theorem Ready.done (h : c.Ready project d) {p : Project} (hroot : p.root = project.toPath)
    {inside made : Disk} (henters : (c.view d).Keeps project.inState project.IsGuard inside)
    (hprocess : inside.process = c.process) {mode : Nat}
    (hopen : inside.open? project.stateDir.toPath = .ok (project.stateDir, .directory mode))
    (hmake : inside.makeDirectories (project.snapshot c.id).toPath = .ok made)
    {commits : Option CommitHook} {st : Batch.State Snapshot}
    (hrun : Batch.run ⟨p.engine, p.roots (c.view d) c.options.paths, false⟩ Snapshot.hook commits
      c.mappings made ⟨(project.snapshot c.id).toPath, []⟩ c.interrupt = .ok st) :
    ∃ entries, Batch.Done project.inState (project.snapshot c.id) made st.store.disk
      (project.snapshot c.id).toPath entries := by
  have hid : Path.IsName c.id := isName_batchId h.now c.mappings
  have hnamed := h.home.named.snapshot hid
  have hbare := Place.isBare_toPath hnamed (by simp [Place.snapshot])
  have hhome : (c.view d).HasProject project := ⟨h.home.named, h.home.way⟩
  have hmade := keeps_of_makeDirectories (henters.hasProject hhome) hid hopen hmake
  have hkeeps : (c.view d).Keeps project.inState (fun _ => True) made :=
    (henters.mono fun _ _ => trivial).trans (hmade.mono fun _ _ => trivial)
  have hstands : Snapshot.StandsAt project.inState (project.snapshot c.id) made
      (project.snapshot c.id).toPath := by
    have hthere := Disk.open?_of_makeDirectories hbare hmake
    rw [Place.target_toPath made hnamed] at hthere
    exact ⟨hbare, hthere, Place.inState_snapshot project c.id⟩
  have hfresh : made.isFile (Snapshot.manifestPath (project.snapshot c.id).toPath) = false := by
    refine Bool.eq_false_iff.mpr fun hfile => ?_
    obtain ⟨q, content, mode, hfile⟩ := Disk.isFile_iff.mp hfile
    have hnode := Disk.nodeAt?_of_open? hfile
    rw [Disk.eq_target_of_open? hfile, hstands.target_manifest] at hnode
    have hnone : inside.nodeAt? (project.snapshot c.id ++ ["manifest.json"]) = none :=
      (henters.nodes _ (Place.not_isGuard_snapshot project c.id _)).trans (h.free _)
    rcases Disk.nodeAt?_of_makeDirectories hnamed hmake _ with hsame | ⟨hwithin, _⟩
    · rw [hnode, hnone] at hsame
      cases hsame
    · have hlength := hwithin.length_le
      simp at hlength
  have hfits : Batch.Fits project.inState ⟨p.engine, p.roots (c.view d) c.options.paths, false⟩
      made := (h.fits hroot).keeps hkeeps ((Disk.grows_of_makeDirectories hmake).process.trans
    hprocess)
  have hkeys : Batch.KeysDiffer project.inState (c.view d) := h.keys
  exact Batch.done_run hfits rfl (hkeys.keeps hkeeps) hstands hfresh hrun

theorem Succeeds.saves (h : c.Succeeds project d e) (hready : c.Ready project d) :
    c.Saves project d e := by
  obtain ⟨mode, hopen⟩ := h.opens
  obtain ⟨shown, hrun, hsaved⟩ := h.runs
  obtain ⟨p, action, hproject, hguarded, haction⟩ := exists_savingRun hrun hsaved
  have hnamed := hready.home.named
  have hid : Path.IsName c.id := isName_batchId hready.now c.mappings
  have hroot := root_of_open hproject hopen
  have hhome : (c.view d).HasProject project := ⟨hnamed, hready.home.way⟩
  obtain ⟨inside, hinside, hanswer⟩ :=
    guarded_of_eq hhome (stateDir_of_root hnamed hroot) hguarded
  obtain ⟨made, hmake, commits, st, hran, hst⟩ := haction inside hanswer
  have hplace : (backupsDir p).join ⟨batchId c.env.machine.now c.mappings⟩ =
      (project.snapshot c.id).toPath := by
    rw [backupsDir_of_root hnamed hroot]
    exact Place.join_toPath hnamed.backups hid
  rw [hplace] at hmake hran
  obtain ⟨mode', hstate⟩ := hinside.opened
  obtain ⟨entries, hdone⟩ :=
    hready.done hroot hinside.enters hinside.process hstate hmake hran
  rw [hst] at hdone
  have hmade := keeps_of_makeDirectories (hinside.enters.hasProject hhome) hid hstate hmake
  have hacts : inside.Keeps project.inState (ActionTouches project c.id) (action inside).disk := by
    refine (hmade.mono fun q hq => .inr (hq.imp_right ?_)).trans
      (hdone.keeps.mono fun q hq => hq.imp_right .inr)
    rintro rfl
    exact List.prefix_refl _
  obtain ⟨hleaves, hreleased⟩ := hinside.leaves hacts (not_actionTouches (by decide))
    (not_actionTouches (by decide))
  have hguards : ∀ q, project.IsGuard q → Touches project c.id q := fun q hq => .inr (.inl hq)
  have hkeeps : (c.view d).Keeps project.inState (Touches project c.id) e :=
    ((hinside.enters.mono hguards).trans (hacts.mono fun q => ActionTouches.touches)).trans
      (hleaves.mono hguards)
  -- Outside of the state directory only the run has changed anything.
  have hbefore : ∀ q, project.inState q = false → made.nodeAt? q = d.nodeAt? q := by
    intro q hq
    have henters := hinside.enters.nodeAt?_eq (fun _ => Place.inState_of_isGuard) hq
    refine (hmade.nodeAt?_eq ?_ hq).trans henters
    rintro r (rfl | rfl)
    · exact Place.inState_below project ["backups"]
    · exact (List.append_nil (project.snapshot c.id)) ▸ Place.inState_snapshot project c.id []
  have hhere : made.here = (c.view d).here := hmade.here.trans hinside.enters.here
  refine ⟨hkeeps, hreleased, entries, ?_, fun q n hq hout => ?_⟩
  · have hkept := (hdone.kept (Place.isAbsolute_toPath _)).keeps hleaves
      (Place.not_isGuard_snapshot project c.id)
    exact hkept.of_before hhere.symm fun q hq => (hbefore q hq).symm
  · have htarget := Disk.target_congr hhere
    rw [hleaves.nodeAt?_eq (fun _ => Place.inState_of_isGuard) hout]
    simp only [← htarget]
    exact hdone.covers.kept q n ((hbefore q hout).trans hq) hout

end BatchCall

end Operation

end SymbolRename
