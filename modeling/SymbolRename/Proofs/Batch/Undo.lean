import SymbolRename.Proofs.Batch.Prefix
import SymbolRename.Proofs.Batch.Substitution
import SymbolRename.Proofs.Search.StateDirectory
import SymbolRename.Proofs.Snapshot.Calls
import SymbolRename.Proofs.Snapshot.Single

/-!
# A batch can be undone

Before a step of a batch changes a file the file has been saved, and the manifest says so. So
wherever a run stops, whatever happens to its calls and writes, putting the snapshot back gives
every file outside of the snapshot what it held before the run: `Batch.Undoable.runStepsUnder`.
-/

namespace SymbolRename

deriving instance DecidableEq for Disk

/-- A snapshot on a disk protects what was different before: its manifest is read back, and its
entries cover what has changed. -/
structure Snapshot.Protects (own : Place → Bool) (d e : Disk) (directory : Path)
    (entries : List SnapshotEntry) : Prop where
  loads : load e directory = .ok ⟨directory, entries⟩
  covers : Covers own d e entries
  clear : e.ScratchClear own
  paths : ∀ x ∈ entries, e.Clears own x.original

/-- Putting a protecting snapshot back gives every file outside of the snapshot what it held. -/
theorem Snapshot.Protects.restores {own : Place → Bool} {d e : Disk} {directory : Path}
    {entries : List SnapshotEntry} (h : Protects own d e directory entries) :
    ∃ saved, load e directory = .ok saved ∧ ((restore e saved).fault = none →
      ∀ p n, d.nodeAt? p = some n → own p = false → (restore e saved).disk.nodeAt? p = some n) :=
  ⟨_, h.loads, fun hfault _ _ hp hown => h.covers.restores h.clear h.paths hfault hp hown⟩

/-- A fresh snapshot has no entries, and needs none as long as nothing changes. -/
theorem Snapshot.protects_fresh {own : Place → Bool} {d : Disk} {directory : Path}
    (hfresh : d.isFile (manifestPath directory) = false) (hclear : d.ScratchClear own) :
    Protects own d d directory [] := by
  refine ⟨?_, ?_, hclear, fun x hx => absurd hx List.not_mem_nil⟩
  · unfold load
    dsimp only
    rw [hfresh, if_neg Bool.false_ne_true]
  · exact ⟨rfl, fun p n hp _ => .inl hp, fun x hx => absurd hx List.not_mem_nil,
      fun x hx => absurd (mem_of_mem_firstEntries hx) List.not_mem_nil⟩

/-- What has the name of a scratch file outside of an owner's places is the same on both disks. -/
theorem Disk.SameOutside.scratchClear {own : Place → Bool} {d e : Disk} (h : d.SameOutside own e)
    (hclear : d.ScratchClear own) : e.ScratchClear own := by
  intro p n hn hown name hname
  rw [h.process]
  rw [h.nodeAt?_eq hown] at hn
  exact hclear p n hn hown name hname

theorem Disk.SameOutside.view {own : Place → Bool} {d e : Disk} (h : d.SameOutside own e) :
    d.SameView e := ⟨h.here, h.process⟩

namespace Snapshot.Protects

variable {own : Place → Bool} {root : Place} {d e f : Disk} {directory : Path}
  {entries : List SnapshotEntry}

/-- A snapshot still protects what it did when nothing is put over its copies and its manifest. -/
theorem puts {may : Place → Prop} (h : Protects own d e directory entries)
    (hstands : StandsAt own root e directory) (hputs : e.PutsOnly own may f)
    (hcopies : ∀ x ∈ entries, ¬ may (d.target x.backup)) (hmay : ¬ may (root ++ ["manifest.json"])) :
    Protects own d f directory entries := by
  refine ⟨?_, h.covers.puts hputs hcopies, hputs.outside.scratchClear h.clear, fun x hx => ?_⟩
  · rw [hstands.load_eq hputs hmay]
    exact h.loads
  · exact hputs.outside.view.clears (h.paths x hx)

/-- A snapshot still protects what it did when files with entries are rewritten. -/
theorem rewrites {files : List Path} (h : Protects own d e directory entries)
    (hstands : StandsAt own root e directory)
    (hrewrites : e.RewritesOnly (fun p => ∃ path ∈ files, e.target path = p) f)
    (hfiles : ∀ path ∈ files, ∃ x ∈ entries, x.original = path) :
    Protects own d f directory entries := by
  have hown : ∀ p, (∃ path ∈ files, e.target path = p) → own p = false := by
    rintro p ⟨path, hpath, rfl⟩
    obtain ⟨x, hx, rfl⟩ := hfiles path hpath
    exact own_target (h.paths x hx).route
  refine ⟨?_, h.covers.rewrites hrewrites hfiles, hrewrites.scratchClear h.clear, fun x hx => ?_⟩
  · rw [load_congr (hrewrites.open?_eq fun hmay => ?_), h.loads]
    have hmanifest := hown _ hmay
    rw [hstands.target_manifest, hstands.owned] at hmanifest
    cases hmanifest
  · exact hrewrites.view.clears (h.paths x hx)

end Snapshot.Protects

namespace Batch

section Run

variable {own : Place → Bool} {root : Place} {o : Options} {d : Disk} {directory : Path}
  {upsets : String → Snapshot.Upset} {number : Nat} {st : State Snapshot}

/-- A run whose snapshot protects what was there before, with all copies under labels of earlier
steps. -/
structure Undoable (own : Place → Bool) (root : Place) (o : Options) (d : Disk) (directory : Path)
    (number : Nat) (st : State Snapshot) : Prop where
  real : st.store.overlay = none
  stands : Snapshot.StandsAt own root st.store.disk directory
  same : st.hook.directory = directory
  protects : Snapshot.Protects own d st.store.disk directory st.hook.entries
  labels : ∀ x ∈ st.hook.entries, ∃ earlier < number, ∃ name,
    d.target x.backup = root ++ [label earlier, name]
  apart : Search.Apart o.engine.filter.level (stepRoots o) own st.store.disk

theorem label_ne_manifest (number : Nat) : label number ≠ "manifest.json" := by
  intro h
  have hlist := congrArg String.toList h
  rw [toList_label] at hlist
  exact absurd (congrArg List.head? hlist) (by simp)

/-- A call under the label of a step does not put anything over the manifest, unless it saves. -/
theorem manifest_not_isCopyPlace (root : Place) (number : Nat) :
    ¬ Snapshot.IsCopyPlace root (label number) (root ++ ["manifest.json"]) := by
  rintro (hsame | ⟨name, hsame⟩)
  · have hlast := List.append_cancel_left hsame
    exact label_ne_manifest number (List.cons.inj hlast).1.symm
  · exact absurd (congrArg List.length hsame) (by simp)

/-- Copies are not at the places of another step's copies, nor at that of the manifest. -/
theorem Undoable.not_isCopyPlace (h : Undoable own root o d directory number st)
    {x : SnapshotEntry} (hx : x ∈ st.hook.entries) :
    ¬ (Snapshot.IsCopyPlace root (label number) (d.target x.backup) ∨
      d.target x.backup = root ++ ["manifest.json"]) := by
  obtain ⟨earlier, hearlier, name, hplace⟩ := h.labels x hx
  rw [hplace]
  rintro ((hsame | ⟨other, hsame⟩) | hsame)
  · exact absurd (congrArg List.length hsame) (by simp)
  · have hlabel := (List.cons.inj (List.append_cancel_left hsame)).1
    exact absurd (label_injective hlabel) (by omega)
  · exact absurd (congrArg List.length hsame) (by simp)

/-- What a step looks at has an entry. -/
def Covered (o : Options) (step : PlanStep) (st : State Snapshot) : Prop :=
  ∃ files, Rename.candidates o.engine st.store step.old (scope o) = .ok files ∧
    ∀ path ∈ files, ∃ x ∈ st.hook.entries, x.original = path

/-- Later copies may have the labels of later steps. -/
theorem Undoable.labels_succ (h : Undoable own root o d directory number st) {x : SnapshotEntry}
    (hx : x ∈ st.hook.entries) :
    ∃ earlier < number + 1, ∃ name, d.target x.backup = root ++ [label earlier, name] := by
  obtain ⟨earlier, hearlier, hplace⟩ := h.labels x hx
  exact ⟨earlier, by omega, hplace⟩

/-- A run whose snapshot and disk stay as they are can be undone as before. -/
theorem Undoable.next (h : Undoable own root o d directory number st) {last : State Snapshot}
    (hdisk : last.store.disk = st.store.disk) (hreal : last.store.overlay = st.store.overlay)
    (hhook : last.hook = st.hook) : Undoable own root o d directory (number + 1) last where
  real := hreal.trans h.real
  stands := hdisk ▸ h.stands
  same := hhook ▸ h.same
  protects := by
    rw [hdisk, hhook]
    exact h.protects
  labels := by
    rw [hhook]
    exact fun x hx => h.labels_succ hx
  apart := hdisk ▸ h.apart

/-- A run whose snapshot has saved more files can be undone with the new entries. -/
theorem Undoable.extended (h : Undoable own root o d directory number st) {files : List Path}
    (hclears : ∀ path ∈ files, st.store.disk.Clears own path) {new : List SnapshotEntry}
    (hadds : Snapshot.Adds st.hook.directory (label number) files new) {last : State Snapshot}
    (hputs : st.store.disk.PutsOnly own (fun p => Snapshot.IsCopyPlace root (label number) p ∨
      p = root ++ ["manifest.json"]) last.store.disk)
    (hcopies : ∀ path ∈ files, ∃ content mode,
      st.store.disk.open? path = .ok (st.store.disk.target path, .file content mode) ∧
        ((∀ other ∈ files, Snapshot.key other = Snapshot.key path → other = path) →
          ∃ mode', last.store.disk.nodeAt? (root ++ [label number, Snapshot.key path]) =
            some (.file content mode')))
    (hload : Snapshot.load last.store.disk st.hook.directory = .ok last.hook)
    (hreal : last.store.overlay = st.store.overlay)
    (hhook : last.hook = ⟨st.hook.directory, st.hook.entries ++ new⟩)
    (hdistinct : Snapshot.Distinct d last.hook.entries) :
    Undoable own root o d directory (number + 1) last := by
  have hstands : Snapshot.StandsAt own root st.store.disk st.hook.directory := h.same ▸ h.stands
  have hentries : last.hook.entries = st.hook.entries ++ new := by rw [hhook]
  have hmem : ∀ x ∈ last.hook.entries, x ∈ st.hook.entries ∨ x ∈ new := fun x hx =>
    List.mem_append.mp (hentries ▸ hx)
  constructor
  · exact hreal.trans h.real
  · exact h.stands.puts hputs
  · rw [hhook, h.same]
  · constructor
    · rw [← h.same, hload, hhook]
    · rw [hentries] at hdistinct ⊢
      exact h.protects.covers.saves hstands (isName_label number) hadds hputs hcopies
        (fun x hx => h.not_isCopyPlace hx) hdistinct fun path hpath => (hclears path hpath).route
    · exact hputs.outside.scratchClear h.protects.clear
    · intro x hx
      apply hputs.outside.view.clears
      rcases hmem x hx with hx | hx
      · exact h.protects.paths x hx
      · exact hclears _ (hadds.backup x hx).1
  · intro x hx
    rcases hmem x hx with hx | hx
    · exact h.labels_succ hx
    · refine ⟨number, Nat.lt_succ_self number, Snapshot.key x.original, ?_⟩
      have hplace := hstands.target_copy (isName_label number) x.original
      rw [← (hadds.backup x hx).2] at hplace
      rw [← hplace, Disk.target_congr h.protects.covers.here]
  · exact h.apart.congr hputs.outside.view

/-- The call before a step saves what the step looks at, or it fails; the snapshot protects what
was there before either way. -/
theorem Undoable.called (h : Undoable own root o d directory number st) {step : PlanStep}
    {files : List Path}
    (hfiles : Rename.candidates o.engine st.store step.old (scope o) = .ok files)
    {u : Snapshot.Upset} {t : Snapshot.Taken}
    (ht : t = Snapshot.takeUnder u st.store.disk st.hook (label number) files)
    {last : State Snapshot} (hdisk : last.store.disk = t.disk) (hhook : last.hook = t.snapshot)
    (hreal : last.store.overlay = st.store.overlay)
    (hreadable : last.store.unreadable = st.store.unreadable)
    (hdistinct : Snapshot.Distinct d last.hook.entries) :
    (t.fault = none → Undoable own root o d directory (number + 1) last ∧ Covered o step last) ∧
      ∃ entries, Snapshot.Protects own d last.store.disk directory entries := by
  have hclears := Search.clears_of_candidates h.apart (stepRoots_ne_nil o) hfiles
  have hcalled := Snapshot.called_takeUnder (h.same ▸ h.stands) (isName_label number)
    (fun path hpath => (hclears path hpath).route) u
  rw [← ht] at hcalled
  -- The files are found on the disk that the call leaves, too.
  have hfound : st.store.disk.SameOutside own last.store.disk →
      Rename.candidates o.engine last.store step.old (scope o) = .ok files := by
    intro houtside
    rw [← hfiles]
    have hsame : st.store.SameOutside own { last.store with unwritable := st.store.unwritable } :=
      ⟨houtside, hreal, hreadable, rfl⟩
    exact hsame.candidates_eq (stepRoots_ne_nil o) h.apart [step.old]
  cases hcalled with
  | nothing hnone _ hkept hsnapshot =>
    have hnext := h.next (hdisk.trans hkept) hreal (hhook.trans hsnapshot)
    refine ⟨fun _ => ⟨hnext, files, hfound ?_, ?_⟩, _, hnext.protects⟩
    · rw [hdisk, hkept]
      exact .refl own _
    · rw [hnone]
      exact fun path hpath => absurd hpath List.not_mem_nil
  | saved new _ hsnapshot hadds hputs hcopies hload =>
    rw [← hdisk] at hputs hload hcopies
    have hextended := h.extended hclears hadds hputs hcopies (hload.trans (hhook ▸ rfl)) hreal
      (hhook.trans hsnapshot) hdistinct
    refine ⟨fun _ => ⟨hextended, files, hfound hputs.outside, fun path hpath => ?_⟩,
      _, hextended.protects⟩
    obtain ⟨x, hx, hsame⟩ := hadds.complete path hpath
    refine ⟨x, ?_, hsame⟩
    rw [hhook, hsnapshot]
    exact List.mem_append_right _ hx
  | failed hfault hputs =>
    refine ⟨fun hnone => absurd hnone hfault, st.hook.entries, ?_⟩
    rw [hdisk]
    refine h.protects.puts h.stands hputs (fun x hx hmay => ?_) ?_
    · exact h.not_isCopyPlace hx (.inl hmay)
    · exact manifest_not_isCopyPlace root number

theorem Undoable.saved (h : Undoable own root o d directory number st) {step : PlanStep}
    {files : List Path}
    (hfiles : Rename.candidates o.engine st.store step.old (scope o) = .ok files)
    (remarks : List String) {answer : HookAnswer Snapshot}
    (hanswer : answer = answerOf (Snapshot.hookUnder upsets) number st files)
    (hdistinct : Snapshot.Distinct d answer.state.entries) :
    (answer.fault = none → Undoable own root o d directory (number + 1) (st.saved answer remarks) ∧
      Covered o step (st.saved answer remarks)) ∧
      ∃ entries, Snapshot.Protects own d answer.disk directory entries := by
  subst hanswer
  exact h.called hfiles rfl rfl rfl rfl rfl hdistinct

/-- What a step does to the files that it looks at can be undone. -/
theorem Undoable.stepped (h : Undoable own root o d directory number st) {step : PlanStep}
    (hcovered : Covered o step st) (earlier : Nat) :
    Undoable own root o d directory number (runStep o earlier step st) := by
  obtain ⟨files, hfiles, hentries⟩ := hcovered
  have hclears := Search.clears_of_candidates h.apart (stepRoots_ne_nil o) hfiles
  obtain ⟨hreal, hrewrites⟩ : (renameOf o step st).store.overlay = none ∧
      st.store.disk.RewritesOnly (fun p => ∃ path ∈ files, st.store.disk.target path = p)
        (renameOf o step st).store.disk :=
    Rename.run_rewritesOnly h.real h.protects.clear hfiles hclears
  rw [← runStep_store o earlier] at hreal hrewrites
  have hprotects := h.protects.rewrites h.stands hrewrites hentries
  constructor
  · exact hreal
  · refine h.stands.rewrites hrewrites ?_
    rintro p ⟨path, hpath, rfl⟩
    exact Snapshot.own_target (hclears path hpath).route
  · rw [runStep_hook]
    exact h.same
  · rw [runStep_hook]
    exact hprotects
  · rw [runStep_hook]
    exact h.labels
  · exact h.apart.congr hrewrites.view

/-- Wherever the steps stop, the snapshot protects what was there before. The induction is on the
steps that are left. -/
theorem Undoable.runStepsUnder (h : Undoable own root o d directory number st)
    (hdry : o.dryRun = false) {signal : Signal} {total : Nat} {steps : List PlanStep}
    (hdistinct : Snapshot.Distinct d (runStepsUnder signal o (Snapshot.hookUnder upsets) total number
      st steps).hook.entries) :
    ∃ entries, Snapshot.Protects own d (runStepsUnder signal o (Snapshot.hookUnder upsets) total
      number st steps).store.disk directory entries := by
  induction steps generalizing number st with
  | nil => exact ⟨_, h.protects⟩
  | cons step rest ih =>
    have hprepared := prepared o (Snapshot.hookUnder upsets) number step
      (st.heeding (signal number))
    have hheeding : Undoable own root o d directory number (st.heeding (signal number)) :=
      ⟨h.real, h.stands, h.same, h.protects, h.labels, h.apart⟩
    cases advance signal o (Snapshot.hookUnder upsets) total number st step rest with
    | interrupted hrun =>
      rw [hrun]
      exact ⟨_, h.protects⟩
    | unsaved last hprepare hrun =>
      rw [hrun] at hdistinct ⊢
      rw [hprepare] at hprepared
      cases hprepared with
      | unsearched => exact ⟨_, h.protects⟩
      | failed _ hfiles => exact (hheeding.saved hfiles [] rfl hdistinct).2
    | stopped next hprepare _ hrun =>
      rw [hrun] at hdistinct ⊢
      rw [hprepare] at hprepared
      rw [runStep_hook] at hdistinct
      cases hprepared with
      | dry hdry' =>
        rw [hdry] at hdry'
        cases hdry'
      | saved _ hfiles hfault =>
        obtain ⟨hready, hcovered⟩ := (hheeding.saved hfiles _ rfl hdistinct).1 hfault
        exact ⟨_, (hready.stepped hcovered number).protects⟩
    | going next hprepare _ hrun =>
      rw [hrun] at hdistinct ⊢
      rw [hprepare] at hprepared
      -- The entries of this call are among those of the whole run.
      have hsub := @hook_runStepsUnder _ (Snapshot.hookUnder upsets)
        (fun s t : Snapshot => s.entries ⊆ t.entries) (fun s => List.Subset.refl s.entries)
        List.Subset.trans
        (fun s d label files => Snapshot.subset_takeUnder (upsets label) d s label files) signal o
        total (number + 1) (runStep o number step next) rest
      have hnow := hdistinct.subset hsub
      rw [runStep_hook] at hnow
      cases hprepared with
      | dry hdry' =>
        rw [hdry] at hdry'
        cases hdry'
      | saved _ hfiles hfault =>
        obtain ⟨hready, hcovered⟩ := (hheeding.saved hfiles _ rfl hnow).1 hfault
        exact ih (hready.stepped hcovered number) hdistinct

end Run

/-- The disk that a run leaves behind; a run that cannot be planned leaves it as it is. -/
def diskAfter {σ : Type} (d : Disk) : Except Cause (State σ) → Disk
  | .ok st => st.store.disk
  | .error _ => d

/-- Before the first step nothing has changed. -/
theorem undoable_begin {own : Place → Bool} {root : Place} {o : Options} {d : Disk}
    {directory : Path} (hreal : o.dryRun = false) (hstands : Snapshot.StandsAt own root d directory)
    (hfresh : Snapshot.Protects own d d directory [])
    (hsearch : Search.Apart o.engine.filter.level (stepRoots o) own d) (mappings : List Mapping)
    (p : Plan) (interrupt : Bool) :
    Undoable own root o d directory 1
      (begin o mappings p (storeOf o d) (⟨directory, []⟩ : Snapshot) interrupt) := by
  obtain ⟨log, told, hbegin⟩ := exists_begin o mappings p (storeOf o d)
    (⟨directory, []⟩ : Snapshot) interrupt
  rw [hbegin]
  constructor
  · show (if o.dryRun then some [] else none) = none
    rw [hreal, if_neg Bool.false_ne_true]
  · exact hstands
  · rfl
  · exact hfresh
  · exact fun x hx => absurd hx List.not_mem_nil
  · exact hsearch

/-- A batch can be undone: wherever it stops, whatever happens to its calls and writes, putting
its snapshot back gives every file outside of the project's state directory what it held. -/
theorem run_is_undone {o : Options} {d e : Disk} {project : Place} {backups : Path} {id : String}
    {s : Snapshot} (hreal : o.dryRun = false) (hproject : ∀ name ∈ project, Path.IsName name)
    (hcreate : Snapshot.create d backups id = .ok (e, s)) (hbare : s.directory.IsBare)
    (hinside : project.inState (e.target s.directory) = true)
    (hfresh : e.isFile (Snapshot.manifestPath s.directory) = false)
    (hroots : ∀ root ∈ stepRoots o, e.Avoids project.inState root)
    (hclear : e.ScratchClear project.inState) (signal : Signal)
    (upsets : String → Snapshot.Upset) (commitHook : Option CommitHook) (mappings : List Mapping)
    (interrupt : Bool)
    (hdistinct : ∀ st, runUnder signal o (Snapshot.hookUnder upsets) commitHook mappings e s
      interrupt = .ok st → Snapshot.Distinct e st.hook.entries) :
    let after := diskAfter e (runUnder signal o (Snapshot.hookUnder upsets) commitHook mappings e s
      interrupt)
    ∃ saved, Snapshot.load after s.directory = .ok saved ∧
      ((Snapshot.restore after saved).fault = none → ∀ p n, d.nodeAt? p = some n →
        project.inState p = false → (Snapshot.restore after saved).disk.nodeAt? p = some n) := by
  intro after
  obtain ⟨made, hmake, hmade⟩ := bind_eq_ok_iff.mp hcreate
  obtain ⟨rfl, rfl⟩ := Prod.mk.inj (Except.ok.inj hmade)
  have hmake := mapError_eq_ok_iff.mp hmake
  have hgrows := Disk.grows_of_makeDirectories hmake
  have hstands : Snapshot.StandsAt project.inState (made.target (backups.join ⟨id⟩)) made
      (backups.join ⟨id⟩) := by
    refine ⟨hbare, Disk.open?_of_makeDirectories hbare hmake, fun names => ?_⟩
    exact Place.inState_iff.mpr ((Place.inState_iff.mp hinside).trans (List.prefix_append _ names))
  have hsearch := Search.apart_stateDirectory o.engine.filter.level hproject hroots
  have hstart := Snapshot.protects_fresh hfresh hclear
  have hprotects : ∃ entries, Snapshot.Protects project.inState made after (backups.join ⟨id⟩)
      entries := by
    cases hplan : plan o.engine.filter made o.roots mappings with
    | error cause =>
      have hfailed : after = made := by
        unfold after runUnder
        rw [hplan]
        rfl
      rw [hfailed]
      exact ⟨_, hstart⟩
    | ok p =>
      obtain ⟨st, last, hrun, hlast, hstore, hhook⟩ := exists_runUnder signal
        (Snapshot.hookUnder upsets) commitHook (⟨backups.join ⟨id⟩, []⟩ : Snapshot) interrupt hplan
      have hended : after = last.store.disk := by
        unfold after
        rw [hrun, ← hstore]
        rfl
      have hentries := hdistinct st hrun
      rw [hhook, hlast] at hentries
      rw [hended, hlast]
      exact (undoable_begin hreal hstands hstart hsearch mappings p interrupt).runStepsUnder hreal
        hentries
  obtain ⟨entries, hprotects⟩ := hprotects
  obtain ⟨saved, hload, hrestores⟩ := hprotects.restores
  exact ⟨saved, hload, fun hfault p n hp hown => hrestores hfault p n (hgrows.nodes p n hp) hown⟩

/-- A disk with one text and the directory of a new snapshot, and others. -/
def snapshotDisk (text : String) (others : List (Place × Node)) : Disk :=
  sourceDisk text (others ++ [([".refactor"], .directory 493),
    ([".refactor", "backups"], .directory 493), ([".refactor", "backups", "s1"], .directory 493)])

/-- A snapshot of it in which nothing has been saved. -/
def snapshotStart : Snapshot := ⟨⟨".refactor/backups/s1"⟩, []⟩

/-- The second call breaks off in the middle of a copy. -/
def tearing (label : String) : Snapshot.Upset :=
  { breaks := if label = "step-002" then some ⟨0, .missing, bytes "c"⟩ else none }

/-- A batch of two steps whose second call does this. -/
def tornRun : Except Cause (State Snapshot) :=
  runUnder (fun _ => false) (sourceOptions [⟨"src"⟩] []) (Snapshot.hookUnder tearing) none
    [⟨"a", "c"⟩, ⟨"b", "d"⟩] (snapshotDisk "a b" []) snapshotStart false

theorem run_is_undone_torn :
    ∃ saved, Snapshot.load (diskAfter (snapshotDisk "a b" []) tornRun) snapshotStart.directory =
        .ok saved ∧
      ((Snapshot.restore (diskAfter (snapshotDisk "a b" []) tornRun) saved).fault = none →
        (Snapshot.restore (diskAfter (snapshotDisk "a b" []) tornRun) saved).disk.nodeAt?
          ["src", "a.js"] = some (.file (bytes "a b") 420)) ∧
      (diskAfter (snapshotDisk "a b" []) tornRun).nodeAt? ["src", "a.js"] =
        some (.file (bytes "c b") 420) := by
  have hproject : ∀ name ∈ ([] : Place), Path.IsName name := fun _ h => absurd h List.not_mem_nil
  have hcreate : Snapshot.create (sourceDisk "a b" []) ⟨".refactor/backups"⟩ "s1" =
      .ok (snapshotDisk "a b" [], snapshotStart) := by decide +kernel
  have hbare : snapshotStart.directory.IsBare := ⟨by decide +kernel, by decide +kernel⟩
  have hroots : ∀ root ∈ stepRoots (sourceOptions [⟨"src"⟩] []),
      (snapshotDisk "a b" []).Avoids (Place.inState []) root := by decide +kernel
  have hclear : (snapshotDisk "a b" []).ScratchClear (Place.inState []) :=
    Disk.scratchClear_of_nodes (by decide +kernel)
  have hrun : tornRun.toOption.any (fun st =>
      st.store.disk.nodeAt? ["src", "a.js"] = some (.file (bytes "c b") 420) ∧
        Snapshot.Distinct (snapshotDisk "a b" []) st.hook.entries) = true := by decide +kernel
  obtain ⟨st, hst, hshape⟩ := exists_of_toOption_any hrun
  obtain ⟨hnow, hentries⟩ := of_decide_eq_true hshape
  have hdistinct : ∀ last, tornRun = .ok last →
      Snapshot.Distinct (snapshotDisk "a b" []) last.hook.entries := by
    intro last hlast
    rw [hst] at hlast
    rwa [← Except.ok.inj hlast]
  obtain ⟨saved, hload, hrestores⟩ := run_is_undone (o := sourceOptions [⟨"src"⟩] []) rfl hproject
    hcreate hbare (by decide +kernel) (by decide +kernel) hroots hclear (fun _ => false) tearing none
    [⟨"a", "c"⟩, ⟨"b", "d"⟩] false hdistinct
  refine ⟨saved, hload, fun hfault => hrestores hfault _ _ (by decide +kernel) rfl, ?_⟩
  rw [hst]
  exact hnow

/-- A run of a batch whose snapshot is put back without a fault, and a file then differs. -/
def Differs (o : Options) (mappings : List Mapping) (d : Disk) (p : Place) : Prop :=
  ∃ st saved n, run o Snapshot.hook none mappings d snapshotStart false = .ok st ∧
    Snapshot.Distinct d st.hook.entries ∧
    Snapshot.load st.store.disk snapshotStart.directory = .ok saved ∧
    (Snapshot.restore st.store.disk saved).fault = none ∧ d.nodeAt? p = some n ∧
    (Snapshot.restore st.store.disk saved).disk.nodeAt? p ≠ some n

/-- What one step on a text saves, as its manifest tells it. -/
def oneSaved : Snapshot.KnownManifest where
  entries :=
    [⟨"step-001", ⟨"src/a.js"⟩,
      ⟨".refactor/backups/s1/step-001/" ++
        "8f38df866477412506f7147a50705de459a735333f5832a8f44f59e86068a224"⟩,
      "ca978112ca1bbdcafac231b39a23dc4da786eff8147c4e72b9807785afee48bb"⟩]
  text :=
    "[\n  \x7b\n    \"label\": \"step-001\",\n    \"original_path\": \"src/a.js\",\n" ++
      "    \"backup_path\": \".refactor/backups/s1/step-001/" ++
      "8f38df866477412506f7147a50705de459a735333f5832a8f44f59e86068a224\",\n" ++
      "    \"checksum\": \"ca978112ca1bbdcafac231b39a23dc4da786eff8147c4e72b9807785afee48bb\"\n" ++
      "  \x7d\n]"
  written := by decide +kernel

/-- The run is worked out the short way. -/
theorem differs_of_any {o : Options} {mappings : List Mapping} {d : Disk} {p : Place} {n : Node}
    (k : Snapshot.KnownManifest) (hnode : d.nodeAt? p = some n)
    (h : (run o k.shortHook none mappings d snapshotStart false).toOption.any (fun st =>
      decide (Snapshot.Distinct d st.hook.entries) &&
        (k.shortLoad st.store.disk snapshotStart.directory).toOption.any fun saved =>
          decide ((Snapshot.restore st.store.disk saved).fault = none ∧
            (Snapshot.restore st.store.disk saved).disk.nodeAt? p ≠ some n)) = true) :
    Differs o mappings d p := by
  rw [← k.hook_eq_shortHook] at h
  obtain ⟨st, hst, hshape⟩ := exists_of_toOption_any h
  obtain ⟨hdistinct, hrest⟩ := Bool.and_eq_true_iff.mp hshape
  rw [← k.load_eq_shortLoad] at hrest
  obtain ⟨saved, hload, hend⟩ := exists_of_toOption_any hrest
  obtain ⟨hfault, hdiffers⟩ := of_decide_eq_true hend
  exact ⟨st, saved, n, hst, of_decide_eq_true hdistinct, hload, hfault, hnode, hdiffers⟩

/-- Both conditions are needed. A file with the name of a scratch file is lost; and where the
snapshot itself is searched, the copies are renamed with the files. -/
theorem run_is_not_undone :
    Differs (sourceOptions [⟨"src/a.js"⟩] []) [⟨"a", "b"⟩]
      (snapshotDisk "a" [(["src", "a.7.refactor.tmp"], .file (bytes "kept") 420)])
      ["src", "a.7.refactor.tmp"] ∧
    Differs (sourceOptions [⟨".refactor/backups"⟩, ⟨"src"⟩] []) [⟨"a", "b"⟩] (snapshotDisk "a" [])
      ["src", "a.js"] := by
  constructor
  · apply differs_of_any (n := .file (bytes "kept") 420) oneSaved
    · decide +kernel
    · decide +kernel
  · apply differs_of_any (n := .file (bytes "a") 420) oneSaved
    · decide +kernel
    · decide +kernel

end Batch

end SymbolRename
