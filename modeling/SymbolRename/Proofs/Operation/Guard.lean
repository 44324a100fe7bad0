import SymbolRename.Operation
import SymbolRename.Proofs.Disk.Views
import SymbolRename.Proofs.Lock.Contest
import SymbolRename.Proofs.Search.StateDirectory

/-!
# Around an action that changes files

Before an action its command takes the lock of the project and opens the log, and afterwards it
adds to the log and gives the lock up. Of the disk this touches the state directory, the lock and
the log: `Lock.Takes`, `Log.Starts`, `Log.keeps_addAll` and `Lock.Held.release_eq`. Where it has been
done once it can be done again, as long as nobody holds the lock: `Operation.exists_guarded`.
-/

namespace SymbolRename

namespace Place

/-- The state directory of a project. -/
def stateDir (project : Place) : Place := project ++ [Search.stateDirectory]

/-- The lock of a project. -/
def lockFile (project : Place) : Place := project.stateDir ++ [Lock.fileName]

/-- The log of a project. -/
def logFile (project : Place) : Place := project.stateDir ++ [Log.fileName]

/-- What is touched around an action. -/
def IsGuard (project p : Place) : Prop :=
  p = project.stateDir ∨ p = project.lockFile ∨ p = project.logFile

variable {project : Place}

theorem inState_below (project : Place) (names : List String) :
    project.inState (project.stateDir ++ names) = true :=
  inState_iff.mpr (List.prefix_append _ names)

theorem inState_stateDir (project : Place) : project.inState project.stateDir = true :=
  inState_iff.mpr (List.prefix_refl _)

theorem inState_of_isGuard {p : Place} (h : project.IsGuard p) : project.inState p = true := by
  rcases h with rfl | rfl | rfl
  · exact inState_stateDir project
  · exact inState_below project [Lock.fileName]
  · exact inState_below project [Log.fileName]

theorem IsNamed.stateDir (h : project.IsNamed) : project.stateDir.IsNamed :=
  h.concat (by decide)

theorem IsNamed.lockFile (h : project.IsNamed) : project.lockFile.IsNamed :=
  h.stateDir.concat (by decide)

theorem IsNamed.logFile (h : project.IsNamed) : project.logFile.IsNamed :=
  h.stateDir.concat (by decide)

end Place

/-- The project is a directory, whose name can be written. -/
structure Disk.HasProject (project : Place) (d : Disk) : Prop where
  named : project.IsNamed
  way : ∀ p, p <+: project → ∃ mode, d.nodeAt? p = some (.directory mode)

namespace Disk

variable {own : Place → Bool} {may : Place → Prop} {project : Place} {d e : Disk} {p : Place}

theorem Keeps.hasProject (h : Keeps own may d e) (hproject : d.HasProject project) :
    e.HasProject project := by
  refine ⟨hproject.named, fun p hp => ?_⟩
  obtain ⟨mode, hmode⟩ := hproject.way p hp
  exact ⟨mode, h.directories p mode hmode⟩

/-- On the way to the state directory nothing but itself can be missing. -/
theorem HasProject.eq_stateDir (h : d.HasProject project) (hp : p <+: project.stateDir)
    (hnone : d.nodeAt? p = none) : p = project.stateDir := by
  rcases List.prefix_concat_iff.mp hp with hsame | hprefix
  · exact hsame
  · obtain ⟨mode, hmode⟩ := h.way p hprefix
    rw [hnone] at hmode
    cases hmode

/-- The state directory is made if it is missing. -/
theorem HasProject.makeDirectories (h : d.HasProject project)
    (hmake : d.makeDirectories project.stateDir.toPath = .ok e) :
    d.Keeps project.inState (· = project.stateDir) e ∧
      ∃ mode, e.open? project.stateDir.toPath = .ok (project.stateDir, .directory mode) := by
  have hnamed := h.named.stateDir
  constructor
  · refine .of_makeDirectories hnamed hmake fun p hp hnone => ?_
    rw [h.eq_stateDir hp hnone]
    exact ⟨Place.inState_stateDir project, rfl⟩
  · have hopen := open?_of_makeDirectories (Place.isBare_toPath hnamed (by simp [Place.stateDir])) hmake
    rwa [Place.target_toPath e hnamed] at hopen

/-- A file that is written or added to. -/
structure Files (d : Disk) (p : Place) (e : Disk) : Prop where
  located : d.locate p.toPath = .ok p
  free : ∀ mode, d.nodeAt? p ≠ some (.directory mode)
  put : ∃ content mode, e = d.put p (.file content mode)

theorem Files.keeps (h : Files d p e) (hown : own p = true) (hmay : may p) : d.Keeps own may e := by
  obtain ⟨content, mode, rfl⟩ := h.put
  exact .put hown hmay h.free _

theorem Files.process_eq (h : Files d p e) : e.process = d.process := by
  obtain ⟨content, mode, rfl⟩ := h.put
  rfl

/-- The file can be opened from now on. -/
theorem Files.open? (h : Files d p e) : ∃ content mode,
    e = d.put p (.file content mode) ∧ e.open? p.toPath = .ok (p, .file content mode) := by
  obtain ⟨content, mode, rfl⟩ := h.put
  have hkeeps : d.Keeps (fun _ => true) (fun _ => True) (d.put p (.file content mode)) :=
    .put rfl trivial h.free _
  refine ⟨content, mode, rfl, open?_eq_ok_iff.mpr ⟨hkeeps.locate h.located, ?_⟩⟩
  rw [nodeAt?_put (ne_nil_of_nodeAt? h.free), if_pos rfl]

theorem files_of_write {content : Bytes} (hp : p.IsNamed) (h : d.write p.toPath content = .ok e) :
    d.Files p e := by
  obtain ⟨hlocate, hdirectory, rfl⟩ := write_eq_ok h
  rw [Place.target_toPath d hp] at hlocate hdirectory ⊢
  exact ⟨hlocate, hdirectory, _, _, rfl⟩

theorem files_of_append {content : Bytes} (hp : p.IsNamed)
    (h : d.append p.toPath content = .ok e) : d.Files p e := by
  obtain ⟨⟨q, found⟩, hwrite, h⟩ := bind_eq_ok_iff.mp h
  obtain ⟨hlocate, hfound, hdirectory, hbare⟩ := locateForWrite_eq_ok hwrite
  rw [hbare] at hlocate
  have hplace := (eq_target_of_locate hlocate).trans (Place.target_toPath d hp)
  rw [hplace] at hlocate h hfound
  refine ⟨hlocate, fun mode hmode => hdirectory mode (hfound ▸ hmode), ?_⟩
  cases found with
  | none => exact ⟨_, _, (Except.ok.inj h).symm⟩
  | some n =>
    cases n with
    | file old mode => exact ⟨_, _, (Except.ok.inj h).symm⟩
    | directory mode => exact absurd rfl (hdirectory mode)

theorem files_of_writeNew {content : Bytes} (hp : p.IsNamed)
    (h : d.writeNew p.toPath content = .ok e) : d.Files p e := by
  unfold writeNew at h
  split at h
  · cases h
  · exact files_of_write hp h

end Disk

variable {project : Place} {m : Machine} {d e : Disk} {lock : Lock} {log : Log}

/-! ### The lock -/

namespace Lock

/-- The lock of a project is held. -/
structure Held (project : Place) (lock : Lock) (d : Disk) : Prop where
  path : lock.path = project.lockFile.toPath
  content : ∃ process now, lock.content = contentOf process now
  stands : ∃ mode, d.open? lock.path = .ok (project.lockFile, .file (bytes lock.content) mode)

/-- Whoever does not touch the lock leaves it held. -/
theorem Held.keeps {own : Place → Bool} {may : Place → Prop} (h : Held project lock d)
    (hkeeps : d.Keeps own may e) (hmay : ¬ may project.lockFile) : Held project lock e := by
  obtain ⟨mode, hopen⟩ := h.stands
  refine ⟨h.path, h.content, mode, hkeeps.open?_of_nodeAt? hopen ?_⟩
  rw [hkeeps.nodes _ hmay, Disk.nodeAt?_of_open? hopen]

/-- A lock that is held is given up by removing it. -/
theorem Held.release_eq (h : Held project lock d) : release d lock = d.drop project.lockFile := by
  obtain ⟨mode, hopen⟩ := h.stands
  obtain ⟨process, now, hcontent⟩ := h.content
  have hread : d.readText lock.path = .ok lock.content := by
    unfold Disk.readText
    rw [Disk.read_eq_ok_iff.mpr ⟨_, _, hopen⟩]
    simp only [bind, Except.bind, Utf8.decode?_bytes, pure, Except.pure]
  have hours : isOurs d lock = true := by
    unfold isOurs
    rw [hread, hcontent]
    simp only [trim_contentOf, beq_self_eq_true]
  unfold release
  rw [if_pos hours, Disk.remove_eq_ok_iff.mpr ⟨_, _, _, hopen, rfl⟩]

theorem inState_lockFile (project : Place) : project.inState project.lockFile = true :=
  Place.inState_below project [fileName]

/-- First of all a lock that stands there is removed. -/
theorem keeps_of_clear (hnamed : project.lockFile.IsNamed)
    (h : clear m d project.lockFile.toPath = .ok e) :
    d.Keeps project.inState (· = project.lockFile) e ∧ e.process = d.process := by
  unfold clear at h
  split at h
  · obtain rfl := Except.ok.inj h
    exact ⟨.refl _ _ _, rfl⟩
  · split at h
    · cases h
    · obtain ⟨p, content, mode, hopen, rfl⟩ := Disk.remove_eq_ok_iff.mp (mapError_eq_ok_iff.mp h)
      obtain rfl := (Disk.eq_target_of_open? hopen).trans (Place.target_toPath d hnamed)
      refine ⟨.drop (inState_lockFile project) rfl ?_, rfl⟩
      simp [Disk.nodeAt?_of_open? hopen]

/-- What taking a lock leaves. -/
structure Takes (project : Place) (d : Disk) (lock : Lock) (e : Disk) : Prop where
  keeps : d.Keeps project.inState (fun p => p = project.stateDir ∨ p = project.lockFile) e
  held : Held project lock e
  process : e.process = d.process
  opened : ∃ mode, e.open? project.stateDir.toPath = .ok (project.stateDir, .directory mode)

theorem takes_of_acquire (hproject : d.HasProject project)
    (h : acquire m d project.stateDir.toPath = (e, .ok lock)) : Takes project d lock e := by
  have hnamed := hproject.named.lockFile
  have hpath : project.stateDir.toPath.join ⟨fileName⟩ = project.lockFile.toPath :=
    Place.join_toPath hproject.named.stateDir (by decide)
  unfold acquire at h
  rw [hpath] at h
  dsimp only at h
  split at h
  · cases (Prod.mk.inj h).2
  rename_i cleared hcleared
  obtain ⟨hfirst, hprocess⟩ := keeps_of_clear hnamed hcleared
  split at h
  · cases (Prod.mk.inj h).2
  rename_i made hmade
  obtain ⟨hsecond, mode, hopen⟩ := (hfirst.hasProject hproject).makeDirectories hmade
  split at h
  · cases (Prod.mk.inj h).2
  rename_i written hwritten
  obtain ⟨rfl, hlock⟩ := Prod.mk.inj h
  obtain rfl := Except.ok.inj hlock
  have hfiles := Disk.files_of_writeNew hnamed hwritten
  have hthird : made.Keeps project.inState (· = project.lockFile) written :=
    hfiles.keeps (inState_lockFile project) rfl
  have hnode : written.nodeAt? project.lockFile =
      some (.file (bytes (contentOf made.process m.now)) Node.fileMode) := by
    rw [(Disk.writeNew_eq_ok hwritten).2, Place.target_toPath made hnamed,
      Disk.nodeAt?_put (Disk.ne_nil_of_nodeAt? hfiles.free), if_pos rfl]
  constructor
  · exact ((hfirst.mono fun p => .inr).trans (hsecond.mono fun p => .inl)).trans
      (hthird.mono fun p => .inr)
  · refine ⟨rfl, ⟨_, _, rfl⟩, Node.fileMode, Disk.open?_eq_ok_iff.mpr ⟨?_, hnode⟩⟩
    exact hthird.locate hfiles.located
  · rw [hfiles.process_eq, (Disk.grows_of_makeDirectories hmade).process, hprocess]
  · exact ⟨mode, hthird.open?_directory hopen⟩

end Lock

/-! ### The log -/

namespace Log

theorem inState_logFile (project : Place) : project.inState project.logFile = true :=
  Place.inState_below project [fileName]

/-- The log of a project is there. -/
def Stands (project : Place) (d : Disk) : Prop :=
  ∃ content mode, d.open? project.logFile.toPath = .ok (project.logFile, .file content mode)

/-- Whoever does not touch the log leaves it there. -/
theorem Stands.keeps {own : Place → Bool} {may : Place → Prop} (h : Stands project d)
    (hkeeps : d.Keeps own may e) (hmay : ¬ may project.logFile) : Stands project e := by
  obtain ⟨content, mode, hopen⟩ := h
  refine ⟨content, mode, hkeeps.open?_of_nodeAt? hopen ?_⟩
  rw [hkeeps.nodes _ hmay, Disk.nodeAt?_of_open? hopen]

/-- What opening the log leaves. -/
structure Starts (project : Place) (d : Disk) (log : Log) (e : Disk) : Prop where
  path : log.path = project.logFile.toPath
  keeps : d.Keeps project.inState (· = project.logFile) e
  process : e.process = d.process
  stands : Stands project e

theorem starts_of_start {mode : Nat} (hnamed : project.IsNamed)
    (hopen : d.open? project.stateDir.toPath = .ok (project.stateDir, .directory mode))
    (h : start d project.stateDir.toPath = .ok (e, log)) : Starts project d log e := by
  have hpath : project.stateDir.toPath.join ⟨fileName⟩ = project.logFile.toPath :=
    Place.join_toPath hnamed.stateDir (by decide)
  unfold start at h
  rw [Disk.makeDirectories_of_open? hnamed.stateDir hopen, hpath] at h
  obtain ⟨same, hsame, h⟩ := bind_eq_ok_iff.mp h
  obtain rfl := Except.ok.inj hsame
  obtain ⟨added, hadded, h⟩ := bind_eq_ok_iff.mp h
  obtain ⟨rfl, rfl⟩ := Prod.mk.inj (Except.ok.inj h)
  have hfiles := Disk.files_of_append hnamed.logFile hadded
  obtain ⟨content, mode', _, hopened⟩ := hfiles.open?
  exact ⟨rfl, hfiles.keeps (inState_logFile project) rfl, hfiles.process_eq, content, mode', hopened⟩

/-- A message changes nothing but the log. -/
theorem keeps_add (hnamed : project.IsNamed) (hpath : log.path = project.logFile.toPath)
    (hstands : Stands project d) (now : Nat) (message : String) :
    d.Keeps project.inState (· = project.logFile) (log.add now d message) ∧
      Stands project (log.add now d message) := by
  unfold add
  rw [hpath]
  split
  · split
    · rename_i added hadded
      have hfiles := Disk.files_of_append hnamed.logFile hadded
      obtain ⟨content, mode, _, hopen⟩ := hfiles.open?
      exact ⟨hfiles.keeps (inState_logFile project) rfl, content, mode, hopen⟩
    · exact ⟨.refl _ _ _, hstands⟩
  · exact ⟨.refl _ _ _, hstands⟩

theorem keeps_addAll (hnamed : project.IsNamed) (hpath : log.path = project.logFile.toPath)
    (hstands : Stands project d) (now : Nat) (messages : List String) :
    d.Keeps project.inState (· = project.logFile) (log.addAll now d messages) ∧
      Stands project (log.addAll now d messages) := by
  unfold addAll
  induction messages generalizing d with
  | nil => exact ⟨.refl _ _ _, hstands⟩
  | cons message rest ih =>
    obtain ⟨hone, hthere⟩ := keeps_add hnamed hpath hstands now message
    obtain ⟨hrest, hlast⟩ := ih hthere
    exact ⟨hone.trans hrest, hlast⟩

end Log

/-! ### The action -/

/-- A command has run before, and nobody holds the lock. -/
structure Disk.IsReleased (project : Place) (d : Disk) : Prop where
  opened : ∃ mode, d.open? project.stateDir.toPath = .ok (project.stateDir, .directory mode)
  unlocked : d.locate project.lockFile.toPath = .ok project.lockFile ∧
    d.nodeAt? project.lockFile = none
  logged : Log.Stands project d

/-- Whoever asks, nobody holds the lock. -/
theorem Disk.IsReleased.seenFrom (h : d.IsReleased project) (here : Place) (process : Nat) :
    (d.seenFrom here process).IsReleased project := by
  obtain ⟨content, mode, hlog⟩ := h.logged
  refine ⟨?_, ?_, content, mode, ?_⟩
  · rw [Disk.open?_seenFrom (Place.isAbsolute_toPath _)]
    exact h.opened
  · rw [Disk.locate_seenFrom (Place.isAbsolute_toPath _)]
    exact h.unlocked
  · rwa [Disk.open?_seenFrom (Place.isAbsolute_toPath _)]

namespace Place

theorem lockFile_ne_logFile (project : Place) : project.lockFile ≠ project.logFile := by
  intro h
  have hnames := List.append_cancel_left h
  exact absurd (List.cons.inj hnames).1 (by decide)

end Place

namespace Lock

end Lock

namespace Operation

variable {α : Type} {p : Project} {inside : Disk}

/-- An action that changes files runs: with the lock held and the log open on the disk inside, and
what it leaves is on the disk at the end. -/
structure Guarded (project : Place) (d : Disk) (action : Disk → Acted α) (inside e : Disk) :
    Prop where
  enters : d.Keeps project.inState project.IsGuard inside
  process : inside.process = d.process
  opened : ∃ mode, inside.open? project.stateDir.toPath = .ok (project.stateDir, .directory mode)
  /-- When the action has left the lock and the log alone, the lock is given up. -/
  leaves : ∀ {may : Place → Prop}, inside.Keeps project.inState may (action inside).disk →
    ¬ may project.lockFile → ¬ may project.logFile →
    (action inside).disk.Keeps project.inState project.IsGuard e ∧ e.IsReleased project

theorem guarded_of_stages {locked : Disk} (hnamed : project.IsNamed)
    (hlock : lock.Takes project d locked) (hlog : log.Starts project locked inside)
    (action : Disk → Acted α) (now : Nat) :
    Guarded project d action inside
      (Lock.release (log.addAll now (action inside).disk (action inside).messages) lock) := by
  have htakes : d.Keeps project.inState project.IsGuard locked :=
    hlock.keeps.mono fun p hp => hp.imp_right .inl
  have hstarts : locked.Keeps project.inState project.IsGuard inside :=
    hlog.keeps.mono fun p hp => .inr (.inr hp)
  obtain ⟨mode, hopen⟩ := hlock.opened
  have hlocked := Lock.inState_lockFile project
  have hne := Place.lockFile_ne_logFile project
  refine ⟨htakes.trans hstarts, hlog.process.trans hlock.process,
    ⟨mode, hstarts.open?_directory hopen⟩, fun {may} hacts hfree hfree' => ?_⟩
  have hstands := hlog.stands.keeps hacts hfree'
  obtain ⟨hadds, htold⟩ :=
    Log.keeps_addAll hnamed hlog.path hstands now (action inside).messages
  generalize log.addAll now (action inside).disk (action inside).messages = told at hadds htold ⊢
  have hheld := ((hlock.held.keeps hlog.keeps hne).keeps hacts hfree).keeps hadds hne
  rw [hheld.release_eq]
  obtain ⟨mode', hlast⟩ := hheld.stands
  rw [hheld.path] at hlast
  obtain ⟨hlocate, hnode⟩ := Disk.open?_eq_ok_iff.mp hlast
  have hdrops : told.Keeps project.inState (· = project.lockFile) (told.drop project.lockFile) :=
    .drop hlocked rfl (by simp [hnode])
  have hplace : project.lockFile ≠ [] := Disk.ne_nil_of_nodeAt? (d := told) (by simp [hnode])
  have hleaves : (action inside).disk.Keeps project.inState project.IsGuard
      (told.drop project.lockFile) :=
    (hadds.mono fun p hp => .inr (.inr hp)).trans (hdrops.mono fun p hp => .inr (.inl hp))
  refine ⟨hleaves, ⟨mode, ?_⟩, ⟨hdrops.locate hlocate, ?_⟩, ?_⟩
  · exact hleaves.open?_directory (hacts.open?_directory (hstarts.open?_directory hopen))
  · rw [Disk.nodeAt?_drop hplace, if_pos rfl]
  · exact htold.keeps hdrops hne.symm

/-- An action whose answer is given has run. -/
theorem guarded_of_eq {answer : α} {action : Disk → Acted α} (hproject : d.HasProject project)
    (hstate : p.stateDir = project.stateDir.toPath)
    (h : guarded m p d action = (e, .ok answer)) :
    ∃ inside, Guarded project d action inside e ∧ (action inside).answer = .ok answer := by
  unfold guarded at h
  rw [hstate] at h
  split at h
  · cases (Prod.mk.inj h).2
  rename_i locked lock hacquire
  have hlock := Lock.takes_of_acquire hproject hacquire
  obtain ⟨mode, hopen⟩ := hlock.opened
  split at h
  · cases (Prod.mk.inj h).2
  rename_i started log hstart
  have hlog := Log.starts_of_start hproject.named hopen hstart
  obtain ⟨rfl, hanswer⟩ := Prod.mk.inj h
  exact ⟨started, guarded_of_stages hproject.named hlock hlog action m.now, hanswer⟩

end Operation

end SymbolRename
