import SymbolRename.Proofs.Snapshot.Copies
import SymbolRename.Proofs.Snapshot.Single

/-!
# The history of a snapshot

Calls save files in one snapshot under labels of their own, and in between anybody may write, make
and remove files, as long as directories stay and nobody touches the snapshot: `Snapshot.History`.
After each call and each edit the entries are those of the files that were saved, in order, each
copy holds what its file held when it was saved, and the manifest on the disk lists the entries
(`Snapshot.History.consistent`). A later call puts its copies elsewhere because its label names
another directory, and within a call one path has one copy. Histories on a given disk can be worked
out: `Snapshot.Scenario.history_of_play?`.
-/

namespace SymbolRename.Snapshot

/-! ### Calls and edits -/

/-- A file that a call saves, and the disk that the call finds. -/
structure Saving where
  disk : Disk
  path : Path

/-- What the file holds then. The path may lead through a directory that only the call makes, so
this is about the place that it names. -/
def Saving.Held (x : Saving) (content : Bytes) : Prop :=
  ∃ mode, x.disk.nodeAt? (x.disk.target x.path) = some (.file content mode)

/-- Somebody writes, makes and removes files. All directories stay, and so does what belongs to the
snapshot. -/
structure Edited (s : Snapshot) (d e : Disk) : Prop where
  here : e.here = d.here
  directories : ∀ p mode, d.nodeAt? p = some (.directory mode) →
    e.nodeAt? p = some (.directory mode)
  copies : ∀ x ∈ s.entries, e.nodeAt? (d.target x.backup) = d.nodeAt? (d.target x.backup)
  manifest : e.nodeAt? (d.target (manifestPath s.directory)) =
    d.nodeAt? (d.target (manifestPath s.directory))

/-- Successful calls under different labels, with edits before, between and after them: the labels
that were used, the files that were saved in order, and the disk and the snapshot that result. -/
inductive History (start : Disk) (new : Snapshot) :
    List String → List Saving → Disk → Snapshot → Prop
  | created : History start new [] [] start new
  | edited {labels : List String} {saved : List Saving} {d e : Disk} {s : Snapshot}
      (h : History start new labels saved d s) (hedit : Edited s d e) :
      History start new labels saved e s
  | taken {labels : List String} {saved : List Saving} {d : Disk} {s : Snapshot} {label : String}
      {files : List Path} (h : History start new labels saved d s) (hlabel : label ∉ labels)
      (hgoes : (take d s label files).fault = none) :
      History start new (label :: labels) (saved ++ files.map (⟨d, ·⟩))
        (take d s label files).disk (take d s label files).snapshot

/-- Different labels name different directories, each file is spelled one way, different paths have
different digests, and no file that is saved stands where a copy is put. -/
structure Separate (d : Disk) (s : Snapshot) : Prop extends Distinct d s.entries where
  directories : ∀ x ∈ s.entries, ∀ y ∈ s.entries,
    d.target (labelDirectory s.directory x.label) = d.target (labelDirectory s.directory y.label) →
      x.label = y.label
  copies : ∀ x ∈ s.entries, ∀ y ∈ s.entries, d.target x.original ≠ d.target y.backup

instance (d : Disk) (s : Snapshot) : Decidable (Separate d s) :=
  decidable_of_iff (Distinct d s.entries ∧
      (∀ x ∈ s.entries, ∀ y ∈ s.entries,
        d.target (labelDirectory s.directory x.label) =
          d.target (labelDirectory s.directory y.label) → x.label = y.label) ∧
      ∀ x ∈ s.entries, ∀ y ∈ s.entries, d.target x.original ≠ d.target y.backup)
    ⟨fun ⟨h, h', h''⟩ => ⟨h, h', h''⟩, fun h => ⟨h.toDistinct, h.directories, h.copies⟩⟩

/-- The entry of a file that was saved: its copy can be found, and holds what the file held. -/
structure Stored (d : Disk) (directory : Path) (labels : List String) (x : SnapshotEntry)
    (y : Saving) : Prop where
  original : x.original = y.path
  label : x.label ∈ labels
  backup : x.backup = copyPath directory x.label x.original
  bare : x.original.IsBare
  located : d.locate x.original = .ok (d.target x.original)
  copied : d.locate x.backup = .ok (d.target x.backup)
  holds : ∃ content mode, y.Held content ∧ d.nodeAt? (d.target x.backup) = some (.file content mode)

/-- What holds after each call and each edit: every saved file has its entry, in order, and the
manifest on the disk lists the entries. -/
structure Consistent (start : Disk) (labels : List String) (saved : List Saving) (d : Disk)
    (s : Snapshot) : Prop where
  here : d.here = start.here
  entries : List.Forall₂ (Stored d s.directory labels) s.entries saved
  manifest : (s.entries = [] ∧ d.nodeAt? (start.target (manifestPath s.directory)) =
      start.nodeAt? (start.target (manifestPath s.directory))) ∨
    ∃ mode, d.open? (manifestPath s.directory) = .ok (d.target (manifestPath s.directory),
      .file (bytes (Manifest.render s.entries)) mode)

section History

variable {start d e : Disk} {new s : Snapshot} {labels more : List String} {saved : List Saving}
  {label : String} {directory path : Path} {x : SnapshotEntry} {y : Saving} {may : Place → Prop}

/-- A change that removes no directory keeps an entry whose copy still holds what its file held. -/
theorem Stored.of_keeps (h : Stored d directory labels x y)
    (hkeeps : d.Keeps (fun _ => true) may e)
    (hholds : ∃ content mode, y.Held content ∧
      e.nodeAt? (d.target x.backup) = some (.file content mode)) :
    Stored e directory labels x y := by
  refine ⟨h.original, h.label, h.backup, h.bare, ?_, ?_, ?_⟩
  · rw [hkeeps.target_eq]
    exact hkeeps.locate h.located
  · rw [hkeeps.target_eq]
    exact hkeeps.locate h.copied
  · rw [hkeeps.target_eq]
    exact hholds

theorem Stored.keeps (h : Stored d directory labels x y) (hkeeps : d.Keeps (fun _ => true) may e)
    (hnot : ¬ may (d.target x.backup)) : Stored e directory labels x y := by
  obtain ⟨content, mode, hheld, hnode⟩ := h.holds
  exact h.of_keeps hkeeps ⟨content, mode, hheld, (hkeeps.nodes _ hnot).trans hnode⟩

theorem Stored.mono (h : Stored d directory labels x y) (hsub : labels ⊆ more) :
    Stored d directory more x y :=
  { h with label := hsub h.label }

/-- Fewer entries are separate too. -/
theorem Separate.mono {s' : Snapshot} (h : Separate e s') (hhere : d.here = e.here)
    (hdirectory : s'.directory = s.directory) (hentries : s.entries ⊆ s'.entries) :
    Separate d s := by
  have htarget := Disk.target_congr hhere
  refine ⟨⟨fun x hx y hy heq => ?_, fun x hx y hy => ?_⟩, fun x hx y hy heq => ?_,
    fun x hx y hy heq => ?_⟩
  · rw [htarget, htarget] at heq
    exact h.spelling x (hentries hx) y (hentries hy) heq
  · exact h.digests x (hentries hx) y (hentries hy)
  · rw [htarget, htarget, ← hdirectory] at heq
    exact h.directories x (hentries hx) y (hentries hy) heq
  · rw [htarget, htarget] at heq
    exact h.copies x (hentries hx) y (hentries hy) heq

theorem target_copyPath (d : Disk) (directory : Path) (label : String) (path : Path) :
    d.target (copyPath directory label path) =
      d.target (labelDirectory directory label) ++ [key path] :=
  Disk.target_join_name d _ (isName_key path)

/-- The copies of two files are at one place only if one call made them for one path. -/
theorem Separate.eq_of_target_eq (h : Separate d s) {y : SnapshotEntry} (hx : x ∈ s.entries)
    (hy : y ∈ s.entries) (hxbackup : x.backup = copyPath s.directory x.label x.original)
    (hybackup : y.backup = copyPath s.directory y.label y.original)
    (heq : d.target x.backup = d.target y.backup) :
    x.label = y.label ∧ x.original = y.original := by
  rw [hxbackup, hybackup, target_copyPath, target_copyPath] at heq
  obtain ⟨hdirectory, hkey⟩ := List.append_inj' heq (by simp)
  exact ⟨h.directories x hx y hy hdirectory, h.digests x hx y hy (List.singleton_inj.mp hkey)⟩

/-- No copy is put over the manifest. -/
theorem target_copyPath_ne_manifest (d : Disk) (directory : Path) (label : String) (path : Path) :
    d.target (copyPath directory label path) ≠ d.target (manifestPath directory) := by
  intro heq
  rw [target_copyPath, manifestPath, Disk.target_join_name d directory isName_manifest] at heq
  have hkey := List.singleton_inj.mp (List.append_inj' heq (by simp)).2
  have hlength : (bytes (key path)).length = (bytes "manifest.json").length := by rw [hkey]
  rw [show (bytes (key path)).length = 64 from Sha256.length_bytes_hex _] at hlength
  exact absurd hlength (by decide +kernel)

/-! ### Edits -/

theorem Edited.keeps (h : Edited s d e) :
    d.Keeps (fun _ => true) (fun p => e.nodeAt? p ≠ d.nodeAt? p) e :=
  ⟨h.here, fun _ hp => not_not.mp hp, h.directories, nofun⟩

theorem Consistent.target_eq (h : Consistent start labels saved d s) (path : Path) :
    d.target path = start.target path :=
  Disk.target_congr h.here path

/-- An edit leaves the snapshot as it is. -/
theorem Consistent.edited (h : Consistent start labels saved d s) (hedit : Edited s d e) :
    Consistent start labels saved e s := by
  have hkeeps := hedit.keeps
  have hmanifest := hedit.manifest
  refine ⟨hedit.here.trans h.here, ?_, ?_⟩
  · refine ((List.forall₂_and_left _ _).mpr ⟨fun x hx => hx, h.entries⟩).imp ?_
    rintro x y ⟨hx, hstored⟩
    exact hstored.keeps hkeeps (not_not.mpr (hedit.copies x hx))
  · refine h.manifest.imp (fun ⟨hnil, hsame⟩ => ⟨hnil, ?_⟩) (fun ⟨mode, hopen⟩ => ⟨mode, ?_⟩)
    · rw [h.target_eq] at hmanifest
      exact hmanifest.trans hsame
    · rw [hkeeps.target_eq]
      exact hkeeps.open?_of_nodeAt? hopen (hmanifest.trans (Disk.nodeAt?_of_open? hopen))

/-! ### Calls -/

/-- A copy that goes well. -/
theorem Taken.copy_eq {t : Taken} (h : (t.copy label path).fault = none) :
    t.fault = none ∧
      t.disk.locate (copyPath t.snapshot.directory label path) =
        .ok (t.disk.target (copyPath t.snapshot.directory label path)) ∧
      (∀ mode, t.disk.nodeAt? (t.disk.target (copyPath t.snapshot.directory label path)) ≠
        some (.directory mode)) ∧
      ∃ content mode digest,
        t.disk.open? path = .ok (t.disk.target path, .file content mode) ∧
        t.copy label path =
          { disk := t.disk.put (t.disk.target (copyPath t.snapshot.directory label path))
              (.file content mode)
            snapshot := ⟨t.snapshot.directory, t.snapshot.entries ++
              [⟨label, path, copyPath t.snapshot.directory label path, digest⟩]⟩ } := by
  by_cases hfault : t.fault = none
  · have hbackup : (t.snapshot.directory.join ⟨label⟩).join ⟨key path⟩ =
        copyPath t.snapshot.directory label path := rfl
    unfold copy at h ⊢
    rw [hfault, hbackup] at h ⊢
    simp only [Option.isSome_none, Bool.false_eq_true, if_false] at h ⊢
    cases hcopy : t.disk.copy path (copyPath t.snapshot.directory label path) with
    | error fault =>
      rw [hcopy] at h
      cases h
    | ok d =>
      rw [hcopy] at h
      obtain ⟨hlocate, hdirectory, p, content, mode, hopen, rfl⟩ := Disk.copy_eq_ok hcopy
      dsimp only at h ⊢
      split at h
      · cases h
      · rename_i digest hdigest
        obtain rfl := Disk.eq_target_of_open? hopen
        exact ⟨trivial, hlocate, hdirectory, content, mode, digest, hopen, rfl⟩
  · rw [copy_of_fault hfault] at h
    exact absurd h hfault

/-- A call under way: the entries of earlier calls are as they were, those of the files that are
copied already hold what the call found, and no file is new but the copies. -/
structure Underway (d : Disk) (labels : List String) (saved : List Saving) (label : String)
    (t : Taken) : Prop where
  here : t.disk.here = d.here
  entries : List.Forall₂ (fun x y => Stored t.disk t.snapshot.directory (label :: labels) x y ∧
    (x.label = label → y.disk = d)) t.snapshot.entries saved
  files : ∀ p content mode, (∀ x ∈ t.snapshot.entries, t.disk.target x.backup ≠ p) →
    t.disk.nodeAt? p = some (.file content mode) → d.nodeAt? p = some (.file content mode)

/-- A file that is no copy itself is still what the call found. -/
theorem Underway.found {t : Taken} (h : Underway d labels saved label t) {p : Place}
    (hp : ∀ x ∈ t.snapshot.entries, p ≠ d.target x.backup) {content : Bytes} {mode : Nat}
    (hnode : t.disk.nodeAt? p = some (.file content mode)) :
    d.nodeAt? p = some (.file content mode) := by
  refine h.files p content mode (fun x hx => ?_) hnode
  rw [Disk.target_congr h.here]
  exact (hp x hx).symm

/-- One more file is copied. -/
theorem Underway.copy {t : Taken} (h : Underway d labels saved label t)
    (hgoes : (t.copy label path).fault = none)
    (hseparate : Separate d (t.copy label path).snapshot) :
    Underway d labels (saved ++ [⟨d, path⟩]) label (t.copy label path) := by
  obtain ⟨-, hlocate, hplace, content, mode, digest, hopen, hcopy⟩ := Taken.copy_eq hgoes
  rw [hcopy] at hseparate ⊢
  generalize hbackup : copyPath t.snapshot.directory label path = backup
    at hlocate hplace hseparate ⊢
  have hne := Disk.ne_nil_of_nodeAt? hplace
  have hkeeps := Disk.Keeps.put_at hplace (.file content mode)
  have htarget := Disk.target_congr h.here
  have hlast : (⟨label, path, backup, digest⟩ : SnapshotEntry) ∈
      t.snapshot.entries ++ [⟨label, path, backup, digest⟩] := by simp
  have hfound : d.nodeAt? (d.target path) = some (.file content mode) :=
    h.found (fun x hx => hseparate.copies _ hlast x (List.mem_append_left _ hx))
      (htarget path ▸ Disk.nodeAt?_of_open? hopen)
  refine ⟨h.here, List.rel_append ?_ (.cons ⟨?_, fun _ => rfl⟩ .nil),
    fun p content' mode' hp hfile => ?_⟩
  · refine ((List.forall₂_and_left _ _).mpr ⟨fun x hx => hx, h.entries⟩).imp ?_
    rintro x y ⟨hx, hstored, hcall⟩
    refine ⟨?_, hcall⟩
    by_cases heq : t.disk.target x.backup = t.disk.target backup
    · -- Only this call can have copied to this place before, and then it was the same file.
      have hplaces := heq
      rw [htarget, htarget] at hplaces
      obtain ⟨hlabel, horiginal⟩ := hseparate.eq_of_target_eq (List.mem_append_left _ hx) hlast
        hstored.backup hbackup.symm hplaces
      refine hstored.of_keeps hkeeps ⟨content, mode, ⟨mode, ?_⟩, ?_⟩
      · rw [hcall hlabel, ← hstored.original, horiginal]
        exact hfound
      · exact (Disk.nodeAt?_put hne).trans (if_pos heq)
    · exact hstored.keeps hkeeps heq
  · refine ⟨rfl, List.mem_cons_self, hbackup.symm, Disk.isBare_of_open? hopen, ?_, ?_,
      content, mode, ⟨mode, hfound⟩, ?_⟩
    · exact hkeeps.locate (Disk.open?_eq_ok_iff.mp hopen).1
    · exact hkeeps.locate hlocate
    · exact (Disk.nodeAt?_put hne).trans (if_pos rfl)
  · rw [Disk.nodeAt?_put hne, if_neg fun heq => hp _ hlast heq.symm] at hfile
    exact h.files p content' mode' (fun x hx => hp x (List.mem_append_left _ hx)) hfile

/-- Many files are copied; the induction is on the files that are left. -/
theorem Underway.foldl {t : Taken} (h : Underway d labels saved label t) {files : List Path}
    (hgoes : (files.foldl (Taken.copy label) t).fault = none)
    (hseparate : Separate d (files.foldl (Taken.copy label) t).snapshot) :
    Underway d labels (saved ++ files.map (⟨d, ·⟩)) label (files.foldl (Taken.copy label) t) := by
  induction files generalizing saved t with
  | nil => simpa using h
  | cons path rest ih =>
    have hone : (t.copy label path).fault = none := Taken.fault_of_foldl hgoes
    have hstep := h.copy hone (hseparate.mono rfl (Taken.directory_foldl _ label rest)
      (Taken.subset_foldl _ label rest))
    rw [List.map_cons, List.append_cons]
    exact ih hstep hgoes hseparate

/-- A manifest that is written. -/
theorem Taken.writeManifest_eq {t : Taken} (h : t.writeManifest.fault = none) :
    t.fault = none ∧
      t.disk.locate (manifestPath t.snapshot.directory) =
        .ok (t.disk.target (manifestPath t.snapshot.directory)) ∧
      (∀ mode, t.disk.nodeAt? (t.disk.target (manifestPath t.snapshot.directory)) ≠
        some (.directory mode)) ∧
      ∃ mode, t.writeManifest =
        { t with
          disk := t.disk.put (t.disk.target (manifestPath t.snapshot.directory))
            (.file (bytes (Manifest.render t.snapshot.entries)) mode) } := by
  unfold writeManifest at h ⊢
  split at h
  · rename_i hfault
    exact absurd h (Option.isSome_iff_ne_none.mp hfault)
  · rename_i hfault
    rw [if_neg hfault]
    dsimp only at h ⊢
    split at h
    · cases h
    · rename_i hwrite
      obtain ⟨hlocate, hplace, rfl⟩ := Disk.write_eq_ok hwrite
      exact ⟨h, hlocate, hplace, _, rfl⟩

/-- A call begins by making the directory of its label. -/
theorem Consistent.underway (h : Consistent start labels saved d s) (hlabel : label ∉ labels)
    (hmake : d.makeDirectories (s.directory.join ⟨label⟩) = .ok e) :
    Underway d labels saved label { disk := e, snapshot := s } := by
  have hkeeps := Disk.Keeps.of_grows (Disk.grows_of_makeDirectories hmake)
  refine ⟨hkeeps.here, h.entries.imp ?_, fun p content mode _ => Disk.file_of_makeDirectories hmake⟩
  intro x y hstored
  obtain ⟨_, _, _, hnode⟩ := hstored.holds
  exact ⟨(hstored.keeps hkeeps (by simp [hnode])).mono (List.subset_cons_self label labels),
    fun hsame => absurd (hsame ▸ hstored.label) hlabel⟩

/-- A call ends by writing the manifest. -/
theorem Underway.consistent {t : Taken} (h : Underway d labels saved label t)
    (hhere : d.here = start.here) (hgoes : t.writeManifest.fault = none) :
    Consistent start (label :: labels) saved t.writeManifest.disk t.writeManifest.snapshot := by
  obtain ⟨-, hlocate, hplace, mode, hwritten⟩ := Taken.writeManifest_eq hgoes
  rw [hwritten]
  have hputs := Disk.Keeps.put_at hplace (.file (bytes (Manifest.render t.snapshot.entries)) mode)
  refine ⟨h.here.trans hhere, h.entries.imp ?_, .inr ⟨mode, ?_⟩⟩
  · rintro x y ⟨hstored, -⟩
    refine hstored.keeps hputs ?_
    rw [hstored.backup]
    exact target_copyPath_ne_manifest _ _ _ _
  · exact Disk.open?_eq_ok_iff.mpr ⟨hputs.locate hlocate,
      (Disk.nodeAt?_put (Disk.ne_nil_of_nodeAt? hplace)).trans (if_pos rfl)⟩

/-- A call saves its files and keeps what was saved before. -/
theorem Consistent.taken (h : Consistent start labels saved d s) (hlabel : label ∉ labels)
    {files : List Path} (hgoes : (take d s label files).fault = none)
    (hseparate : Separate start (take d s label files).snapshot) :
    Consistent start (label :: labels) (saved ++ files.map (⟨d, ·⟩)) (take d s label files).disk
      (take d s label files).snapshot := by
  replace hseparate := hseparate.mono h.here rfl (List.Subset.refl _)
  unfold take at hgoes hseparate ⊢
  by_cases hempty : files.isEmpty = true
  · obtain rfl := List.isEmpty_iff.mp hempty
    rw [if_pos hempty]
    refine ⟨h.here, ?_, h.manifest⟩
    rw [List.map_nil, List.append_nil]
    exact h.entries.imp fun x y hstored => hstored.mono (List.subset_cons_self label labels)
  rw [if_neg hempty] at hgoes hseparate ⊢
  cases hmake : d.makeDirectories (s.directory.join ⟨label⟩) with
  | error fault =>
    rw [hmake] at hgoes
    cases hgoes
  | ok made =>
    rw [hmake] at hgoes hseparate
    dsimp only at hgoes hseparate ⊢
    obtain ⟨hcopies, -, -, _, hwritten⟩ := Taken.writeManifest_eq hgoes
    rw [hwritten] at hseparate
    exact ((h.underway hlabel hmake).foldl hcopies hseparate).consistent h.here hgoes

/-- After any calls and edits the entries, their copies and the manifest are in order. -/
theorem History.consistent (h : History start new labels saved e s) (hnew : new.entries = [])
    (hseparate : Separate start s) : Consistent start labels saved e s := by
  induction h with
  | created => exact ⟨rfl, by rw [hnew]; exact .nil, .inl ⟨hnew, rfl⟩⟩
  | edited _ hedit ih => exact (ih hseparate).edited hedit
  | @taken labels saved d s label files _ hlabel hgoes ih =>
    have hearlier := ih (hseparate.mono rfl (directory_take d s label files)
      (subset_take d s label files))
    exact hearlier.taken hlabel hgoes hseparate

end History

/-! ### Histories that can be worked out -/

/-- What can happen in a history. -/
inductive Event
  | write (p : Place) (text : String)
  | remove (p : Place)
  | save (label : String) (files : List Path)

/-- Where a history has come to. -/
structure Moment where
  labels : List String := []
  saved : List Saving := []
  disk : Disk
  snapshot : Snapshot

/-- Neither a directory nor anything of the snapshot stands at a place. -/
def Moment.Frees (m : Moment) (p : Place) : Prop :=
  (m.disk.nodeAt? p).any Node.isDirectory = false ∧
    m.disk.target (manifestPath m.snapshot.directory) ≠ p ∧
    ∀ x ∈ m.snapshot.entries, m.disk.target x.backup ≠ p

instance (m : Moment) (p : Place) : Decidable (m.Frees p) := by
  unfold Moment.Frees
  infer_instance

/-- The next moment, if the event is an edit that leaves the snapshot alone or a call that succeeds
under a label of its own. -/
def Moment.next? (m : Moment) : Event → Option Moment
  | .write p text =>
    if m.Frees p then
      some { m with disk := m.disk.put p (.file (bytes text) Node.fileMode) }
    else none
  | .remove p => if m.Frees p then some { m with disk := m.disk.drop p } else none
  | .save label files =>
    let t := take m.disk m.snapshot label files
    if label ∉ m.labels ∧ t.fault = none then
      some
        { labels := label :: m.labels
          saved := m.saved ++ files.map (⟨m.disk, ·⟩)
          disk := t.disk
          snapshot := t.snapshot }
    else none

theorem Moment.Frees.ne_nil {m : Moment} {p : Place} (h : m.Frees p) : p ≠ [] := by
  rintro rfl
  exact absurd h.1 (by simp [Disk.nodeAt?, Node.isDirectory])

theorem Moment.Frees.edited {m : Moment} {p : Place} (h : m.Frees p) {e : Disk}
    (hhere : e.here = m.disk.here) (hnodes : ∀ q, q ≠ p → e.nodeAt? q = m.disk.nodeAt? q) :
    Edited m.snapshot m.disk e := by
  obtain ⟨hplace, hmanifest, hcopies⟩ := h
  refine ⟨hhere, fun q mode hq => (hnodes q ?_).trans hq, fun x hx => hnodes _ (hcopies x hx),
    hnodes _ hmanifest⟩
  rintro rfl
  rw [hq] at hplace
  cases hplace

/-- What is worked out is a history. -/
theorem History.of_next? {start : Disk} {new : Snapshot} {m m' : Moment} {event : Event}
    (h : History start new m.labels m.saved m.disk m.snapshot) (hnext : m.next? event = some m') :
    History start new m'.labels m'.saved m'.disk m'.snapshot := by
  unfold Moment.next? at hnext
  cases event with
  | write p text =>
    obtain ⟨hfree, hm⟩ := Option.ite_none_right_eq_some.mp hnext
    obtain rfl := Option.some.inj hm
    exact h.edited (hfree.edited rfl fun q hq =>
      (Disk.nodeAt?_put hfree.ne_nil).trans (if_neg hq))
  | remove p =>
    obtain ⟨hfree, hm⟩ := Option.ite_none_right_eq_some.mp hnext
    obtain rfl := Option.some.inj hm
    exact h.edited (hfree.edited rfl fun q hq =>
      (Disk.nodeAt?_drop hfree.ne_nil).trans (if_neg hq))
  | save label files =>
    obtain ⟨⟨hlabel, hgoes⟩, hm⟩ := Option.ite_none_right_eq_some.mp hnext
    obtain rfl := Option.some.inj hm
    exact h.taken hlabel hgoes

/-- A disk, and what happens after a snapshot has been created on it. -/
structure Scenario where
  before : Disk
  events : List Event

/-- The history of the snapshot `t` in `s`, if it is one. -/
def Scenario.play? (c : Scenario) : Option (Disk × Snapshot × Moment) := do
  let (start, new) ← (create c.before ⟨"s"⟩ "t").toOption
  let m ← c.events.foldlM Moment.next? { disk := start, snapshot := new }
  return (start, new, m)

theorem Scenario.history_of_play? {c : Scenario} {start : Disk} {new : Snapshot} {m : Moment}
    (h : c.play? = some (start, new, m)) :
    create c.before ⟨"s"⟩ "t" = .ok (start, new) ∧
      History start new m.labels m.saved m.disk m.snapshot := by
  obtain ⟨⟨d, s⟩, hcreate, hrest⟩ := Option.bind_eq_some_iff.mp h
  obtain ⟨m', hplay, hlast⟩ := Option.bind_eq_some_iff.mp hrest
  cases hlast
  have hfold : ∀ (events : List Event) (m m' : Moment),
      History start new m.labels m.saved m.disk m.snapshot →
        events.foldlM Moment.next? m = some m' →
          History start new m'.labels m'.saved m'.disk m'.snapshot := by
    intro events
    induction events with
    | nil =>
      intro m m' hm hplay
      obtain rfl := Option.some.inj hplay
      exact hm
    | cons event rest ih =>
      intro m m' hm hplay
      obtain ⟨next, hnext, hrest⟩ := Option.bind_eq_some_iff.mp hplay
      exact ih next m' (hm.of_next? hnext) hrest
  refine ⟨?_, hfold c.events _ _ .created hplay⟩
  cases hresult : create c.before ⟨"s"⟩ "t" with
  | error fault =>
    rw [hresult] at hcreate
    cases hcreate
  | ok result =>
    rw [hresult] at hcreate
    exact congrArg Except.ok (Option.some.inj hcreate)

end SymbolRename.Snapshot
