import SymbolRename.Proofs.Disk.Views
import SymbolRename.Proofs.Snapshot.Copies

/-!
# A snapshot that is kept

As long as nobody touches what is below the directory of a snapshot, the snapshot can be read and
its copies are what they were. Then putting it back goes wrong only where no scratch file can be
written beside a file: `Snapshot.Kept.restores`.
-/

namespace SymbolRename

/-- A file can still be replaced when some files hold other bytes. -/
theorem Disk.RewritesOnly.exists_replace {rewritten : Place → Prop} {d e : Disk}
    (h : d.RewritesOnly rewritten e) {path : Path} (hfile : e.isFile path = true)
    (hscratch : ∃ place, d.locateForWrite (d.scratch path) = .ok place) (content : Bytes) :
    ∃ f, e.replace path content = .ok f := by
  have hsame : e.scratch path = d.scratch path := by
    unfold scratch
    rw [h.view.process]
  obtain ⟨⟨q, found⟩, hwrite⟩ := hscratch
  obtain ⟨hlocate, hfound, hdirectory, hbare⟩ := locateForWrite_eq_ok hwrite
  have hagain : e.locateForWrite (d.scratch path) = .ok (q, e.nodeAt? q) := by
    rw [hbare] at hlocate
    refine locateForWrite_of_locate hbare (by rw [h.locate_eq, hlocate]) fun mode hmode => ?_
    exact hdirectory mode (hfound ▸ h.directory_iff.mp hmode)
  unfold isFile at hfile
  split at hfile
  · rename_i p old mode hopen
    unfold Disk.replace
    rw [hopen, hsame, hagain]
    exact ⟨_, rfl⟩
  · cases hfile

namespace Snapshot

/-- A snapshot that can be read, and whose first copies hold what their files held. -/
structure Kept (own : Place → Bool) (root : Place) (before d : Disk) (directory : Path)
    (entries : List SnapshotEntry) : Prop where
  bare : directory.IsBare
  absolute : directory.isAbsolute = true
  opened : ∃ mode, d.open? directory = .ok (root, .directory mode)
  owned : ∀ names, own (root ++ names) = true
  loads : load d directory = .ok ⟨directory, entries⟩
  holds : Holds own before d entries
  paths : ∀ x ∈ entries, x.original.isAbsolute = true ∧ x.backup.isAbsolute = true
  copies : ∀ x ∈ firstEntries entries, ∃ names content mode,
    d.open? x.backup = .ok (root ++ names, .file content mode)

variable {own : Place → Bool} {may : Place → Prop} {root : Place} {before d e : Disk}
  {directory : Path} {entries : List SnapshotEntry}

theorem Kept.target_backup (h : Kept own root before d directory entries) {x : SnapshotEntry}
    (hx : x ∈ firstEntries entries) : ∃ names, before.target x.backup = root ++ names := by
  obtain ⟨names, _, _, hopen⟩ := h.copies x hx
  refine ⟨names, ?_⟩
  rw [Disk.eq_target_of_open? hopen, Disk.target_congr h.holds.here]

/-- Whoever touches nothing below the directory keeps the snapshot. -/
theorem Kept.keeps (h : Kept own root before d directory entries) (hkeeps : d.Keeps own may e)
    (hmay : ∀ names, ¬ may (root ++ names)) : Kept own root before e directory entries := by
  have hsame : ∀ names, e.nodeAt? (root ++ names) = d.nodeAt? (root ++ names) := fun names =>
    hkeeps.nodes _ (hmay names)
  have hload : load e directory = load d directory := by
    obtain ⟨mode, hopen⟩ := h.opened
    exact load_congr (Disk.open?_join_eq hopen (hkeeps.open?_directory hopen) h.bare
      isName_manifest (hsame _))
  refine ⟨h.bare, h.absolute, ?_, h.owned, hload.trans h.loads, ?_, h.paths, ?_⟩
  · obtain ⟨mode, hopen⟩ := h.opened
    exact ⟨mode, hkeeps.open?_directory hopen⟩
  · refine ⟨hkeeps.here.trans h.holds.here, fun x hx => ?_, fun x hx => ?_⟩
    · obtain ⟨havoids, hfile⟩ := h.holds.originals x hx
      refine ⟨havoids, hkeeps.isFile (own_target ?_) hfile⟩
      exact (avoids_iff h.holds.here).mpr havoids
    · obtain ⟨hown, hsaved⟩ := h.holds.saved x hx
      obtain ⟨names, htarget⟩ := h.target_backup hx
      rw [htarget] at hown hsaved ⊢
      rw [hsame names]
      exact ⟨hown, hsaved⟩
  · intro x hx
    obtain ⟨names, content, mode, hopen⟩ := h.copies x hx
    refine ⟨names, content, mode, hkeeps.open?_of_nodeAt? hopen ?_⟩
    rw [hsame names, Disk.nodeAt?_of_open? hopen]

/-- The snapshot is kept for everybody. -/
theorem Kept.seenFrom (h : Kept own root before d directory entries) (here : Place)
    (process process' : Nat) :
    Kept own root (before.seenFrom here process') (d.seenFrom here process) directory entries := by
  have hmanifest : (manifestPath directory).isAbsolute = true :=
    Path.isAbsolute_join_left h.absolute _
  refine ⟨h.bare, h.absolute, ?_, h.owned, ?_, ⟨rfl, fun x hx => ?_, fun x hx => ?_⟩, h.paths, ?_⟩
  · rw [Disk.open?_seenFrom h.absolute]
    exact h.opened
  · rw [load_congr (Disk.open?_seenFrom hmanifest), h.loads]
  · have habsolute := (h.paths x hx).1
    rw [Disk.avoids_seenFrom habsolute, Disk.isFile_seenFrom habsolute]
    exact h.holds.originals x hx
  · obtain ⟨horiginal, hbackup⟩ := h.paths x (mem_of_mem_firstEntries hx)
    rw [Disk.target_seenFrom horiginal, Disk.target_seenFrom hbackup]
    exact h.holds.saved x hx
  · intro x hx
    rw [Disk.open?_seenFrom (h.paths x (mem_of_mem_firstEntries hx)).2]
    exact h.copies x hx

/-- What the files held before may be seen on another disk that is the same outside. -/
theorem Kept.of_before {other : Disk} (h : Kept own root before d directory entries)
    (hhere : other.here = before.here)
    (hnodes : ∀ p, own p = false → other.nodeAt? p = before.nodeAt? p) :
    Kept own root other d directory entries := by
  have htarget := Disk.target_congr hhere
  refine ⟨h.bare, h.absolute, h.opened, h.owned, h.loads, ⟨h.holds.here.trans hhere.symm, ?_, ?_⟩,
    h.paths, h.copies⟩
  · intro x hx
    exact (h.holds.originals x hx).imp_left (avoids_iff hhere).mpr
  · intro x hx
    obtain ⟨hown, hsaved⟩ := h.holds.saved x hx
    have hout := own_target (h.holds.originals x (mem_of_mem_firstEntries hx)).1
    rw [htarget, htarget, hnodes _ hout]
    exact ⟨hown, hsaved⟩

/-- Putting one file back does not fail where a scratch file can be written. -/
theorem Kept.putBack (h : Kept own root before d directory entries) {done : List SnapshotEntry}
    (hdone : ∀ y ∈ done, y ∈ entries) {r : Restored} (hr : PutBack before d done r)
    (hnone : r.fault = none) {x : SnapshotEntry} (hx : x ∈ firstEntries entries)
    (hscratch : ∃ place, d.locateForWrite (d.scratch x.original) = .ok place) :
    (r.putBack x).fault = none := by
  obtain ⟨names, content, mode, hcopy⟩ := h.copies x hx
  have hread : r.disk.read x.backup = .ok content := by
    refine Disk.read_eq_ok_iff.mpr ⟨_, mode, (hr.rewrites.open?_eq ?_).trans hcopy⟩
    rintro ⟨y, hy, hplace⟩
    have hout := own_target (h.holds.originals y (hdone y hy)).1
    rw [hplace, ← Disk.eq_target_of_open? hcopy, h.owned] at hout
    cases hout
  have hfile : r.disk.isFile x.original = true := by
    rw [hr.rewrites.isFile_eq]
    exact (h.holds.originals x (mem_of_mem_firstEntries hx)).2
  obtain ⟨written, hwritten⟩ := hr.rewrites.exists_replace hfile hscratch content
  unfold Restored.putBack
  rw [hnone]
  simp only [Option.isSome_none, Bool.false_eq_true, if_false, hread, bind, Except.bind, hfile,
    if_true, hwritten]

/-- All files are put back. -/
theorem Kept.restores (h : Kept own root before d directory entries)
    (hclear : d.ScratchClear own) (hpaths : ∀ x ∈ entries, d.Clears own x.original)
    (hscratch : ∀ x ∈ entries, ∃ place, d.locateForWrite (d.scratch x.original) = .ok place) :
    (restore d ⟨directory, entries⟩).fault = none ∧
      PutBack before d (firstEntries entries) (restore d ⟨directory, entries⟩) := by
  have hfold : ∀ (rest done : List SnapshotEntry) (r : Restored),
      firstEntries entries = done ++ rest → PutBack before d done r → r.fault = none →
      (rest.foldl Restored.putBack r).fault = none := by
    intro rest
    induction rest with
    | nil => exact fun _ _ _ _ hnone => hnone
    | cons x rest ih =>
      intro done r hall hr hnone
      have hx : x ∈ firstEntries entries := by simp [hall]
      have hdone : ∀ y ∈ done, y ∈ entries := fun y hy =>
        mem_of_mem_firstEntries (by simp [hall, hy])
      have hone := h.putBack hdone hr hnone hx (hscratch x (mem_of_mem_firstEntries hx))
      exact ih (done ++ [x]) _ (by simp [hall])
        (h.holds.putBack hclear hpaths hr hdone hx hone) hone
  have hfault : (restore d ⟨directory, entries⟩).fault = none :=
    hfold _ [] { disk := d } rfl ⟨.refl _ _, fun x hx => absurd hx List.not_mem_nil⟩ rfl
  exact ⟨hfault, h.holds.putBack_restore hclear hpaths hfault⟩

end Snapshot

end SymbolRename
