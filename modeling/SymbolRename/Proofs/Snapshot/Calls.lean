import SymbolRename.Proofs.Snapshot.Saving

/-!
# Calls that save files

A call saves all files that it is asked for, or it fails and leaves the manifest and all earlier
copies as they are, also when a copy breaks off in the middle (`Snapshot.called_takeUnder`). So the entries
of a manifest cover what has changed since the first call: `Snapshot.Covers.saves` and
`Snapshot.Covers.puts` for calls, `Snapshot.Covers.rewrites` for what happens between them.
-/

namespace SymbolRename.Snapshot

/-- How a copy breaks off: after so many files, with this fault, and having written this much. -/
structure Break where
  after : Nat
  fault : FileFault
  written : Bytes

/-- What else happens while files are saved: somebody asks to stop, some paths cannot be written
from now on, a copy breaks off. -/
structure Upset where
  interrupts : Bool := false
  unwritable : Option (List Path) := none
  breaks : Option Break := none

/-- Saves files, but the copy of one of them breaks off if it comes to that. -/
def takeBroken (d : Disk) (s : Snapshot) (label : String) (files : List Path) (b : Break) : Taken :=
  match files[b.after]? with
  | none => take d s label files
  | some file =>
    match d.makeDirectories (labelDirectory s.directory label) with
    | .error fault => { disk := d, snapshot := s, fault := some (.io fault) }
    | .ok d =>
      let t := (files.take b.after).foldl (Taken.copy label) { disk := d, snapshot := s }
      if t.fault.isSome then t
      else
        let backup := copyPath s.directory label file
        { t with
          disk := (t.disk.write backup b.written).toOption.getD t.disk
          fault := some (.io b.fault) }

/-- Saves files, whatever happens meanwhile. -/
def takeUnder (u : Upset) (d : Disk) (s : Snapshot) (label : String) (files : List Path) : Taken :=
  match u.breaks with
  | none => take d s label files
  | some b => takeBroken d s label files b

/-- The hook of a batch that saves files in a snapshot, with what happens at the call of each
label. -/
def hookUnder (upsets : String → Upset) : SnapshotHook Snapshot := fun s d label files =>
  let t := takeUnder (upsets label) d s label files
  { state := t.snapshot, disk := t.disk, interrupts := (upsets label).interrupts, fault := t.fault
    unwritable := (upsets label).unwritable }

/-- When nothing else happens, the hook is the one of a batch. -/
theorem hookUnder_nothing : hookUnder (fun _ => {}) = hook := rfl

/-- What a call makes of the disk and the snapshot. -/
inductive Called (own : Place → Bool) (root : Place) (d : Disk) (s : Snapshot) (label : String)
    (files : List Path) (t : Taken) : Prop
  | nothing (hfiles : files = []) (hfault : t.fault = none) (hdisk : t.disk = d)
      (hsnapshot : t.snapshot = s) : Called own root d s label files t
  | saved (new : List SnapshotEntry) (hfault : t.fault = none)
      (hsnapshot : t.snapshot = ⟨s.directory, s.entries ++ new⟩)
      (hadds : Adds s.directory label files new)
      (hputs : d.PutsOnly own
        (fun p => IsCopyPlace root label p ∨ p = root ++ ["manifest.json"]) t.disk)
      (hcopies : ∀ path ∈ files, ∃ content mode,
        d.open? path = .ok (d.target path, .file content mode) ∧
          ((∀ other ∈ files, key other = key path → other = path) →
            ∃ mode', t.disk.nodeAt? (root ++ [label, key path]) = some (.file content mode')))
      (hload : load t.disk s.directory = .ok t.snapshot) : Called own root d s label files t
  | failed (hfault : t.fault ≠ none) (hputs : d.PutsOnly own (IsCopyPlace root label) t.disk) :
      Called own root d s label files t

section Calls

variable {own : Place → Bool} {root : Place} {d : Disk} {s : Snapshot} {label : String}
  {files : List Path}

/-- Making the directory of a label. -/
theorem StandsAt.makeDirectories (h : StandsAt own root d s.directory)
    (hlabel : Path.IsName label) {e : Disk}
    (hmake : d.makeDirectories (labelDirectory s.directory label) = .ok e) :
    d.PutsOnly own (IsCopyPlace root label) e := by
  obtain ⟨mode, hopen⟩ := h.opened
  rcases Disk.makeDirectories_join hopen h.bare hlabel hmake with rfl | ⟨hnone, rfl⟩
  · exact .refl _ _ _
  · have htarget : d.target (s.directory.join ⟨label⟩) = root ++ [label] := h.target_label hlabel
    rw [htarget] at hnone ⊢
    have hput : d.PutsOnly own (· = root ++ [label])
        (d.put (root ++ [label]) (.directory Node.directoryMode)) :=
      .put (h.owned _) (by simp [hnone]) _
    exact hput.mono fun p hp => .inl hp

/-- A manifest is read back. -/
theorem load_of_open? {directory : Path} {entries : List SnapshotEntry} {p : Place} {mode : Nat}
    (h : d.open? (manifestPath directory) = .ok (p, .file (bytes (Manifest.render entries)) mode)) :
    load d directory = .ok ⟨directory, entries⟩ := by
  have hread := Disk.read_eq_ok_iff.mpr ⟨_, _, h⟩
  unfold load Disk.isFile Disk.readText
  simp only [h, hread, bind, Except.bind, Utf8.decode?_bytes, pure, Except.pure, mapError_ok,
    Manifest.parse_render, if_true]

/-- A manifest that was written is read back. -/
theorem StandsAt.load_written (h : StandsAt own root d s.directory) {e : Disk}
    (hwrite : d.write (manifestPath s.directory) (bytes (Manifest.render s.entries)) = .ok e) :
    d.PutsOnly own (· = root ++ ["manifest.json"]) e ∧ load e s.directory = .ok s := by
  obtain ⟨hlocate, hdirectory, rfl⟩ := Disk.write_eq_ok hwrite
  rw [h.target_manifest] at hlocate hdirectory ⊢
  generalize ((d.nodeAt? (root ++ ["manifest.json"])).map Node.mode).getD Node.fileMode = mode
  have hputs := Disk.PutsOnly.put (h.owned ["manifest.json"]) hdirectory
    (.file (bytes (Manifest.render s.entries)) mode)
  have hopen : (d.put (root ++ ["manifest.json"])
      (.file (bytes (Manifest.render s.entries)) mode)).open? (manifestPath s.directory) =
        .ok (root ++ ["manifest.json"], .file (bytes (Manifest.render s.entries)) mode) := by
    refine Disk.open?_eq_ok_iff.mpr ⟨?_, ?_⟩
    · exact Disk.locate_of_directories hputs.outside.here.symm hputs.directories hlocate
    · rw [Disk.nodeAt?_put (Disk.ne_nil_of_nodeAt? hdirectory), if_pos rfl]
  exact ⟨hputs, load_of_open? hopen⟩

/-- A call that has copied all files saves them, or fails to write the manifest. -/
theorem Copied.called_writeManifest {u : Taken} (h : Copied own root d s label files u)
    (hstands : StandsAt own root d s.directory) (hfault : u.fault = none) :
    Called own root d s label files u.writeManifest := by
  obtain ⟨new, hsnapshot, hadds⟩ := h.snapshot
  have hdirectory : u.snapshot.directory = s.directory := by rw [hsnapshot]
  have hlast : StandsAt own root u.disk u.snapshot.directory := by
    rw [hdirectory]
    exact hstands.puts h.puts
  unfold Taken.writeManifest
  rw [hfault]
  dsimp only [Option.isSome_none]
  rw [if_neg Bool.false_ne_true]
  cases hwrite : u.disk.write (manifestPath u.snapshot.directory)
      (bytes (Manifest.render u.snapshot.entries)) with
  | error fault => exact .failed (by simp) h.puts
  | ok written =>
    obtain ⟨hputs, hload⟩ := hlast.load_written hwrite
    rw [hdirectory] at hload
    refine .saved new rfl hsnapshot hadds ?_ ?_ hload
    · exact (h.puts.mono fun p hp => .inl hp).trans (hputs.mono fun p hp => .inr hp)
    · intro path hpath
      obtain ⟨content, mode, hopen, hcopy⟩ := h.copies path hpath
      refine ⟨content, mode, hopen, fun hdigests => ?_⟩
      obtain ⟨mode', hnode⟩ := hcopy hdigests
      refine ⟨mode', (hputs.nodes _ ?_).trans hnode⟩
      intro hsame
      cases List.append_cancel_left hsame

/-- A call saves all files, or fails without touching what was saved. -/
theorem called_take (h : StandsAt own root d s.directory) (hlabel : Path.IsName label)
    (hfiles : ∀ path ∈ files, d.Avoids own path) :
    Called own root d s label files (take d s label files) := by
  unfold take
  by_cases hempty : files.isEmpty = true
  · rw [if_pos hempty]
    exact .nothing (List.isEmpty_iff.mp hempty) rfl rfl rfl
  rw [if_neg hempty]
  cases hmake : d.makeDirectories (s.directory.join ⟨label⟩) with
  | error fault => exact .failed (by simp) (.refl _ _ _)
  | ok made =>
    have hmade := h.makeDirectories hlabel hmake
    have hstands : StandsAt own root made s.directory := h.puts hmade
    dsimp only
    have hcopying := Taken.foldl_copying (t := { disk := made, snapshot := s }) hstands hlabel files
    generalize hu : files.foldl (Taken.copy label) { disk := made, snapshot := s } = u at hcopying
    by_cases hfault : u.fault = none
    · have hstart : Copied own root d s label [] { disk := made, snapshot := s } :=
        ⟨⟨[], by simp, ⟨nofun, nofun⟩⟩, hmade, nofun⟩
      have hcopied := hstart.foldl h hlabel hfiles (by rw [hu]; exact hfault)
      rw [hu] at hcopied
      exact hcopied.called_writeManifest h hfault
    · rw [Taken.writeManifest, if_pos (Option.isSome_iff_ne_none.mpr hfault)]
      exact .failed hfault (hmade.trans hcopying.puts)

/-- A call whose copy breaks off fails without touching what was saved. -/
theorem called_takeBroken (h : StandsAt own root d s.directory) (hlabel : Path.IsName label)
    (hfiles : ∀ path ∈ files, d.Avoids own path) (b : Break) :
    Called own root d s label files (takeBroken d s label files b) := by
  unfold takeBroken
  cases files[b.after]? with
  | none => exact called_take h hlabel hfiles
  | some file =>
    dsimp only
    cases hmake : d.makeDirectories (labelDirectory s.directory label) with
    | error fault => exact .failed (by simp) (.refl _ _ _)
    | ok made =>
      have hmade := h.makeDirectories hlabel hmake
      have hstands : StandsAt own root made s.directory := h.puts hmade
      dsimp only
      have hcopying := Taken.foldl_copying (t := { disk := made, snapshot := s }) hstands hlabel
        (files.take b.after)
      generalize (files.take b.after).foldl (Taken.copy label) { disk := made, snapshot := s } = u
        at hcopying
      split
      · rename_i hfault
        exact .failed (Option.isSome_iff_ne_none.mp hfault) (hmade.trans hcopying.puts)
      · refine .failed (by simp) ((hmade.trans hcopying.puts).trans ?_)
        cases hwrite : u.disk.write (copyPath s.directory label file) b.written with
        | error fault => exact .refl _ _ _
        | ok written =>
          obtain ⟨_, hdirectory, rfl⟩ := Disk.write_eq_ok hwrite
          have hlast : StandsAt own root u.disk s.directory := hstands.puts hcopying.puts
          rw [hlast.target_copy hlabel] at hdirectory ⊢
          exact (Disk.PutsOnly.put (h.owned _) hdirectory _).mono fun p hp => .inr ⟨_, hp⟩

/-- A call saves all files or fails, whatever happens meanwhile. -/
theorem called_takeUnder (h : StandsAt own root d s.directory) (hlabel : Path.IsName label)
    (hfiles : ∀ path ∈ files, d.Avoids own path) (u : Upset) :
    Called own root d s label files (takeUnder u d s label files) := by
  unfold takeUnder
  cases u.breaks with
  | none => exact called_take h hlabel hfiles
  | some b => exact called_takeBroken h hlabel hfiles b

theorem subset_take (d : Disk) (s : Snapshot) (label : String) (files : List Path) :
    s.entries ⊆ (take d s label files).snapshot.entries := by
  unfold take
  split
  · exact List.Subset.refl _
  · cases d.makeDirectories (s.directory.join ⟨label⟩) with
    | error fault => exact List.Subset.refl _
    | ok made =>
      dsimp only
      have hfold := Taken.subset_foldl { disk := made, snapshot := s } label files
      generalize files.foldl (Taken.copy label) { disk := made, snapshot := s } = t at hfold ⊢
      unfold Taken.writeManifest
      split
      · exact hfold
      · dsimp only
        split <;> exact hfold

/-- A call only adds entries. -/
theorem subset_takeUnder (u : Upset) (d : Disk) (s : Snapshot) (label : String)
    (files : List Path) : s.entries ⊆ (takeUnder u d s label files).snapshot.entries := by
  unfold takeUnder
  cases u.breaks with
  | none => exact subset_take d s label files
  | some b =>
    dsimp only
    unfold takeBroken
    cases files[b.after]? with
    | none => exact subset_take d s label files
    | some file =>
      cases d.makeDirectories (labelDirectory s.directory label) with
      | error fault => exact List.Subset.refl _
      | ok made =>
        dsimp only
        have hfold := Taken.subset_foldl { disk := made, snapshot := s } label (files.take b.after)
        generalize (files.take b.after).foldl (Taken.copy label) { disk := made, snapshot := s } = t
          at hfold ⊢
        split <;> exact hfold

end Calls

/-! ### Entries that cover what has changed -/

/-- Each file is spelled one way in the entries, and no two paths have one digest. -/
structure Distinct (d : Disk) (entries : List SnapshotEntry) : Prop where
  spelling : ∀ x ∈ entries, ∀ y ∈ entries, d.target x.original = d.target y.original →
    x.original.same y.original = true
  digests : ∀ x ∈ entries, ∀ y ∈ entries, key x.original = key y.original →
    x.original = y.original

instance (d : Disk) (entries : List SnapshotEntry) : Decidable (Distinct d entries) :=
  decidable_of_iff ((∀ x ∈ entries, ∀ y ∈ entries, d.target x.original = d.target y.original →
      x.original.same y.original = true) ∧
    ∀ x ∈ entries, ∀ y ∈ entries, key x.original = key y.original → x.original = y.original)
    ⟨fun ⟨h, h'⟩ => ⟨h, h'⟩, fun ⟨h, h'⟩ => ⟨h, h'⟩⟩

theorem Distinct.subset {d : Disk} {entries more : List SnapshotEntry} (h : Distinct d more)
    (hsub : entries ⊆ more) : Distinct d entries :=
  ⟨fun x hx y hy => h.spelling x (hsub hx) y (hsub hy),
    fun x hx y hy => h.digests x (hsub hx) y (hsub hy)⟩

variable {own : Place → Bool} {root : Place} {d e f : Disk} {directory : Path} {label : String}
  {entries new : List SnapshotEntry} {files : List Path} {path : Path}

/-- Which places a path comes through is a matter of where it starts. -/
theorem avoids_iff (hhere : e.here = d.here) {path : Path} :
    e.Avoids own path ↔ d.Avoids own path := by
  unfold Disk.Avoids Disk.route
  rw [hhere]

/-- Nothing that belongs to the owner is at the end of a path that comes through none of it. -/
theorem own_target (h : d.Avoids own path) : own (d.target path) = false :=
  h _ (d.target_mem_route path)

/-- Entries still cover what has changed when nothing is put over their copies. -/
theorem Covers.puts {may : Place → Prop} (h : Covers own d e entries) (hputs : e.PutsOnly own may f)
    (hcopies : ∀ x ∈ entries, ¬ may (d.target x.backup)) : Covers own d f entries := by
  refine ⟨hputs.outside.here.trans h.here, fun p n hp hown => ?_, fun x hx => ?_, fun x hx => ?_⟩
  · rw [hputs.outside.nodeAt?_eq hown]
    exact h.kept p n hp hown
  · obtain ⟨havoids, hfile⟩ := h.originals x hx
    refine ⟨havoids, ?_⟩
    rw [hputs.outside.isFile_eq ((avoids_iff h.here).mpr havoids), hfile]
  · obtain ⟨hown, hcopy⟩ := h.saved x hx
    refine ⟨hown, fun content mode hcontent => ?_⟩
    rw [hputs.nodes _ (hcopies x (mem_of_mem_firstEntries hx))]
    exact hcopy content mode hcontent

/-- The entries of a call that saves files cover what has changed. -/
theorem Covers.saves (h : Covers own d e entries) (hstands : StandsAt own root e directory)
    (hlabel : Path.IsName label) (hadds : Adds directory label files new)
    (hputs : e.PutsOnly own (fun p => IsCopyPlace root label p ∨ p = root ++ ["manifest.json"]) f)
    (hcopies : ∀ path ∈ files, ∃ content mode,
      e.open? path = .ok (e.target path, .file content mode) ∧
        ((∀ other ∈ files, key other = key path → other = path) →
          ∃ mode', f.nodeAt? (root ++ [label, key path]) = some (.file content mode')))
    (hearlier : ∀ x ∈ entries, ¬ (IsCopyPlace root label (d.target x.backup) ∨
      d.target x.backup = root ++ ["manifest.json"]))
    (hdistinct : Distinct d (entries ++ new)) (hfiles : ∀ path ∈ files, e.Avoids own path) :
    Covers own d f (entries ++ new) := by
  have htarget := Disk.target_congr h.here
  have hstill := h.puts hputs hearlier
  refine ⟨hstill.here, fun p n hp hown => ?_, fun x hx => ?_, fun x hx => ?_⟩
  · refine (hstill.kept p n hp hown).imp_right ?_
    rintro ⟨content, content', mode, hn, he, x, hx, hplace⟩
    exact ⟨content, content', mode, hn, he, x, List.mem_append_left _ hx, hplace⟩
  · rcases List.mem_append.mp hx with hx | hx
    · exact hstill.originals x hx
    · have hmem := (hadds.backup x hx).1
      obtain ⟨content, mode, hopen, _⟩ := hcopies _ hmem
      refine ⟨(avoids_iff h.here).mp (hfiles _ hmem), ?_⟩
      rw [hputs.outside.isFile_eq (hfiles _ hmem)]
      exact Disk.isFile_iff.mpr ⟨_, _, _, hopen⟩
  · rcases mem_firstEntries_append hx with hfirst | ⟨hnew, hunsaved⟩
    · exact hstill.saved x hfirst
    · obtain ⟨hmem, hbackup⟩ := hadds.backup x hnew
      have hplace : d.target x.backup = root ++ [label, key x.original] := by
        rw [← htarget, hbackup]
        exact hstands.target_copy hlabel x.original
      rw [hplace]
      refine ⟨hstands.owned _, fun content mode hcontent => ?_⟩
      obtain ⟨content', mode', hopen, hcopy⟩ := hcopies _ hmem
      -- The file has not changed before, because it had no entry.
      have hnow := Disk.nodeAt?_of_open? hopen
      rw [htarget] at hnow
      have hown := own_target ((avoids_iff h.here).mp (hfiles _ hmem))
      have hsame : content' = content := by
        rcases h.kept _ _ hcontent hown with hkept | ⟨_, _, _, _, _, y, hy, hyplace⟩
        · rw [hnow] at hkept
          cases hkept
          rfl
        · have hspelled := hdistinct.spelling y (List.mem_append_left _ hy) x
            (List.mem_append_right _ hnew) hyplace
          rw [hunsaved y hy] at hspelled
          cases hspelled
      subst hsame
      apply hcopy
      intro other hother hkey
      obtain ⟨y, hy, rfl⟩ := hadds.complete other hother
      exact hdistinct.digests y (List.mem_append_right _ hy) x (List.mem_append_right _ hnew) hkey

/-- The entries still cover what has changed when files with entries are rewritten. -/
theorem Covers.rewrites (h : Covers own d e entries)
    (hrewrites : e.RewritesOnly (fun p => ∃ path ∈ files, e.target path = p) f)
    (hfiles : ∀ path ∈ files, ∃ x ∈ entries, x.original = path) : Covers own d f entries := by
  have htarget := Disk.target_congr h.here
  refine ⟨hrewrites.view.here.trans h.here, fun p n hp hown => ?_, fun x hx => ?_, fun x hx => ?_⟩
  · rcases hrewrites.nodes p with hsame | ⟨⟨path, hpath, hplace⟩, was, now, mode, he, hf⟩
    · rw [hsame]
      exact h.kept p n hp hown
    · obtain ⟨x, hx, rfl⟩ := hfiles path hpath
      rw [htarget] at hplace
      right
      rcases h.kept p n hp hown with hkept | ⟨content, content', mode', hn, he', _⟩
      · exact ⟨was, now, mode, Option.some.inj (hkept.symm.trans he), hf, x, hx, hplace⟩
      · rw [he] at he'
        cases he'
        exact ⟨content, now, mode, hn, hf, x, hx, hplace⟩
  · rw [hrewrites.isFile_eq]
    exact h.originals x hx
  · obtain ⟨hown, hcopy⟩ := h.saved x hx
    refine ⟨hown, fun content mode hcontent => ?_⟩
    rcases hrewrites.nodes (d.target x.backup) with hsame | ⟨⟨path, hpath, hplace⟩, _⟩
    · rw [hsame]
      exact hcopy content mode hcontent
    · obtain ⟨y, hy, rfl⟩ := hfiles path hpath
      have hnot := own_target (h.originals y hy).1
      rw [htarget] at hplace
      rw [hplace, hown] at hnot
      cases hnot

end SymbolRename.Snapshot
