import SymbolRename.Proofs.Plan.Steps
import SymbolRename.Proofs.Snapshot.Calls

/-!
# The first file of a snapshot

A call that saves one file in a snapshot without a manifest succeeds when the paths of the copy are
not too long, and what it leaves is known without following them: `Snapshot.take_single`. So what a
batch does on a given disk can be worked out without them, by
`Snapshot.KnownManifest.hook_eq_shortHook` and `Snapshot.KnownManifest.load_eq_shortLoad`.
-/

namespace SymbolRename

namespace Sha256

/-- Digests are written in ASCII. -/
theorem length_bytes_hex (message : Bytes) : (bytes (hex message)).length = 64 := by
  have hencode : ∀ cs : List Char, (∀ c ∈ cs, c.toNat < 0x80) →
      (cs.flatMap String.utf8EncodeChar).length = cs.length := by
    intro cs hcs
    induction cs with
    | nil => rfl
    | cons c rest ih =>
      obtain ⟨hc, hrest⟩ := List.forall_mem_cons.mp hcs
      rw [List.flatMap_cons, Utf8.encode_of_lt hc, List.length_append, ih hrest]
      simp [Nat.add_comm]
  have hdigits : ∀ b : UInt8, (hexByte b).length = 2 := fun b => rfl
  have hlength : (hex message).toList.length = 64 := by
    rw [hex, String.toList_ofList, List.length_flatMap]
    simp only [hdigits, List.map_const', length_digest, List.sum_replicate, smul_eq_mul]
  rw [bytes_eq_flatMap, hencode _ fun c hc => (Plan.isNameChar_hex hc).lt, hlength]

theorem nul_not_mem_hex (message : Bytes) : '\x00' ∉ (hex message).toList := fun h => by
  rcases Plan.isNameChar_hex h with hletter | hmark
  · exact absurd hletter (by decide)
  · exact absurd hmark (by decide)

end Sha256

namespace Disk

variable {d e : Disk} {path : Path} {s : String} {p : Place} {mode : Nat}

/-- A directory that can be made at once is made. -/
theorem makeDirectories_of_makeDirectory (htext : path.text ≠ "")
    (h : d.makeDirectory path = .ok e) : d.makeDirectories path = .ok e := by
  unfold makeDirectories
  rw [makeDirectoriesFrom, if_neg htext, h]

/-- What is put where nothing stands leaves all other paths alone. -/
theorem open?_put_of_none {n m : Node} {q : Place} (hnone : d.nodeAt? q = none)
    (hopen : d.open? path = .ok (p, m)) : (d.put q n).open? path = .ok (p, m) := by
  have hq : q ≠ [] := ne_nil_of_nodeAt? (d := d) (by simp [hnone])
  have hkept : ∀ r m, d.nodeAt? r = some m → (d.put q n).nodeAt? r = some m := by
    intro r m hr
    rw [nodeAt?_put hq, if_neg, hr]
    rintro rfl
    cases hnone.symm.trans hr
  obtain ⟨hlocate, hnode⟩ := open?_eq_ok_iff.mp hopen
  refine open?_eq_ok_iff.mpr ⟨?_, hkept _ _ hnode⟩
  exact locate_of_directories (d := d.put q n) (e := d) rfl (fun r mode hr => hkept r _ hr) hlocate

/-- A name can be joined to a path, and what comes out is not too long to be followed. -/
structure Takes (path : Path) (name : String) : Prop where
  bare : path.IsBare
  named : Path.IsName name
  clean : '\x00' ∉ path.text.toList ∧ '\x00' ∉ name.toList
  short : (bytes path.text).length + 1 + (bytes name).length ≤ longestPath
  shortName : (bytes name).length ≤ longestName

/-- A new name in a directory leads to its place. -/
theorem Takes.locate (h : Takes path s) (hopen : d.open? path = .ok (p, .directory mode)) :
    d.locate (path.join ⟨s⟩) = .ok (p ++ [s]) := by
  have htext := Path.join_text h.bare h.named
  have hclean : '\x00' ∉ (path.join ⟨s⟩).text.toList := by
    rw [htext, String.toList_append, String.toList_append, List.mem_append, List.mem_append]
    exact not_or.mpr ⟨not_or.mpr ⟨h.clean.1, by decide⟩, h.clean.2⟩
  have hlong : (bytes (path.join ⟨s⟩).text).length ≤ longestPath := by
    rw [htext, bytes_append, bytes_append, List.length_append, List.length_append]
    exact h.short
  rw [locate_join hopen h.bare h.named, if_neg (by simpa using hclean), if_neg (Nat.not_lt.mpr hlong),
    if_neg (Nat.not_lt.mpr h.shortName)]

/-- A file can be written under a new name. -/
theorem Takes.locateForWrite (h : Takes path s) (hopen : d.open? path = .ok (p, .directory mode))
    (hnone : d.nodeAt? (p ++ [s]) = none) :
    d.locateForWrite (path.join ⟨s⟩) = .ok (p ++ [s], none) := by
  have hplace := locateForWrite_of_locate (h.bare.join h.named).withoutSlash_eq (h.locate hopen)
    (by simp [hnone])
  rwa [hnone] at hplace

/-- A directory can be made under a new name. -/
theorem Takes.makeDirectories (h : Takes path s) (hopen : d.open? path = .ok (p, .directory mode))
    (hnone : d.nodeAt? (p ++ [s]) = none) :
    d.makeDirectories (path.join ⟨s⟩) = .ok (d.put (p ++ [s]) (.directory Node.directoryMode)) := by
  have hbare := h.bare.join h.named
  refine makeDirectories_of_makeDirectory hbare.text ?_
  unfold makeDirectory
  rw [hbare.withoutSlash_eq, h.locate hopen]
  simp only [bind, Except.bind, hnone, pure, Except.pure]

/-- It is there then. -/
theorem Takes.opened (h : Takes path s) (hopen : d.open? path = .ok (p, .directory mode))
    (hnone : d.nodeAt? (p ++ [s]) = none) :
    (d.put (p ++ [s]) (.directory Node.directoryMode)).open? (path.join ⟨s⟩) =
      .ok (p ++ [s], .directory Node.directoryMode) := by
  have hthere := h.locate (open?_put_of_none (n := .directory Node.directoryMode) hnone hopen)
  refine open?_eq_ok_iff.mpr ⟨hthere, ?_⟩
  rw [nodeAt?_put (by simp), if_pos rfl]

end Disk

namespace Snapshot

/-- Nothing has been saved under a label in the snapshot at a place, and the paths of the copy of a
file are not too long. -/
structure IsFresh (d : Disk) (s : Snapshot) (label : String) (path : Path) (root : Place) : Prop where
  labels : Disk.Takes s.directory label
  room : (bytes s.directory.text).length + (bytes label).length + 66 ≤ Disk.longestPath
  manifest : label ≠ "manifest.json"
  noLabel : d.nodeAt? (root ++ [label]) = none
  noCopy : d.nodeAt? (root ++ [label] ++ [key path]) = none
  noManifest : d.nodeAt? (root ++ ["manifest.json"]) = none

/-- What a call leaves that saves one file, with the manifest written by a given printer. -/
def oneTaken (render : List SnapshotEntry → String) (d : Disk) (s : Snapshot) (label : String)
    (path : Path) (root : Place) (content : Bytes) (mode : Nat) : Taken :=
  let entries := s.entries ++
    [⟨label, path, copyPath s.directory label path, Sha256.hex content⟩]
  { disk := ((d.put (root ++ [label]) (.directory Node.directoryMode)).put
      (root ++ [label] ++ [key path]) (.file content mode)).put (root ++ ["manifest.json"])
        (.file (bytes (render entries)) Node.fileMode)
    snapshot := ⟨s.directory, entries⟩ }

variable {d : Disk} {s : Snapshot} {label : String} {path : Path} {root p : Place}
  {content : Bytes} {mode mode' : Nat}

theorem IsFresh.keys (h : IsFresh d s label path root) :
    Disk.Takes (labelDirectory s.directory label) (key path) := by
  have hroom := h.room
  have hkey : (bytes (key path)).length = 64 := Sha256.length_bytes_hex _
  have htext : (labelDirectory s.directory label).text = s.directory.text ++ "/" ++ label :=
    Path.join_text h.labels.bare h.labels.named
  have hslash : (bytes "/").length = 1 := by decide
  refine ⟨h.labels.bare.join h.labels.named, isName_key path, ⟨?_, Sha256.nul_not_mem_hex _⟩, ?_, ?_⟩
  · rw [htext, String.toList_append, String.toList_append, List.mem_append, List.mem_append]
    exact not_or.mpr ⟨not_or.mpr ⟨h.labels.clean.1, by decide⟩, h.labels.clean.2⟩
  · rw [htext, bytes_append, bytes_append, List.length_append, List.length_append, hslash, hkey]
    omega
  · rw [hkey]
    decide

theorem IsFresh.manifests (h : IsFresh d s label path root) :
    Disk.Takes s.directory "manifest.json" := by
  have hroom := h.room
  have hlength : (bytes "manifest.json").length = 13 := by decide +kernel
  refine ⟨h.labels.bare, isName_manifest, ⟨h.labels.clean.1, by decide⟩, ?_, ?_⟩
  · rw [hlength]
    omega
  · rw [hlength]
    decide

/-- Saving one file in a snapshot without a manifest. -/
theorem take_single (hroot : d.open? s.directory = .ok (root, .directory mode'))
    (hfile : d.open? path = .ok (p, .file content mode)) (hfresh : IsFresh d s label path root) :
    take d s label [path] = oneTaken Manifest.render d s label path root content mode := by
  have hmake := hfresh.labels.makeDirectories hroot hfresh.noLabel
  have hopened := hfresh.labels.opened hroot hfresh.noLabel
  have hroot' := Disk.open?_put_of_none (n := .directory Node.directoryMode) hfresh.noLabel hroot
  have hfile' := Disk.open?_put_of_none (n := .directory Node.directoryMode) hfresh.noLabel hfile
  have hcopied : (d.put (root ++ [label]) (.directory Node.directoryMode)).nodeAt?
      (root ++ [label] ++ [key path]) = none := by
    rw [Disk.nodeAt?_put (by simp), if_neg (by simp), hfresh.noCopy]
  have hmanifest : (d.put (root ++ [label]) (.directory Node.directoryMode)).nodeAt?
      (root ++ ["manifest.json"]) = none := by
    rw [Disk.nodeAt?_put (by simp), if_neg (by simpa using hfresh.manifest.symm), hfresh.noManifest]
  unfold take oneTaken
  rw [if_neg (by simp), hmake]
  generalize d.put (root ++ [label]) (.directory Node.directoryMode) = made
    at hopened hroot' hfile' hcopied hmanifest
  have hcopy : made.copy path (copyPath s.directory label path) =
      .ok (made.put (root ++ [label] ++ [key path]) (.file content mode)) := by
    unfold Disk.copy copyPath
    rw [hfile']
    simp only [bind, Except.bind, hfresh.keys.locateForWrite hopened hcopied, pure, Except.pure]
  have hroot'' := Disk.open?_put_of_none (n := .file content mode) hcopied hroot'
  have hfile'' := Disk.open?_put_of_none (n := .file content mode) hcopied hfile'
  have hmanifest' : (made.put (root ++ [label] ++ [key path]) (.file content mode)).nodeAt?
      (root ++ ["manifest.json"]) = none := by
    rw [Disk.nodeAt?_put (by simp), if_neg (by simp), hmanifest]
  generalize made.put (root ++ [label] ++ [key path]) (.file content mode) = copied
    at hcopy hroot'' hfile'' hmanifest'
  have hsum : checksum copied path = .ok (Sha256.hex content) := by
    unfold checksum
    rw [Disk.read_eq_ok_iff.mpr ⟨_, _, hfile''⟩]
    rfl
  have hwrite : ∀ text : Bytes, copied.write (manifestPath s.directory) text =
      .ok (copied.put (root ++ ["manifest.json"]) (.file text Node.fileMode)) := by
    intro text
    unfold Disk.write manifestPath
    rw [hfresh.manifests.locateForWrite hroot'' hmanifest']
    rfl
  have hone : Taken.copy label { disk := made, snapshot := s } path =
      { disk := copied, snapshot := ⟨s.directory, s.entries ++
        [⟨label, path, copyPath s.directory label path, Sha256.hex content⟩]⟩ } := by
    unfold copyPath labelDirectory at hcopy
    unfold Taken.copy
    simp only [Option.isSome_none, Bool.false_eq_true, if_false, hcopy, hsum]
    rfl
  simp only [List.foldl_cons, List.foldl_nil, hone, Taken.writeManifest, Option.isSome_none,
    Bool.false_eq_true, if_false, hwrite]

/-! ### Calls that are quick to work out -/

instance (path : Path) : Decidable path.IsBare :=
  decidable_of_iff (path.text ≠ "" ∧ path.text.toList.getLast? ≠ some '/')
    ⟨fun ⟨h, h'⟩ => ⟨h, h'⟩, fun ⟨h, h'⟩ => ⟨h, h'⟩⟩

instance (path : Path) (name : String) : Decidable (Disk.Takes path name) :=
  decidable_of_iff ((path.IsBare ∧ Path.IsName name) ∧
      ('\x00' ∉ path.text.toList ∧ '\x00' ∉ name.toList) ∧
      (bytes path.text).length + 1 + (bytes name).length ≤ Disk.longestPath ∧
      (bytes name).length ≤ Disk.longestName)
    ⟨fun ⟨⟨h, h'⟩, hclean, hshort, hname⟩ => ⟨h, h', hclean, hshort, hname⟩,
      fun ⟨h, h', hclean, hshort, hname⟩ => ⟨⟨h, h'⟩, hclean, hshort, hname⟩⟩

instance (d : Disk) (s : Snapshot) (label : String) (path : Path) (root : Place) :
    Decidable (IsFresh d s label path root) :=
  decidable_of_iff (Disk.Takes s.directory label ∧
      (bytes s.directory.text).length + (bytes label).length + 66 ≤ Disk.longestPath ∧
      label ≠ "manifest.json" ∧ d.nodeAt? (root ++ [label]) = none ∧
      d.nodeAt? (root ++ [label] ++ [key path]) = none ∧
      d.nodeAt? (root ++ ["manifest.json"]) = none)
    ⟨fun ⟨h, hroom, hmanifest, h₁, h₂, h₃⟩ => ⟨h, hroom, hmanifest, h₁, h₂, h₃⟩,
      fun ⟨h, hroom, hmanifest, h₁, h₂, h₃⟩ => ⟨h, hroom, hmanifest, h₁, h₂, h₃⟩⟩

/-- Saves files, by the short way where there is one. -/
def shortTake (render : List SnapshotEntry → String) (d : Disk) (s : Snapshot) (label : String) :
    List Path → Taken
  | [path] =>
    match d.open? s.directory, d.open? path with
    | .ok (root, .directory _), .ok (_, .file content mode) =>
      if IsFresh d s label path root then oneTaken render d s label path root content mode
      else take d s label [path]
    | _, _ => take d s label [path]
  | files => take d s label files

theorem take_eq_shortTake (d : Disk) (s : Snapshot) (label : String) (files : List Path) :
    take d s label files = shortTake Manifest.render d s label files := by
  unfold shortTake
  split
  · split
    · rename_i hroot hfile
      split
      · rename_i hfresh
        exact take_single hroot hfile hfresh
      · rfl
    · rfl
  · rfl

/-- A manifest whose text is at hand. -/
structure KnownManifest where
  entries : List SnapshotEntry
  text : String
  written : Manifest.render entries = text

namespace KnownManifest

/-- The text of a manifest, without printing the one that is known. -/
def render (k : KnownManifest) (entries : List SnapshotEntry) : String :=
  if entries = k.entries then k.text else Manifest.render entries

theorem render_eq (k : KnownManifest) : k.render = Manifest.render := by
  funext entries
  unfold render
  split
  · rename_i hsame
    rw [hsame, k.written]
  · rfl

/-- The hook that saves files, by the short way where there is one. -/
def shortHook (k : KnownManifest) : SnapshotHook Snapshot := fun s d label files =>
  let t := shortTake k.render d s label files
  { state := t.snapshot, disk := t.disk, fault := t.fault }

theorem hook_eq_shortHook (k : KnownManifest) : hook = k.shortHook := by
  funext s d label files
  unfold hook shortHook
  rw [k.render_eq, ← take_eq_shortTake]

/-- Opens a snapshot, without reading the manifest that is known. -/
def shortLoad (k : KnownManifest) (d : Disk) (directory : Path) : Except Cause Snapshot :=
  match d.open? (manifestPath directory) with
  | .ok (_, .file content _) =>
    if content = bytes k.text then .ok ⟨directory, k.entries⟩ else load d directory
  | _ => load d directory

theorem load_eq_shortLoad (k : KnownManifest) (d : Disk) (directory : Path) :
    load d directory = k.shortLoad d directory := by
  unfold shortLoad
  split
  · rename_i hopen
    split
    · rename_i hcontent
      rw [hcontent, ← k.written] at hopen
      exact load_of_open? hopen
    · rfl
  · rfl

end KnownManifest

end Snapshot

end SymbolRename
