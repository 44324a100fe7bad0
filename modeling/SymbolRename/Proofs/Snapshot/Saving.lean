import SymbolRename.Proofs.Snapshot.Coverage
import SymbolRename.Proofs.Snapshot.Manifest
import SymbolRename.Proofs.Text.Decimal

/-!
# Saving files

A call that saves files copies each of them below the directory of its label and then writes the
manifest, which is read back. It changes nothing outside of the snapshot, and no copy that an
earlier call has made.
-/

namespace SymbolRename

/-- Nodes were put at some places of an owner, and no directory was replaced. -/
structure Disk.PutsOnly (own : Place → Bool) (may : Place → Prop) (d e : Disk) : Prop where
  outside : d.SameOutside own e
  directories : ∀ p mode, d.nodeAt? p = some (.directory mode) →
    e.nodeAt? p = some (.directory mode)
  nodes : ∀ p, ¬ may p → e.nodeAt? p = d.nodeAt? p

namespace Disk.PutsOnly

variable {own : Place → Bool} {may : Place → Prop} {d e f : Disk}

theorem refl (own : Place → Bool) (may : Place → Prop) (d : Disk) : PutsOnly own may d d :=
  ⟨.refl own d, fun _ _ h => h, fun _ _ => rfl⟩

theorem trans (h : PutsOnly own may d e) (h' : PutsOnly own may e f) : PutsOnly own may d f :=
  ⟨h.outside.trans h'.outside, fun p mode hp => h'.directories p mode (h.directories p mode hp),
    fun p hp => (h'.nodes p hp).trans (h.nodes p hp)⟩

theorem mono {may' : Place → Prop} (h : PutsOnly own may d e) (hmay : ∀ p, may p → may' p) :
    PutsOnly own may' d e :=
  ⟨h.outside, h.directories, fun p hp => h.nodes p fun hold => hp (hmay p hold)⟩

theorem put {p : Place} (hown : own p = true)
    (hp : ∀ mode, d.nodeAt? p ≠ some (.directory mode)) (n : Node) :
    PutsOnly own (· = p) d (d.put p n) := by
  have hne := ne_nil_of_nodeAt? hp
  refine ⟨sameOutside_put d hown n, fun q mode hq => ?_, fun q hq => ?_⟩
  · rw [nodeAt?_put hne, if_neg]
    · exact hq
    · rintro rfl
      exact hp mode hq
  · rw [nodeAt?_put hne, if_neg hq]

theorem target_eq (h : PutsOnly own may d e) (path : Path) : e.target path = d.target path :=
  target_congr h.outside.here path

/-- A directory that a path leads to stays where it is. -/
theorem open?_directory (h : PutsOnly own may d e) {path : Path} {p : Place} {mode : Nat}
    (hopen : d.open? path = .ok (p, .directory mode)) :
    e.open? path = .ok (p, .directory mode) := by
  obtain ⟨hlocate, hnode⟩ := open?_eq_ok_iff.mp hopen
  exact open?_eq_ok_iff.mpr
    ⟨locate_of_directories h.outside.here.symm h.directories hlocate, h.directories p mode hnode⟩

end Disk.PutsOnly

/-! ### Names in a snapshot -/

namespace Sha256

theorem length_bigEndian (n count : Nat) : (bigEndian n count).length = count := by
  induction count with
  | zero => rfl
  | succ count ih => rw [bigEndian, List.length_cons, ih]

theorem slash_not_mem_hexByte (b : UInt8) : '/' ∉ hexByte b := by
  have hdigit : ∀ n < 16, (if n < 10 then Char.ofNat (48 + n) else Char.ofNat (87 + n)) ≠ '/' := by
    decide
  have hb : b.toNat < 256 := b.toNat_lt
  simp only [hexByte, List.mem_cons, List.not_mem_nil, or_false, not_or]
  exact ⟨(hdigit _ (by omega)).symm, (hdigit _ (by omega)).symm⟩

theorem length_digest (message : Bytes) : (digest message).length = 32 := by
  simp [digest, length_bigEndian]

/-- A digest names an entry. -/
theorem isName_hex (message : Bytes) : Path.IsName (hex message) := by
  constructor
  · unfold hex
    rw [String.toList_ofList]
    intro h
    obtain ⟨b, _, hb⟩ := List.mem_flatMap.mp h
    exact slash_not_mem_hexByte b hb
  · apply Path.stepOf?_of_length
    unfold hex
    have hlength : ∀ bs : Bytes, (bs.flatMap hexByte).length = 2 * bs.length := by
      intro bs
      induction bs with
      | nil => rfl
      | cons b rest ih => rw [List.flatMap_cons, List.length_append, ih]; simp [hexByte]; omega
    rw [String.length_ofList, hlength, length_digest]
    decide

end Sha256

namespace Batch

theorem isDigit_of_mem_paddedNumber {n : Nat} {c : Char} (h : c ∈ (paddedNumber n).toList) :
    c.isDigit = true := by
  unfold paddedNumber at h
  rw [String.toList_ofList] at h
  rcases List.mem_append.mp h with h | h
  · rw [(List.mem_replicate.mp h).2]
    decide
  · exact Count.isDigit_of_mem_toDigits h

/-- A padded number is read as the number. -/
theorem ofDigitChars_paddedNumber (n : Nat) :
    Nat.ofDigitChars 10 (paddedNumber n).toList 0 = n := by
  have hzeros : ∀ (count : Nat) (cs : List Char),
      Nat.ofDigitChars 10 (List.replicate count '0' ++ cs) 0 = Nat.ofDigitChars 10 cs 0 := by
    intro count cs
    induction count with
    | zero => rfl
    | succ count ih => rw [List.replicate_succ, List.cons_append, Nat.ofDigitChars_cons]; exact ih
  unfold paddedNumber
  rw [String.toList_ofList, hzeros, Nat.ofDigitChars_ten_toDigits]

theorem toList_label (n : Nat) : (label n).toList = "step-".toList ++ (paddedNumber n).toList := by
  unfold label
  simp only [String.toList_append]
  rfl

/-- Steps have different labels. -/
theorem label_injective {n m : Nat} (h : label n = label m) : n = m := by
  have hlist := congrArg String.toList h
  rw [toList_label, toList_label] at hlist
  rw [← ofDigitChars_paddedNumber n, ← ofDigitChars_paddedNumber m,
    List.append_cancel_left hlist]

/-- A label names an entry. -/
theorem isName_label (n : Nat) : Path.IsName (label n) := by
  constructor
  · rw [toList_label]
    intro h
    rcases List.mem_append.mp h with h | h
    · exact absurd h (by decide)
    · exact absurd (isDigit_of_mem_paddedNumber h) (by decide)
  · apply Path.stepOf?_of_length
    rw [← String.length_toList, toList_label, List.length_append]
    exact Nat.lt_of_lt_of_le (by decide) (Nat.le_add_right 5 _)

end Batch

namespace Snapshot

/-- The directory of the copies that are made under a label. -/
def labelDirectory (directory : Path) (label : String) : Path := directory.join ⟨label⟩

/-- Where a file is copied. -/
def copyPath (directory : Path) (label : String) (path : Path) : Path :=
  (labelDirectory directory label).join ⟨key path⟩

/-- The snapshot's directory is there, and what is below it belongs to the owner. -/
structure StandsAt (own : Place → Bool) (root : Place) (d : Disk) (directory : Path) : Prop where
  bare : directory.IsBare
  opened : ∃ mode, d.open? directory = .ok (root, .directory mode)
  owned : ∀ names, own (root ++ names) = true

theorem isName_manifest : Path.IsName "manifest.json" := by decide

theorem isName_key (path : Path) : Path.IsName (key path) := Sha256.isName_hex _

section Calls

variable {own : Place → Bool} {root : Place} {d e : Disk} {directory : Path} {label : String}

theorem StandsAt.target_eq (h : StandsAt own root d directory) : d.target directory = root := by
  obtain ⟨mode, hopen⟩ := h.opened
  exact (Disk.eq_target_of_open? hopen).symm

theorem StandsAt.target_label (h : StandsAt own root d directory) (hlabel : Path.IsName label) :
    d.target (labelDirectory directory label) = root ++ [label] := by
  rw [labelDirectory, Disk.target_join d h.bare hlabel, h.target_eq]

theorem StandsAt.target_copy (h : StandsAt own root d directory) (hlabel : Path.IsName label)
    (path : Path) : d.target (copyPath directory label path) = root ++ [label, key path] := by
  have hbare : (labelDirectory directory label).IsBare := h.bare.join hlabel
  rw [copyPath, Disk.target_join d hbare (isName_key path), h.target_label hlabel,
    List.append_assoc]
  rfl

theorem StandsAt.target_manifest (h : StandsAt own root d directory) :
    d.target (manifestPath directory) = root ++ ["manifest.json"] := by
  rw [manifestPath, Disk.target_join d h.bare isName_manifest, h.target_eq]

theorem StandsAt.puts {may : Place → Prop} (h : StandsAt own root d directory)
    (hputs : d.PutsOnly own may e) : StandsAt own root e directory := by
  obtain ⟨mode, hopen⟩ := h.opened
  exact ⟨h.bare, ⟨mode, hputs.open?_directory hopen⟩, h.owned⟩

theorem StandsAt.rewrites {may : Place → Prop} (h : StandsAt own root d directory)
    (hrewrites : d.RewritesOnly may e) (hmay : ∀ p, may p → own p = false) :
    StandsAt own root e directory := by
  obtain ⟨mode, hopen⟩ := h.opened
  refine ⟨h.bare, ⟨mode, ?_⟩, h.owned⟩
  rw [hrewrites.open?_eq, hopen]
  intro hroot
  have hown := h.owned []
  rw [List.append_nil, ← h.target_eq, hmay _ hroot] at hown
  cases hown

/-- What is read back does not depend on anything but the manifest. -/
theorem load_congr (h : e.open? (manifestPath directory) = d.open? (manifestPath directory)) :
    load e directory = load d directory := by
  have hfile : e.isFile (manifestPath directory) = d.isFile (manifestPath directory) := by
    unfold Disk.isFile
    rw [h]
  have hread : e.readText (manifestPath directory) = d.readText (manifestPath directory) := by
    unfold Disk.readText Disk.read
    rw [h]
  unfold load
  dsimp only
  rw [hfile, hread]

/-- Entries are read back where the manifest is kept. -/
theorem StandsAt.load_eq {may : Place → Prop} (h : StandsAt own root d directory)
    (hputs : d.PutsOnly own may e) (hmay : ¬ may (root ++ ["manifest.json"])) :
    load e directory = load d directory := by
  obtain ⟨mode, hopen⟩ := h.opened
  exact load_congr (Disk.open?_join_eq hopen (hputs.open?_directory hopen) h.bare isName_manifest
    (hputs.nodes _ hmay))

/-- Places of copies under a label, and of their directory. -/
def IsCopyPlace (root : Place) (label : String) (p : Place) : Prop :=
  p = root ++ [label] ∨ ∃ name, p = root ++ [label, name]

/-- What copying one more file makes of a call under way. -/
inductive Taken.Copies (label : String) (t : Taken) (path : Path) : Taken → Prop
  | failed {u : Taken} (hfault : u.fault ≠ none) (hdisk : u.disk = t.disk)
      (hsnapshot : u.snapshot = t.snapshot) : Copies label t path u
  | copied {u : Taken} {content : Bytes} {mode : Nat} {p : Place} (digest : String)
      (hopen : t.disk.open? path = .ok (p, .file content mode))
      (hplace : ∀ mode, t.disk.nodeAt? (t.disk.target (copyPath t.snapshot.directory label path)) ≠
        some (.directory mode))
      (hdisk : u.disk = t.disk.put (t.disk.target (copyPath t.snapshot.directory label path))
        (.file content mode))
      (hsnapshot : u.fault = none → u.snapshot = { t.snapshot with
        entries := t.snapshot.entries ++
          [⟨label, path, copyPath t.snapshot.directory label path, digest⟩] })
      (hdirectory : u.snapshot.directory = t.snapshot.directory) : Copies label t path u

theorem Taken.copies (label : String) {t : Taken} (h : t.fault = none) (path : Path) :
    Copies label t path (t.copy label path) := by
  have hbackup : (t.snapshot.directory.join ⟨label⟩).join ⟨key path⟩ =
      copyPath t.snapshot.directory label path := rfl
  unfold copy
  rw [h, hbackup]
  dsimp only [Option.isSome_none]
  rw [if_neg Bool.false_ne_true]
  cases hcopy : t.disk.copy path (copyPath t.snapshot.directory label path) with
  | error fault => exact .failed (by simp) rfl rfl
  | ok d =>
    obtain ⟨_, hdirectory, p, content, mode, hopen, hd⟩ := Disk.copy_eq_ok hcopy
    dsimp only
    cases checksum d path with
    | error fault => exact .copied "" hopen hdirectory hd nofun rfl
    | ok digest => exact .copied digest hopen hdirectory hd (fun _ => rfl) rfl

theorem Taken.copy_of_fault {t : Taken} (h : t.fault ≠ none) (path : Path) :
    t.copy label path = t := by
  unfold copy
  rw [if_pos (Option.isSome_iff_ne_none.mpr h)]

/-- Copies that go well have gone well from the start. -/
theorem Taken.fault_of_foldl {t : Taken} {files : List Path}
    (h : (files.foldl (copy label) t).fault = none) : t.fault = none := by
  induction files generalizing t with
  | nil => exact h
  | cons path rest ih =>
    by_contra hfault
    have hone : (t.copy label path).fault = none := ih h
    rw [copy_of_fault hfault] at hone
    exact hfault hone

/-- Entries are only added. -/
theorem Taken.subset_copy (t : Taken) (label : String) (path : Path) :
    t.snapshot.entries ⊆ (t.copy label path).snapshot.entries := by
  unfold copy
  split
  · exact List.Subset.refl _
  · dsimp only
    split
    · exact List.Subset.refl _
    · split
      · exact List.Subset.refl _
      · exact List.subset_append_left _ _

theorem Taken.subset_foldl (t : Taken) (label : String) (files : List Path) :
    t.snapshot.entries ⊆ (files.foldl (copy label) t).snapshot.entries := by
  induction files generalizing t with
  | nil => exact List.Subset.refl _
  | cons path rest ih => exact List.Subset.trans (t.subset_copy label path) (ih _)

/-- What copies leave: they are put below the directory of their label, in one snapshot. -/
structure Copying (own : Place → Bool) (root : Place) (label : String) (t u : Taken) : Prop where
  puts : t.disk.PutsOnly own (IsCopyPlace root label) u.disk
  directory : u.snapshot.directory = t.snapshot.directory

theorem Taken.copying_refl (t : Taken) : Copying own root label t t :=
  ⟨.refl _ _ _, rfl⟩

theorem Copying.trans {t u v : Taken} (h : Copying own root label t u)
    (h' : Copying own root label u v) : Copying own root label t v :=
  ⟨h.puts.trans h'.puts, h'.directory.trans h.directory⟩

theorem Taken.copy_copying {t : Taken} (h : StandsAt own root t.disk t.snapshot.directory)
    (hlabel : Path.IsName label) (path : Path) : Copying own root label t (t.copy label path) := by
  by_cases hfault : t.fault = none
  · cases copies label hfault path with
    | failed _ hdisk hsnapshot =>
      refine ⟨?_, ?_⟩
      · rw [hdisk]
        exact .refl _ _ _
      · rw [hsnapshot]
    | copied _ _ hplace hdisk _ hdirectory =>
      refine ⟨?_, hdirectory⟩
      rw [hdisk]
      have htarget := h.target_copy hlabel path
      rw [htarget] at hplace ⊢
      exact (Disk.PutsOnly.put (h.owned _) hplace _).mono fun p hp => .inr ⟨key path, hp⟩
  · rw [copy_of_fault hfault]
    exact copying_refl t

/-- Copying many files; the induction is on the files that are left. -/
theorem Taken.foldl_copying {t : Taken} (h : StandsAt own root t.disk t.snapshot.directory)
    (hlabel : Path.IsName label) (files : List Path) :
    Copying own root label t (files.foldl (copy label) t) := by
  induction files generalizing t with
  | nil => exact copying_refl t
  | cons path rest ih =>
    have hone := copy_copying h hlabel path
    refine hone.trans (ih ?_)
    rw [hone.directory]
    exact h.puts hone.puts

/-- The entries that a call adds: one for each file, with its copy. -/
structure Adds (directory : Path) (label : String) (files : List Path)
    (new : List SnapshotEntry) : Prop where
  backup : ∀ x ∈ new, x.original ∈ files ∧ x.backup = copyPath directory label x.original
  complete : ∀ path ∈ files, ∃ x ∈ new, x.original = path

theorem Adds.concat {directory : Path} {label : String} {done : List Path}
    {new : List SnapshotEntry} (h : Adds directory label done new) (path : Path) (digest : String) :
    Adds directory label (done ++ [path])
      (new ++ [⟨label, path, copyPath directory label path, digest⟩]) := by
  constructor
  · intro x hx
    rcases List.mem_append.mp hx with hx | hx
    · obtain ⟨hmem, hbackup⟩ := h.backup x hx
      exact ⟨List.mem_append_left _ hmem, hbackup⟩
    · rw [List.mem_singleton.mp hx]
      exact ⟨by simp, rfl⟩
  · intro q hq
    rcases List.mem_append.mp hq with hq | hq
    · obtain ⟨x, hx, horiginal⟩ := h.complete q hq
      exact ⟨x, List.mem_append_left _ hx, horiginal⟩
    · exact ⟨_, List.mem_append_right _ List.mem_cons_self, (List.mem_singleton.mp hq).symm⟩

/-- Some files have been copied: each copy holds what its file holds, unless a file with the same
digest was copied over it. -/
structure Copied (own : Place → Bool) (root : Place) (d : Disk) (s : Snapshot) (label : String)
    (done : List Path) (t : Taken) : Prop where
  snapshot : ∃ new, t.snapshot = ⟨s.directory, s.entries ++ new⟩ ∧
    Adds s.directory label done new
  puts : d.PutsOnly own (IsCopyPlace root label) t.disk
  copies : ∀ path ∈ done, ∃ content mode, d.open? path = .ok (d.target path, .file content mode) ∧
    ((∀ other ∈ done, key other = key path → other = path) →
      ∃ mode', t.disk.nodeAt? (root ++ [label, key path]) = some (.file content mode'))

/-- One more file is copied. -/
theorem Copied.copy {s : Snapshot} {done : List Path} {t : Taken}
    (h : Copied own root d s label done t) (hstands : StandsAt own root d s.directory)
    (hlabel : Path.IsName label) {path : Path} (hpath : d.Avoids own path)
    (hfault : t.fault = none) (hgoes : (t.copy label path).fault = none) :
    Copied own root d s label (done ++ [path]) (t.copy label path) := by
  obtain ⟨new, hsnapshot, hadds⟩ := h.snapshot
  cases Taken.copies label hfault path with
  | failed hfailed => exact absurd hgoes hfailed
  | @copied content mode p digest hopen hplace hdisk hadded _ =>
    have htarget : t.disk.target (copyPath t.snapshot.directory label path) =
        root ++ [label, key path] := by
      rw [h.puts.target_eq, hsnapshot]
      exact hstands.target_copy hlabel path
    rw [htarget] at hplace hdisk
    have hputs := Disk.PutsOnly.put (hstands.owned [label, key path]) hplace (.file content mode)
    have hne := Disk.ne_nil_of_nodeAt? hplace
    rw [h.puts.outside.open?_eq hpath] at hopen
    obtain rfl := Disk.eq_target_of_open? hopen
    refine ⟨⟨_, ?_, hadds.concat path digest⟩, ?_, ?_⟩
    · rw [hadded hgoes, hsnapshot]
      simp
    · rw [hdisk]
      exact h.puts.trans (hputs.mono fun p hp => .inr ⟨key path, hp⟩)
    · intro q hq
      rw [hdisk]
      rcases List.mem_append.mp hq with hq | hq
      · obtain ⟨content', mode', hopen', hcopy⟩ := h.copies q hq
        refine ⟨content', mode', hopen', fun hdigests => ?_⟩
        by_cases hkey : key path = key q
        · -- The same file is copied once more.
          obtain rfl := hdigests path (by simp) hkey
          rw [hopen] at hopen'
          cases hopen'
          exact ⟨mode, (Disk.nodeAt?_put hne).trans (if_pos rfl)⟩
        · obtain ⟨mode'', hnode⟩ := hcopy fun other hother => hdigests other (by simp [hother])
          refine ⟨mode'', ?_⟩
          rw [Disk.nodeAt?_put hne, if_neg]
          · exact hnode
          · intro hsame
            have hnames := List.append_cancel_left hsame
            exact hkey (by simpa using hnames.symm)
      · rw [List.mem_singleton.mp hq]
        exact ⟨content, mode, hopen, fun _ => ⟨mode, (Disk.nodeAt?_put hne).trans (if_pos rfl)⟩⟩

/-- Many files are copied; the induction is on the files that are left. -/
theorem Copied.foldl {s : Snapshot} {done : List Path} {t : Taken}
    (h : Copied own root d s label done t) (hstands : StandsAt own root d s.directory)
    (hlabel : Path.IsName label) {files : List Path} (hfiles : ∀ path ∈ files, d.Avoids own path)
    (hgoes : (files.foldl (Taken.copy label) t).fault = none) :
    Copied own root d s label (done ++ files) (files.foldl (Taken.copy label) t) := by
  induction files generalizing done t with
  | nil => rwa [List.append_nil]
  | cons path rest ih =>
    have hone : (t.copy label path).fault = none := Taken.fault_of_foldl hgoes
    have hearlier : t.fault = none := @Taken.fault_of_foldl _ t [path] hone
    have hcopied := h.copy hstands hlabel (hfiles path List.mem_cons_self) hearlier hone
    rw [List.append_cons]
    exact ih hcopied (fun q hq => hfiles q (List.mem_cons_of_mem path hq)) hgoes

end Calls

end Snapshot

end SymbolRename
