import SymbolRename.Disk

/-!
# Stores

All access to project files goes through a store. A plain store reads and writes the
disk. A store with an overlay keeps what is written in memory: it reads its own
writes, and never changes the disk. `Store.disk_write_of_overlay` says the latter.
-/

namespace SymbolRename

/-- File contents kept in memory, one for each path however it is spelled. -/
abbrev Overlay := List (Path × Bytes)

namespace Overlay

/-- The content kept for a path. -/
def content? (o : Overlay) (path : Path) : Option Bytes :=
  (o.find? fun (p, _) => p.same path).map (·.2)

/-- Keeps a content for a path, in place of an earlier one. -/
def keep (o : Overlay) (path : Path) (content : Bytes) : Overlay :=
  (path, content) :: o.filter fun (p, _) => !p.same path

theorem same_self (p : Path) : p.same p = true := by simp [Path.same]

/-- What was kept last for a path is found. -/
theorem content?_keep_self {o : Overlay} {path : Path} {content : Bytes} :
    (o.keep path content).content? path = some content := by
  simp [keep, content?, same_self]

/-- What was kept for another path is found as before. -/
theorem content?_keep_of_not_same {o : Overlay} {p q : Path} {content : Bytes}
    (h : p.same q = false) : (o.keep p content).content? q = o.content? q := by
  unfold keep content?
  rw [List.find?_cons_of_neg (by simp [h]), List.find?_filter]
  refine congrArg (fun f => (o.find? f).map Prod.snd) (funext fun entry => ?_)
  obtain ⟨r, c⟩ := entry
  show decide ((!r.same p) = true ∧ r.same q = true) = r.same q
  cases hr : r.same q with
  | false => exact decide_eq_false fun both => Bool.noConfusion both.2
  | true =>
    have hp : r.same p = false := by
      simp only [Path.same, beq_eq_false_iff_ne, beq_iff_eq] at h hr ⊢
      exact fun e => h (e.symm.trans hr)
    rw [hp]
    rfl

end Overlay

/-- Access to the files of a project. -/
structure Store where
  disk : Disk
  /-- Writes that are kept from the disk, if they are. -/
  overlay : Option Overlay := none
  /-- The paths that cannot be read. -/
  unreadable : List Path := []
  /-- The paths that cannot be written. -/
  unwritable : List Path := []
deriving Repr

namespace Store

/-- The content of a file on disk; a directory cannot be mapped into memory. -/
def readDisk (d : Disk) (path : Path) : Except FileFault Bytes :=
  if d.isDirectory path then .error .noDevice else d.read path

/-- The content of a file. -/
def read (s : Store) (path : Path) : Except FileFault Bytes :=
  if s.unreadable.any (·.same path) then .error (.refused "read")
  else match s.overlay.bind (·.content? path) with
    | some content => .ok content
    | none => readDisk s.disk path

/-- The store after a file was given new content. An overlay takes it only for files
that are on disk. -/
def write (s : Store) (path : Path) (content : Bytes) : Except FileFault Store :=
  if s.unwritable.any (·.same path) then .error (.refused "write")
  else match s.overlay with
    | some o =>
      if s.disk.isFile path then .ok { s with overlay := some (o.keep path content) }
      else .error (.vanished path)
    | none => do return { s with disk := ← s.disk.replace path content }

/-- The path leads to a file. -/
def «exists» (s : Store) (path : Path) : Bool :=
  (s.overlay.bind (·.content? path)).isSome || s.disk.isFile path

section

variable {s t : Store} {path : Path} {content : Bytes}

/-- What a path leads to decides what is read. -/
theorem readDisk_eq {d : Disk} : readDisk d path = match d.open? path with
    | .ok (_, .file content _) => .ok content
    | .ok (_, .directory _) => .error .noDevice
    | .error fault => .error fault := by
  unfold readDisk Disk.isDirectory Disk.read
  cases hopen : d.open? path with
  | error fault => rfl
  | ok found =>
    obtain ⟨p, n⟩ := found
    cases n <;> rfl

theorem readDisk_eq_open? {d : Disk} :
    readDisk d path = .ok content ↔ ∃ p mode, d.open? path = .ok (p, .file content mode) := by
  rw [readDisk_eq]
  cases hopen : d.open? path with
  | error fault => simp
  | ok found =>
    obtain ⟨p, n⟩ := found
    cases n <;> simp

/-- A write to the disk replaces the file there. -/
theorem exists_replace_of_write (hreal : s.overlay = none) (h : s.write path content = .ok t) :
    ∃ d, s.disk.replace path content = .ok d ∧ t = { s with disk := d } := by
  unfold write at h
  split at h
  · cases h
  rw [hreal] at h
  cases hreplace : s.disk.replace path content with
  | error fault =>
    rw [hreplace] at h
    cases h
  | ok d =>
    rw [hreplace] at h
    exact ⟨d, rfl, by rw [← Except.ok.inj h, hreal]⟩

/-- A write to an overlay keeps the content of a file that is on disk. -/
theorem eq_keep_of_write {o : Overlay} (hover : s.overlay = some o)
    (h : s.write path content = .ok t) :
    s.disk.isFile path = true ∧ t = { s with overlay := some (o.keep path content) } := by
  unfold write at h
  split at h
  · cases h
  rw [hover] at h
  dsimp only at h
  split at h
  · exact ⟨‹_›, (Except.ok.inj h).symm⟩
  · cases h

/-- A write to an overlay leaves the disk as it was. -/
theorem disk_write_of_overlay (ho : s.overlay.isSome = true) (h : s.write path content = .ok t) :
    t.disk = s.disk := by
  obtain ⟨o, hover⟩ := Option.isSome_iff_exists.mp ho
  obtain ⟨_, rfl⟩ := eq_keep_of_write hover h
  rfl

end

end Store

end SymbolRename
