import SymbolRename.Proofs.Disk.Keeping

/-!
# One disk seen by different processes

Each process has its own number and its own current directory. An absolute path leads to the same
whoever follows it.
-/

namespace SymbolRename.Disk

/-- The disk as a process sees it from a directory. -/
def seenFrom (d : Disk) (here : Place) (process : Nat) : Disk :=
  { d with here := here, process := process }

variable {d e : Disk} {here : Place} {process : Nat} {path : Path}

@[simp] theorem nodeAt?_seenFrom (d : Disk) (here : Place) (process : Nat) (p : Place) :
    (d.seenFrom here process).nodeAt? p = d.nodeAt? p := rfl

@[simp] theorem here_seenFrom (d : Disk) (here : Place) (process : Nat) :
    (d.seenFrom here process).here = here := rfl

@[simp] theorem process_seenFrom (d : Disk) (here : Place) (process : Nat) :
    (d.seenFrom here process).process = process := rfl

theorem target_seenFrom (habsolute : path.isAbsolute = true) :
    (d.seenFrom here process).target path = d.target path := by
  unfold target
  rw [habsolute]
  rfl

theorem avoids_seenFrom {own : Place → Bool} (habsolute : path.isAbsolute = true) :
    (d.seenFrom here process).Avoids own path ↔ d.Avoids own path := by
  unfold Avoids route
  rw [habsolute]
  exact Iff.rfl

theorem locate_seenFrom (habsolute : path.isAbsolute = true) :
    (d.seenFrom here process).locate path = d.locate path := by
  unfold Disk.locate
  rw [habsolute]
  rfl

theorem open?_seenFrom (habsolute : path.isAbsolute = true) :
    (d.seenFrom here process).open? path = d.open? path := by
  unfold Disk.open?
  rw [locate_seenFrom habsolute]
  rfl

theorem isFile_seenFrom (habsolute : path.isAbsolute = true) :
    (d.seenFrom here process).isFile path = d.isFile path := by
  unfold isFile
  rw [open?_seenFrom habsolute]

/-- What is kept is kept for everybody. -/
theorem Keeps.seenFrom {own : Place → Bool} {may : Place → Prop} (h : d.Keeps own may e)
    (here : Place) (process process' : Nat) :
    (d.seenFrom here process).Keeps own may (e.seenFrom here process') :=
  ⟨rfl, h.nodes, h.directories, h.outside⟩

end SymbolRename.Disk
