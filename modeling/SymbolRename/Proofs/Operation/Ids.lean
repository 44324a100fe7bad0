import SymbolRename.Operation
import SymbolRename.Proofs.Clock
import SymbolRename.Proofs.Snapshot.Saving

/-!
# The names of batches

The name of a batch is a name that a directory can have. Names of batches in later seconds come
later in the order of texts, so that of names in order the last is the last of the list.
-/

namespace SymbolRename.Operation

open CalendarTime (ofSeconds lastMoment)

theorem toList_batchId (now : Nat) (mappings : List Mapping) :
    (batchId now mappings).toList = (ofSeconds now).stamp.toList ++
      '-' :: (Plan.setHash mappings).toList.take hashLength := by
  unfold batchId
  simp only [String.toList_append, List.append_assoc, ToString.toString, String.toList_ofList]
  rfl

variable {now : Nat}

theorem slash_not_mem_lastDigits (width n : Nat) : '/' ∉ Count.lastDigits width n := by
  induction width generalizing n with
  | zero => exact List.not_mem_nil
  | succ width ih =>
    have hdigit : ∀ digit < 10, digit.digitChar ≠ '/' := by decide
    rw [Count.lastDigits, List.mem_append, List.mem_singleton]
    rintro (hmem | hlast)
    · exact ih (n / 10) hmem
    · exact hdigit _ (Nat.mod_lt n (by decide)) hlast.symm

theorem length_batchId (h : now < lastMoment) (mappings : List Mapping) :
    16 ≤ (batchId now mappings).length := by
  rw [← String.length_toList, toList_batchId, CalendarTime.toList_stamp (CalendarTime.isWritten h)]
  simp
  omega

/-- A batch can be saved under its name. -/
theorem isName_batchId (h : now < lastMoment) (mappings : List Mapping) :
    Path.IsName (batchId now mappings) := by
  constructor
  · rw [toList_batchId, CalendarTime.toList_stamp (CalendarTime.isWritten h), List.mem_append,
      List.mem_append, List.mem_cons, List.mem_cons]
    rintro ((hmem | hdash | hmem) | hdash | hmem)
    · exact slash_not_mem_lastDigits _ _ hmem
    · exact absurd hdash (by decide)
    · exact slash_not_mem_lastDigits _ _ hmem
    · exact absurd hdash (by decide)
    · exact (Sha256.isName_hex _).slash (List.mem_of_mem_take hmem)
  · exact Path.stepOf?_of_length (Nat.lt_of_lt_of_le (by decide) (length_batchId h mappings))

/-- The batch of a later second has the greater name. -/
theorem batchId_lt {earlier : Nat} (h : earlier < now) (hnow : now < lastMoment)
    (mappings mappings' : List Mapping) : batchId earlier mappings < batchId now mappings' := by
  have hstamp := CalendarTime.stamp_lt h hnow
  have hfirst := CalendarTime.isWritten (h.trans hnow)
  have hwritten := CalendarTime.isWritten hnow
  rw [String.lt_iff] at hstamp ⊢
  rw [toList_batchId, toList_batchId]
  refine Count.append_lt_append hstamp ?_ _ _
  rw [CalendarTime.toList_stamp hfirst, CalendarTime.toList_stamp hwritten]
  simp

end SymbolRename.Operation
