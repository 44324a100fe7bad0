import SymbolRename.Fault
import SymbolRename.Identifier

/-!
# Rename mappings

A mapping renames one name to another. A mapping set is accepted by `validate` when
it is not empty, all its names are valid identifiers and none is renamed to itself.
-/

namespace SymbolRename

/-- One name and the name that replaces it. -/
structure Mapping where
  old : String
  new : String
deriving DecidableEq, Repr

namespace Mapping

/-- The mapping as shown to people. -/
def display (m : Mapping) : String := s!"{m.old} -> {m.new}"

/-- The first fault of the mapping with this number. -/
def fault? (number : Nat) (m : Mapping) : Option InputFault :=
  if !isValidIdentifier m.old then some (.mappingName number m.old m.new m.old)
  else if !isValidIdentifier m.new then some (.mappingName number m.old m.new m.new)
  else if m.old = m.new then some (.mappingToItself number m.old)
  else none

/-- The first fault of a list of mappings that are numbered from `number` on. -/
def firstFault? (number : Nat) : List Mapping → Option InputFault
  | [] => none
  | m :: rest => (m.fault? number).or (firstFault? (number + 1) rest)

/-- A mapping set needs a mapping, and each mapping two different identifiers. -/
def validate (mappings : List Mapping) : Except InputFault Unit :=
  if mappings.isEmpty then .error .noMappings
  else match firstFault? 1 mappings with
    | some fault => .error fault
    | none => .ok ()

/-- The mapping renames one identifier to another. -/
def IsProper (m : Mapping) : Prop :=
  isValidIdentifier m.old = true ∧ isValidIdentifier m.new = true ∧ m.old ≠ m.new

theorem fault?_eq_none_iff {number : Nat} {m : Mapping} :
    m.fault? number = none ↔ m.IsProper := by
  unfold fault? IsProper
  cases isValidIdentifier m.old <;> cases isValidIdentifier m.new <;> by_cases h : m.old = m.new <;>
    simp [h]

theorem firstFault?_eq_none_iff {number : Nat} {mappings : List Mapping} :
    firstFault? number mappings = none ↔ ∀ m ∈ mappings, m.IsProper := by
  induction mappings generalizing number with
  | nil => simp [firstFault?]
  | cons m rest ih => simp [firstFault?, Option.or_eq_none_iff, fault?_eq_none_iff, ih]

/-- Exactly the nonempty lists of proper mappings are accepted. -/
theorem validate_eq_ok_iff {mappings : List Mapping} :
    validate mappings = .ok () ↔ mappings ≠ [] ∧ ∀ m ∈ mappings, m.IsProper := by
  unfold validate
  cases mappings with
  | nil => simp
  | cons m rest =>
    simp only [List.isEmpty_cons, Bool.false_eq_true, if_false, ne_eq, reduceCtorEq,
      not_false_eq_true, true_and, ← @firstFault?_eq_none_iff 1]
    cases firstFault? 1 (m :: rest) <;> simp

/-- A single rename needs two different valid identifiers. -/
def validateNames (old new : String) : Except InputFault Unit :=
  if !isValidIdentifier old then .error (.notIdentifier old)
  else if !isValidIdentifier new then .error (.notIdentifier new)
  else if old = new then .error (.sameNames old)
  else .ok ()

theorem validateNames_eq_ok_iff {old new : String} :
    validateNames old new = .ok () ↔ Mapping.IsProper ⟨old, new⟩ := by
  unfold validateNames IsProper
  cases isValidIdentifier old <;> cases isValidIdentifier new <;> by_cases h : old = new <;>
    simp [h]

end Mapping

end SymbolRename
