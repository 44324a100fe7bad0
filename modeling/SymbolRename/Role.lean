import SymbolRename.Capture

/-!
# Roles

A role is what a report says about a renamed use. It never decides whether the use
is renamed.
-/

namespace SymbolRename

/-- The part that a renamed use plays. -/
inductive Role
  | definition
  | reference
  | importUse
  | exportUse
  | parameter
deriving DecidableEq, Repr

namespace Role

/-- The word that names the role in every output. -/
def word : Role → String
  | definition => "definition"
  | reference => "reference"
  | importUse => "import"
  | exportUse => "export"
  | parameter => "parameter"

/-- The role of a kind of use; excluded kinds have none. -/
def ofKind? : CaptureKind → Option Role
  | .definition => some .definition
  | .reference | .typeReference => some .reference
  | .importUse => some .importUse
  | .exportUse => some .exportUse
  | .parameter => some .parameter
  | .stringLiteral | .comment => none

/-- The role of a use that is known not to be excluded. -/
def ofKind (kind : CaptureKind) : Role := (ofKind? kind).getD .reference

theorem ofKind?_eq_none_iff {kind : CaptureKind} :
    ofKind? kind = none ↔ kind.isExcluded = true := by
  cases kind <;> decide

end Role

/-- How many uses play each role. -/
structure RoleCounts where
  definitions : Nat := 0
  references : Nat := 0
  imports : Nat := 0
  exports : Nat := 0
  parameters : Nat := 0
deriving DecidableEq, Repr

namespace RoleCounts

/-- One more use of a role. -/
def add (c : RoleCounts) : Role → RoleCounts
  | .definition => { c with definitions := c.definitions + 1 }
  | .reference => { c with references := c.references + 1 }
  | .importUse => { c with imports := c.imports + 1 }
  | .exportUse => { c with exports := c.exports + 1 }
  | .parameter => { c with parameters := c.parameters + 1 }

/-- The uses counted under any role. -/
def total (c : RoleCounts) : Nat :=
  c.definitions + c.references + c.imports + c.exports + c.parameters

/-- Counts a list of roles. -/
def ofRoles (roles : List Role) : RoleCounts := roles.foldl add {}

@[simp] theorem total_add (c : RoleCounts) (r : Role) : (c.add r).total = c.total + 1 := by
  cases r <;> simp only [add, total] <;> omega

/-- Every role is counted once. -/
@[simp] theorem total_ofRoles (roles : List Role) : (ofRoles roles).total = roles.length := by
  suffices h : ∀ c : RoleCounts, (roles.foldl add c).total = c.total + roles.length by
    simpa [ofRoles, total] using h {}
  induction roles with
  | nil => simp
  | cons r rest ih =>
    intro c
    simp only [List.foldl_cons, ih, total_add, List.length_cons]
    omega

end RoleCounts

end SymbolRename
