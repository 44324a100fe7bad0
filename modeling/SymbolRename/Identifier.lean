import SymbolRename.Text.Bytes

/-!
# Identifiers

Two notions of name. A *word* in a file is a maximal run of identifier bytes,
where every byte of a non-ASCII character counts. A *valid identifier*, which a
rename may read or write, is ASCII and does not begin with a digit.
-/

namespace SymbolRename

/-- A byte that belongs to words: letters, digits, `_`, `$` and all of non-ASCII. -/
def isIdentifierByte (b : UInt8) : Bool :=
  Bytes.isLetter b || Bytes.isDigit b || b == 0x5f || b == 0x24 || 0x80 ≤ b

/-- A byte that may begin a valid identifier. -/
def isIdentifierStart (b : UInt8) : Bool := Bytes.isLetter b || b == 0x5f || b == 0x24

/-- A byte that may continue a valid identifier. -/
def isIdentifierRest (b : UInt8) : Bool := isIdentifierStart b || Bytes.isDigit b

/-- The bytes of a valid identifier. -/
def isIdentifierBytes : Bytes → Bool
  | [] => false
  | b :: rest => isIdentifierStart b && rest.all isIdentifierRest

/-- A name that may be renamed or renamed to. -/
def isValidIdentifier (name : String) : Bool := isIdentifierBytes (bytes name)

theorem isIdentifierByte_of_rest {b : UInt8} (h : isIdentifierRest b = true) :
    isIdentifierByte b = true := by
  simp only [isIdentifierRest, isIdentifierStart, isIdentifierByte, Bool.or_eq_true] at *
  rcases h with ((h | h) | h) | h <;> simp [h]

/-- A valid identifier is made of identifier bytes. -/
theorem all_isIdentifierByte {b : Bytes} (h : isIdentifierBytes b = true) :
    ∀ x ∈ b, isIdentifierByte x = true := by
  cases b with
  | nil => simp
  | cons c rest =>
    simp only [isIdentifierBytes, Bool.and_eq_true, List.all_eq_true] at h
    intro x hx
    rcases List.mem_cons.mp hx with rfl | hx
    · exact isIdentifierByte_of_rest (by simp [isIdentifierRest, h.1])
    · exact isIdentifierByte_of_rest (h.2 x hx)

end SymbolRename
