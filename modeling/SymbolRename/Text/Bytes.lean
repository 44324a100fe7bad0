/-!
# Byte sequences

File contents and names are compared as bytes. A text is turned into its UTF-8
bytes by `bytes`; `startsWith` and `contains` are the two searches that the
lexer and the candidate filter need.
-/

namespace SymbolRename

/-- A finite sequence of bytes, such as the content of a file. -/
abbrev Bytes := List UInt8

/-- The UTF-8 bytes of a text. -/
def bytes (s : String) : Bytes := s.toUTF8.data.toList

namespace Bytes

/-- The sequence begins with the bytes of `head`. -/
def startsWith (b : Bytes) (head : Bytes) : Bool := head.isPrefixOf b

/-- The needle stands somewhere in the sequence; the empty needle always does. -/
def contains (needle : Bytes) : Bytes → Bool
  | [] => needle.isEmpty
  | b :: rest => startsWith (b :: rest) needle || contains needle rest

/-- The five blank bytes: space, tab, line feed, form feed and carriage return. -/
def isBlank (b : UInt8) : Bool :=
  b == 0x20 || b == 0x09 || b == 0x0a || b == 0x0c || b == 0x0d

/-- The line feed byte. -/
def newline : UInt8 := 0x0a

/-- An ASCII letter of either case. -/
def isLetter (b : UInt8) : Bool :=
  (0x41 ≤ b && b ≤ 0x5a) || (0x61 ≤ b && b ≤ 0x7a)

/-- An ASCII decimal digit. -/
def isDigit (b : UInt8) : Bool := 0x30 ≤ b && b ≤ 0x39

/-- An ASCII capital becomes its small letter; other bytes stay. -/
def toLower (b : UInt8) : UInt8 := if 0x41 ≤ b && b ≤ 0x5a then b + 0x20 else b

@[simp] theorem startsWith_nil (b : Bytes) : startsWith b [] = true := by
  cases b <;> rfl

theorem startsWith_iff {b head : Bytes} : startsWith b head = true ↔ ∃ t, b = head ++ t := by
  rw [startsWith, List.isPrefixOf_iff_prefix]
  exact ⟨fun ⟨t, h⟩ => ⟨t, h.symm⟩, fun ⟨t, h⟩ => ⟨t, h.symm⟩⟩

/-- A search succeeds exactly when the sequence splits around the needle. -/
theorem contains_iff {needle b : Bytes} :
    contains needle b = true ↔ ∃ u v, b = u ++ needle ++ v := by
  induction b with
  | nil =>
    simp only [contains, List.isEmpty_iff]
    constructor
    · rintro rfl
      exact ⟨[], [], rfl⟩
    · rintro ⟨u, v, h⟩
      have := congrArg List.length h
      simp only [List.length_append, List.length_nil] at this
      exact List.length_eq_zero_iff.mp (by omega)
  | cons c rest ih =>
    simp only [contains, Bool.or_eq_true, startsWith_iff, ih]
    constructor
    · rintro (⟨t, h⟩ | ⟨u, v, h⟩)
      · exact ⟨[], t, by simpa using h⟩
      · exact ⟨c :: u, v, by simp [h]⟩
    · rintro ⟨u, v, h⟩
      cases u with
      | nil => exact .inl ⟨v, by simpa using h⟩
      | cons d u =>
        simp only [List.cons_append, List.cons.injEq] at h
        exact .inr ⟨u, v, h.2⟩

end Bytes

end SymbolRename
