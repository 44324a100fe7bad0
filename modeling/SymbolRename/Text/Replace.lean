/-!
# Replacing text

Every occurrence of a mark, from the left and without overlaps, becomes another text.
-/

namespace SymbolRename.Text

/-- Reads on; `skip` characters belong to the last occurrence. -/
def replaceFrom (mark new : List Char) (skip : Nat) : List Char → List Char
  | [] => []
  | c :: rest =>
    if 0 < skip then replaceFrom mark new (skip - 1) rest
    else if mark.isPrefixOf (c :: rest) then new ++ replaceFrom mark new (mark.length - 1) rest
    else c :: replaceFrom mark new 0 rest

/-- The text with each occurrence of a mark, which is not empty, replaced. -/
def replace (mark new s : String) : String :=
  String.ofList (replaceFrom mark.toList new.toList 0 s.toList)

/-- The mark occurs in the text. -/
def occursIn (mark : List Char) : List Char → Bool
  | [] => mark.isEmpty
  | c :: rest => mark.isPrefixOf (c :: rest) || occursIn mark rest

/-- A text without the mark stays as it is. -/
theorem replaceFrom_of_not_occursIn {mark new : List Char} {cs : List Char}
    (h : occursIn mark cs = false) : replaceFrom mark new 0 cs = cs := by
  induction cs with
  | nil => rfl
  | cons c rest ih =>
    simp only [occursIn, Bool.or_eq_false_iff] at h
    simp [replaceFrom, h.1, ih h.2]

end SymbolRename.Text
