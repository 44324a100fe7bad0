import SymbolRename.Mapping
import SymbolRename.Proofs.Dialect.Spelling
import SymbolRename.Proofs.Json.Layout

/-!
# Spellings of a mapping set

How a mapping set may be written: on lines, each with any of the three signs between its names, and
with blanks, comments and silent lines; as a JSON array of objects; or as a JSON object from old to
new names. JSON may have blanks anywhere.
-/

namespace SymbolRename.Mapping

open Dialect (Blanks Gap)

/-! ### Lines -/

/-- What stands between the names of a line. -/
inductive Sign
  | equals (before after : Blanks)
  | arrow (before after : Blanks)
  | gap (blanks : Gap)

def Sign.print : Sign → List Char
  | equals before after => before.1 ++ '=' :: after.1
  | arrow before after => before.1 ++ '-' :: '>' :: after.1
  | gap blanks => blanks.1

/-- A comment reaches to the end of its line. -/
def comment (text : Option (List Char)) : List Char := text.elim [] ('#' :: ·)

/-- What a line with a mapping is free in. -/
structure LineSpelling where
  lead : Blanks
  sign : Sign
  trail : Blanks
  comment : Option (List Char)

/-- The names of a line and what stands between them. -/
def LineSpelling.names (s : LineSpelling) (m : Mapping) : List Char :=
  m.old.toList ++ (s.sign.print ++ m.new.toList)

def LineSpelling.print (s : LineSpelling) (m : Mapping) : List Char :=
  s.lead.1 ++ (s.names m ++ s.trail.1) ++ Mapping.comment s.comment

/-- The line writes the mapping; without one it is blank up to a comment. -/
def WritesLine (line : List Char) : Option Mapping → Prop
  | some m => ∃ s : LineSpelling, line = s.print m
  | none => ∃ (blanks : Blanks) (text : Option (List Char)), line = blanks.1 ++ comment text

/-- What stands before the line feed of a line. -/
def ending (crlf : Bool) : List Char := if crlf then ['\r'] else []

/-- The lines of the text write the mappings in order. Each line ends in its own way, and the last
one may have no end. -/
inductive WritesText : List Mapping → List Char → Prop
  | last {line : List Char} {found : Option Mapping} (h : WritesLine line found)
      (hline : '\n' ∉ line) : WritesText found.toList line
  | line {line : List Char} {found : Option Mapping} {ms : List Mapping} {text : List Char}
      (h : WritesLine line found) (hline : '\n' ∉ line) (crlf : Bool) (hmore : WritesText ms text) :
      WritesText (found.toList ++ ms) (line ++ ending crlf ++ '\n' :: text)

/-! ### JSON -/

/-- The members of a mapping in an array, in any order. -/
def IsEntry (m : Mapping) (members : List (String × String)) : Prop :=
  members = [("old", m.old), ("new", m.new)] ∨ members = [("new", m.new), ("old", m.old)]

/-- The text writes the mappings as an array of objects. -/
def WritesArray (ms : List Mapping) (text : List Char) : Prop :=
  ∃ entries, List.Forall₂ IsEntry ms entries ∧
    ∃ (before : Blanks) (list : List Char) (after : Json.Blanks),
      Json.SpellsList Json.SpellsObject entries list ∧ text = before.1 ++ (list ++ after.1)

/-- The text writes the mappings as an object from old to new names. -/
def WritesObject (ms : List Mapping) (text : List Char) : Prop :=
  ∃ (before : Blanks) (object : List Char) (after : Json.Blanks),
    Json.SpellsObject (ms.map fun m => (m.old, m.new)) object ∧ text = before.1 ++ (object ++ after.1)

end SymbolRename.Mapping
