import SymbolRename.Text.Blank
import SymbolRename.Text.Width

/-!
# Literals in messages

A text in a message stands between double quotes, with an escape for each character
that would not show by itself.
-/

namespace SymbolRename.Text

/-- A vowel or final consonant of a Korean syllable block. It takes no column of its
own, but shows. -/
def isJamo (c : Char) : Bool :=
  let n := c.toNat
  (0x1160 ≤ n && n ≤ 0x11ff) || (0xd7b0 ≤ n && n ≤ 0xd7fb)

/-- A character whose meaning is left to private agreement. -/
def isPrivate (c : Char) : Bool :=
  let n := c.toNat
  (0xe000 ≤ n && n ≤ 0xf8ff) || 0xf0000 ≤ n

/-- The character shows by itself. -/
def isVisible (c : Char) : Bool :=
  if c.toNat < 0xa0 then 0x20 ≤ c.toNat && c.toNat < 0x7f
  else !isBlank c && !isPrivate c && (charWidth c != 0 || isJamo c)

/-- A character of a literal. -/
def literalChar (c : Char) : List Char :=
  match c with
  | '\x00' => ['\\', '0']
  | '\t' => ['\\', 't']
  | '\n' => ['\\', 'n']
  | '\r' => ['\\', 'r']
  | '"' => ['\\', '"']
  | '\\' => ['\\', '\\']
  | _ =>
    if isVisible c then [c]
    else ['\\', 'u', '\x7b'] ++ Nat.toDigits 16 c.toNat ++ ['\x7d']

/-- A text as a literal. -/
def literal (s : String) : String :=
  String.ofList ('"' :: (s.toList.flatMap literalChar ++ ['"']))

example : literal "a\"\n\x01" = "\"a\\\"\\n\\u\x7b1\x7d\"" := by decide +kernel

end SymbolRename.Text
