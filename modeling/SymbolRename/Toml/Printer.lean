import SymbolRename.Toml

/-!
# Printing TOML

A string is written in the plainest of four ways that can hold it: between double
quotes without any escapes if possible, then between single quotes, then on several
lines, and with escapes as the last resort.
-/

namespace SymbolRename.Toml

/-- The length of the longest run of a character. -/
def longestRun (c : Char) (cs : List Char) : Nat :=
  go 0 0 cs
where
  /-- `run` is the current run's length and `best` the longest so far. -/
  go (run best : Nat) : List Char → Nat
    | [] => max run best
    | d :: rest => if d = c then go (run + 1) best rest else go 0 (max run best) rest

/-- A control character that only an escape can stand for. -/
def needsCode (c : Char) : Bool :=
  c != '\t' && c != '\n' && (c.toNat < 0x20 || c.toNat == 0x7f)

/-- A digit of a character's number in an escape. -/
def codeDigit (n : Nat) : Char := if n < 10 then Char.ofNat (48 + n) else Char.ofNat (55 + n)

/-- The escape of a control character. -/
def codeOf (c : Char) : List Char :=
  match c with
  | '\x08' => "\\b".toList
  | '\t' => "\\t".toList
  | '\n' => "\\n".toList
  | '\x0c' => "\\f".toList
  | '\r' => "\\r".toList
  | _ => "\\u00".toList ++ [codeDigit (c.toNat / 16), codeDigit (c.toNat % 16)]

/-- The text between double quotes. `allowed` quotes in a row need no escape, and
`quotes` of them came just before. -/
def escaped (isLong : Bool) (allowed : Nat) (quotes : Nat) : List Char → List Char
  | [] => []
  | c :: rest =>
    if c = '"' then
      if quotes < allowed then '"' :: escaped isLong allowed (quotes + 1) rest
      else '\\' :: '"' :: escaped isLong allowed 0 rest
    else if c = '\\' then '\\' :: '\\' :: escaped isLong allowed 0 rest
    else if (c = '\n' ∧ isLong = true) ∨ (c ≠ '\t' ∧ c ≠ '\n' ∧ needsCode c = false) then
      c :: escaped isLong allowed 0 rest
    else codeOf c ++ escaped isLong allowed 0 rest

/-- The text of a string. -/
def quoted (s : String) : String :=
  let cs := s.toList
  let hasCodes := cs.any needsCode
  let hasBackslash := cs.contains '\\'
  let hasNewline := cs.contains '\n'
  let start := if hasNewline then ['\n'] else []
  let basic := ['"'] ++ escaped false 0 0 cs ++ ['"']
  let longBasic := "\"\"\"".toList ++ start ++ escaped true 2 0 cs ++ "\"\"\"".toList
  String.ofList <|
    if !hasCodes && !hasBackslash && !hasNewline && !cs.contains '"' then basic
    else if !hasCodes && !hasNewline && !cs.contains '\x27' then ['\x27'] ++ cs ++ ['\x27']
    else if !hasCodes && !hasBackslash && longestRun '"' cs ≤ 2 then longBasic
    else if !hasCodes && longestRun '\x27' cs ≤ 2 then
      "'''".toList ++ start ++ cs ++ "'''".toList
    else if hasNewline then longBasic
    else basic

/-- A list of strings: on one line up to one item, else an item on each line. -/
def quotedList (items : List String) : String :=
  match items with
  | [] => "[]"
  | [s] => "[" ++ quoted s ++ "]"
  | _ => "[\n" ++ String.join (items.map fun s => "    " ++ quoted s ++ ",\n") ++ "]"

/-- A statement that gives a key its value. -/
def line (key value : String) : String := s!"{key} = {value}\n"

end SymbolRename.Toml
