import SymbolRename.Decimal.Shortest

/-!
# JSON values and their compact text

Objects keep the order of their members. A number is a whole number as long as it
fits 64 bits, and a double otherwise.
-/

namespace SymbolRename

/-- A JSON number: whole when it fits 64 bits, else the bits of a double. -/
inductive JsonNumber
  | natural (n : Nat)
  /-- A whole number below zero. -/
  | negative (magnitude : Nat)
  | float (bits : UInt64)
deriving DecidableEq, Repr

/-- A JSON value. -/
inductive Json
  | null
  | bool (b : Bool)
  | number (n : JsonNumber)
  | string (s : String)
  | array (items : List Json)
  | object (members : List (String × Json))
deriving Repr, Inhabited

namespace JsonNumber

/-- The digits of a positive decimal with a point after the first of them. -/
def scientific (digits : List Char) : List Char :=
  match digits with
  | d :: e :: more => d :: '.' :: e :: more
  | _ => digits

/-- Positional from `1e-4` up to below `1e16`, else with an exponent and its sign. -/
def floatDigits (s : Decimal.Shortest) : List Char :=
  let digits := Nat.toDigits 10 s.digits
  if -4 ≤ s.exponent ∧ s.exponent < 16 then
    if s.exponent < 0 then
      '0' :: '.' :: (List.replicate (-s.exponent - 1).toNat '0' ++ digits)
    else
      let whole := s.exponent.toNat + 1
      if digits.length ≤ whole then
        digits ++ List.replicate (whole - digits.length) '0' ++ ['.', '0']
      else digits.take whole ++ '.' :: digits.drop whole
  else
    scientific digits ++ 'e' :: (if s.exponent < 0 then '-' else '+') ::
      Nat.toDigits 10 s.exponent.natAbs

/-- The text of a double: a whole one keeps `.0`, and zero keeps its sign. -/
def floatText (bits : UInt64) : String :=
  let sign := if bits >>> 63 == 1 then ['-'] else []
  let magnitude := bits &&& 0x7fffffffffffffff
  String.ofList (sign ++
    if magnitude == 0 then ['0', '.', '0']
    else floatDigits (Decimal.Interval.ofBits magnitude).shortest)

/-- The text of a number. -/
def render : JsonNumber → String
  | natural n => toString n
  | negative m => "-" ++ toString m
  | float bits => floatText bits

end JsonNumber

namespace Json

/-- A hexadecimal digit in small letters. -/
def hexDigit (n : Nat) : Char :=
  if n < 10 then Char.ofNat (48 + n) else Char.ofNat (87 + n)

/-- A character as it stands between the quotes of a JSON string. -/
def escapeChar (c : Char) : List Char :=
  if c = '"' then ['\\', '"']
  else if c = '\\' then ['\\', '\\']
  else if c = '\n' then ['\\', 'n']
  else if c = '\r' then ['\\', 'r']
  else if c = '\t' then ['\\', 't']
  else if c = '\x08' then ['\\', 'b']
  else if c = '\x0c' then ['\\', 'f']
  else if c.toNat < 32 then
    ['\\', 'u', '0', '0', hexDigit (c.toNat / 16), hexDigit (c.toNat % 16)]
  else [c]

/-- A text as a JSON string. -/
def quote (s : String) : List Char := '"' :: (s.toList.flatMap escapeChar ++ ['"'])

mutual

/-- The characters of a value's compact text. -/
def write : Json → List Char
  | null => ['n', 'u', 'l', 'l']
  | bool true => ['t', 'r', 'u', 'e']
  | bool false => ['f', 'a', 'l', 's', 'e']
  | number n => n.render.toList
  | string s => quote s
  | array items => '[' :: (writeItems items ++ [']'])
  | object members => '\x7b' :: (writeMembers members ++ ['\x7d'])

/-- Array items with commas between them. -/
def writeItems : List Json → List Char
  | [] => []
  | [item] => write item
  | item :: more => write item ++ ',' :: writeItems more

/-- Object members with commas between them. -/
def writeMembers : List (String × Json) → List Char
  | [] => []
  | [(key, item)] => quote key ++ ':' :: write item
  | (key, item) :: more => quote key ++ ':' :: (write item ++ ',' :: writeMembers more)

end

/-- The compact text of a value. -/
def render (v : Json) : String := String.ofList v.write

/-- Two blanks for each level. -/
def indent (level : Nat) : List Char := '\n' :: List.replicate (2 * level) ' '

mutual

/-- The characters of a value's indented text at a nesting level. -/
def writePretty (level : Nat) : Json → List Char
  | array [] => ['[', ']']
  | array items => '[' :: (writePrettyItems (level + 1) items ++ (indent level ++ [']']))
  | object [] => ['\x7b', '\x7d']
  | object members =>
    '\x7b' :: (writePrettyMembers (level + 1) members ++ (indent level ++ ['\x7d']))
  | v => write v

/-- Array items, each on its own line. -/
def writePrettyItems (level : Nat) : List Json → List Char
  | [] => []
  | [item] => indent level ++ writePretty level item
  | item :: more =>
    indent level ++ (writePretty level item ++ ',' :: writePrettyItems level more)

/-- Object members, each on its own line. -/
def writePrettyMembers (level : Nat) : List (String × Json) → List Char
  | [] => []
  | [(key, item)] => indent level ++ (quote key ++ ':' :: ' ' :: writePretty level item)
  | (key, item) :: more =>
    indent level ++ (quote key ++ ':' :: ' ' :: (writePretty level item ++
      ',' :: writePrettyMembers level more))

end

/-- The text of a value with two blanks for each level of nesting. -/
def pretty (v : Json) : String := String.ofList (v.writePretty 0)

end Json

end SymbolRename
