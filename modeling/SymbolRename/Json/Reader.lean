import SymbolRename.Json.Value
import SymbolRename.Text.Number

/-!
# Reading JSON

`Json.parse` reads one value that fills a text, apart from blanks. A text that is
no JSON is refused with the problem and the line and column where it showed:
either just after the last character read, or one further when the problem is the
character that comes next.
-/

namespace SymbolRename.Json

/-- What is wrong with a JSON text, or with a value of an unexpected shape. -/
inductive Problem
  | eofInList
  | eofInObject
  | eofInString
  | eofInValue
  | expectedColon
  | expectedListCommaOrEnd
  | expectedObjectCommaOrEnd
  | expectedIdent
  | expectedValue
  | invalidEscape
  | invalidNumber
  | numberOutOfRange
  | controlCharacter
  | keyMustBeString
  | loneSurrogate
  | trailingComma
  | trailingCharacters
  | unexpectedEndOfEscape
  | recursionLimit
  /-- A value of one sort stands where another was wanted. -/
  | wrongType (found expected : String)
  | wrongLength (found : Nat) (expected : String)
  | missingField (name : String)
  | duplicateField (name : String)
deriving DecidableEq, Repr

/-- The wording of a problem. -/
def Problem.message : Problem → String
  | eofInList => "EOF while parsing a list"
  | eofInObject => "EOF while parsing an object"
  | eofInString => "EOF while parsing a string"
  | eofInValue => "EOF while parsing a value"
  | expectedColon => "expected `:`"
  | expectedListCommaOrEnd => "expected `,` or `]`"
  | expectedObjectCommaOrEnd => "expected `,` or `\x7d`"
  | expectedIdent => "expected ident"
  | expectedValue => "expected value"
  | invalidEscape => "invalid escape"
  | invalidNumber => "invalid number"
  | numberOutOfRange => "number out of range"
  | controlCharacter => "control character (\\u0000-\\u001F) found while parsing a string"
  | keyMustBeString => "key must be a string"
  | loneSurrogate => "lone leading surrogate in hex escape"
  | trailingComma => "trailing comma"
  | trailingCharacters => "trailing characters"
  | unexpectedEndOfEscape => "unexpected end of hex escape"
  | recursionLimit => "recursion limit exceeded"
  | wrongType found expected => s!"invalid type: {found}, expected {expected}"
  | wrongLength found expected => s!"invalid length {found}, expected {expected}"
  | missingField name => s!"missing field `{name}`"
  | duplicateField name => s!"duplicate field `{name}`"

/-- A problem and the line and column at which it showed, if it is one of a text. -/
structure Fault where
  problem : Problem
  position : Option (Nat × Nat)
deriving DecidableEq, Repr

/-- The wording of a fault, its position included. -/
def Fault.message (f : Fault) : String :=
  match f.position with
  | none => f.problem.message
  | some (line, column) => s!"{f.problem.message} at line {line} column {column}"

/-- What is left to read and how many bytes were read. -/
structure Cursor where
  rest : List Char
  index : Nat
deriving DecidableEq, Repr

/-- A problem at a byte offset; without one it has not been placed yet. -/
structure Located where
  problem : Problem
  offset : Option Nat
deriving DecidableEq, Repr

/-- A reader moves a cursor and may stop at a problem. -/
abbrev Reader := EStateM Located Cursor

namespace Reader

/-- Stops at what was read last. -/
def failHere {α : Type} (p : Problem) : Reader α := do
  throw ⟨p, some (← get).index⟩

/-- Stops at the character that comes next. -/
def failNext {α : Type} (p : Problem) : Reader α := do
  let c ← get
  throw ⟨p, some (if c.rest.isEmpty then c.index else c.index + 1)⟩

/-- The character that comes next. -/
def peek? : Reader (Option Char) := do
  return (← get).rest.head?

/-- Takes the character that comes next. -/
def next? : Reader (Option Char) := do
  match (← get).rest with
  | [] => return none
  | c :: rest =>
    modify fun s => ⟨rest, s.index + c.utf8Size⟩
    return some c

/-- Passes over the character that comes next. -/
def skip : Reader Unit := do
  let _ ← next?

/-- The four blanks of JSON. -/
def isBlank (c : Char) : Bool := c == ' ' || c == '\n' || c == '\t' || c == '\r'

/-- Passes over blanks; the answer is the character that comes next. -/
def peekSolid? : Reader (Option Char) := do
  modify fun s =>
    let blanks := s.rest.takeWhile isBlank
    ⟨s.rest.drop blanks.length, s.index + blanks.length⟩
  peek?

/-- Takes the rest of a word such as `null`. -/
def literal : List Char → Reader Unit
  | [] => pure ()
  | c :: more => do
    match ← next? with
    | none => failHere .eofInValue
    | some d => if d = c then literal more else failHere .expectedIdent

/-- Takes decimal digits that continue `value`, stopping before the digit that
would exceed 64 bits; the answer counts the digits and tells of such a stop. -/
def digits (value : Nat) : Reader (Nat × Nat × Bool) := do
  let s ← get
  let run := s.rest.takeWhile Char.isDigit
  let rec go (value count : Nat) : List Char → Nat × Nat × Bool
    | [] => (value, count, false)
    | c :: more =>
      let value' := value * 10 + (c.toNat - 48)
      if value' < Count.limit then go value' (count + 1) more else (value, count, true)
  let found := go value 0 run
  set (⟨s.rest.drop found.2.1, s.index + found.2.1⟩ : Cursor)
  return found

/-- Passes over decimal digits and counts them. -/
def skipDigits : Reader Nat := do
  let s ← get
  let count := (s.rest.takeWhile Char.isDigit).length
  set (⟨s.rest.drop count, s.index + count⟩ : Cursor)
  return count

/-- The double reached from `f` by one multiplication or division by a power of
ten; an exponent below the table of powers is met by dividing by `1e308` first.
There is none when the number is too large. -/
def scale? : Nat → Float → Int → Option Float
  | 0, f, _ => some f
  | fuel + 1, f, exponent =>
    if exponent.natAbs ≤ 308 then
      let power := Float.ofScientific 1 false exponent.natAbs
      if 0 ≤ exponent then (if (f * power).isInf then none else some (f * power))
      else some (f / power)
    else if f == 0.0 then some f
    else if 0 ≤ exponent then none
    else scale? fuel (f / 1e308) (exponent + 308)

/-- The double `significand * 10 ^ exponent`. -/
def double (positive : Bool) (significand : Nat) (exponent : Int) : Reader JsonNumber := do
  match scale? 8 (Float.ofNat significand) exponent with
  | none => failHere .numberOutOfRange
  | some f => return .float (if positive then f else -f).toBits

/-- The largest exponent that is kept apart. -/
def exponentLimit : Int := 2147483647

/-- Reads the exponent of a double, from its letter on. -/
def exponent (positive : Bool) (significand : Nat) (start : Int) : Reader JsonNumber := do
  skip
  let up ← (do
    match ← peek? with
    | some '+' => skip; return true
    | some '-' => skip; return false
    | _ => return true : Reader Bool)
  match ← next? with
  | none => failHere .eofInValue
  | some c =>
    if !c.isDigit then failHere .invalidNumber
    else
      let s ← get
      let rec go (value : Int) (count : Nat) : List Char → Int × Nat × Bool
        | [] => (value, count, false)
        | c :: more =>
          let value' := value * 10 + (c.toNat - 48 : Nat)
          if value' ≤ exponentLimit then go value' (count + 1) more
          else (value, count + 1, true)
      let (value, count, tooLarge) :=
        go (c.toNat - 48 : Nat) 0 (s.rest.takeWhile Char.isDigit)
      set (⟨s.rest.drop count, s.index + count⟩ : Cursor)
      if tooLarge then
        if significand ≠ 0 ∧ up then failHere .numberOutOfRange
        else
          let _ ← skipDigits
          return .float (if positive then (0.0 : Float) else -0.0).toBits
      else
        let total := if up then start + value else start - value
        double positive significand (max (-exponentLimit - 1) (min exponentLimit total))

/-- Reads the exponent if there is one, else finishes the double. -/
def finishDouble (positive : Bool) (significand : Nat) (power : Int) : Reader JsonNumber := do
  match ← peek? with
  | some 'e' | some 'E' => exponent positive significand power
  | _ => double positive significand power

/-- Reads the fraction of a double, from its point on. -/
def fraction (positive : Bool) (significand : Nat) (start : Int) : Reader JsonNumber := do
  skip
  let (value, count, full) ← digits significand
  if full then
    let _ ← skipDigits
    finishDouble positive value (start - count)
  else if count = 0 then
    failNext (if (← peek?).isSome then .invalidNumber else .eofInValue)
  else finishDouble positive value (start - count)

/-- Finishes a number after the digits before its point. -/
def finishNumber (positive : Bool) (significand : Nat) : Reader JsonNumber := do
  match ← peek? with
  | some '.' => fraction positive significand 0
  | some 'e' | some 'E' => exponent positive significand 0
  | _ =>
    if positive then return .natural significand
    else if significand = 0 ∨ Nat.pow 2 63 < significand then
      return .float (-(Float.ofNat significand)).toBits
    else return .negative significand

/-- Finishes a number with more digits than 64 bits hold. -/
def finishLong (positive : Bool) (significand : Nat) : Reader JsonNumber := do
  let dropped ← skipDigits
  match ← peek? with
  | some '.' => fraction positive significand dropped
  | _ => finishDouble positive significand dropped

/-- Reads a number whose sign was taken already. -/
def number (positive : Bool) : Reader JsonNumber := do
  match ← next? with
  | none => failHere .eofInValue
  | some c =>
    if c = '0' then
      if (← peek?).any Char.isDigit then failNext .invalidNumber
      else finishNumber positive 0
    else if c.isDigit then
      let (value, _, full) ← digits (c.toNat - 48)
      if full then finishLong positive value else finishNumber positive value
    else failHere .invalidNumber

/-- The value of a hexadecimal digit of either case. -/
def hexValue? (c : Char) : Option Nat :=
  if '0' ≤ c ∧ c ≤ '9' then some (c.toNat - 48)
  else if 'a' ≤ c ∧ c ≤ 'f' then some (c.toNat - 87)
  else if 'A' ≤ c ∧ c ≤ 'F' then some (c.toNat - 55)
  else none

/-- Takes the four digits of a hexadecimal escape, counted in bytes. -/
def hexEscape : Reader Nat := do
  let s ← get
  let remaining := Count.total (s.rest.map Char.utf8Size)
  if remaining < 4 then
    set (⟨[], s.index + remaining⟩ : Cursor)
    failHere .eofInString
  else
    match (s.rest.take 4).mapM hexValue? with
    | some values =>
      set (⟨s.rest.drop 4, s.index + 4⟩ : Cursor)
      return values.foldl (fun n d => n * 16 + d) 0
    | none => throw ⟨.invalidEscape, some (s.index + 4)⟩

/-- The next character must be `c`, the second half of a surrogate pair's opening. -/
def pairMark (c : Char) : Reader Unit := do
  match ← next? with
  | none => failHere .eofInString
  | some d => if d = c then pure () else failHere .unexpectedEndOfEscape

/-- Reads the character of a `\u` escape; a leading surrogate needs its partner. -/
def unicodeEscape : Reader Char := do
  let n ← hexEscape
  if 0xdc00 ≤ n ∧ n ≤ 0xdfff then failHere .loneSurrogate
  else if n < 0xd800 ∨ 0xdbff < n then return Char.ofNat n
  else
    pairMark '\\'
    pairMark 'u'
    let m ← hexEscape
    if m < 0xdc00 ∨ 0xdfff < m then failHere .loneSurrogate
    else return Char.ofNat ((n - 0xd800) * 0x400 + (m - 0xdc00) + 0x10000)

/-- Reads the character of an escape, after its backslash. -/
def escape : Reader Char := do
  match ← next? with
  | none => failHere .eofInString
  | some '"' => return '"'
  | some '\\' => return '\\'
  | some '/' => return '/'
  | some 'b' => return '\x08'
  | some 'f' => return '\x0c'
  | some 'n' => return '\n'
  | some 'r' => return '\r'
  | some 't' => return '\t'
  | some 'u' => unicodeEscape
  | some _ => failHere .invalidEscape

/-- Reads the rest of a string, after its opening quote; `read` is reversed. -/
def stringRest : Nat → List Char → Reader String
  | 0, _ => failHere .eofInString
  | fuel + 1, read => do
    match ← next? with
    | none => failHere .eofInString
    | some '"' => return String.ofList read.reverse
    | some '\\' => do stringRest fuel ((← escape) :: read)
    | some c =>
      if c.toNat < 32 then failHere .controlCharacter else stringRest fuel (c :: read)

/-- Reads a string from its opening quote on. -/
def string : Reader String := do
  skip
  stringRest ((← get).rest.length + 1) []

/-- A further item follows: the first one, or one after a comma. -/
def moreItems (first : Bool) : Reader Bool := do
  match ← peekSolid? with
  | none => failNext .eofInList
  | some ']' => return false
  | some c =>
    if first then return true
    else if c = ',' then
      skip
      match ← peekSolid? with
      | none => failNext .eofInValue
      | some ']' => failNext .trailingComma
      | some _ => return true
    else failNext .expectedListCommaOrEnd

/-- A further key follows: the first one, or one after a comma. -/
def moreKeys (first : Bool) : Reader Bool := do
  match ← peekSolid? with
  | none => failNext .eofInObject
  | some '\x7d' => return false
  | some c =>
    if first then
      if c = '"' then return true else failNext .keyMustBeString
    else if c = ',' then
      skip
      match ← peekSolid? with
      | none => failNext .eofInValue
      | some '"' => return true
      | some '\x7d' => failNext .trailingComma
      | some _ => failNext .keyMustBeString
    else failNext .expectedObjectCommaOrEnd

/-- Takes the colon between a key and its value. -/
def colon : Reader Unit := do
  match ← peekSolid? with
  | none => failNext .eofInObject
  | some ':' => skip
  | some _ => failNext .expectedColon

/-- Takes the bracket that ends a list of a fixed number of items. -/
def endList : Reader Unit := do
  match ← peekSolid? with
  | none => failNext .eofInList
  | some ']' => skip
  | some ',' =>
    skip
    match ← peekSolid? with
    | some ']' => failNext .trailingComma
    | _ => failNext .trailingCharacters
  | some _ => failNext .trailingCharacters

/-- Takes the brace that ends an object whose keys were all read. -/
def endObject : Reader Unit := do
  match ← peekSolid? with
  | none => failNext .eofInObject
  | some '\x7d' => skip
  | some ',' => failNext .trailingComma
  | some _ => failNext .trailingCharacters

/-- Sets a member; a key that is there already keeps its place. -/
def setMember (members : List (String × Json)) (key : String) (v : Json) :
    List (String × Json) :=
  if members.any (·.1 == key) then members.map fun m => if m.1 == key then (key, v) else m
  else members ++ [(key, v)]

mutual

/-- Reads a value; `depth` levels of nesting are still allowed. -/
def value : Nat → Nat → Reader Json
  | 0, _ => failNext .expectedValue
  | fuel + 1, depth => do
    match ← peekSolid? with
    | none => failNext .eofInValue
    | some 'n' => do skip; literal ['u', 'l', 'l']; return .null
    | some 't' => do skip; literal ['r', 'u', 'e']; return .bool true
    | some 'f' => do skip; literal ['a', 'l', 's', 'e']; return .bool false
    | some '-' => do skip; return .number (← number false)
    | some '"' => return .string (← string)
    | some '[' =>
      if depth ≤ 1 then failNext .recursionLimit
      else do
        skip
        let found ← items fuel (depth - 1) true
        skip
        return .array found
    | some '\x7b' =>
      if depth ≤ 1 then failNext .recursionLimit
      else do
        skip
        let found ← members fuel (depth - 1) true []
        skip
        return .object found
    | some c =>
      if c.isDigit then return .number (← number true) else failNext .expectedValue

/-- Reads the items of a list up to its closing bracket. -/
def items : Nat → Nat → Bool → Reader (List Json)
  | 0, _, _ => failNext .expectedValue
  | fuel + 1, depth, first => do
    if ← moreItems first then
      let item ← value fuel depth
      return item :: (← items fuel depth false)
    else return []

/-- Reads the members of an object up to its closing brace. -/
def members : Nat → Nat → Bool → List (String × Json) → Reader (List (String × Json))
  | 0, _, _, _ => failNext .expectedValue
  | fuel + 1, depth, first, found => do
    if ← moreKeys first then
      let key ← string
      colon
      let item ← value fuel depth
      members fuel depth false (setMember found key item)
    else return found

end

/-- Only blanks are left. -/
def finish : Reader Unit := do
  if (← peekSolid?).isSome then failNext .trailingCharacters

/-- Places a problem that has no offset yet just after what was read. -/
def place {α : Type} (read : Reader α) : Reader α := fun s =>
  match read s with
  | .error ⟨p, none⟩ s => .error ⟨p, some s.index⟩ s
  | result => result

end Reader

/-- The line and column of the byte at `offset`, counting the bytes before it. -/
def positionAt (offset : Nat) (text : List Char) : Nat × Nat :=
  let rec go (line column passed : Nat) : List Char → Nat × Nat
    | [] => (line, column)
    | c :: rest =>
      if offset ≤ passed then (line, column)
      else if c = '\n' then go (line + 1) 0 (passed + 1) rest
      else
        let size := min c.utf8Size (offset - passed)
        go line (column + size) (passed + c.utf8Size) rest
  go 1 0 0 text

/-- Runs a reader over a whole text. -/
def readAll {α : Type} (read : Reader α) (text : String) : Except Fault α :=
  match (do let v ← read; Reader.finish; return v : Reader α) ⟨text.toList, 0⟩ with
  | .ok v _ => .ok v
  | .error ⟨p, offset⟩ s => .error ⟨p, some (positionAt (offset.getD s.index) text.toList)⟩

/-- How deeply brackets and braces may nest, plus one. -/
def depthLimit : Nat := 128

/-- Enough steps to read any value in a text of this many characters. -/
def readFuel (text : String) : Nat := 2 * text.length + 4

/-- Reads the value that a text spells. -/
def parse (text : String) : Except Fault Json :=
  readAll (Reader.value (readFuel text) depthLimit) text

end SymbolRename.Json
