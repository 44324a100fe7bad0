import SymbolRename.Toml.Scalar

/-!
# Reading TOML

A document is a list of statements: headers and key-value pairs, one on a line.
Nobody is told what is wrong with a malformed one, so a reader just fails.
-/

namespace SymbolRename.Toml

/-- Reads from the head of a text, or fails. -/
abbrev Reader := StateT (List Char) Option

namespace Reader

/-! ### Marks, blanks and comments -/

/-- Takes a mark if the text starts with it. -/
def take (mark : String) : Reader Bool := do
  let cs ← get
  if mark.toList.isPrefixOf cs then
    set (cs.drop mark.length)
    return true
  else return false

/-- Takes a mark that has to be there. -/
def expect (mark : String) : Reader Unit := do
  if ← take mark then return () else failure

/-- Takes the next character. -/
def next : Reader Char := do
  match ← get with
  | [] => failure
  | c :: rest =>
    set rest
    return c

/-- Takes the longest run of characters that satisfy `p`. -/
def takeRun (p : Char → Bool) : Reader (List Char) := do
  let cs ← get
  set (cs.dropWhile p)
  return cs.takeWhile p

/-- The text is used up. -/
def atEnd : Reader Bool := return (← get).isEmpty

/-- A blank within a line. -/
def isBlank (c : Char) : Bool := c == ' ' || c == '\t'

/-- A character that may stand in a comment and, unescaped, in a string. -/
def isPlain (c : Char) : Bool := c == '\t' || (0x20 ≤ c.toNat && c.toNat != 0x7f)

/-- Passes over blanks within a line. -/
def blanks : Reader Unit := do
  let _ ← takeRun isBlank

/-- Takes the end of a line. -/
def newline : Reader Bool := do
  if ← take "\r\n" then return true else take "\n"

/-- Passes over a comment. -/
def comment : Reader Unit := do
  if ← take "#" then
    let _ ← takeRun isPlain

/-- Takes what may stand between a statement and the next line. -/
def endOfLine : Reader Unit := do
  blanks
  comment
  if ← atEnd then return ()
  else if ← newline then return ()
  else failure

/-- The text after blanks, comments and ends of lines. -/
def afterFiller? (inComment : Bool) : List Char → Option (List Char)
  | [] => some []
  | c :: rest =>
    if c = '\n' then afterFiller? false rest
    else if c = '\r' then
      if rest.head? = some '\n' then afterFiller? inComment rest else none
    else if inComment then
      if isPlain c then afterFiller? true rest else none
    else if isBlank c then afterFiller? false rest
    else if c = '#' then afterFiller? true rest
    else some (c :: rest)

/-- Passes over blanks, comments and ends of lines. -/
def filler : Reader Unit := do
  match afterFiller? false (← get) with
  | some rest => set rest
  | none => failure

/-! ### Strings -/

/-- The character with a number of exactly `count` hexadecimal digits. -/
def hexEscape (count : Nat) : Reader Char := do
  let digits := (← get).take count
  set ((← get).drop count)
  match digits.mapM (Scalar.digitIn? 16) with
  | none => failure
  | some values =>
    let n := Scalar.ofDigits 16 values
    if digits.length = count ∧ n.isValidChar then return Char.ofNat n else failure

/-- The character that an escape stands for, after its backslash. -/
def escape : Reader Char := do
  match ← next with
  | 'b' => return '\x08'
  | 't' => return '\t'
  | 'n' => return '\n'
  | 'f' => return '\x0c'
  | 'r' => return '\r'
  | 'e' => return '\x1b'
  | '"' => return '"'
  | '\\' => return '\\'
  | 'x' => hexEscape 2
  | 'u' => hexEscape 4
  | 'U' => hexEscape 8
  | _ => failure

/-- Reads up to the quote that ends a string on one line. `read` is reversed. -/
def basicRest : Nat → List Char → Reader String
  | 0, _ => failure
  | fuel + 1, read => do
    match ← next with
    | '"' => return String.ofList read.reverse
    | '\\' => basicRest fuel ((← escape) :: read)
    | c => if isPlain c then basicRest fuel (c :: read) else failure

/-- Reads up to the quote that ends a literal string. -/
def literalRest : Reader String := do
  let cs ← takeRun fun c => isPlain c && c != '\x27'
  expect "'"
  return String.ofList cs

/-- The text after blanks and ends of lines, at least one of the latter. -/
def afterBreak? (cs : List Char) : Option (List Char) :=
  let isGap := fun c : Char => isBlank c || c == '\n' || c == '\r'
  match cs.dropWhile isBlank with
  | '\n' :: rest => some (rest.dropWhile isGap)
  | '\r' :: '\n' :: rest => some (rest.dropWhile isGap)
  | _ => none

/-- Ends a string on several lines, if the text goes on with at least three quotes: two
more before them belong to the string. -/
def closing? (quote : Char) : Reader (Option (List Char)) := do
  let quotes := ((← get).takeWhile (· == quote)).length
  if quotes < 3 then return none
  else
    let taken := min quotes 5
    set ((← get).drop taken)
    return some (List.replicate (taken - 3) quote)

/-- Reads the rest of a string on several lines. `read` is reversed. -/
def longRest (quote : Char) : Nat → List Char → Reader String
  | 0, _ => failure
  | fuel + 1, read => do
    match ← closing? quote with
    | some quotes => return String.ofList (read.reverse ++ quotes)
    | none =>
      match ← next with
      | '\n' => longRest quote fuel ('\n' :: read)
      | '\r' => do
        expect "\n"
        longRest quote fuel ('\n' :: '\r' :: read)
      | '\\' =>
        if quote = '"' then
          match afterBreak? (← get) with
          | some rest => do
            set rest
            longRest quote fuel read
          | none => longRest quote fuel ((← escape) :: read)
        else longRest quote fuel ('\\' :: read)
      | c => if isPlain c then longRest quote fuel (c :: read) else failure

/-- Reads a string on several lines after its quotes; an end of line there is passed
over. -/
def long (quote : Char) : Reader String := do
  let _ ← newline
  longRest quote ((← get).length + 1) []

/-- Reads a string on one line after its quote. -/
def basic : Reader String := do basicRest ((← get).length + 1) []

/-! ### Keys -/

/-- A character of a key without quotes. -/
def isKeyChar (c : Char) : Bool := c.isAlphanum || c == '_' || c == '-'

/-- Reads one key. -/
def key : Reader String := do
  if ← take "\"" then basic
  else if ← take "'" then literalRest
  else
    let cs ← takeRun isKeyChar
    if cs.isEmpty then failure else return String.ofList cs

/-- Reads the keys after the dots of a dotted key. -/
def moreKeys : Nat → Reader (List String)
  | 0 => failure
  | fuel + 1 => do
    blanks
    if ← take "." then
      blanks
      let k ← key
      return k :: (← moreKeys fuel)
    else return []

/-- Reads a dotted key: the keys before its last one, and that. -/
def dottedKey : Reader (List String × String) := do
  let first ← key
  let keys := first :: (← moreKeys ((← get).length + 1))
  match keys.getLast? with
  | some last => return (keys.dropLast, last)
  | none => failure

/-! ### Values -/

/-- A character of a plain scalar. -/
def isScalarChar (c : Char) : Bool :=
  c.isAlphanum || c == '_' || c == '-' || c == '+' || c == '.' || c == ':'

/-- Takes a time that follows a date after a single space. -/
def timeAfter (date : List Char) : Reader (List Char) := do
  match Scalar.afterDate? date, ← get with
  | some [], ' ' :: c :: _ =>
    if c.isDigit then
      expect " "
      return ' ' :: (← takeRun isScalarChar)
    else return []
  | _, _ => return []

/-- Reads a plain scalar. -/
def scalar : Reader Toml := do
  let first ← takeRun isScalarChar
  let more ← timeAfter first
  match Scalar.parse? (first ++ more) with
  | some v => return v
  | none => failure

/-- How deep lists and tables may lie in each other. -/
def depthLimit : Nat := 80

mutual

/-- Reads a value. `fuel` bounds the steps, `depth` the nesting that is left. -/
def value : Nat → Nat → Reader Toml
  | 0, _ => failure
  | fuel + 1, depth => do
    if ← take "\"\"\"" then return .string (← long '"')
    else if ← take "\"" then return .string (← basic)
    else if ← take "'''" then return .string (← long '\x27')
    else if ← take "'" then return .string (← literalRest)
    else if ← take "[" then
      if depth = 0 then failure else return .array (← items fuel (depth - 1))
    else if ← take "\x7b" then
      if depth = 0 then failure else return .table .inline (← members fuel (depth - 1) [])
    else scalar

/-- Reads the items of a list and its closing bracket. -/
def items : Nat → Nat → Reader (List Toml)
  | 0, _ => failure
  | fuel + 1, depth => do
    filler
    if ← take "]" then return []
    else
      let v ← value fuel depth
      filler
      if ← take "," then return v :: (← items fuel depth)
      else
        expect "]"
        return [v]

/-- Reads the members of a table between braces and its closing brace. -/
def members : Nat → Nat → Members → Reader Members
  | 0, _, _ => failure
  | fuel + 1, depth, read => do
    filler
    if ← take "\x7d" then return read
    else
      let (path, key) ← dottedKey
      expect "="
      blanks
      let v ← value fuel depth
      match addValue path key v .inline read with
      | none => failure
      | some (_, read) =>
        filler
        if ← take "," then members fuel depth read
        else
          expect "\x7d"
          return read

end

/-! ### Documents -/

/-- A document that is being read. -/
structure Draft where
  /-- The path of the last header. -/
  header : List String := []
  members : Members := []

/-- The draft with its tables changed. -/
def Draft.update (d : Draft) (header path : List String)
    (f : TableOrigin → Members → Option (TableOrigin × Members)) : Reader Draft :=
  match change .implied f path .header d.members with
  | some (_, members) => return { header, members }
  | none => failure

/-- Reads a header after its opening brackets. -/
def header (d : Draft) (close : String)
    (add : String → TableOrigin → Members → Option (TableOrigin × Members)) : Reader Draft := do
  blanks
  let (path, key) ← dottedKey
  expect close
  endOfLine
  d.update (path ++ [key]) path (add key)

/-- Reads one line or one statement. -/
def statement (d : Draft) : Reader Draft := do
  blanks
  match (← get).head? with
  | none => return d
  | some c =>
    if c = '#' ∨ c = '\n' ∨ c = '\r' then
      endOfLine
      return d
    else if ← take "[[" then header d "]]" addTable
    else if ← take "[" then header d "]" addHeader
    else
      let (path, key) ← dottedKey
      expect "="
      blanks
      let v ← value ((← get).length + 1) depthLimit
      endOfLine
      d.update d.header d.header (addValue path key v)

/-- Reads statements to the end of the text. -/
def statements : Nat → Draft → Reader Draft
  | 0, d => return d
  | fuel + 1, d => do
    if ← atEnd then return d else statements fuel (← statement d)

end Reader

/-- The mark that may stand at the head of a document. -/
def byteOrderMark : Char := '\ufeff'

/-- The members of a document. -/
def parse? (text : String) : Option Members :=
  let cs := text.toList
  let cs := if cs.head? = some byteOrderMark then cs.tail else cs
  ((Reader.statements (cs.length + 1) {}).run cs).map fun (d, _) => d.members

end SymbolRename.Toml
