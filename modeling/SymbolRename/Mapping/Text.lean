import SymbolRename.Mapping
import SymbolRename.Text.Blank
import SymbolRename.Text.Literal

/-!
# Mapping sets as text

A mapping set is a JSON array of objects with `old` and `new`, a JSON object from
old to new names, or lines `old=new`, `old -> new` or `old new` with `#` comments.
The first character that is no blank tells JSON from lines.
-/

namespace SymbolRename.Mapping

/-- The name of a JSON value's sort in a message. -/
def sortOf : Json → String
  | .null => "null"
  | .bool b => s!"boolean `{b}`"
  | .number (.float bits) => s!"floating point `{JsonNumber.floatText bits}`"
  | .number n => s!"integer `{n.render}`"
  | .string s => s!"string {Text.literal s}"
  | .array _ => "sequence"
  | .object _ => "map"

/-- The text of a JSON string. -/
def stringOf : Json → Except Json.Problem String
  | .string s => .ok s
  | v => .error (.wrongType (sortOf v) "a string")

/-- Reads the fields of a mapping object in their order; others are passed over. -/
def ofMembers (old new : Option String) : List (String × Json) → Except Json.Problem Mapping
  | [] =>
    match old, new with
    | none, _ => .error (.missingField "old")
    | _, none => .error (.missingField "new")
    | some old, some new => .ok ⟨old, new⟩
  | (key, v) :: rest =>
    if key = "old" then do ofMembers (some (← stringOf v)) new rest
    else if key = "new" then do ofMembers old (some (← stringOf v)) rest
    else ofMembers old new rest

/-- One mapping: an object with two names, or a list of the two. -/
def ofJson : Json → Except Json.Problem Mapping
  | .object members => ofMembers none none members
  | .array items =>
    match items with
    | [] => .error (.wrongLength 0 "struct RenameMapping with 2 elements")
    | [old] => do
      let _ ← stringOf old
      .error (.wrongLength 1 "struct RenameMapping with 2 elements")
    | old :: new :: more => do
      let mapping : Mapping := ⟨← stringOf old, ← stringOf new⟩
      if more.isEmpty then .ok mapping
      else .error (.wrongLength items.length "fewer elements in array")
  | v => .error (.wrongType (sortOf v) "struct RenameMapping")

/-- One member of a mapping object. -/
def ofMember (member : String × Json) : Except InputFault Mapping :=
  match member.2 with
  | .string new => .ok ⟨member.1, new⟩
  | v => .error (.mappingValue member.1 v.render)

/-- The mappings of a JSON text. -/
def parseJson (text : String) : Except InputFault (List Mapping) :=
  match Json.parse text with
  | .error fault => .error (.mappingJson fault)
  | .ok (.array items) => (items.mapM ofJson).mapError .mappingEntries
  | .ok (.object members) => members.mapM ofMember
  | .ok _ => .ok []

/-- The two names of a line that is neither blank nor a comment. -/
def splitPair? (line : List Char) : Option (List Char × List Char) :=
  let trimmed := fun pair : List Char × List Char =>
    (Text.trimChars pair.1, Text.trimChars pair.2)
  match (Text.splitOnce? ['-', '>'] line).or (Text.splitOnce? ['='] line) with
  | some pair => some (trimmed pair)
  | none =>
    match Text.words line with
    | [old, new] => some (old, new)
    | _ => none

/-- The mapping on the line with this number; a blank line or comment has none. -/
def parseLine (number : Nat) (raw : List Char) : Except InputFault (Option Mapping) :=
  let line := Text.trimChars (raw.takeWhile (· != '#'))
  if line.isEmpty then .ok none
  else match splitPair? line with
    | some (old, new) =>
      if old.isEmpty || new.isEmpty then
        .error (.mappingLine number (String.ofList (Text.trimChars raw)))
      else .ok (some ⟨String.ofList old, String.ofList new⟩)
    | none => .error (.mappingLine number (String.ofList (Text.trimChars raw)))

/-- The mappings of lines that are numbered from `number` on. -/
def parseLines (number : Nat) : List (List Char) → Except InputFault (List Mapping)
  | [] => .ok []
  | raw :: rest => do
    let found ← parseLine number raw
    let more ← parseLines (number + 1) rest
    return found.toList ++ more

/-- The text begins with a JSON bracket or brace. -/
def isJson (text : String) : Bool :=
  match (Text.trimStart text).toList with
  | '[' :: _ => true
  | '\x7b' :: _ => true
  | _ => false

/-- The mapping set that a text holds. -/
def parse (text : String) : Except InputFault (List Mapping) := do
  let mappings ←
    if isJson text then parseJson (Text.trimStart text)
    else parseLines 1 (Text.lines text.toList)
  if mappings.isEmpty then .error .noMappings else .ok mappings

/-- The mapping set of command-line pairs: a text with one pair on each line. -/
def parsePairs (pairs : List String) : Except InputFault (List Mapping) :=
  parse ("\n".intercalate pairs)

end SymbolRename.Mapping
