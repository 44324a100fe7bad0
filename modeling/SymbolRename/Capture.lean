import SymbolRename.Location

/-!
# Captures

A capture is one use of a name that a source of captures reports: what kind of use
it is, where it stands and the text found there. Uses in string literals and
comments are *excluded*: they are reported but never renamed.
-/

namespace SymbolRename

/-- The kinds of use a capture can report. -/
inductive CaptureKind
  | definition
  | reference
  | typeReference
  | importUse
  | exportUse
  | parameter
  | stringLiteral
  | comment
deriving DecidableEq, Repr

namespace CaptureKind

/-- Uses inside string literals and comments are never renamed. -/
def isExcluded : CaptureKind → Bool
  | stringLiteral | comment => true
  | _ => false

/-- The word that names the kind in every output. -/
def word : CaptureKind → String
  | definition => "definition"
  | reference => "reference"
  | typeReference => "type_reference"
  | importUse => "import"
  | exportUse => "export"
  | parameter => "parameter"
  | stringLiteral => "string_literal"
  | comment => "comment"

/-- The words that select each kind in a capture name, from the strongest meaning
to the weakest. -/
def vocabulary : List (CaptureKind × List String) :=
  [(comment, ["comment", "doc"]),
   (stringLiteral, ["string", "str", "literal", "template"]),
   (importUse, ["import", "use", "include", "require"]),
   (exportUse, ["export", "exported"]),
   (parameter, ["parameter", "param", "argument", "arg"]),
   (definition, ["definition", "def", "declaration", "decl"]),
   (typeReference, ["type", "typeref"]),
   (reference, ["reference", "ref", "call", "identifier", "ident", "usage"])]

/-- The words of a capture name such as `@name.definition.function`: small letters,
split at dots, hyphens and underscores. -/
def nameParts (name : String) : List String :=
  let cs := (Text.trimChars name.toList).dropWhile (· == '@')
  (Text.fields (fun c => c == '.' || c == '-' || c == '_') (cs.map Text.lowerChar)).map
    String.ofList

/-- The kind a capture name stands for: the first entry of the vocabulary that
shares a word with the name. -/
def ofName? (name : String) : Option CaptureKind :=
  let parts := nameParts name
  (vocabulary.find? fun (_, candidates) => parts.any candidates.contains).map (·.1)

end CaptureKind

/-- One reported use of a name. -/
structure Capture where
  kind : CaptureKind
  location : Location
  text : String
deriving DecidableEq, Repr

end SymbolRename
