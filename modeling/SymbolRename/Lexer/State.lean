import SymbolRename.Capture
import SymbolRename.Identifier
import SymbolRename.Language

/-!
# The state of the lexer

Between two moves the lexer knows what kind of region it stands in, which literals
are waiting for embedded code to end, and the few facts about the preceding code
that decide the role of the next word.
-/

namespace SymbolRename.Lexer

/-- The region a byte belongs to. -/
inductive Mode
  | code
  | lineComment
  /-- A comment that ends at the given mark. -/
  | blockComment (close : Bytes)
  /-- A literal; `escaped` says that the next byte is taken as it is. -/
  | literal (lit : Literal) (escaped : Bool)
  /-- A raw literal, closed by a double quote and this many hash marks. -/
  | rawLiteral (hashes : Nat)
deriving DecidableEq, Repr

/-- What was read last in code. -/
inductive Token
  | word (w : Bytes)
  | punct (b : UInt8)
deriving DecidableEq, Repr

namespace Token

/-- The word of a word token. -/
def word? : Option Token → Option Bytes
  | some (word w) => some w
  | _ => none

/-- The byte of a punctuation token. -/
def punct? : Option Token → Option UInt8
  | some (punct b) => some b
  | _ => none

end Token

/-- A statement that gives all its words one role. -/
inductive Statement
  | importing
  | exporting
deriving DecidableEq, Repr

/-- A literal to resume, with the brace depth outside the code embedded in it. -/
structure Suspended where
  lit : Literal
  depth : Nat
deriving DecidableEq, Repr

/-- What the lexer remembers between two moves. -/
structure State where
  mode : Mode := .code
  /-- The literals around the embedded code being read, innermost first. -/
  suspended : List Suspended := []
  /-- The last code token. -/
  last : Option Token := none
  /-- The code token before the last one. -/
  beforeLast : Option Token := none
  /-- Only words that may precede a statement keyword were read on this line. -/
  atLineStart : Bool := true
  /-- The open import or export statement and the brace depth it began at. -/
  statement : Option (Statement × Nat) := none
  parens : Nat := 0
  braces : Nat := 0
  /-- A signature keyword was read and its parameter list has not begun. -/
  signaturePending : Bool := false
  /-- The parenthesis depth of the parameter list being read. -/
  paramsDepth : Option Nat := none
deriving DecidableEq, Repr

/-- The bytes around a position: those before it, nearest first, and those from it. -/
structure Window where
  before : Bytes
  rest : Bytes
deriving DecidableEq, Repr

namespace Window

/-- The word that begins here: the identifier bytes up to the next other byte. -/
def word (w : Window) : Bytes := w.rest.takeWhile isIdentifierByte

/-- A word begins here. -/
def isWordStart (w : Window) : Bool :=
  w.rest.head?.any isIdentifierByte && !w.before.head?.any isIdentifierByte

/-- The bytes from here begin with `head`. -/
def startsWith (w : Window) (head : Bytes) : Bool := Bytes.startsWith w.rest head

/-- The nearest bytes before this position that are not blank. -/
def solidBefore (w : Window) : Bytes := w.before.filter (!Bytes.isBlank ·)

/-- The position `count` bytes further on. -/
def advance (w : Window) (count : Nat) : Window :=
  ⟨(w.rest.take count).reverse ++ w.before, w.rest.drop count⟩

end Window

end SymbolRename.Lexer
