import SymbolRename.Lexer.Move

/-!
# Lexical captures

The built-in source of captures reads a file once and reports every word that
equals the wanted name, with its kind of use. Which region a word stands in is
exact for the known languages; the role of a word in code is read off the
keywords and punctuation before it.
-/

namespace SymbolRename.Lexer

/-- Keywords that a defined name follows. -/
def definitionKeywords : List Bytes :=
  ["fn", "def", "function", "func", "class", "struct", "enum", "trait", "type", "interface",
    "let", "const", "var", "val", "static", "mod", "module", "union", "macro", "local"].map bytes

/-- Keywords that a type name follows. -/
def typeKeywords : List Bytes :=
  ["impl", "extends", "implements", "new", "as", "instanceof", "dyn"].map bytes

/-- Keywords that may stand before a parameter name. -/
def parameterModifiers : List Bytes :=
  ["mut", "ref", "final", "const", "readonly", "in", "out"].map bytes

/-- The word follows a definition keyword, with `mut` between them or not. -/
def State.followsDefinition (s : State) : Bool :=
  let isKeyword := fun t => (Token.word? t).any definitionKeywords.contains
  isKeyword s.last || (Token.word? s.last == some (bytes "mut") && isKeyword s.beforeLast)

/-- The word opens a parameter of the parameter list being read. -/
def State.opensParameter (s : State) : Bool :=
  s.paramsDepth == some s.parens &&
    (Token.punct? s.last == some 0x28 || Token.punct? s.last == some 0x2c ||
      (Token.word? s.last).any parameterModifiers.contains)

/-- The word follows a type keyword, an arrow or a single colon. -/
def State.followsType (s : State) (w : Window) : Bool :=
  (Token.word? s.last).any typeKeywords.contains ||
    (Token.punct? s.last == some 0x3a && (w.solidBefore[1]?) != some 0x3a) ||
    (Token.punct? s.last == some 0x3e && (w.solidBefore[1]?) == some 0x2d)

/-- The kind of use of a word of code, from what stands before it. -/
def State.useOf (s : State) (w : Window) : CaptureKind :=
  if s.followsDefinition then .definition
  else match s.statement with
    | some (.importing, _) => .importUse
    | some (.exporting, _) => .exportUse
    | none =>
      if s.opensParameter then .parameter
      else if s.followsType w then .typeReference
      else .reference

/-- The kind of use that a move reports for `name`. -/
def State.report? (s : State) (name : Bytes) (w : Window) : Move → Option CaptureKind
  | .word word => if word = name then some (s.useOf w) else none
  | .mention kind word => if word = name then some kind else none
  | _ => none

/-- A reported use: its kind, line and byte column. -/
structure Hit where
  kind : CaptureKind
  line : Nat
  column : Nat
deriving DecidableEq, Repr

/-- Reads the rest of a file; `found` holds the hits so far, latest first. -/
def run (syn : Syntactics) (name : Bytes) (s : State) (line column : Nat) (found : List Hit)
    (before : Bytes) : Bytes → List Hit
  | [] => found.reverse
  | b :: rest =>
    let w : Window := ⟨before, b :: rest⟩
    let m := s.move syn b w
    let found := match s.report? name w m with
      | some kind => ⟨kind, line, column⟩ :: found
      | none => found
    let next := w.advance m.width
    match m with
    | .newline => run syn name (s.after m) (line + 1) 0 found next.before (rest.drop (m.width - 1))
    | _ =>
      run syn name (s.after m) line (column + m.width) found next.before (rest.drop (m.width - 1))
termination_by content => content.length
decreasing_by all_goals (simp only [List.length_drop, List.length_cons]; omega)

/-- The uses of `name` in a file of the given syntax, in source order. -/
def hits (syn : Syntactics) (content name : Bytes) : List Hit :=
  if name.isEmpty || !Bytes.contains name content then []
  else run syn name {} 1 0 [] [] content

/-- The uses of `name` in a file, as captures. -/
def captures (path : Path) (content : Bytes) (name : String) : List Capture :=
  (hits (Language.ofPath path).syntactics content (bytes name)).map fun h =>
    ⟨h.kind, ⟨path, h.line, h.column⟩, name⟩

end SymbolRename.Lexer
