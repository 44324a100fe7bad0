import SymbolRename.Lexer.State
import SymbolRename.Text.Utf8

/-!
# Moves of the lexer

A move is what the lexer takes the next bytes for. `State.move` picks it from the
state and the bytes around the position, `Move.width` says how many bytes it
covers, and `State.after` is the state it leads to. Every move covers a byte
(`Move.width_pos`), so a text is read in finitely many moves.
-/

namespace SymbolRename.Lexer

/-- What the next bytes are taken for. -/
inductive Move
  | newline
  | openLineComment (mark : Bytes)
  | openBlockComment (mark close : Bytes)
  | closeBlockComment (mark : Bytes)
  | openCharLiteral
  /-- A single quote that opens no literal, as in a lifetime. -/
  | loneQuote
  | openLiteral (lit : Literal)
  | closeLiteral (mark : Bytes)
  /-- A raw opener: its letters, its hash marks and the quote. -/
  | openRawLiteral (letters hashes : Nat)
  | closeRawLiteral (hashes : Nat)
  /-- The backslash of an escape. -/
  | escape
  /-- The byte after the backslash. -/
  | escaped
  /-- Two braces that stand for one in a format literal. -/
  | doubledBrace
  | openEmbedded (lit : Literal) (mark : Interpolation)
  | closeEmbedded (resume : Suspended) (outer : List Suspended)
  /-- A word in code. -/
  | word (w : Bytes)
  | punct (b : UInt8)
  | blank
  /-- A word in a comment or literal. -/
  | mention (kind : CaptureKind) (w : Bytes)
  /-- A byte in a comment or literal that begins no word. -/
  | pass
deriving DecidableEq, Repr

/-- How many bytes a move covers. -/
def Move.width : Move → Nat
  | openLineComment mark => max 1 mark.length
  | openBlockComment mark _ => max 1 mark.length
  | closeBlockComment mark => max 1 mark.length
  | openLiteral lit => max 1 lit.mark.length
  | closeLiteral mark => max 1 mark.length
  | openRawLiteral letters hashes => letters + hashes + 1
  | closeRawLiteral hashes => 1 + hashes
  | doubledBrace => 2
  | openEmbedded _ mark => max 1 mark.opener.length
  | word w => max 1 w.length
  | mention _ w => max 1 w.length
  | newline | openCharLiteral | loneQuote | escape | escaped | closeEmbedded _ _ | punct _
  | blank | pass => 1

theorem Move.width_pos (m : Move) : 0 < m.width := by
  cases m <;> simp only [Move.width] <;> omega

namespace Window

/-- A single quote here opens a character literal: an escape follows, or one
character and another single quote. -/
def opensCharLiteral (w : Window) : Bool :=
  match w.rest with
  | _ :: 0x5c :: _ => true
  | _ :: c :: more => (more.drop (Utf8.next c more).2).head? == some 0x27
  | _ => false

/-- The letters and hash marks of a raw opener that stands here. -/
def rawOpener? (w : Window) : Option (Nat × Nat) :=
  let letters := w.word
  let after := w.rest.drop letters.length
  let hashes := (after.takeWhile (· == 0x23)).length
  if [bytes "r", bytes "br", bytes "cr"].contains letters ∧
      (after.drop hashes).head? = some 0x22 then
    some (letters.length, hashes)
  else none

/-- A raw literal with this many hash marks ends here. -/
def closesRaw (w : Window) (hashes : Nat) : Bool :=
  w.startsWith (0x22 :: List.replicate hashes 0x23)

/-- The format letters `f`, `rf` or `fr` stand just before this position. -/
def hasFormatLetters (w : Window) : Bool :=
  let letters := w.before.takeWhile Bytes.isLetter
  !(w.before.drop letters.length).head?.any isIdentifierByte &&
    [bytes "f", bytes "rf", bytes "fr"].contains (letters.reverse.map Bytes.toLower)

/-- The first of the line comment marks that opens a comment here. A hash mark
opens one only at the start or after a blank, and a mark that also begins a block
comment here opens none. -/
def lineComment? (w : Window) (syn : Syntactics) : Option Bytes :=
  syn.lineComments.find? fun mark =>
    w.startsWith mark &&
      !(mark == bytes "#" && w.before.head?.any (!Bytes.isBlank ·)) &&
      !syn.blockComments.any fun (opening, _) =>
        Bytes.startsWith opening mark && w.startsWith opening

end Window

namespace State

/-- The closing brace here ends the innermost embedded code. -/
def embeddedEnds (s : State) : Bool :=
  s.suspended.head?.any fun inner => s.braces == inner.depth + 1

/-- The word at a word start inside a region. -/
def mentionMove (kind : CaptureKind) (w : Window) : Move :=
  if w.isWordStart then .mention kind w.word else .pass

/-- The word inside a literal; in `a${` the dollar sign belongs to the opener. -/
def literalMove (lit : Literal) (w : Window) : Move :=
  if w.isWordStart then
    let word := w.word
    if lit.interpolation = some .dollarBrace ∧ word.getLast? = some 0x24 ∧
        (w.rest.drop word.length).head? = some 0x7b then
      .mention .stringLiteral word.dropLast
    else .mention .stringLiteral word
  else .pass

/-- The literal opened by the first mark that stands here. -/
def opening? (syn : Syntactics) (w : Window) : Option Literal :=
  (syn.literals.find? fun lit => w.startsWith lit.mark).map fun lit =>
    if syn.formatLiterals && w.hasFormatLetters then
      { lit with interpolation := some .brace }
    else lit

/-- The move in code that opens or closes a region, if one does. -/
def regionMove? (syn : Syntactics) (s : State) (b : UInt8) (w : Window) : Option Move :=
  match w.lineComment? syn with
  | some mark => some (.openLineComment mark)
  | none =>
    match syn.blockComments.find? fun (opening, _) => w.startsWith opening with
    | some (opening, close) => some (.openBlockComment opening close)
    | none =>
      if b = 0x27 ∧ syn.charLiterals then
        some (if w.opensCharLiteral then .openCharLiteral else .loneQuote)
      else if b = 0x7d ∧ s.embeddedEnds then
        match s.suspended with
        | inner :: outer => some (.closeEmbedded inner outer)
        | [] => none
      else
        match (if syn.rawLiterals && w.isWordStart then w.rawOpener? else none) with
        | some (letters, hashes) => some (.openRawLiteral letters hashes)
        | none => (opening? syn w).map .openLiteral

/-- The move in code. -/
def codeMove (syn : Syntactics) (s : State) (b : UInt8) (w : Window) : Move :=
  (regionMove? syn s b w).getD
    (if w.isWordStart then .word w.word else if Bytes.isBlank b then .blank else .punct b)

/-- The move for the byte `b` at the head of the window. -/
def move (syn : Syntactics) (s : State) (b : UInt8) (w : Window) : Move :=
  if b = Bytes.newline then .newline
  else match s.mode with
    | .code => codeMove syn s b w
    | .lineComment => mentionMove .comment w
    | .blockComment close =>
      if w.startsWith close then .closeBlockComment close else mentionMove .comment w
    | .literal _ true => .escaped
    | .literal lit false =>
      if lit.escapes ∧ b = 0x5c then .escape
      else if lit.interpolation = some .brace ∧ w.startsWith (bytes "\x7b\x7b") then .doubledBrace
      else
        match lit.interpolation.filter fun mark => w.startsWith mark.opener with
        | some mark => .openEmbedded lit mark
        | none =>
          if w.startsWith lit.mark then .closeLiteral lit.mark else literalMove lit w
    | .rawLiteral hashes =>
      if w.closesRaw hashes then .closeRawLiteral hashes else mentionMove .stringLiteral w

/-- Remembers one more code token. -/
def push (s : State) (t : Token) : State := { s with last := some t, beforeLast := s.last }

/-- Counts the parentheses, braces and semicolons of code. -/
def nest (s : State) (b : UInt8) : State :=
  if b = 0x28 then
    { s with
      parens := s.parens + 1
      paramsDepth := if s.signaturePending then some (s.parens + 1) else s.paramsDepth
      signaturePending := false }
  else if b = 0x29 then
    { s with
      paramsDepth := if s.paramsDepth = some s.parens then none else s.paramsDepth
      parens := s.parens - 1 }
  else if b = 0x7b then { s with braces := s.braces + 1, signaturePending := false }
  else if b = 0x7d then { s with braces := s.braces - 1 }
  else if b = 0x3b then { s with signaturePending := false, statement := none }
  else s

/-- Reads a punctuation byte of code; a hash mark keeps the line start open. -/
def afterPunct (s : State) (b : UInt8) : State :=
  let nested := s.nest b
  { nested with atLineStart := nested.atLineStart && b == 0x23 }.push (.punct b)

/-- Keywords that begin an import statement at the start of a line. -/
def importKeywords : List Bytes :=
  ["use", "import", "from", "require", "include", "extern"].map bytes

/-- Keywords whose next parenthesis opens a parameter list. -/
def signatureKeywords : List Bytes := ["fn", "def", "function", "func"].map bytes

/-- Words that may stand before a statement keyword. -/
def leadingWords : List Bytes := ["pub", "export", "async", "unsafe", "default"].map bytes

/-- The statement that the word begins at the start of a line. -/
def statementOf? (word : Bytes) : Option Statement :=
  if importKeywords.contains word then some .importing
  else if word = bytes "export" then some .exporting
  else none

/-- Reads a word of code. -/
def afterWord (s : State) (word : Bytes) : State :=
  { s with
    statement :=
      if s.atLineStart && s.statement.isNone then
        (statementOf? word).map fun kind => (kind, s.braces)
      else s.statement
    signaturePending := s.signaturePending || signatureKeywords.contains word
    atLineStart := s.atLineStart && leadingWords.contains word }.push (.word word)

/-- Ends the line: line comments and one-line literals stop, an escape is
forgotten, and a statement stops unless it is inside deeper brackets. -/
def afterNewline (s : State) : State :=
  { s with
    mode := match s.mode with
      | .lineComment => .code
      | .literal lit _ => if lit.multiline then .literal lit false else .code
      | mode => mode
    statement := s.statement.filter fun (_, depth) => depth < s.braces || s.parens != 0
    atLineStart := true }

/-- The state after a move. -/
def after (s : State) : Move → State
  | .newline => s.afterNewline
  | .openLineComment _ => { s with mode := .lineComment }
  | .openBlockComment _ close => { s with mode := .blockComment close }
  | .closeBlockComment _ => { s with mode := .code }
  | .openCharLiteral => { s with mode := .literal .single false }
  | .loneQuote => s.push (.punct 0x27)
  | .openLiteral lit => { s with mode := .literal lit false, atLineStart := false }
  | .closeLiteral _ => { s with mode := .code }.push (.punct 0x22)
  | .openRawLiteral _ hashes => { s with mode := .rawLiteral hashes, atLineStart := false }
  | .closeRawLiteral _ => { s with mode := .code }.push (.punct 0x22)
  | .escape => match s.mode with
    | .literal lit _ => { s with mode := .literal lit true }
    | _ => s
  | .escaped => match s.mode with
    | .literal lit _ => { s with mode := .literal lit false }
    | _ => s
  | .openEmbedded lit _ =>
    { s with mode := .code, suspended := ⟨lit, s.braces⟩ :: s.suspended }.afterPunct 0x7b
  | .closeEmbedded resume outer =>
    { s with mode := .literal resume.lit false, braces := resume.depth, suspended := outer }
  | .word w => s.afterWord w
  | .punct b => s.afterPunct b
  | .doubledBrace | .blank | .mention _ _ | .pass => s

end State

end SymbolRename.Lexer
