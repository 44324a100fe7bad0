import SymbolRename.Lexer
import SymbolRename.Proofs.Text.Words

/-!
# The pieces of a text

The lexer cuts a text into pieces, one for each move. A piece of code that begins a word
is that whole word. In the languages without raw, character and format literals every
other piece stands for itself, and no piece but a line feed holds one.
-/

namespace SymbolRename

/-- What one move covers, and whether it is a word of code. -/
structure Lexer.Piece where
  isCode : Bool
  text : Bytes
deriving DecidableEq, Repr

/-- The pieces of the rest of a text. -/
def Lexer.pieces (syn : Syntactics) (s : State) (before : Bytes) : Bytes → List Piece
  | [] => []
  | b :: rest =>
    let w : Window := ⟨before, b :: rest⟩
    let m := s.move syn b w
    ⟨decide (s.mode = .code) && w.isWordStart, (b :: rest).take m.width⟩ ::
      pieces syn (s.after m) (w.advance m.width).before (rest.drop (m.width - 1))
termination_by content => content.length
decreasing_by simp only [List.length_drop, List.length_cons]; omega

/-- The text of some pieces. -/
def Lexer.textOf (ps : List Piece) : Bytes := ps.flatMap Piece.text

/-- The words of code in a text, in order. -/
def Lexer.codeWords (syn : Syntactics) (content : Bytes) : List Bytes :=
  ((pieces syn {} [] content).filter Piece.isCode).map Piece.text

/-- The piece with its word of code replaced. -/
def Lexer.Piece.map (f : Bytes → Bytes) (p : Piece) : Piece :=
  if p.isCode then { p with text := f p.text } else p

/-- The text with all words of code replaced at once. -/
def Lexer.substitute (syn : Syntactics) (f : Bytes → Bytes) (content : Bytes) : Bytes :=
  textOf ((pieces syn {} [] content).map (Piece.map f))

theorem Lexer.take_append_drop_pred (b : UInt8) (rest : Bytes) {n : Nat} (hn : 0 < n) :
    (b :: rest).take n ++ rest.drop (n - 1) = b :: rest := by
  obtain ⟨k, rfl⟩ := Nat.exists_eq_succ_of_ne_zero (Nat.pos_iff_ne_zero.mp hn)
  simp

/-- The pieces of a text make up the text. -/
theorem Lexer.textOf_pieces (syn : Syntactics) (s : State) (before content : Bytes) :
    textOf (pieces syn s before content) = content := by
  fun_induction pieces with
  | case1 => rfl
  | case2 s before b rest w m ih =>
    unfold textOf at ih ⊢
    rw [List.flatMap_cons, ih]
    exact take_append_drop_pred b rest m.width_pos

@[simp] theorem Lexer.Piece.map_isCode (f : Bytes → Bytes) (p : Piece) :
    (p.map f).isCode = p.isCode := by
  unfold map
  split <;> rfl

theorem Lexer.Piece.map_text (f : Bytes → Bytes) (p : Piece) :
    (p.map f).text = if p.isCode then f p.text else p.text := by
  unfold map
  split <;> simp_all

theorem Lexer.Piece.map_map (f g : Bytes → Bytes) (p : Piece) :
    (p.map f).map g = p.map (fun w => g (f w)) := by
  unfold map
  cases h : p.isCode <;> simp [h]

/-! ### Languages whose words stand apart -/

/-- All marks have no byte of a word and no line feed, and there are no literals that
begin with letters or that look like characters. -/
structure Syntactics.Plain (syn : Syntactics) : Prop where
  lineComments : ∀ mark ∈ syn.lineComments, mark.IsMark
  blockComments : ∀ marks ∈ syn.blockComments, marks.1.IsMark ∧ marks.2.IsMark
  literals : ∀ lit ∈ syn.literals, lit.mark.IsMark
  charLiterals : syn.charLiterals = false
  rawLiterals : syn.rawLiterals = false
  formatLiterals : syn.formatLiterals = false

/-- The languages of which the rule holds. -/
def Language.IsPlain : Language → Bool
  | .javaScript | .go | .cFamily | .shell | .lua | .generic => true
  | .rust | .python | .ruby => false

theorem Language.plain_syntactics {l : Language} (h : l.IsPlain = true) : l.syntactics.Plain := by
  cases l with
  | rust => cases h
  | python => cases h
  | ruby => cases h
  | javaScript => exact ⟨by decide, by decide, by decide, rfl, rfl, rfl⟩
  | go => exact ⟨by decide, by decide, by decide, rfl, rfl, rfl⟩
  | cFamily => exact ⟨by decide, by decide, by decide, rfl, rfl, rfl⟩
  | shell => exact ⟨by decide, by decide, by decide, rfl, rfl, rfl⟩
  | lua => exact ⟨by decide, by decide, by decide, rfl, rfl, rfl⟩
  | generic => exact ⟨by decide, by decide, by decide, rfl, rfl, rfl⟩

/-- The marks that the lexer waits for are marks of such a language. -/
structure Lexer.State.Plain (s : State) : Prop where
  literal : ∀ lit escaped, s.mode = .literal lit escaped → lit.mark.IsMark
  comment : ∀ close, s.mode = .blockComment close → close.IsMark
  suspended : ∀ inner ∈ s.suspended, inner.lit.mark.IsMark

end SymbolRename
