import SymbolRename.Proofs.Lexer.Moves

/-!
# The tokens of a text

The lexer of every language cuts a text into tokens, one for each move: a word of code is a
token of its own, and only a line feed ends a line. Raw, character and format literals are
allowed here.
-/

namespace SymbolRename

/-- The move takes a word of code. -/
def Lexer.Move.isWord : Move → Bool
  | .word _ => true
  | _ => false

/-- The tokens of the rest of a text; those of code are its words. -/
def Lexer.tokens (syn : Syntactics) (s : State) (before : Bytes) : Bytes → List Piece
  | [] => []
  | b :: rest =>
    let w : Window := ⟨before, b :: rest⟩
    let m := s.move syn b w
    ⟨m.isWord, (b :: rest).take m.width⟩ ::
      tokens syn (s.after m) (w.advance m.width).before (rest.drop (m.width - 1))
termination_by content => content.length
decreasing_by simp only [List.length_drop, List.length_cons]; omega

theorem Lexer.tokens_cons (syn : Syntactics) (s : State) (before : Bytes) (b : UInt8)
    (rest : Bytes) :
    tokens syn s before (b :: rest) =
      ⟨(s.move syn b ⟨before, b :: rest⟩).isWord,
        (b :: rest).take (s.move syn b ⟨before, b :: rest⟩).width⟩ ::
      tokens syn (s.after (s.move syn b ⟨before, b :: rest⟩))
        (((b :: rest).take (s.move syn b ⟨before, b :: rest⟩).width).reverse ++ before)
        (rest.drop ((s.move syn b ⟨before, b :: rest⟩).width - 1)) := by
  rw [tokens]
  rfl

/-- The tokens of a text make up the text. -/
theorem Lexer.textOf_tokens (syn : Syntactics) (s : State) (before content : Bytes) :
    textOf (tokens syn s before content) = content := by
  fun_induction tokens with
  | case1 => rfl
  | case2 s before b rest w m ih =>
    unfold textOf at ih ⊢
    rw [List.flatMap_cons, ih]
    exact take_append_drop_pred b rest m.width_pos

/-- A word of code is taken where one begins, and whole. -/
theorem Lexer.State.of_move_word {syn : Syntactics} {s : State} {b : UInt8} {w : Window}
    {v : Bytes} (h : s.move syn b w = .word v) :
    s.mode = .code ∧ regionMove? syn s b w = none ∧ w.isWordStart = true ∧ v = w.word := by
  have hmakes := s.makes_move syn b w
  rw [h] at hmakes
  cases hmakes with
  | bounds _ hregion => cases Bounds.of_regionMove? hregion
  | word hmode hregion hstart => exact ⟨hmode, hregion, hstart, rfl⟩

/-- The token of a word of code is the word. -/
theorem Lexer.State.take_of_isWord {syn : Syntactics} {s : State} {b : UInt8} {w : Window}
    (h : (s.move syn b w).isWord = true) :
    s.move syn b w = .word w.word ∧ s.mode = .code ∧ w.isWordStart = true ∧
      w.rest.take (s.move syn b w).width = w.word := by
  cases hm : s.move syn b w with
  | word v =>
    obtain ⟨hmode, _, hstart, rfl⟩ := of_move_word hm
    exact ⟨rfl, hmode, hstart, w.take_word hstart⟩
  | _ =>
    rw [hm] at h
    cases h

/-- After a whole word no byte of a word stands. -/
theorem Lexer.head?_any_of_takeWhile {word after : Bytes} (hword : word.IsWord)
    (h : (word ++ after).takeWhile isIdentifierByte = word) :
    after.head?.any isIdentifierByte = false := by
  rw [List.takeWhile_append_of_pos hword.2] at h
  cases after with
  | nil => rfl
  | cons b after =>
    cases hb : isIdentifierByte b with
    | false => simpa using hb
    | true =>
      have hlength := congrArg List.length h
      simp [hb] at hlength

/-- What follows a word of code begins with no byte of a word. -/
theorem Lexer.State.head?_drop_of_isWord {syn : Syntactics} {s : State} {before rest : Bytes}
    {b : UInt8} {m : Move} (hm : s.move syn b ⟨before, b :: rest⟩ = m) (hcode : m.isWord = true) :
    (rest.drop (m.width - 1)).head?.any isIdentifierByte = false := by
  subst hm
  obtain ⟨_, _, hstart, hwhole⟩ := take_of_isWord hcode
  have hwhole : (b :: rest).take _ = Window.word ⟨before, b :: rest⟩ := hwhole
  have htext := take_append_drop_pred b rest (s.move syn b ⟨before, b :: rest⟩).width_pos
  rw [hwhole] at htext
  refine head?_any_of_takeWhile (Window.word_isWord hstart) ?_
  rw [htext]
  rfl

/-- The last byte before a position, when a text was read that is not empty. -/
theorem Lexer.head?_reverse_append {text before : Bytes} (h : text ≠ []) :
    (text.reverse ++ before).head? = text.getLast? := by
  rw [List.head?_append, List.head?_reverse, List.getLast?_eq_some_getLast h, Option.some_or]

theorem Lexer.getLast?_any_of_isWord {w : Bytes} (h : w.IsWord) :
    w.getLast?.any isIdentifierByte = true := by
  rw [List.getLast?_eq_some_getLast h.1, Option.any_some]
  exact h.2 _ (List.getLast_mem h.1)

theorem Lexer.getLast?_solid_of_isWord {w : Bytes} (h : w.IsWord) :
    w.getLast?.any (!Bytes.isBlank ·) = true := by
  rw [List.getLast?_eq_some_getLast h.1, Option.any_some]
  have hbyte := h.2 _ (List.getLast_mem h.1)
  cases hblank : Bytes.isBlank (w.getLast h.1) with
  | false => rfl
  | true =>
    simp only [Bytes.isBlank, Bool.or_eq_true, beq_iff_eq] at hblank
    rcases hblank with (((hb | hb) | hb) | hb) | hb <;> rw [hb] at hbyte <;> cases hbyte

/-! ### Texts that are cut well -/

/-- The words of code among some pieces. -/
def Lexer.codes (ps : List Piece) : List Bytes := (ps.filter Piece.isCode).map Piece.text

theorem Lexer.contains_of_mem_codes {ps : List Piece} {word : Bytes} (h : word ∈ codes ps) :
    Bytes.contains word (textOf ps) = true := by
  obtain ⟨p, hp, rfl⟩ := List.mem_map.mp h
  obtain ⟨first, last, hsplit⟩ := List.append_of_mem (List.mem_filter.mp hp).1
  refine Bytes.contains_iff.mpr ⟨textOf first, textOf last, ?_⟩
  rw [hsplit]
  simp [textOf]

/-- A text is cut well behind some bytes, given in reverse: a line feed is a piece of its
own, and a piece of code is a whole word. -/
inductive Lexer.Cut : Bytes → List Piece → Prop
  | nil (before : Bytes) : Cut before []
  | cons {before : Bytes} {p : Piece} {ps : List Piece}
      (hline : p.text = [Bytes.newline] ∨ Bytes.newline ∉ p.text)
      (hcode : p.isCode = true → p.text.IsWord ∧ before.head?.any isIdentifierByte = false ∧
        (textOf ps).head?.any isIdentifierByte = false)
      (h : Cut (p.text.reverse ++ before) ps) : Cut before (p :: ps)

/-- The tokens cut a text well. -/
theorem Lexer.cut_tokens {syn : Syntactics} (hsyn : syn.Regular) {s : State} (hs : s.Regular)
    (before content : Bytes) : Cut before (tokens syn s before content) := by
  fun_induction tokens syn s before content with
  | case1 => exact .nil _
  | case2 s before b rest w m =>
    rename_i ih
    have hmove : m.InLine w := s.inLine_move hsyn hs rfl
    refine .cons ?_ (fun hword => ?_) (ih (hs.after hmove.tame))
    · by_cases hm : m = .newline
      · exact .inl (hmove.take_newline hm)
      · exact .inr (hmove.covers.line hm)
    · obtain ⟨_, _, hstart, hwhole⟩ := State.take_of_isWord hword
      have hwhole : (b :: rest).take m.width = w.word := hwhole
      refine ⟨hwhole ▸ Window.word_isWord hstart, ((Window.isWordStart_iff rfl).mp hstart).2, ?_⟩
      rw [textOf_tokens]
      exact State.head?_drop_of_isWord rfl hword

end SymbolRename
