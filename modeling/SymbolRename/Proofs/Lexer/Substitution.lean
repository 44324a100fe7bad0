import SymbolRename.Proofs.Lexer.WholeWords

/-!
# Replacing the words of code

In the languages whose words stand apart every word is neutral, and the pieces of a text are
its tokens. When every word of code is replaced by a word, no comment or literal begins or ends
elsewhere, so the words of code of the new text are the new words.
-/

namespace SymbolRename

section

variable {syn : Syntactics} (hsyn : syn.Plain)

include hsyn

theorem Syntactics.Plain.regular : syn.Regular :=
  ⟨hsyn.lineComments, fun marks hmarks =>
    ⟨.inl (hsyn.blockComments marks hmarks).1, .inl (hsyn.blockComments marks hmarks).2⟩,
    hsyn.literals⟩

theorem Syntactics.Plain.isNeutral (w : Bytes) : syn.IsNeutral w := by
  refine ⟨fun h => ?_, fun h => ?_, fun h => ?_, fun marks hmarks hword => ?_⟩
  · rw [hsyn.formatLiterals] at h
    cases h
  · rw [hsyn.rawLiterals] at h
    cases h
  · rw [hsyn.charLiterals] at h
    cases h
  · obtain ⟨x, hx⟩ := List.exists_mem_of_ne_nil _ hword.1.1
    have hbyte := hword.1.2 x hx
    rw [((hsyn.blockComments marks hmarks).1.2 x (List.mem_of_mem_drop hx)).1] at hbyte
    cases hbyte

theorem Syntactics.Plain.admits {f : Bytes → Bytes} (hf : Bytes.MapsWords f) : syn.Admits f :=
  ⟨hf, fun w => .inr ⟨hsyn.isNeutral w, hsyn.isNeutral (f w)⟩⟩

/-- In code every word is taken whole. -/
theorem Lexer.State.isWord_move {s : State} {b : UInt8} {w : Window}
    (hhead : w.rest.head? = some b) :
    (s.move syn b w).isWord = (decide (s.mode = .code) && w.isWordStart) := by
  rw [Bool.eq_iff_iff, Bool.and_eq_true, decide_eq_true_eq]
  constructor
  · intro hword
    obtain ⟨_, hmode, hstart, _⟩ := take_of_isWord hword
    exact ⟨hmode, hstart⟩
  · rintro ⟨hmode, hstart⟩
    have hb := ((Window.isWordStart_iff hhead).mp hstart).1
    rw [move_eq_word hmode hb (regionMove?_eq_none hsyn.regular hhead hb (.inl hsyn.rawLiterals))
      hstart]
    rfl

/-- The pieces of a text are its tokens. -/
theorem Lexer.pieces_eq_tokens (s : State) (before content : Bytes) :
    pieces syn s before content = tokens syn s before content := by
  fun_induction pieces syn s before content with
  | case1 => simp [tokens]
  | case2 s before b rest w m ih =>
    have hcode : (decide (s.mode = .code) && w.isWordStart) = m.isWord :=
      (State.isWord_move hsyn rfl).symm
    rw [tokens_cons, ih, hcode]
    rfl

theorem Lexer.codeWords_eq (content : Bytes) :
    codeWords syn content = codes (tokens syn {} [] content) := by
  unfold codeWords
  rw [pieces_eq_tokens hsyn]
  rfl

theorem Lexer.substitute_eq (f : Bytes → Bytes) (content : Bytes) :
    substitute syn f content = textOf ((tokens syn {} [] content).map (Piece.map f)) := by
  unfold substitute
  rw [pieces_eq_tokens hsyn]

/-- The words of code in the new text are the new words. -/
theorem Lexer.codeWords_substitute {f : Bytes → Bytes} (hf : Bytes.MapsWords f)
    (content : Bytes) : codeWords syn (substitute syn f content) = (codeWords syn content).map f := by
  rw [substitute_eq hsyn, codeWords_eq hsyn, codeWords_eq hsyn,
    tokens_start_map hsyn.regular (hsyn.admits hf), codes_map]

/-- Replacing words twice is replacing them once. -/
theorem Lexer.substitute_substitute {f : Bytes → Bytes} (hf : Bytes.MapsWords f)
    (g : Bytes → Bytes) (content : Bytes) :
    substitute syn g (substitute syn f content) = substitute syn (fun w => g (f w)) content := by
  rw [substitute_eq hsyn, substitute_eq hsyn, substitute_eq hsyn,
    tokens_start_map hsyn.regular (hsyn.admits hf), List.map_map]
  exact congrArg textOf (List.map_congr_left fun p _ => Piece.map_map f g p)

theorem Lexer.contains_of_mem_codeWords {content word : Bytes} (h : word ∈ codeWords syn content) :
    Bytes.contains word content = true := by
  rw [codeWords_eq hsyn] at h
  have hcontains := contains_of_mem_codes h
  rwa [textOf_tokens] at hcontains

end

/-- What is done to words that do not occur does not matter. -/
theorem Lexer.substitute_congr {syn : Syntactics} {f g : Bytes → Bytes} {content : Bytes}
    (h : ∀ w ∈ codeWords syn content, f w = g w) :
    substitute syn f content = substitute syn g content := by
  unfold substitute
  refine congrArg textOf (List.map_congr_left fun p hp => ?_)
  unfold Piece.map
  split
  · rename_i hcode
    rw [h p.text (List.mem_map.mpr ⟨p, List.mem_filter.mpr ⟨hp, hcode⟩, rfl⟩)]
  · rfl

/-- A text whose words are all kept stays as it is. -/
theorem Lexer.substitute_eq_self {syn : Syntactics} {f : Bytes → Bytes} {content : Bytes}
    (h : ∀ w ∈ codeWords syn content, f w = w) : substitute syn f content = content := by
  rw [substitute_congr (g := id) h]
  unfold substitute
  have hid : Piece.map id = id := by
    funext p
    unfold Piece.map
    split <;> rfl
  rw [hid, List.map_id, textOf_pieces]

end SymbolRename
