import SymbolRename.Proofs.Lexer.Regions

/-!
# The letters before a quote

The lexer takes the letters of a Rust raw literal with its opening quote, so no use of a name
begins in such a literal and a rename leaves its bytes alone. Any other word before a quote is
read as a word of code: `Source.literal_letters`.
-/

namespace SymbolRename

/-- The letters that begin a raw literal. -/
def Literal.rawLetters : List Bytes := [bytes "r", bytes "br", bytes "cr"]

/-- The hash marks and the quote that open the text of a raw literal behind its letters. -/
def Literal.rawOpener (hashes : Nat) : Bytes := List.replicate hashes 0x23 ++ [0x22]

/-- The quote and the hash marks that close a raw literal. -/
def Literal.rawCloser (hashes : Nat) : Bytes := 0x22 :: List.replicate hashes 0x23

/-- A raw literal with its letters and marks. -/
def Literal.raw (letters : Bytes) (hashes : Nat) (body : Bytes) : Bytes :=
  letters ++ rawOpener hashes ++ (body ++ rawCloser hashes)

section

variable {path : Path} {name : String} {front tail rest letters body : Bytes} {hashes : Nat}
  {s : Lexer.State}

theorem Literal.isWord_of_mem_rawLetters (hletters : letters ∈ rawLetters) : letters.IsWord := by
  simp only [rawLetters, List.mem_cons, List.not_mem_nil, or_false] at hletters
  rcases hletters with rfl | rfl | rfl <;> exact Bytes.isWord_of_isValidIdentifier (by decide)

/-- A word that nothing of a word stands before or behind is the word of its window. -/
theorem Lexer.Window.word_eq {before word : Bytes} (hword : word.IsWord)
    (hrest : rest.head?.any isIdentifierByte = false) :
    Window.word ⟨before, word ++ rest⟩ = word := Bytes.takeWhile_word hword hrest

theorem Lexer.Window.isWordStart_of_isWord {before word : Bytes} (hword : word.IsWord)
    (hbefore : before.head?.any isIdentifierByte = false) :
    Window.isWordStart ⟨before, word ++ rest⟩ = true := by
  obtain ⟨b, word, rfl⟩ := List.exists_cons_of_ne_nil hword.1
  have hb := hword.2 b List.mem_cons_self
  simp [Window.isWordStart, hb, hbefore]

/-- A raw opener stands where its letters, its hash marks and a quote do. -/
theorem Lexer.Window.rawOpener?_eq_some {before : Bytes} (hletters : letters ∈ Literal.rawLetters) :
    Window.rawOpener? ⟨before, letters ++ Literal.rawOpener hashes ++ tail⟩ =
      some (letters.length, hashes) := by
  have hrest : (Literal.rawOpener hashes ++ tail).head?.any isIdentifierByte = false := by
    cases hashes <;> rfl
  have hcount : ((Literal.rawOpener hashes ++ tail).takeWhile (· == 0x23)).length = hashes := by
    rw [Literal.rawOpener, List.append_assoc,
      List.takeWhile_append_of_pos fun b hb => by simp [List.eq_of_mem_replicate hb]]
    simp
  have hquote : ((Literal.rawOpener hashes ++ tail).drop hashes).head? = some 0x22 := by
    rw [Literal.rawOpener, List.append_assoc, List.drop_left' List.length_replicate]
    rfl
  unfold rawOpener?
  rw [List.append_assoc, word_eq (Literal.isWord_of_mem_rawLetters hletters) hrest]
  simp only [List.drop_left, hcount, hquote, and_true]
  exact if_pos (List.contains_iff_mem.mpr hletters)

/-- No raw opener stands where another word does. -/
theorem Lexer.Window.rawOpener?_eq_none {before word : Bytes} (hword : word.IsWord)
    (hrest : rest.head?.any isIdentifierByte = false) (hother : word ∉ Literal.rawLetters) :
    Window.rawOpener? ⟨before, word ++ rest⟩ = none := by
  unfold rawOpener?
  rw [word_eq hword hrest]
  exact if_neg fun h => hother (List.contains_iff_mem.mp h.1)

/-- The move in code at the beginning of a word: a raw opener, or else the word. -/
theorem Lexer.State.move_at_word {syn : Syntactics} (hsyn : syn.Regular) (hcode : s.mode = .code)
    {before word : Bytes} (hword : word.IsWord) (hbefore : before.head?.any isIdentifierByte = false)
    (hrest : rest.head?.any isIdentifierByte = false) {b : UInt8} (hhead : word.head? = some b) :
    s.move syn b ⟨before, word ++ rest⟩ =
      ((if syn.rawLiterals then Window.rawOpener? ⟨before, word ++ rest⟩ else none).map
        fun (letters, hashes) => .openRawLiteral letters hashes).getD (.word word) := by
  have hstart : Window.isWordStart ⟨before, word ++ rest⟩ = true :=
    Window.isWordStart_of_isWord hword hbefore
  obtain ⟨more, rfl⟩ := List.head?_eq_some_iff.mp hhead
  have hb : isIdentifierByte b = true := hword.2 b List.mem_cons_self
  have hregion := regionMove?_eq (s := s) hsyn (w := ⟨before, b :: more ++ rest⟩) rfl hb
  rw [hstart, Bool.and_true] at hregion
  have hline : b ≠ Bytes.newline := by
    rintro rfl
    cases hb
  unfold move codeMove
  rw [if_neg hline, hcode]
  simp only [hregion, hstart, if_true, Window.word_eq hword hrest]

/-- In Rust code a raw literal is passed over with its letters and marks. -/
theorem Lexer.passes_rawOpener (hletters : letters ∈ Literal.rawLetters) (hcode : s.mode = .code)
    {before : Bytes} (hbefore : before.head?.any isIdentifierByte = false) (hashes : Nat)
    (tail : Bytes) :
    Passes Language.rust.syntactics tail s before (letters ++ Literal.rawOpener hashes)
      (s.after (.openRawLiteral letters.length hashes)) := by
  have hword := Literal.isWord_of_mem_rawLetters hletters
  obtain ⟨b, hhead⟩ : ∃ b, letters.head? = some b := Option.ne_none_iff_exists'.mp fun hnil =>
    hword.1 (List.head?_eq_none_iff.mp hnil)
  have hends : (Literal.rawOpener hashes ++ tail).head?.any isIdentifierByte = false := by
    cases hashes <;> rfl
  have hmove := State.move_at_word (Language.regular_syntactics .rust) hcode hword hbefore hends hhead
  rw [← List.append_assoc, Window.rawOpener?_eq_some hletters] at hmove
  change _ = Move.openRawLiteral letters.length hashes at hmove
  have hwidth : (Move.openRawLiteral letters.length hashes).width =
      (letters ++ Literal.rawOpener hashes).length := by
    simp [Move.width, Literal.rawOpener, Nat.add_assoc]
  have hfirst : (letters ++ Literal.rawOpener hashes).head? = some b := by
    rw [List.head?_append, hhead, Option.some_or]
  exact Passes.of_move hfirst hmove hwidth rfl

/-- The quote and hash marks that close a raw literal lead back to code. -/
theorem Lexer.passes_rawCloser (syn : Syntactics) (hs : s.mode = .rawLiteral hashes)
    (before rest : Bytes) :
    ∃ t, Passes syn rest s before (Literal.rawCloser hashes) t ∧ t.mode = .code := by
  have hmove : s.move syn 0x22 ⟨before, Literal.rawCloser hashes ++ rest⟩ =
      .closeRawLiteral hashes := by
    have hstands : Window.closesRaw ⟨before, Literal.rawCloser hashes ++ rest⟩ hashes = true :=
      Bytes.startsWith_iff.mpr ⟨rest, rfl⟩
    unfold State.move
    rw [if_neg (by decide), hs]
    simp only [hstands, if_true]
  have hwidth : (Move.closeRawLiteral hashes).width = (Literal.rawCloser hashes).length := by
    simp [Move.width, Literal.rawCloser, Nat.add_comm]
  exact ⟨_, Passes.of_move rfl hmove hwidth rfl, rfl⟩

/-- In Rust code a raw literal is passed over. -/
theorem Lexer.passes_raw (hletters : letters ∈ Literal.rawLetters) (hcode : s.mode = .code)
    {before : Bytes} (hbefore : before.head?.any isIdentifierByte = false)
    (hbody : Bytes.contains (Literal.rawCloser hashes) body = false) (rest : Bytes) :
    ∃ t, Passes Language.rust.syntactics rest s before (Literal.raw letters hashes body) t ∧
      t.mode = .code := by
  have hopens := passes_rawOpener hletters hcode hbefore hashes (body ++ Literal.rawCloser hashes ++ rest)
  obtain ⟨t, hpasses, ht⟩ := @passes_rawLiteral Language.rust.syntactics rest
    (s.after (.openRawLiteral letters.length hashes))
    ((letters ++ Literal.rawOpener hashes).reverse ++ before) body hashes rfl hbody
  obtain ⟨u, hcloses, hu⟩ := passes_rawCloser Language.rust.syntactics ht
    (body.reverse ++ ((letters ++ Literal.rawOpener hashes).reverse ++ before)) rest
  exact ⟨u, hopens.append (hpasses.append hcloses), hu⟩

/-- Only Rust has raw literals with hash marks. -/
theorem Language.eq_rust_of_rawLiterals {l : Language} (h : l.syntactics.rawLiterals = true) :
    l = .rust := by
  cases l with
  | rust => rfl
  | _ => cases h

/-- A word in code that opens no raw literal is read as a word of code. -/
theorem Lexer.exists_capture_of_word (hname : isValidIdentifier name = true)
    (hbehind : front.getLast?.any isIdentifierByte = false)
    (hrest : rest.head?.any isIdentifierByte = false)
    (hraw : Language.ofPath path = .rust → bytes name ∉ Literal.rawLetters)
    (hmeets : path.meetsInCode front (bytes name ++ rest) = true) :
    (∃ c ∈ captures path (front ++ (bytes name ++ rest)) name, c.kind.isExcluded = false ∧
        c.location.offset? (front ++ (bytes name ++ rest)) = some front.length) ∧
      path.meetsInCode (front ++ bytes name) rest = true := by
  have hword := Bytes.isWord_of_isValidIdentifier hname
  obtain ⟨b, hhead⟩ : ∃ b, (bytes name).head? = some b := Option.ne_none_iff_exists'.mp fun hnil =>
    hword.1 (List.head?_eq_none_iff.mp hnil)
  obtain ⟨s, hstate, hcode⟩ := Path.meetsInCode_iff.mp hmeets
  obtain ⟨⟨ps, s⟩, hread, rfl⟩ := Option.map_eq_some_iff.mp hstate
  have hmove : s.move (Language.ofPath path).syntactics b ⟨front.reverse ++ [], bytes name ++ rest⟩ =
      .word (bytes name) := by
    rw [State.move_at_word (Language.regular_syntactics _) hcode hword
      (by rwa [List.append_nil, List.head?_reverse]) hrest hhead]
    split
    · rename_i hlang
      rw [Window.rawOpener?_eq_none hword hrest (hraw (Language.eq_rust_of_rawLiterals hlang))]
      rfl
    · rfl
  have hwidth : (Move.word (bytes name)).width = (bytes name).length :=
    Nat.max_eq_right (List.length_pos_iff.mpr hword.1)
  constructor
  · obtain ⟨htokens, hfront⟩ := tokens_of_read? hread
    rw [tokens_append hhead hmove hwidth] at htokens
    have hmem : front.length ∈ Rewrite.offsets (bytes name) 0
        (path.tokens (front ++ (bytes name ++ rest))) := by
      rw [Path.tokens, htokens, Rewrite.offsets_append, hfront, Nat.zero_add]
      refine List.mem_append_right _ ?_
      rw [Rewrite.offsets, if_pos (by simp [Move.isWord])]
      exact List.mem_cons_self
    have hne : name ≠ "" := fun hnil => hword.1 (bytes_eq_nil_iff.mpr hnil)
    have hall := standsApartAt_offsets_captures path hne (front ++ (bytes name ++ rest))
    obtain ⟨i, hi, hget⟩ := List.mem_iff_getElem.mp hmem
    have hstands := hall.get (hall.length_eq ▸ hi) hi
    rw [List.get_eq_getElem, List.get_eq_getElem, hget] at hstands
    obtain ⟨c, hc, heq⟩ := List.mem_map.mp (List.getElem_mem (hall.length_eq ▸ hi))
    obtain ⟨hc, hkind⟩ := List.mem_filter.mp hc
    rw [← heq] at hstands
    exact ⟨c, hc, by simpa using hkind, hstands.offset?_eq⟩
  · rw [List.append_nil] at hmove
    have hpart := @read?_move _ _ _ _ _ [] _ hhead _ hmove hwidth
    rw [List.append_nil, read?] at hpart
    exact Path.meetsInCode_iff.mpr ⟨s.after (.word (bytes name)),
      Path.stateBehind?_append hstate hpart, hcode⟩

/-- A rename leaves a part that is passed over as it is, between what it makes of the text before
and of the text behind. -/
theorem Lexer.Passes.rename_eq {text : Bytes} {t : State}
    (hmeets : path.stateBehind? front (text ++ rest) = some s)
    (h : Passes (Language.ofPath path).syntactics rest s front.reverse text t) (old new : Bytes) :
    ∃ ps rs, textOf ps = front ∧ textOf rs = rest ∧
      path.rename old new (front ++ (text ++ rest)) =
        textOf (ps.map (Piece.map (Bytes.replaceWord old new))) ++
          (text ++ textOf (rs.map (Piece.map (Bytes.replaceWord old new)))) := by
  obtain ⟨ps, qs, rs, htokens, hfront, rfl, hrest, hquiet⟩ := h.tokens_eq hmeets
  refine ⟨ps, rs, hfront, hrest, ?_⟩
  have hkept : qs.map (Piece.map (Bytes.replaceWord old new)) = qs :=
    (List.map_congr_left fun p hp => by simp [Piece.map, hquiet p hp]).trans (List.map_id qs)
  rw [Path.rename, htokens, List.map_append, List.map_append, hkept]
  simp only [textOf, List.flatMap_append]

/-- Where the lexer of a Rust file meets the letters and the opening quote of a raw literal in
code, no use of a name begins there, nor up to the end of the literal, and renaming leaves the
bytes of the literal alone. In every language, where it meets a name in code before a quote and
the two open no raw literal, it reports the name there as a use. -/
theorem Source.literal_letters (hname : isValidIdentifier name = true)
    (hbehind : front.getLast?.any isIdentifierByte = false) :
    (Language.ofPath path = .rust → ∀ letters ∈ Literal.rawLetters, ∀ hashes tail,
      path.meetsInCode front (letters ++ Literal.rawOpener hashes ++ tail) = true →
      Lexer.NoUseIn path (front ++ (letters ++ Literal.rawOpener hashes ++ tail)) name front.length
          (front.length + (letters ++ Literal.rawOpener hashes).length) ∧
      ∀ body rest, tail = body ++ Literal.rawCloser hashes ++ rest →
        Bytes.contains (Literal.rawCloser hashes) body = false →
        path.meetsInCode (front ++ Literal.raw letters hashes body) rest = true ∧
        Lexer.NoUseIn path (front ++ (Literal.raw letters hashes body ++ rest)) name front.length
          (front.length + (Literal.raw letters hashes body).length) ∧
        ∀ (d : Disk) (content new : String),
          bytes content = front ++ (Literal.raw letters hashes body ++ rest) →
          (bytes content).length < Count.limit →
          ∃ found changes before behind,
            Source.lexical.occurrences d path content name none = .ok found ∧
            Lexer.textOf before = front ∧ Lexer.textOf behind = rest ∧
            Rewrite.rewrite (bytes content) found name new = .ok
              (Lexer.textOf (before.map (.map (Bytes.replaceWord (bytes name) (bytes new)))) ++
                (Literal.raw letters hashes body ++
                  Lexer.textOf (behind.map (.map (Bytes.replaceWord (bytes name) (bytes new))))),
                changes)) ∧
    ∀ quote tail, quote = 0x22 ∨ quote = 0x27 →
      (Language.ofPath path = .rust → bytes name ∉ Literal.rawLetters) →
      path.meetsInCode front (bytes name ++ quote :: tail) = true →
      (∃ c ∈ Lexer.captures path (front ++ (bytes name ++ quote :: tail)) name,
        c.kind.isExcluded = false ∧
          c.location.offset? (front ++ (bytes name ++ quote :: tail)) = some front.length) ∧
      path.meetsInCode (front ++ bytes name) (quote :: tail) = true := by
  have hne : name ≠ "" := by
    rintro rfl
    cases hname
  constructor
  · intro hlang letters hletters hashes tail hmeets
    obtain ⟨s, hstate, hcode⟩ := Path.meetsInCode_iff.mp hmeets
    have hbefore : front.reverse.head?.any isIdentifierByte = false := by rwa [List.head?_reverse]
    have hopens := Lexer.passes_rawOpener hletters hcode hbefore hashes tail
    rw [← hlang] at hopens
    refine ⟨hopens.noUseIn hne hstate, ?_⟩
    rintro body rest rfl hbody
    obtain ⟨t, hpasses, ht⟩ := Lexer.passes_raw hletters hcode hbefore hbody rest
    rw [← hlang] at hpasses
    have hstands : letters ++ Literal.rawOpener hashes ++ (body ++ Literal.rawCloser hashes ++ rest) =
        Literal.raw letters hashes body ++ rest := by simp [Literal.raw]
    rw [hstands] at hstate
    refine ⟨Path.meetsInCode_iff.mpr ⟨t, hpasses.stateBehind? hstate, ht⟩,
      hpasses.noUseIn hne hstate, ?_⟩
    intro d content new hcontent hsize
    obtain ⟨found, changes, hfound, hrewrite, _⟩ :=
      Rewrite.rewrite_lexical path d content hsize hne new
    obtain ⟨before, behind, hfront, hrest, hrename⟩ := hpasses.rename_eq hstate (bytes name) (bytes new)
    rw [hcontent, hrename] at hrewrite
    exact ⟨found, changes, before, behind, hfound, hfront, hrest, hcontent ▸ hrewrite⟩
  · intro quote tail hquote hraw hmeets
    refine Lexer.exists_capture_of_word hname hbehind ?_ hraw hmeets
    rcases hquote with rfl | rfl <;> rfl

end

/-- A raw literal of Rust with a shorter closing mark in it, and a Python prefix. -/
theorem Source.literal_letters_two_files :
    Lexer.NoUseIn ⟨"a.rs"⟩ (bytes "br + br#\"br\" br\"# + br") "br" 5 17 ∧
      ∃ c ∈ Lexer.captures ⟨"a.py"⟩ (bytes "x = Rb'Rb'") "Rb", c.kind.isExcluded = false ∧
        c.location.offset? (bytes "x = Rb'Rb'") = some 4 := by
  have hrust := (@literal_letters ⟨"a.rs"⟩ "br" (bytes "br + ")
    (by decide) (by decide +kernel)).1 (by decide +kernel) (bytes "br") (by decide) 1
    (bytes "br\" br\"# + br") (by decide +kernel)
  have hpython := (@literal_letters ⟨"a.py"⟩ "Rb" (bytes "x = ")
    (by decide) (by decide +kernel)).2 0x27 (bytes "Rb'") (.inr rfl) (fun _ => by decide)
    (by decide +kernel)
  exact ⟨(hrust.2 (bytes "br\" br") (bytes " + br") (by decide +kernel) (by decide +kernel)).2.1,
    hpython.1⟩

/-- The letters of a byte literal of Rust and of a raw literal of Python are reported as uses. -/
theorem Source.literal_letters_are_not_all_kept :
    ((⟨"a.rs"⟩ : Path).meetsInCode (bytes "let b = 1; f(") (bytes "b\"x\");\n") = true ∧
      ¬ Lexer.NoUseIn ⟨"a.rs"⟩ (bytes "let b = 1; f(b\"x\");\n") "b" 13 17) ∧
    (⟨"a.py"⟩ : Path).meetsInCode (bytes "r = 1\nx = ") (bytes "r\"a\"\n") = true ∧
      ¬ Lexer.NoUseIn ⟨"a.py"⟩ (bytes "r = 1\nx = r\"a\"\n") "r" 10 14 := by
  decide +kernel

end SymbolRename
