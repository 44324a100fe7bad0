import SymbolRename.Proofs.Lexer.Renaming
import Mathlib.Data.List.Basic

/-!
# The whole identifiers of a text

Every whole identifier of a text is a word of code, or stands in what is left of the text
without its words of code: `Lexer.Cut.mem_words_append`.
-/

namespace SymbolRename

/-! ### The words of a text -/

/-- The maximal runs of identifier bytes, in order. -/
def Bytes.words : Bytes → List Bytes
  | [] => []
  | b :: rest =>
    if isIdentifierByte b then
      (b :: rest).takeWhile isIdentifierByte :: words (rest.dropWhile isIdentifierByte)
    else words rest
termination_by content => content.length
decreasing_by
  · have hle := (List.dropWhile_sublist isIdentifierByte (l := rest)).length_le
    simp only [List.length_cons]
    omega
  · simp

theorem Bytes.words_other {b : UInt8} (hb : isIdentifierByte b = false) (rest : Bytes) :
    words (b :: rest) = words rest := by
  rw [words, hb]
  rfl

theorem Bytes.words_word {u rest : Bytes} (hu : u.IsWord)
    (hend : rest.head?.any isIdentifierByte = false) : words (u ++ rest) = u :: words rest := by
  obtain ⟨b, u, rfl⟩ := List.exists_cons_of_ne_nil hu.1
  have hdrop : (u ++ rest).dropWhile isIdentifierByte = rest := by
    rw [List.dropWhile_append_of_pos fun x hx => hu.2 x (List.mem_cons_of_mem b hx)]
    cases rest with
    | nil => rfl
    | cons x rest =>
      have hx : isIdentifierByte x = false := by simpa using hend
      simp [hx]
  rw [List.cons_append, words, if_pos (hu.2 b List.mem_cons_self), ← List.cons_append,
    takeWhile_word hu hend, hdrop]

/-- A text that begins with a word splits behind it. -/
theorem Bytes.split_word {b : UInt8} (hb : isIdentifierByte b = true) (rest : Bytes) :
    Bytes.IsWord ((b :: rest).takeWhile isIdentifierByte) ∧
      (b :: rest).takeWhile isIdentifierByte ++ rest.dropWhile isIdentifierByte = b :: rest ∧
      (rest.dropWhile isIdentifierByte).head?.any isIdentifierByte = false := by
  have hsplit : (b :: rest).takeWhile isIdentifierByte ++ rest.dropWhile isIdentifierByte =
      b :: rest := by
    rw [List.takeWhile_cons_of_pos hb, List.cons_append, List.takeWhile_append_dropWhile]
  obtain ⟨hdrop, hend⟩ := split_takeWhile isIdentifierByte (b :: rest)
  rw [List.append_cancel_left (hdrop.trans hsplit.symm)] at hend
  exact ⟨⟨by simp [hb], fun x hx => List.mem_takeWhile_imp hx⟩, hsplit, hend⟩

/-- Texts that do not meet within a word have their words one after the other. -/
theorem Bytes.words_append {a b : Bytes}
    (h : a.getLast?.any isIdentifierByte = false ∨ b.head?.any isIdentifierByte = false) :
    words (a ++ b) = words a ++ words b := by
  fun_induction words a with
  | case1 => rfl
  | case2 x a hx ih =>
    obtain ⟨hisWord, hsplit, hend⟩ := split_word hx a
    generalize a.dropWhile isIdentifierByte = more at hsplit hend ih ⊢
    have hlast : more.getLast?.any isIdentifierByte = false ∨
        b.head?.any isIdentifierByte = false := by
      refine h.imp_left fun hlast => ?_
      rw [← hsplit] at hlast
      cases more with
      | nil => rfl
      | cons y more => rwa [List.getLast?_append_cons] at hlast
    have hfollow : (more ++ b).head?.any isIdentifierByte = false := by
      cases more with
      | nil =>
        rcases h with h | h
        · rw [← hsplit, List.append_nil, List.getLast?_eq_some_getLast hisWord.1, Option.any_some,
            hisWord.2 _ (List.getLast_mem hisWord.1)] at h
          cases h
        · exact h
      | cons y more => exact hend
    rw [List.cons_append, List.cons_append, ← ih hlast, ← words_word hisWord hfollow, ← List.append_assoc, hsplit]
    rfl
  | case3 x a hx ih =>
    rw [List.cons_append, words_other (by simpa using hx)]
    refine ih (h.imp_left fun hlast => ?_)
    cases a with
    | nil => rfl
    | cons y a => rwa [List.getLast?_cons_cons] at hlast

/-- The words of a text stand apart in it. -/
theorem Bytes.exists_of_mem_words {w content : Bytes} (h : w ∈ words content) :
    w.IsWord ∧ ∃ front rest, content = front ++ w ++ rest ∧
      front.getLast?.any isIdentifierByte = false ∧ rest.head?.any isIdentifierByte = false := by
  fun_induction words content with
  | case1 => exact absurd h List.not_mem_nil
  | case2 b more hb ih =>
    obtain ⟨hisWord, hsplit, hend⟩ := split_word hb more
    generalize (b :: more).takeWhile isIdentifierByte = u at h hisWord hsplit
    generalize more.dropWhile isIdentifierByte = left at h ih hsplit hend
    rcases List.mem_cons.mp h with rfl | h
    · exact ⟨hisWord, [], left, by rw [List.nil_append, hsplit], rfl, hend⟩
    · obtain ⟨hw, front, rest, hcontent, hfront, hrest⟩ := ih h
      refine ⟨hw, u ++ front, rest, ?_, ?_, hrest⟩
      · rw [← hsplit, hcontent]
        simp only [List.append_assoc]
      · cases front with
        | nil =>
          obtain ⟨x, w, rfl⟩ := List.exists_cons_of_ne_nil hw.1
          rw [hcontent] at hend
          have hx : isIdentifierByte x = false := hend
          rw [hw.2 x List.mem_cons_self] at hx
          cases hx
        | cons x front => rwa [List.getLast?_append_cons]
  | case3 b more hb ih =>
    obtain ⟨hw, front, rest, hcontent, hfront, hrest⟩ := ih h
    refine ⟨hw, b :: front, rest, by rw [hcontent]; rfl, ?_, hrest⟩
    cases front with
    | nil => simpa using hb
    | cons x front => rwa [List.getLast?_cons_cons]

theorem Bytes.contains_of_mem_words {w content : Bytes} (h : w ∈ words content) :
    contains w content = true := by
  obtain ⟨_, front, rest, rfl, _⟩ := exists_of_mem_words h
  exact contains_iff.mpr ⟨front, rest, by simp⟩

/-! ### Words of code and the rest -/

/-- The text without its words of code. -/
def Lexer.outside (ps : List Piece) : Bytes := textOf (ps.filter (!·.isCode))

theorem Lexer.outside_map (f : Bytes → Bytes) (ps : List Piece) :
    outside (ps.map (Piece.map f)) = outside ps := by
  unfold outside
  induction ps with
  | nil => rfl
  | cons p ps ih =>
    cases hcode : p.isCode with
    | true => simpa [hcode] using ih
    | false =>
      have hp : p.map f = p := by simp [Piece.map, hcode]
      simp only [List.map_cons, List.filter_cons, hp, hcode, Bool.not_false, if_true, textOf,
        List.flatMap_cons] at ih ⊢
      rw [ih]

theorem Lexer.codes_map (f : Bytes → Bytes) (ps : List Piece) :
    codes (ps.map (Piece.map f)) = (codes ps).map f := by
  unfold codes
  induction ps with
  | nil => rfl
  | cons p ps ih =>
    cases hcode : p.isCode with
    | false => simpa [hcode] using ih
    | true => simpa [hcode, Piece.map_text] using ih

/-- The words of a text that is cut well are its words of code and the words of the rest. The
induction is on the pieces; `front` is the rest of what was passed. -/
theorem Lexer.Cut.mem_words_append {before : Bytes} {ps : List Piece} (h : Cut before ps)
    {front : Bytes} (hfront : front.getLast?.any isIdentifierByte = true →
      before.head?.any isIdentifierByte = true) {w : Bytes} :
    w ∈ Bytes.words (front ++ textOf ps) ↔
      w ∈ codes ps ∨ w ∈ Bytes.words (front ++ outside ps) := by
  induction h generalizing front with
  | nil => simp [codes, outside]
  | @cons before p ps hline hcode h ih =>
    cases hp : p.isCode with
    | true =>
      obtain ⟨hword, hbefore, hend⟩ := hcode hp
      have hclear : front.getLast?.any isIdentifierByte = false := by
        refine Bool.eq_false_iff.mpr fun hlast => ?_
        rw [hfront hlast] at hbefore
        cases hbefore
      have htext : textOf (p :: ps) = p.text ++ textOf ps := rfl
      have houtside : outside (p :: ps) = outside ps := by simp [outside, hp]
      have hcodes : codes (p :: ps) = p.text :: codes ps := by simp [codes, hp]
      have hrest : w ∈ Bytes.words (front ++ textOf ps) ↔
          w ∈ codes ps ∨ w ∈ Bytes.words (front ++ outside ps) := ih fun hlast => by
        rw [hclear] at hlast
        cases hlast
      rw [htext, houtside, hcodes, Bytes.words_append (.inl hclear), Bytes.words_word hword hend,
        List.mem_append, List.mem_cons, List.mem_cons, or_left_comm, ← List.mem_append,
        ← Bytes.words_append (.inl hclear), hrest, or_assoc]
    | false =>
      have htext : front ++ textOf (p :: ps) = front ++ p.text ++ textOf ps := by
        rw [List.append_assoc]
        rfl
      have houtside : front ++ outside (p :: ps) = front ++ p.text ++ outside ps := by
        rw [List.append_assoc]
        simp [outside, hp, textOf]
      have hcodes : codes (p :: ps) = codes ps := by simp [codes, hp]
      rw [htext, houtside, hcodes]
      refine ih fun hlast => ?_
      rw [List.head?_append, List.head?_reverse]
      cases hp : p.text.getLast? with
      | none =>
        rw [List.getLast?_append, hp] at hlast
        exact hfront hlast
      | some x =>
        rw [List.getLast?_append, hp] at hlast
        exact hlast

theorem Lexer.head?_textOf_map {f : Bytes → Bytes} (hf : Bytes.MapsWords f) {before : Bytes}
    {ps : List Piece} (h : Cut before ps) :
    (textOf (ps.map (Piece.map f))).head?.any isIdentifierByte =
      (textOf ps).head?.any isIdentifierByte := by
  induction h with
  | nil => rfl
  | @cons before p ps hline hcode h ih =>
    simp only [List.map_cons, textOf, List.flatMap_cons] at ih ⊢
    rw [Piece.map_text, List.head?_append, List.head?_append]
    split
    · rename_i hp
      have hword := (hcode hp).1
      have hhead : ∀ {u : Bytes} {o : Option UInt8}, u.IsWord →
          (u.head?.or o).any isIdentifierByte = true := by
        intro u o hu
        obtain ⟨x, u, rfl⟩ := List.exists_cons_of_ne_nil hu.1
        exact hu.2 x List.mem_cons_self
      rw [hhead hword, hhead (hf _ hword)]
    · cases p.text.head? with
      | none => exact ih
      | some x => rfl

/-- Words for words leave a text cut well. -/
theorem Lexer.Cut.map {f : Bytes → Bytes} (hf : Bytes.MapsWords f) {before before' : Bytes}
    {ps : List Piece} (h : Cut before ps)
    (hbefore : before'.head?.any isIdentifierByte = before.head?.any isIdentifierByte) :
    Cut before' (ps.map (Piece.map f)) := by
  induction h generalizing before' with
  | nil => exact .nil _
  | @cons before p ps hline hcode h ih =>
    rw [List.map_cons]
    refine .cons ?_ (fun hp => ?_) (ih ?_)
    · rw [Piece.map_text]
      split
      · rename_i hp
        exact .inr (hf _ (hcode hp).1).newline_not_mem
      · exact hline
    · rw [Piece.map_isCode] at hp
      obtain ⟨hword, hclear, hend⟩ := hcode hp
      rw [Piece.map_text, if_pos hp, head?_textOf_map hf h, hbefore]
      exact ⟨hf _ hword, hclear, hend⟩
    · rw [Piece.map_text]
      split
      · rename_i hp
        have hword := (hcode hp).1
        rw [head?_reverse_append hword.1, head?_reverse_append (hf _ hword).1,
          getLast?_any_of_isWord hword, getLast?_any_of_isWord (hf _ hword)]
      · rw [List.head?_append, List.head?_append]
        cases p.text.reverse.head? with
        | none => exact hbefore
        | some x => rfl

end SymbolRename
