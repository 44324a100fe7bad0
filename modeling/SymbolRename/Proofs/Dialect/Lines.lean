import SymbolRename.Proofs.Dialect.Parts

/-!
# Positional and at-capture lines

A positional line and an at-capture line are read back by their dialect, in each of their spellings,
and the positional dialect reads no line in which something other than blanks and a numeral stands
behind the first word.
-/

namespace SymbolRename.Dialect

section

variable {c : Capture} {rest : List Char}

/-! ### Positional lines -/

/-- Behind the first word of a positional line stand two counts, an end position and a text. -/
theorem positionalFields?_word (lead : Blanks) {x : Char} {word : List Char}
    (hx : x.isAlpha = true ∨ x = '@') (hword : ∀ y ∈ word, isKindChar y = true)
    (hrest : rest.head?.all (!isKindChar ·) = true) :
    positionalFields? (lead.1 ++ x :: (word ++ rest)) = do
      let (row, cs) ← run? Text.isDecimal (← blanks? rest)
      let (column, cs) ← run? Text.isDecimal (← blanks? cs)
      let (_, cs) ← run? Text.isDecimal (← blanks? cs)
      let (_, cs) ← run? Text.isDecimal (← blanks? cs)
      return ⟨x :: word, row, column, ← lineText? (← blanks? cs)⟩ := by
  have hsolid : Text.isBlank x = false := by
    rcases hx with h | rfl
    · exact isBlank_of_isIdentifierChar (by simp [isIdentifierChar, Char.isAlphanum, h])
    · decide
  have hfirst : (!(x.isAlpha || x == '_' || x == '@')) = false := by
    rcases hx with h | rfl <;> simp [*]
  have htake : (word ++ rest).takeWhile isKindChar = word := by
    rw [List.takeWhile_append_of_pos hword]
    cases rest with
    | nil => simp
    | cons y rest =>
      have hy : isKindChar y = false := by simpa using hrest
      simp [hy]
  have hdrop : (x :: (word ++ rest)).drop (1 + word.length) = rest := by
    rw [Nat.add_comm, List.drop_succ_cons, List.drop_left]
  unfold positionalFields?
  rw [skipBlanks_blanks, skipBlanks_solid (by simp [hsolid])]
  simp only [List.head?_cons, List.drop_one, List.tail_cons, htake, hdrop, Option.bind_eq_bind,
    Option.bind_some, hfirst, Bool.false_eq_true, if_false]

/-- A positional line is read back. -/
theorem positionalFields?_print (s : PositionalSpelling) (htext : IsName c.text.toList) :
    positionalFields? (s.print c) =
      some ⟨c.kind.word.toList, numeral c.row, numeral c.location.column, c.text.toList⟩ := by
  obtain ⟨x, word, hcons⟩ := List.exists_cons_of_ne_nil (word_ne_nil c.kind)
  have hx : x.isAlpha = true := by
    cases h : c.kind <;> rw [h] at hcons <;> cases hcons <;> decide
  have hkind := hcons ▸ isKindChar_of_mem_word c.kind
  have hgap : ∀ (g : Gap) (q : Char → Bool) (rest : List Char),
      (∀ y, Text.isBlank y = true → q y = false) → (g.1 ++ rest).head?.all (!q ·) = true := by
    intro g q rest hq
    obtain ⟨y, more, hg⟩ := List.exists_cons_of_ne_nil g.2.1
    simp [hg, hq y (g.2.2 y (hg ▸ List.mem_cons_self))]
  have hdecimal : ∀ y, Text.isBlank y = true → Text.isDecimal y = false := fun y hy =>
    (Text.not_isWord_of_isBlank hy).2
  have hsolid : (c.text.toList ++ s.trail.1).head?.all (!Text.isBlank ·) = true := by
    obtain ⟨y, more, htail⟩ := List.exists_cons_of_ne_nil htext.ne_nil
    simp [htail, htext.solid y (htail ▸ List.mem_cons_self)]
  unfold PositionalSpelling.print
  rw [hcons, List.cons_append, positionalFields?_word s.lead (.inl hx)
    (fun y hy => hkind y (List.mem_cons_of_mem x hy))
    (hgap _ _ _ fun y hy => (not_isKindChar_of_isSeparator (isSeparator_of_isBlank hy)).1)]
  simp only [Option.bind_eq_bind, blanks?_gap _ (numeral_solid _ _), Option.bind_some,
    run?_numeral _ (hgap _ _ _ hdecimal), blanks?_gap _ hsolid]
  rw [← List.nil_append (c.text.toList ++ s.trail.1),
    lineText?_between ⟨[], nofun⟩ s.trail htext.solid htext.ne_nil]
  rfl

/-- The positional dialect reads no line where the first word ends with neither blanks nor a
numeral behind them. -/
theorem positionalFields?_eq_none (lead : Blanks) {x : Char} {word : List Char}
    (hx : x.isAlpha = true ∨ x = '@') (hword : ∀ y ∈ word, isKindChar y = true) (b : Blanks)
    {y : Char} (hy : Text.isBlank y = false ∧ isKindChar y = false ∧ Text.isDecimal y = false) :
    positionalFields? (lead.1 ++ x :: (word ++ (b.1 ++ y :: rest))) = none := by
  rw [positionalFields?_word lead hx hword
    (head?_blanks_append (fun z hz => (not_isKindChar_of_isSeparator (isSeparator_of_isBlank hz)).1) b
      (by simp [hy.2.1]))]
  obtain ⟨cs, hcs⟩ := b
  cases cs with
  | nil =>
    have hnone : blanks? (y :: rest) = none := by
      rw [blanks?, run?_eq_none (by simp [hy.1])]
      rfl
    simp [hnone]
  | cons z cs =>
    have hblanks : blanks? (z :: cs ++ y :: rest) = some (y :: rest) :=
      blanks?_gap ⟨z :: cs, List.cons_ne_nil z cs, hcs⟩ (by simp [hy.1])
    have hnone : run? Text.isDecimal (y :: rest) = none := run?_eq_none (by simp [hy.2.2])
    simp only [hblanks, Option.bind_eq_bind, Option.bind_some, hnone, Option.bind_none]

/-! ### At-capture lines -/

/-- The first character behind the blanks before a text. -/
theorem skipBlanks_text (b : Blanks) {text : List Char}
    (htext : ∀ x ∈ text, Text.isBlank x = false) (hne : text ≠ []) (rest : List Char) :
    skipBlanks (b.1 ++ (text ++ rest)) = text ++ rest := by
  obtain ⟨y, text, rfl⟩ := List.exists_cons_of_ne_nil hne
  rw [skipBlanks_blanks, skipBlanks_solid (by simp [htext y List.mem_cons_self])]

/-- Behind a colon that something follows, the rest is the text. -/
theorem tail_colon {cs : List Char} (h : skipBlanks cs = ':' :: rest) (hne : skipBlanks rest ≠ []) :
    tail cs = (lineText? rest).elim .unreadable .text := by
  unfold tail
  rw [h]
  dsimp only
  split
  · rename_i hnil
    cases hnil
  · rename_i more heq
    obtain rfl := (List.cons.inj heq).2
    split
    · rename_i hnil
      exact absurd hnil hne
    · rfl
  · rename_i hother
    exact absurd rfl (hother rest)

/-- The rest of a line behind its position is read as the text, after a colon if one stands there. -/
theorem tail_printText (s : AtCaptureSpelling) (htext : IsName c.text.toList) :
    tail (s.printText c) = .text (s.wrapping.wrap c.text.toList) := by
  have hsolid := s.wrapping.wrap_solid htext
  have hne := s.wrapping.wrap_ne_nil htext.ne_nil
  have hcolon : ':' ∉ s.wrapping.wrap c.text.toList := by
    have hmem := @IsName.not_mem _ htext ':' (by decide)
    cases s.wrapping <;> simp [Wrapping.wrap, hmem]
  have hskip := skipBlanks_text s.text hsolid hne s.trail.1
  have hread := lineText?_between s.text s.trail hsolid hne
  obtain ⟨y, more, hcons⟩ := List.exists_cons_of_ne_nil hne
  rw [hcons] at hskip hread hcolon
  unfold AtCaptureSpelling.printText colon
  rw [hcons]
  cases s.textColon with
  | none =>
    have hy : y ≠ ':' := fun heq => hcolon (heq ▸ List.mem_cons_self)
    rw [Option.elim_none, List.nil_append, tail, hskip, hread]
    simp [hy]
  | some b =>
    have hfirst : skipBlanks (b.1 ++ [':'] ++ (s.text.1 ++ (y :: more ++ s.trail.1))) =
        ':' :: (s.text.1 ++ (y :: more ++ s.trail.1)) := by
      rw [List.append_assoc, skipBlanks_blanks]
      rfl
    rw [Option.elim_some, tail_colon hfirst (by rw [hskip]; exact List.cons_ne_nil _ _), hread]
    rfl

/-- Neither a colon nor a text is taken for a hyphen. -/
theorem range?_printText (s : AtCaptureSpelling) (htext : IsName c.text.toList) :
    range? (s.printText c) = none := by
  have hsolid := s.wrapping.wrap_solid htext
  have hhyphen : '-' ∉ s.wrapping.wrap c.text.toList := by
    have hmem := @IsName.not_mem _ htext '-' (by decide)
    cases s.wrapping <;> simp [Wrapping.wrap, hmem]
  obtain ⟨y, more, hcons⟩ := List.exists_cons_of_ne_nil (s.wrapping.wrap_ne_nil htext.ne_nil)
  have hmark : mark? '-' (s.printText c) = none := by
    unfold AtCaptureSpelling.printText colon
    cases s.textColon with
    | none =>
      rw [hcons, Option.elim_none, List.nil_append]
      exact mark?_eq_none (hsolid y (hcons ▸ List.mem_cons_self))
        (fun heq => hhyphen (hcons ▸ heq ▸ List.mem_cons_self)) s.text _
    | some b =>
      rw [Option.elim_some, List.append_assoc]
      exact mark?_eq_none (by decide) (by decide) b _
  rw [range?, hmark]
  rfl

theorem range?_stop (s : Stop) (rest : List Char) : range? (s.print ++ rest) = some rest := by
  unfold range? Stop.print
  simp only [List.append_assoc, List.cons_append]
  rw [mark?_blanks s.hyphen (by decide)]
  simp only [Option.bind_eq_bind, Option.bind_some, pair?_print]
  rfl

/-- An at-capture line is read back. -/
theorem atCaptureFields?_print (s : AtCaptureSpelling) (htext : IsName c.text.toList) :
    atCaptureFields? (s.print c) = some ⟨c.kind.word.toList, numeral c.row,
      numeral c.location.column, s.wrapping.wrap c.text.toList⟩ := by
  generalize hposition : s.start.print c.row c.location.column = position
  have hcolon : (mark? ':' (colon s.kindColon ++
      (position ++ (s.stop.elim [] Stop.print ++ s.printText c)))).getD (colon s.kindColon ++
        (position ++ (s.stop.elim [] Stop.print ++ s.printText c))) =
      position ++ (s.stop.elim [] Stop.print ++ s.printText c) := by
    unfold colon
    cases s.kindColon with
    | none =>
      rw [Option.elim_none, List.nil_append, ← hposition]
      unfold PairBlanks.print
      rw [List.append_assoc, List.cons_append, mark?_eq_none (by decide) (by decide)]
      rfl
    | some b =>
      rw [Option.elim_some, List.append_assoc, List.singleton_append, mark?_blanks b (by decide)]
      rfl
  have hends : (colon s.kindColon ++
      (position ++ (s.stop.elim [] Stop.print ++ s.printText c))).head?.all (!isKindChar ·) = true := by
    have hblank : ∀ x, Text.isBlank x = true → isKindChar x = false := fun x hx =>
      (not_isKindChar_of_isSeparator (isSeparator_of_isBlank hx)).1
    unfold colon
    cases s.kindColon with
    | none =>
      rw [Option.elim_none, List.nil_append, ← hposition]
      unfold PairBlanks.print
      rw [List.append_assoc, List.cons_append]
      exact head?_blanks_append hblank s.start.opening (by simp; decide)
    | some b =>
      rw [Option.elim_some, List.append_assoc]
      exact head?_blanks_append hblank b (by simp; decide)
  unfold atCaptureFields? AtCaptureSpelling.print
  rw [hposition, mark?_blanks s.lead (by decide)]
  simp only [Option.bind_eq_bind, Option.bind_some, run?_word c.kind hends, hcolon]
  rw [← hposition, pair?_print]
  simp only [Option.bind_some]
  cases s.stop with
  | none =>
    rw [Option.elim_none, List.nil_append, range?_printText s htext, tail_printText s htext]
    rfl
  | some stop =>
    rw [Option.elim_some, range?_stop]
    simp only [tail_printText s htext]
    rfl

/-- The at-capture dialect reads no line that does not begin with its mark. -/
theorem atCaptureFields?_eq_none (b : Blanks) {x : Char} (hx : Text.isBlank x = false) (hne : x ≠ '@')
    (rest : List Char) : atCaptureFields? (b.1 ++ x :: rest) = none := by
  rw [atCaptureFields?, mark?_eq_none hx hne]
  rfl

end

end SymbolRename.Dialect
