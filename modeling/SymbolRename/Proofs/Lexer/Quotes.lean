import SymbolRename.Proofs.Lexer.Regions

/-!
# Text in quotes

In shell and Ruby files a quote in code opens a literal, and up to the quote that closes it no use
of a name begins, as long as the literal stays on its line: `Source.quoted_text_is_kept`. The lexer
gives a literal up at the end of its line, so what follows there is renamed.
-/

namespace SymbolRename

/-- The languages in which quotes open literals of one kind, which a line feed ends. -/
def Language.IsScript (l : Language) : Prop := l = .shell ∨ l = .ruby

/-- A literal in quotes that a line feed ends. -/
def Literal.quoted (quote : UInt8) : Literal := ⟨[quote], false, true, none⟩

section

variable {path : Path} {name : String} {front text tail rest : Bytes} {quote : UInt8}
  {s : Lexer.State}

/-- In code a quote opens a literal. -/
theorem Lexer.State.move_quote {l : Language} (hlang : l.IsScript)
    (hquote : quote = 0x22 ∨ quote = 0x27) (hcode : s.mode = .code) (before tail : Bytes) :
    s.move l.syntactics quote ⟨before, quote :: tail⟩ = .openLiteral (.quoted quote) := by
  have hmove : s.move l.syntactics quote ⟨before, quote :: tail⟩ =
      codeMove l.syntactics s quote ⟨before, quote :: tail⟩ := by
    unfold move
    rw [if_neg (by rcases hquote with rfl | rfl <;> decide), hcode]
  rw [hmove]
  rcases hlang with rfl | rfl <;> rcases hquote with rfl | rfl <;> rfl

/-- A literal is open as long as no quote closes it. -/
theorem Literal.open_upTo?_eq_none (quote : UInt8) :
    Literal.Open quote fun escaped text => upTo? quote escaped text = none where
  here {escaped b rest} h := by
    rw [upTo?] at h
    split at h
    · cases h
    · rename_i hhere
      exact Bool.eq_false_iff.mpr hhere
  next {escaped b rest} h := by
    rw [upTo?] at h
    split at h
    · cases h
    · exact Option.map_eq_none_iff.mp h

/-- A literal is open up to the quote that closes it. -/
theorem Literal.open_upTo?_eq_some (quote : UInt8) (rest : Bytes) :
    Literal.Open quote fun escaped text =>
      upTo? quote escaped (text ++ quote :: rest) = some text where
  here {escaped b more} h := by
    rw [List.cons_append, upTo?] at h
    split at h
    · cases h
    · rename_i hhere
      exact Bool.eq_false_iff.mpr hhere
  next {escaped b more} h := by
    rw [List.cons_append, upTo?] at h
    split at h
    · cases h
    · obtain ⟨found, hfound, heq⟩ := Option.map_eq_some_iff.mp h
      rw [hfound, (List.cons.inj heq).2]

/-- The quote that closes a literal stands behind its text. -/
theorem Literal.exists_of_upTo? {escaped : Bool} (h : upTo? quote escaped tail = some text) :
    ∃ rest, tail = text ++ quote :: rest := by
  induction tail generalizing escaped text with
  | nil => cases h
  | cons b tail ih =>
    rw [upTo?] at h
    split at h
    · rename_i hhere
      obtain rfl := Option.some.inj h
      have hb : b = quote := by simpa using (Bool.and_eq_true_iff.mp hhere).2
      exact ⟨tail, by rw [hb]; rfl⟩
    · obtain ⟨found, hfound, rfl⟩ := Option.map_eq_some_iff.mp h
      obtain ⟨rest, rfl⟩ := ih hfound
      exact ⟨rest, rfl⟩

/-- From a quote in code on, a text is passed over while its literal is open. -/
theorem Lexer.passes_quoted {l : Language} (hlang : l.IsScript) (before rest : Bytes)
    (hquote : quote = 0x22 ∨ quote = 0x27) (hcode : s.mode = .code)
    {Q : Bool → Bytes → Prop} (hopen : Literal.Open quote Q)
    (hrest : rest.head?.any isIdentifierByte = false) (htext : Q false text)
    (hline : Bytes.newline ∉ text) :
    ∃ t last, Passes l.syntactics rest s before (quote :: text) t ∧
      t.mode = .literal (.quoted quote) last ∧ Q last [] := by
  have hmove := State.move_quote hlang hquote hcode before (text ++ rest)
  obtain ⟨t, last, hpasses, ht, hlast⟩ := @passes_literal l.syntactics rest
    (s.after (.openLiteral (.quoted quote))) ([quote].reverse ++ before) text (.quoted quote) quote Q
    rfl rfl rfl hopen hrest false rfl htext (.inr hline)
  exact ⟨t, last, Passes.move [quote] rfl hmove rfl rfl hpasses, ht, hlast⟩

/-- The quote that closes a literal leads back to code. -/
theorem Lexer.passes_closing_quote (syn : Syntactics) (hquote : quote = 0x22 ∨ quote = 0x27)
    (hs : s.mode = .literal (.quoted quote) false) (before rest : Bytes) :
    ∃ t, Passes syn rest s before [quote] t ∧ t.mode = .code := by
  have hmove : s.move syn quote ⟨before, quote :: rest⟩ = .closeLiteral [quote] := by
    unfold State.move
    rw [hs]
    rcases hquote with rfl | rfl <;> rfl
  exact ⟨_, Passes.of_move rfl hmove rfl rfl, rfl⟩

/-- A line feed leads back to code out of a literal in quotes. -/
theorem Lexer.passes_newline (syn : Syntactics) {last : Bool}
    (hs : s.mode = .literal (.quoted quote) last) (before rest : Bytes) :
    ∃ t, Passes syn rest s before [Bytes.newline] t ∧ t.mode = .code := by
  have hmove : s.move syn Bytes.newline ⟨before, Bytes.newline :: rest⟩ = .newline := by
    rw [State.move, if_pos rfl]
  refine ⟨_, Passes.of_move rfl hmove rfl rfl, ?_⟩
  simp [State.after, State.afterNewline, hs, Literal.quoted]

/-- In shell and Ruby files, where a quote opens a literal in code: no use of a name begins in the
literal up to the quote that closes it, if that stands on the same line. Otherwise none begins
before the end of the line, and there the literal is given up. -/
theorem Source.quoted_text_is_kept (hlang : (Language.ofPath path).IsScript)
    (hname : isValidIdentifier name = true) (hquote : quote = 0x22 ∨ quote = 0x27)
    (hmeets : path.meetsInCode front (quote :: tail) = true) :
    (∀ body, Literal.upTo? quote false tail = some body → Bytes.newline ∉ body →
      Lexer.NoUseIn path (front ++ quote :: tail) name front.length
        (front.length + body.length + 2)) ∧
    ∀ line rest, tail = line ++ Bytes.newline :: rest → Bytes.newline ∉ line →
      Literal.upTo? quote false line = none →
      Lexer.NoUseIn path (front ++ quote :: tail) name front.length
        (front.length + line.length + 2) ∧
      path.meetsInCode (front ++ quote :: line ++ [Bytes.newline]) rest = true := by
  have hne : name ≠ "" := by
    rintro rfl
    cases hname
  obtain ⟨s, hstate, hcode⟩ := Path.meetsInCode_iff.mp hmeets
  constructor
  · intro body hbody hline
    obtain ⟨rest, rfl⟩ := Literal.exists_of_upTo? hbody
    obtain ⟨t, last, hpasses, ht, hlast⟩ := Lexer.passes_quoted hlang front.reverse
      (quote :: rest) hquote hcode (Literal.open_upTo?_eq_some quote rest)
      (by rcases hquote with rfl | rfl <;> rfl) hbody hline
    obtain rfl : last = false := by
      cases last with
      | false => rfl
      | true =>
        rw [List.nil_append, Literal.upTo?] at hlast
        simp at hlast
    obtain ⟨u, hcloses, _⟩ := Lexer.passes_closing_quote
      (Language.ofPath path).syntactics hquote ht ((quote :: body).reverse ++ front.reverse)
      rest
    have hall := hpasses.append hcloses
    have hstands : quote :: (body ++ quote :: rest) = quote :: body ++ [quote] ++ rest := by simp
    rw [hstands] at hstate ⊢
    have hno := hall.noUseIn hne hstate
    rwa [List.length_append, List.length_cons, List.length_singleton] at hno
  · rintro line rest rfl hline hopen
    obtain ⟨t, last, hpasses, ht, _⟩ := Lexer.passes_quoted hlang front.reverse
      (Bytes.newline :: rest) hquote hcode (Literal.open_upTo?_eq_none quote) rfl hopen hline
    obtain ⟨u, hends, hu⟩ := Lexer.passes_newline (Language.ofPath path).syntactics ht
      ((quote :: line).reverse ++ front.reverse) rest
    have hall := hpasses.append hends
    have hstands : quote :: (line ++ Bytes.newline :: rest) =
        quote :: line ++ [Bytes.newline] ++ rest := by simp
    rw [hstands] at hstate ⊢
    have hno := hall.noUseIn hne hstate
    rw [List.length_append, List.length_cons, List.length_singleton] at hno
    refine ⟨hno, Path.meetsInCode_iff.mpr ⟨u, ?_, hu⟩⟩
    rw [List.append_assoc]
    exact hall.stateBehind? hstate

end

/-- A shell line in which a quote of the other kind, an escaped quote and a comment mark stand in
the literal. -/
theorem Source.quoted_text_is_kept_shell :
    (⟨"a.sh"⟩ : Path).meetsInCode (bytes "foo=") (bytes "\"'\\\" # foo\" foo\n") = true ∧
      Lexer.NoUseIn ⟨"a.sh"⟩ (bytes "foo=\"'\\\" # foo\" foo\n") "foo" 4 15 ∧
      ¬ Lexer.NoUseIn ⟨"a.sh"⟩ (bytes "foo=\"'\\\" # foo\" foo\n") "foo" 4 20 := by
  have hmeets : (⟨"a.sh"⟩ : Path).meetsInCode (bytes "foo=") (bytes "\"'\\\" # foo\" foo\n") = true := by
    decide +kernel
  have hkept := (@quoted_text_is_kept ⟨"a.sh"⟩ "foo" (bytes "foo=") _ 0x22 (.inl (by decide +kernel))
    (by decide) (.inl rfl) hmeets).1 (bytes "'\\\" # foo") (by decide +kernel) (by decide +kernel)
  exact ⟨hmeets, hkept, by decide +kernel⟩

/-- The second line of a literal that spans lines is read as code, though the quote that closes
the literal stands behind it. -/
theorem Source.quoted_text_of_two_lines_is_not_kept :
    (Language.ofPath ⟨"a.sh"⟩ = .shell ∧ Language.ofPath ⟨"a.rb"⟩ = .ruby) ∧
      (Path.meetsInCode ⟨"a.sh"⟩ (bytes "x=") (bytes "\"a\nfoo\"\n") = true ∧
        Path.meetsInCode ⟨"a.rb"⟩ (bytes "x=") (bytes "\"a\nfoo\"\n") = true) ∧
      Literal.upTo? 0x22 false (bytes "a\nfoo\"\n") = some (bytes "a\nfoo") ∧
      ¬ Lexer.NoUseIn ⟨"a.sh"⟩ (bytes "x=\"a\nfoo\"\n") "foo" 2 9 ∧
      ¬ Lexer.NoUseIn ⟨"a.rb"⟩ (bytes "x=\"a\nfoo\"\n") "foo" 2 9 := by
  decide +kernel

end SymbolRename
