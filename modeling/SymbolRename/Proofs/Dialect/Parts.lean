import SymbolRename.Proofs.Dialect.Spelling

/-!
# Reading the parts of a capture line

Blanks, numerals, kinds, positions and texts are read back where they stand, whatever follows them.
Each lemma is about one reader and the part that it reads.
-/

namespace SymbolRename

/-! ### Characters -/

/-- No blank belongs to words or numerals. -/
theorem Text.not_isWord_of_isBlank {c : Char} (h : isBlank c = true) :
    isWord c = false ∧ isDecimal c = false := by
  have hall : ∀ n ∈ [0x09, 0x0a, 0x0b, 0x0c, 0x0d, 0x20, 0x85, 0xa0, 0x1680, 0x2000, 0x2001, 0x2002,
      0x2003, 0x2004, 0x2005, 0x2006, 0x2007, 0x2008, 0x2009, 0x200a, 0x2028, 0x2029, 0x202f, 0x205f,
      0x3000], isWord (Char.ofNat n) = false ∧ isDecimal (Char.ofNat n) = false := by
    decide +kernel
  have hmem := hall c.toNat (by
    simp only [isBlank, Bool.or_eq_true, Bool.and_eq_true, decide_eq_true_eq, beq_iff_eq] at h
    simp only [List.mem_cons, List.not_mem_nil, or_false]
    omega)
  rwa [Char.ofNat_toNat] at hmem

/-- A character of valid identifiers. -/
def isIdentifierChar (c : Char) : Bool := c.isAlphanum || c == '_' || c == '$'

theorem isIdentifierChar_of_mem {name : String} (h : isValidIdentifier name = true) {c : Char}
    (hc : c ∈ name.toList) : isIdentifierChar c = true := by
  have hbytes : ∀ b ∈ String.utf8EncodeChar c, isIdentifierRest b = true := by
    intro b hb
    have hmem : b ∈ bytes name := by
      rw [bytes_eq_flatMap]
      exact List.mem_flatMap.mpr ⟨c, hc, hb⟩
    unfold isValidIdentifier at h
    cases hname : bytes name with
    | nil =>
      rw [hname] at hmem
      cases hmem
    | cons x rest =>
      rw [hname, isIdentifierBytes, Bool.and_eq_true, List.all_eq_true] at h
      rw [hname] at hmem
      rcases List.mem_cons.mp hmem with rfl | hmem
      · simp [isIdentifierRest, h.1]
      · exact h.2 b hmem
  rcases Nat.lt_or_ge c.toNat 0x80 with hlt | hge
  · have hall : ∀ n < 0x80, isIdentifierRest n.toUInt8 = true →
        isIdentifierChar (Char.ofNat n) = true := by decide +kernel
    rw [Utf8.encode_of_lt hlt] at hbytes
    have hchar := hall c.toNat hlt (hbytes _ List.mem_cons_self)
    rwa [Char.ofNat_toNat] at hchar
  · obtain ⟨b, more, hencode, _⟩ := Utf8.next_encode c []
    have hb : b ∈ String.utf8EncodeChar c := hencode ▸ List.mem_cons_self
    have hhigh := Utf8.le_of_mem_encode hge hb
    have hlow : ∀ n < 256, isIdentifierRest (UInt8.ofNat n) = true → n < 0x80 := by decide +kernel
    have hlt := hlow b.toNat b.toNat_lt (by rw [UInt8.ofNat_toNat]; exact hbytes b hb)
    have hle : 0x80 ≤ b.toNat := hhigh
    omega

/-- Identifiers hold no blanks. -/
theorem isBlank_of_isIdentifierChar {c : Char} (h : isIdentifierChar c = true) :
    Text.isBlank c = false := by
  have hlt : c.toNat < 0x80 := by
    simp only [isIdentifierChar, Bool.or_eq_true, beq_iff_eq] at h
    rcases h with (h | rfl) | rfl
    · exact Char.lt_of_isAlphanum h
    · decide
    · decide
  have hall : ∀ n < 0x80, isIdentifierChar (Char.ofNat n) = true →
      Text.isBlank (Char.ofNat n) = false := by decide +kernel
  have hc := hall c.toNat hlt
  rw [Char.ofNat_toNat] at hc
  exact hc h

namespace Dialect

theorem isDecimal_of_mem_numeral {n : Nat} {c : Char} (h : c ∈ numeral n) :
    Text.isDecimal c = true := by
  have hdigit := Count.isDigit_of_mem_toDigits h
  have hlt : c.toNat < 128 := Char.lt_of_isAlphanum (by simp [Char.isAlphanum, hdigit])
  rw [Text.isDecimal, if_pos hlt]
  exact hdigit

theorem numeral_ne_nil (n : Nat) : numeral n ≠ [] := Nat.toDigits_ne_nil

/-- Separators belong to no kind name and no numeral. -/
theorem not_isKindChar_of_isSeparator {c : Char} (h : isSeparator c = true) :
    isKindChar c = false ∧ Text.isDecimal c = false := by
  simp only [isSeparator, Bool.or_eq_true, beq_iff_eq] at h
  rcases h with h | rfl
  · obtain ⟨hword, hdecimal⟩ := Text.not_isWord_of_isBlank h
    refine ⟨?_, hdecimal⟩
    have hdot : c ≠ '.' := by
      rintro rfl
      cases h
    have hhyphen : c ≠ '-' := by
      rintro rfl
      cases h
    simp [isKindChar, hword, hdot, hhyphen]
  · decide

theorem isSeparator_of_isBlank {c : Char} (h : Text.isBlank c = true) : isSeparator c = true := by
  simp [isSeparator, h]

/-- Kinds are written in characters of kind names. -/
theorem isKindChar_of_mem_word (kind : CaptureKind) : ∀ c ∈ kind.word.toList, isKindChar c = true := by
  cases kind <;> exact List.all_eq_true.mp rfl

/-! ### Blanks and runs -/

section

variable {p : Char → Bool} {run rest : List Char} {c : Char}

/-- A reader goes past blanks. -/
@[simp] theorem skipBlanks_blanks (b : Blanks) (rest : List Char) :
    skipBlanks (b.1 ++ rest) = skipBlanks rest :=
  List.dropWhile_append_of_pos b.2

@[simp] theorem skipBlanks_gap (g : Gap) (rest : List Char) :
    skipBlanks (g.1 ++ rest) = skipBlanks rest :=
  List.dropWhile_append_of_pos g.2.2

theorem skipBlanks_solid (h : rest.head?.all (!Text.isBlank ·) = true) : skipBlanks rest = rest := by
  cases rest with
  | nil => rfl
  | cons c rest =>
    have hc : Text.isBlank c = false := by simpa using h
    rw [skipBlanks, List.dropWhile_cons_of_neg (by simp [hc])]

theorem mark?_blanks (b : Blanks) (hc : Text.isBlank c = false) (rest : List Char) :
    mark? c (b.1 ++ c :: rest) = some rest := by
  rw [mark?, skipBlanks_blanks, skipBlanks_solid (by simp [hc])]
  simp

theorem mark?_eq_none {d : Char} (hd : Text.isBlank d = false) (hne : d ≠ c) (b : Blanks)
    (rest : List Char) : mark? c (b.1 ++ d :: rest) = none := by
  rw [mark?, skipBlanks_blanks, skipBlanks_solid (by simp [hd])]
  exact if_neg hne

/-- A run is read up to a character that does not belong to it. -/
theorem run?_append (hne : run ≠ []) (hrun : ∀ x ∈ run, p x = true)
    (hrest : rest.head?.all (!p ·) = true) : run? p (run ++ rest) = some (run, rest) := by
  have htake : (run ++ rest).takeWhile p = run := by
    rw [List.takeWhile_append_of_pos hrun]
    cases rest with
    | nil => simp
    | cons c rest =>
      have hc : p c = false := by simpa using hrest
      simp [hc]
  rw [run?, htake, if_neg (by simpa using hne), List.drop_left]

theorem run?_eq_none (hrest : rest.head?.all (!p ·) = true) : run? p rest = none := by
  cases rest with
  | nil => rfl
  | cons c rest =>
    have hc : p c = false := by simpa using hrest
    simp [run?, hc]

theorem blanks?_gap (g : Gap) (hrest : rest.head?.all (!Text.isBlank ·) = true) :
    blanks? (g.1 ++ rest) = some rest := by
  rw [blanks?, run?_append g.2.1 g.2.2 hrest]
  rfl

/-- Whether a character may follow a numeral. -/
theorem head?_blanks_append {q : Char → Bool} (hq : ∀ x, Text.isBlank x = true → q x = false)
    (b : Blanks) (hrest : rest.head?.all (!q ·) = true) : (b.1 ++ rest).head?.all (!q ·) = true := by
  obtain ⟨cs, hcs⟩ := b
  cases cs with
  | nil => exact hrest
  | cons x cs => simp [hq x (hcs x List.mem_cons_self)]

end

/-! ### Numerals and positions -/

section

variable {rest : List Char}

theorem run?_numeral (n : Nat) (hrest : rest.head?.all (!Text.isDecimal ·) = true) :
    run? Text.isDecimal (numeral n ++ rest) = some (numeral n, rest) :=
  run?_append (numeral_ne_nil n) (fun _ h => isDecimal_of_mem_numeral h) hrest

/-- A numeral begins with no blank. -/
theorem numeral_solid (n : Nat) (rest : List Char) :
    (numeral n ++ rest).head?.all (!Text.isBlank ·) = true := by
  obtain ⟨c, more, hcons⟩ := List.exists_cons_of_ne_nil (numeral_ne_nil n)
  have hdigit : c.isDigit = true := Count.isDigit_of_mem_toDigits (hcons ▸ List.mem_cons_self)
  simp [hcons, Text.not_isBlank_of_isDigit hdigit]

theorem number?_numeral (b : Blanks) (n : Nat) (hrest : rest.head?.all (!Text.isDecimal ·) = true) :
    number? (b.1 ++ (numeral n ++ rest)) = some (numeral n, rest) := by
  rw [number?, skipBlanks_blanks, skipBlanks_solid (numeral_solid n rest), run?_numeral n hrest]

/-- A position is read back. -/
theorem pair?_print (p : PairBlanks) (row column : Nat) (rest : List Char) :
    pair? (p.print row column ++ rest) = some ((numeral row, numeral column), rest) := by
  have hblank : ∀ x, Text.isBlank x = true → Text.isDecimal x = false := fun x hx =>
    (Text.not_isWord_of_isBlank hx).2
  unfold pair? PairBlanks.print
  simp only [List.append_assoc, List.cons_append]
  rw [mark?_blanks p.opening (by decide)]
  simp only [Option.bind_eq_bind, Option.bind_some]
  rw [number?_numeral p.row row (head?_blanks_append hblank p.comma (by simp; decide))]
  simp only [Option.bind_some]
  rw [mark?_blanks p.comma (by decide)]
  simp only [Option.bind_some]
  rw [number?_numeral p.column column (head?_blanks_append hblank p.closing (by simp; decide))]
  simp only [Option.bind_some]
  rw [mark?_blanks p.closing (by decide)]
  rfl

end

/-! ### Texts -/

/-- A text between blanks is trimmed to itself. -/
theorem trimChars_between (lead trail : Blanks) {text : List Char}
    (htext : ∀ c ∈ text, Text.isBlank c = false) :
    Text.trimChars (lead.1 ++ (text ++ trail.1)) = text := by
  rw [Text.trimChars_blanks_append lead.2, Text.trimChars_append_blanks trail.2,
    Text.trimChars_eq_self (fun c hc => htext c (List.mem_of_head? hc))
      (fun c hc => htext c (List.mem_of_getLast? hc))]

theorem lineText?_between (lead trail : Blanks) {text : List Char}
    (htext : ∀ c ∈ text, Text.isBlank c = false) (hne : text ≠ []) :
    lineText? (lead.1 ++ (text ++ trail.1)) = some text := by
  have hline : '\n' ∉ text := fun hmem => by
    have hblank := htext _ hmem
    cases hblank
  rw [lineText?, trimChars_between lead trail htext]
  simp [hne, hline]

/-- The characters of an identifier. -/
structure IsName (text : List Char) : Prop where
  ne_nil : text ≠ []
  chars : ∀ c ∈ text, isIdentifierChar c = true

theorem isName_of_isValidIdentifier {name : String} (h : isValidIdentifier name = true) :
    IsName name.toList where
  ne_nil hnil := by
    rw [String.toList_eq_nil_iff.mp hnil] at h
    cases h
  chars _ hc := isIdentifierChar_of_mem h hc

section

variable {text : List Char}

theorem IsName.solid (h : IsName text) : ∀ c ∈ text, Text.isBlank c = false := fun c hc =>
  isBlank_of_isIdentifierChar (h.chars c hc)

/-- A name has none of the marks that stand beside names. -/
theorem IsName.not_mem (h : IsName text) {mark : Char} (hmark : isIdentifierChar mark = false) :
    mark ∉ text := fun hmem => by
  rw [h.chars mark hmem] at hmark
  cases hmark

theorem IsName.trimChars_eq (h : IsName text) : Text.trimChars text = text := by
  have htrim := trimChars_between ⟨[], nofun⟩ ⟨[], nofun⟩ h.solid
  rwa [List.append_nil] at htrim

theorem Wrapping.wrap_ne_nil (w : Wrapping) (h : text ≠ []) : w.wrap text ≠ [] := by
  cases w with
  | none => exact h
  | backticks | quotes => exact List.cons_ne_nil _ _

theorem Wrapping.wrap_solid (w : Wrapping) (h : IsName text) :
    ∀ c ∈ w.wrap text, Text.isBlank c = false := by
  intro c hc
  cases w with
  | none => exact h.solid c hc
  | backticks | quotes =>
    simp only [wrap, List.mem_cons, List.mem_append, List.not_mem_nil, or_false] at hc
    rcases hc with rfl | hc | rfl
    · decide
    · exact h.solid c hc
    · decide

/-- The quotes around a text are taken off, and a text without any is kept. -/
theorem unquote_wrap (w : Wrapping) (h : IsName text) : unquote (w.wrap text) = text := by
  have htrim : Text.trimChars (w.wrap text) = w.wrap text := by
    have htrim := trimChars_between ⟨[], nofun⟩ ⟨[], nofun⟩ (w.wrap_solid h)
    rwa [List.append_nil] at htrim
  have hhead : ∀ mark ∈ ['"', '`'], text.head? ≠ some mark := fun mark hmark heq =>
    @IsName.not_mem _ h mark (by
      simp only [List.mem_cons, List.not_mem_nil, or_false] at hmark
      rcases hmark with rfl | rfl <;> decide) (List.mem_of_head? heq)
  unfold unquote
  rw [htrim]
  cases w with
  | none => simp [Wrapping.wrap, hhead]
  | backticks => simp [Wrapping.wrap, List.getLast?_cons]
  | quotes => simp [Wrapping.wrap, List.getLast?_cons]

/-- A text in double quotes without quotes and backslashes in it. -/
theorem doubleQuoted?_append (hquote : '"' ∉ text) (hslash : '\\' ∉ text) (read rest : List Char) :
    doubleQuoted? read (text ++ '"' :: rest) = some (read.reverse ++ text) := by
  induction text generalizing read with
  | nil => simp [doubleQuoted?]
  | cons c text ih =>
    have hc : c ≠ '"' ∧ c ≠ '\\' := ⟨fun h => hquote (h ▸ List.mem_cons_self),
      fun h => hslash (h ▸ List.mem_cons_self)⟩
    rw [List.cons_append, doubleQuoted?, if_neg hc.2,
      ih (fun h => hquote (List.mem_cons_of_mem c h)) (fun h => hslash (List.mem_cons_of_mem c h))]
    · simp
    · exact hc.1
    · intro d rest h
      exact absurd h hc.2

theorem quoted?_append {quote : Char} (hquote : quote ∉ text) (rest : List Char) :
    quoted? quote (text ++ quote :: rest) = some text := by
  have htake : (text ++ quote :: rest).takeWhile (· != quote) = text := by
    rw [List.takeWhile_append_of_pos fun c hc => by
      simpa using fun heq : c = quote => hquote (heq ▸ hc)]
    simp
  rw [quoted?, htake, if_pos (by simp)]

/-- A text in quotes of any kind is read back. -/
theorem keyedText?_quoted (h : IsName text) (b : Blanks) (quote : Quote) (rest : List Char) :
    keyedText? (b.1 ++ quote.mark :: (text ++ quote.mark :: rest)) = some text := by
  unfold keyedText?
  rw [skipBlanks_blanks, skipBlanks_solid (by cases quote <;> simp [Quote.mark] <;> decide)]
  cases quote with
  | double => exact doubleQuoted?_append (h.not_mem (by decide)) (h.not_mem (by decide)) [] rest
  | backtick => exact quoted?_append (h.not_mem (by decide)) rest
  | single => exact quoted?_append (h.not_mem (by decide)) rest

theorem unescapeQuotes_eq_self (hslash : '\\' ∉ text) : unescapeQuotes text = text := by
  induction text with
  | nil => rfl
  | cons c text ih =>
    rw [unescapeQuotes, ih fun h => hslash (List.mem_cons_of_mem c h)]
    intro rest heq
    exact absurd (heq ▸ List.mem_cons_self) hslash

end

/-! ### Kinds -/

section

variable {rest : List Char}

theorem word_ne_nil (kind : CaptureKind) : kind.word.toList ≠ [] := by
  cases kind <;> decide

theorem run?_word (kind : CaptureKind) (hrest : rest.head?.all (!isKindChar ·) = true) :
    run? isKindChar (kind.word.toList ++ rest) = some (kind.word.toList, rest) :=
  run?_append (word_ne_nil kind) (isKindChar_of_mem_word kind) hrest

/-- The word of a kind names this kind. -/
theorem ofName?_word (kind : CaptureKind) : CaptureKind.ofName? kind.word = some kind := by
  cases kind <;> decide +kernel

/-- The fields of a printed capture describe it. -/
theorem build_eq {file : Path} {c : Capture} (hc : Printable file c) (w : Wrapping) :
    build ⟨c.kind.word.toList, numeral c.row, numeral c.location.column, w.wrap c.text.toList⟩ file =
      .ok (some c) := by
  obtain ⟨kind, ⟨source, line, column⟩, text⟩ := c
  obtain ⟨rfl, htext, hpos, hline, hcolumn⟩ := hc
  dsimp only at htext hpos hline hcolumn
  have hname := isName_of_isValidIdentifier htext
  have hrow : Count.read? (numeral (line - 1)) = some (line - 1) :=
    Count.read?_toDigits (Nat.lt_of_le_of_lt (Nat.sub_le line 1) (by omega))
  have hadd : Count.add? (line - 1) 1 = some line :=
    Count.add?_eq_some_iff.mpr ⟨by omega, by omega⟩
  have hcount : Count.read? (numeral column) = some column := Count.read?_toDigits (by omega)
  unfold build
  simp only [String.ofList_toList, ofName?_word, Capture.row, hrow, hcount, unquote_wrap w hname,
    List.isEmpty_iff, hname.ne_nil, if_false, hadd]

end

end Dialect

end SymbolRename
