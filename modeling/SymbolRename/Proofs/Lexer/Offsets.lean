import SymbolRename.Proofs.Lexer.Hits

/-!
# Reading a text by offsets

The lexer as a reader that knows offsets only: it answers none where an offset lies outside the
text, where a slice does not begin and end between two characters, or where a column would be
negative. In a text none of this happens, and the reader finds what the lexer finds:
`Lexer.Offsets.hits?_eq`.
-/

namespace SymbolRename.Lexer.Offsets

/-! ### Reads that can fail -/

/-- The offset lies between two characters. -/
def isBoundary (content : Bytes) (i : Nat) : Bool :=
  i == 0 || match content[i]? with
    | some b => !Utf8.isContinuation b
    | none => i == content.length

/-- The bytes from an offset on. -/
def from? (content : Bytes) (i : Nat) : Option Bytes :=
  if i ≤ content.length then some (content.drop i) else none

/-- The bytes before an offset, nearest first. -/
def before? (content : Bytes) (i : Nat) : Option Bytes :=
  if i ≤ content.length then some (content.take i).reverse else none

/-- The text from an offset up to another. -/
def text? (content : Bytes) (i j : Nat) : Option Bytes :=
  if i ≤ j ∧ j ≤ content.length ∧ isBoundary content i = true ∧ isBoundary content j = true then
    some ((content.drop i).take (j - i))
  else none

/-- A difference that is not negative. -/
def sub? (a b : Nat) : Option Nat := if b ≤ a then some (a - b) else none

/-! ### The reader -/

/-- The text goes on with a mark. -/
def startsWith? (content : Bytes) (i : Nat) (mark : Bytes) : Option Bool := do
  return Bytes.startsWith (← from? content i) mark

/-- The offset behind the word that begins here. -/
def wordEnd (content : Bytes) (i : Nat) : Nat :=
  i + ((content.drop i).takeWhile isIdentifierByte).length

/-- The byte before an offset, if there is one, belongs to a class. -/
def behind? (p : UInt8 → Bool) (content : Bytes) (i : Nat) : Option Bool :=
  if i = 0 then some false else (content[i - 1]?).map p

/-- A word begins here. -/
def isWordStart? (content : Bytes) (i : Nat) : Option Bool := do
  let b ← content[i]?
  let inWord ← behind? isIdentifierByte content i
  return isIdentifierByte b && !inWord

/-- The word that begins here. -/
def word? (content : Bytes) (i : Nat) : Option Bytes := text? content i (wordEnd content i)

/-- The mark opens a line comment here. -/
def opensLineComment? (syn : Syntactics) (content : Bytes) (i : Nat) (mark : Bytes) :
    Option Bool := do
  let stands ← startsWith? content i mark
  let follows ← behind? (!Bytes.isBlank ·) content i
  let opensBlock ← syn.blockComments.anyM fun marks =>
    (startsWith? content i marks.1).map (Bytes.startsWith marks.1 mark && ·)
  return stands && !(mark == bytes "#" && follows) && !opensBlock

/-- A single quote here opens a character literal. -/
def opensCharLiteral? (content : Bytes) (i : Nat) : Option Bool :=
  match content[i + 1]? with
  | none => some false
  | some b =>
    if b = 0x5c then some true
    else match text? content (i + 1) content.length with
      | none => none
      | some [] => some false
      | some (c :: more) => some (content[i + 2 + (Utf8.next c more).2]? == some 0x27)

/-- The letters and hash marks of a raw opener at a word start. -/
def rawOpener? (content : Bytes) (i : Nat) : Option (Option (Nat × Nat)) := do
  let letters ← word? content i
  let stop := wordEnd content i
  let after ← from? content stop
  let width ← sub? stop i
  let hashes := (after.takeWhile (· == 0x23)).length
  return if [bytes "r", bytes "br", bytes "cr"].contains letters ∧
      content[stop + hashes]? = some 0x22 then some (width, hashes) else none

/-- The letters and hash marks of a raw opener that stands here. -/
def rawOpening? (syn : Syntactics) (content : Bytes) (i : Nat) : Option (Option (Nat × Nat)) := do
  let starts ← isWordStart? content i
  if syn.rawLiterals && starts then rawOpener? content i else return none

/-- A raw literal with this many hash marks ends here. -/
def closesRaw? (content : Bytes) (i hashes : Nat) : Option Bool := do
  let b ← content[i]?
  let rest ← from? content (i + 1)
  return b == 0x22 && ((rest.take hashes).filter (· == 0x23)).length == hashes

/-- The format letters `f`, `rf` or `fr` stand just before this offset. -/
def hasFormatLetters? (content : Bytes) (i : Nat) : Option Bool := do
  let letters := (← before? content i).takeWhile Bytes.isLetter
  let start ← sub? i letters.length
  let inWord ← behind? isIdentifierByte content start
  if inWord then return false
  else
    return [bytes "f", bytes "rf", bytes "fr"].contains
      ((← text? content start i).map Bytes.toLower)

/-- The literal opened by the first mark that stands here. -/
def opening? (syn : Syntactics) (content : Bytes) (i : Nat) : Option (Option Literal) := do
  match ← syn.literals.findM? fun lit => startsWith? content i lit.mark with
  | none => return none
  | some lit =>
    let format ← if syn.formatLiterals then hasFormatLetters? content i else some false
    return some (if format then { lit with interpolation := some .brace } else lit)

/-- The move in code that opens or closes a region, if one does. -/
def regionMove? (syn : Syntactics) (s : State) (content : Bytes) (i : Nat) (b : UInt8) :
    Option (Option Move) := do
  match ← syn.lineComments.findM? (opensLineComment? syn content i) with
  | some mark => return some (.openLineComment mark)
  | none =>
    match ← syn.blockComments.findM? fun marks => startsWith? content i marks.1 with
    | some (opening, close) => return some (.openBlockComment opening close)
    | none =>
      if b = 0x27 ∧ syn.charLiterals then
        return some (if ← opensCharLiteral? content i then .openCharLiteral else .loneQuote)
      else if b = 0x7d ∧ s.embeddedEnds then
        match s.suspended with
        | inner :: outer => return some (.closeEmbedded inner outer)
        | [] => return none
      else
        match ← rawOpening? syn content i with
        | some (letters, hashes) => return some (.openRawLiteral letters hashes)
        | none => return (← opening? syn content i).map .openLiteral

/-- The move in code. -/
def codeMove? (syn : Syntactics) (s : State) (content : Bytes) (i : Nat) (b : UInt8) :
    Option Move := do
  match ← regionMove? syn s content i b with
  | some m => return m
  | none =>
    if ← isWordStart? content i then return .word (← word? content i)
    else return if Bytes.isBlank b then .blank else .punct b

/-- The word at a word start inside a region. -/
def mentionMove? (kind : CaptureKind) (content : Bytes) (i : Nat) : Option Move := do
  if ← isWordStart? content i then return .mention kind (← word? content i) else return .pass

/-- The word inside a literal; in `a${` the dollar sign belongs to the opener. -/
def literalMove? (lit : Literal) (content : Bytes) (i : Nat) : Option Move := do
  if ← isWordStart? content i then
    let stop := wordEnd content i
    let previous ← sub? stop 1
    let last ← content[previous]?
    let brace ← startsWith? content stop [0x7b]
    let stop :=
      if lit.interpolation = some .dollarBrace ∧ last = 0x24 ∧ brace then previous else stop
    return .mention .stringLiteral (← text? content i stop)
  else return .pass

/-- The mark of embedded code that stands here in a literal. -/
def embedding? (lit : Literal) (content : Bytes) (i : Nat) : Option (Option Interpolation) :=
  match lit.interpolation with
  | none => some none
  | some mark => (startsWith? content i mark.opener).map fun stands =>
      if stands then some mark else none

/-- The move at an offset. -/
def move? (syn : Syntactics) (s : State) (content : Bytes) (i : Nat) : Option Move := do
  let b ← content[i]?
  if b = Bytes.newline then return .newline
  else match s.mode with
    | .code => codeMove? syn s content i b
    | .lineComment => mentionMove? .comment content i
    | .blockComment close =>
      if ← startsWith? content i close then return .closeBlockComment close
      else mentionMove? .comment content i
    | .literal _ true => return .escaped
    | .literal lit false =>
      if lit.escapes ∧ b = 0x5c then return .escape
      else
        let braces ← startsWith? content i (bytes "\x7b\x7b")
        if lit.interpolation = some .brace ∧ braces then return .doubledBrace
        else
          match ← embedding? lit content i with
          | some mark => return .openEmbedded lit mark
          | none =>
            if ← startsWith? content i lit.mark then return .closeLiteral lit.mark
            else literalMove? lit content i
    | .rawLiteral hashes =>
      if ← closesRaw? content i hashes then return .closeRawLiteral hashes
      else mentionMove? .stringLiteral content i

/-- Reads the rest of a file from an offset on; the line begins at `lineStart`. -/
def run? (syn : Syntactics) (name content : Bytes) (s : State) (line lineStart : Nat)
    (found : List Hit) (i : Nat) : Option (List Hit) :=
  if i < content.length then
    match move? syn s content i with
    | none => none
    | some .newline => run? syn name content (s.after .newline) (line + 1) (i + 1) found (i + 1)
    | some m =>
      match before? content i, from? content i, sub? i lineStart with
      | some before, some rest, some column =>
        let found := match s.report? name ⟨before, rest⟩ m with
          | some kind => ⟨kind, line, column⟩ :: found
          | none => found
        run? syn name content (s.after m) line lineStart found (i + m.width)
      | _, _, _ => none
  else some found.reverse
termination_by content.length - i
decreasing_by
  all_goals have := Move.width_pos
  · omega
  · have := m.width_pos
    omega

/-! ### Boundaries between characters -/

/-- A byte of ASCII continues no character. -/
theorem isContinuation_eq_false {b : UInt8} (hb : b < 0x80) : Utf8.isContinuation b = false := by
  have hnot : ¬ 0x80 ≤ b := UInt8.not_le.mpr hb
  simp [Utf8.isContinuation, hnot]

/-- No character begins with a byte that continues one. -/
theorem isContinuation_head {c : Char} {b : UInt8} {more : Bytes}
    (h : String.utf8EncodeChar c = b :: more) : Utf8.isContinuation b = false := by
  obtain ⟨b', more', hencode, hnext⟩ := Utf8.next_encode c []
  obtain ⟨rfl, rfl⟩ := List.cons.inj (h.symm.trans hencode)
  refine Bool.eq_false_iff.mpr fun hcontinues => ?_
  simp only [Utf8.isContinuation, Bool.and_eq_true, decide_eq_true_eq, UInt8.le_iff_toNat_le]
    at hcontinues
  have hlow : 0x80 ≤ b.toNat := hcontinues.1
  have hhigh : b.toNat ≤ 0xbf := hcontinues.2
  have hlt : ¬ b < 0x80 := by
    rw [UInt8.lt_iff_toNat_lt]
    exact Nat.not_lt.mpr hlow
  unfold Utf8.next at hnext
  rw [if_neg hlt] at hnext
  cases hlead : Utf8.lead? b with
  | none =>
    rw [hlead] at hnext
    cases hnext
  | some lead =>
    cases (Utf8.leads hlead).1 <;> omega

theorem isBoundary_length (content : Bytes) : isBoundary content content.length = true := by
  simp [isBoundary]

/-- The offset of an ASCII byte lies between two characters. -/
theorem isBoundary_of_getElem? {content : Bytes} {i : Nat} {b : UInt8} (h : content[i]? = some b)
    (hb : b < 0x80) : isBoundary content i = true := by
  simp [isBoundary, h, isContinuation_eq_false hb]

/-- The offset behind an ASCII byte of a text lies between two characters. -/
theorem isBoundary_succ {content : Bytes} (htext : Utf8.IsText content) {i : Nat} {b : UInt8}
    (h : content[i]? = some b) (hb : b < 0x80) : isBoundary content (i + 1) = true := by
  obtain ⟨hi, hget⟩ := List.getElem?_eq_some_iff.mp h
  obtain ⟨cs, hcs⟩ := Utf8.isText_iff.mp htext
  have hsplit : cs.flatMap String.utf8EncodeChar = content.take i ++ b :: content.drop (i + 1) := by
    rw [← hcs, ← hget, List.getElem_cons_drop hi, List.take_append_drop]
  obtain ⟨_, _, after, _, _, _, hafter⟩ := Utf8.split_at_ascii hb hsplit
  have hnext : content[i + 1]? = (content.drop (i + 1)).head? := List.head?_drop.symm
  unfold isBoundary
  rw [hnext, hafter]
  cases after with
  | nil =>
    have hlength : content.length - (i + 1) = 0 := by
      rw [← List.length_drop, hafter]
      rfl
    have hend : i + 1 = content.length := by omega
    simp [hend]
  | cons c after =>
    obtain ⟨x, more, hencode, _⟩ := Utf8.next_encode c []
    simp [hencode, isContinuation_head hencode]

/-- What stands behind the bytes of a class. -/
theorem drop_length_takeWhile (p : UInt8 → Bool) (l : Bytes) :
    l.drop (l.takeWhile p).length = l.dropWhile p := by
  induction l with
  | nil => rfl
  | cons b l ih => cases hb : p b <;> simp [hb, ih]

theorem lt_of_not_word {b : UInt8} (hb : isIdentifierByte b = false) : b < 0x80 := by
  refine UInt8.not_le.mp fun hle => ?_
  simp [isIdentifierByte, hle] at hb

/-! ### Reads that succeed -/

/-- The window at an offset. -/
def windowAt (content : Bytes) (i : Nat) : Window := ⟨(content.take i).reverse, content.drop i⟩

section

variable {content : Bytes} {i : Nat}

theorem from?_eq (hi : i ≤ content.length) : from? content i = some (content.drop i) := if_pos hi

theorem before?_eq (hi : i ≤ content.length) : before? content i = some (content.take i).reverse :=
  if_pos hi

theorem sub?_eq {a b : Nat} (h : b ≤ a) : sub? a b = some (a - b) := if_pos h

theorem text?_eq {j : Nat} (hij : i ≤ j) (hj : j ≤ content.length)
    (hfirst : isBoundary content i = true) (hlast : isBoundary content j = true) :
    text? content i j = some ((content.drop i).take (j - i)) :=
  if_pos ⟨hij, hj, hfirst, hlast⟩

theorem startsWith?_eq (hi : i ≤ content.length) (mark : Bytes) :
    startsWith? content i mark = some ((windowAt content i).startsWith mark) := by
  unfold startsWith?
  rw [from?_eq hi]
  rfl

/-- What stands at an offset. -/
theorem head?_rest (content : Bytes) (i : Nat) : (windowAt content i).rest.head? = content[i]? :=
  List.head?_drop

/-- What stands before an offset. -/
theorem head?_before (hpos : 0 < i) (hi : i ≤ content.length) :
    (windowAt content i).before.head? = content[i - 1]? := by
  rw [windowAt, List.head?_reverse, List.getLast?_eq_getElem?, List.length_take,
    Nat.min_eq_left hi, List.getElem?_take_of_lt (by omega)]

theorem behind?_eq (p : UInt8 → Bool) (hi : i ≤ content.length) :
    behind? p content i = some ((windowAt content i).before.head?.any p) := by
  unfold behind?
  rcases Nat.eq_zero_or_pos i with rfl | hpos
  · rfl
  · have hlt : i - 1 < content.length := by omega
    rw [head?_before hpos hi, List.getElem?_eq_getElem hlt, if_neg hpos.ne']
    rfl

theorem isWordStart?_eq (hi : i < content.length) :
    isWordStart? content i = some (windowAt content i).isWordStart := by
  unfold isWordStart? Window.isWordStart
  rw [head?_rest, List.getElem?_eq_getElem hi, behind?_eq _ hi.le]
  rfl

/-- Where no word goes on, an offset of a text lies between two characters. -/
theorem isBoundary_of_not_in_word (htext : Utf8.IsText content) (hi : i ≤ content.length)
    (h : (windowAt content i).before.head?.any isIdentifierByte = false) :
    isBoundary content i = true := by
  rcases Nat.eq_zero_or_pos i with rfl | hpos
  · rfl
  · have hlt : i - 1 < content.length := by omega
    rw [head?_before hpos hi, List.getElem?_eq_getElem hlt, Option.any_some] at h
    have hsucc := isBoundary_succ htext (List.getElem?_eq_getElem hlt) (lt_of_not_word h)
    rwa [Nat.sub_add_cancel hpos] at hsucc

theorem wordEnd_eq : wordEnd content i = i + (windowAt content i).word.length := rfl

theorem wordEnd_le (hi : i ≤ content.length) : wordEnd content i ≤ content.length := by
  have hle := (List.takeWhile_sublist isIdentifierByte (l := content.drop i)).length_le
  rw [List.length_drop] at hle
  unfold wordEnd
  omega

/-- A word ends between two characters. -/
theorem isBoundary_wordEnd (hi : i ≤ content.length) :
    isBoundary content (wordEnd content i) = true := by
  have hle := wordEnd_le hi
  cases hget : content[wordEnd content i]? with
  | none =>
    have hge := List.getElem?_eq_none_iff.mp hget
    rw [Nat.le_antisymm hle hge]
    exact isBoundary_length content
  | some b =>
    refine isBoundary_of_getElem? hget (lt_of_not_word ?_)
    have hafter := List.head?_dropWhile_not isIdentifierByte (content.drop i)
    rw [← drop_length_takeWhile, List.drop_drop, List.head?_drop] at hafter
    rw [show content[i + ((content.drop i).takeWhile isIdentifierByte).length]? = some b from hget]
      at hafter
    simpa using hafter

/-- A word begins between two characters. -/
theorem isBoundary_of_isWordStart (htext : Utf8.IsText content) (hi : i < content.length)
    (hstart : (windowAt content i).isWordStart = true) : isBoundary content i = true := by
  have hbefore := (Bool.and_eq_true_iff.mp hstart).2
  exact isBoundary_of_not_in_word htext hi.le (by simpa using hbefore)

/-- The bytes of a word that begins here, also without its last byte. -/
theorem take_word {n : Nat} (hn : n ≤ (windowAt content i).word.length) :
    (content.drop i).take n = (windowAt content i).word.take n := by
  have hprefix : (windowAt content i).word <+: content.drop i := List.takeWhile_prefix _
  obtain ⟨rest, hrest⟩ := hprefix
  rw [← hrest, List.take_append_of_le_length hn]

/-- The word at a word start is read without a failure. -/
theorem word?_eq (htext : Utf8.IsText content) (hi : i < content.length)
    (hstart : (windowAt content i).isWordStart = true) :
    word? content i = some (windowAt content i).word := by
  have hword : (content.drop i).take (wordEnd content i - i) = (windowAt content i).word := by
    rw [wordEnd_eq, Nat.add_sub_cancel_left, take_word (Nat.le_refl _), List.take_length]
  have hle : i ≤ wordEnd content i := Nat.le_add_right i _
  unfold word?
  rw [text?_eq hle (wordEnd_le hi.le) (isBoundary_of_isWordStart htext hi hstart)
    (isBoundary_wordEnd hi.le), hword]

/-! ### The moves are read without a failure -/

theorem anyM_eq_some {α : Type} {l : List α} {p : α → Option Bool} {q : α → Bool}
    (h : ∀ a ∈ l, p a = some (q a)) : l.anyM p = some (l.any q) := by
  induction l with
  | nil => rfl
  | cons a l ih =>
    rw [List.anyM, h a List.mem_cons_self, ih fun b hb => h b (List.mem_cons_of_mem a hb)]
    cases hq : q a <;> simp [hq]

theorem findM?_eq_some {α : Type} {l : List α} {p : α → Option Bool} {q : α → Bool}
    (h : ∀ a ∈ l, p a = some (q a)) : l.findM? p = some (l.find? q) := by
  induction l with
  | nil => rfl
  | cons a l ih =>
    rw [List.findM?, h a List.mem_cons_self, ih fun b hb => h b (List.mem_cons_of_mem a hb)]
    cases hq : q a <;> simp [hq]

theorem lineComment?_eq (hi : i < content.length) (syn : Syntactics) :
    syn.lineComments.findM? (opensLineComment? syn content i) =
      some ((windowAt content i).lineComment? syn) := by
  refine findM?_eq_some fun mark _ => ?_
  have hblock : (syn.blockComments.anyM fun marks =>
      (startsWith? content i marks.1).map (Bytes.startsWith marks.1 mark && ·)) =
      some (syn.blockComments.any fun marks =>
        Bytes.startsWith marks.1 mark && (windowAt content i).startsWith marks.1) := by
    refine anyM_eq_some fun marks _ => ?_
    rw [startsWith?_eq hi.le]
    rfl
  unfold opensLineComment?
  rw [startsWith?_eq hi.le, hblock, behind?_eq _ hi.le]
  rfl

theorem opensCharLiteral?_eq (htext : Utf8.IsText content) {b : UInt8}
    (hb : content[i]? = some b) (hascii : b < 0x80) :
    opensCharLiteral? content i = some (windowAt content i).opensCharLiteral := by
  obtain ⟨hi, hget⟩ := List.getElem?_eq_some_iff.mp hb
  have hdrop : content.drop i = b :: content.drop (i + 1) := by
    rw [← hget, List.getElem_cons_drop hi]
  have hhead : content[i + 1]? = (content.drop (i + 1)).head? := List.head?_drop.symm
  unfold opensCharLiteral? Window.opensCharLiteral
  rw [windowAt, hdrop, hhead, text?_eq hi (Nat.le_refl _) (isBoundary_succ htext hb hascii)
    (isBoundary_length content), List.take_of_length_le (by rw [List.length_drop])]
  cases hrest : content.drop (i + 1) with
  | nil => rfl
  | cons c more =>
    have hmore : content.drop (i + 2) = more := by
      rw [show i + 2 = i + 1 + 1 from rfl, ← List.drop_drop, hrest]
      rfl
    have hclose : content[i + 2 + (Utf8.next c more).2]? =
        (more.drop (Utf8.next c more).2).head? := by
      rw [List.head?_drop, ← hmore, List.getElem?_drop]
    dsimp only [List.head?_cons]
    rw [hclose]
    by_cases hc : c = 0x5c
    · subst hc
      rfl
    · rw [if_neg hc]
      split
      · rename_i heq
        exact absurd (List.cons.inj (List.cons.inj heq).2).1 hc
      · rename_i heq
        obtain ⟨rfl, rfl⟩ := List.cons.inj (List.cons.inj heq).2
        rfl
      · rename_i hnone
        exact absurd rfl (hnone b c more)

theorem rawOpener?_eq (htext : Utf8.IsText content) (hi : i < content.length)
    (hstart : (windowAt content i).isWordStart = true) :
    rawOpener? content i = some (windowAt content i).rawOpener? := by
  have hafter : content.drop (wordEnd content i) =
      (windowAt content i).rest.drop (windowAt content i).word.length := by
    rw [wordEnd_eq, windowAt, List.drop_drop]
  have hle : i ≤ wordEnd content i := Nat.le_add_right i _
  have hwidth : wordEnd content i - i = (windowAt content i).word.length := by
    rw [wordEnd_eq, Nat.add_sub_cancel_left]
  have hget : ∀ n, content[wordEnd content i + n]? =
      (((windowAt content i).rest.drop (windowAt content i).word.length).drop n).head? := by
    intro n
    rw [List.head?_drop, ← hafter, List.getElem?_drop]
  unfold rawOpener? Window.rawOpener?
  simp only [word?_eq htext hi hstart, from?_eq (wordEnd_le hi.le), sub?_eq hle, hwidth, hafter,
    hget, Option.bind_eq_bind, Option.bind_some, Option.pure_def]

theorem rawOpening?_eq (htext : Utf8.IsText content) (hi : i < content.length)
    (syn : Syntactics) :
    rawOpening? syn content i = some (if syn.rawLiterals && (windowAt content i).isWordStart then
      (windowAt content i).rawOpener? else none) := by
  unfold rawOpening?
  rw [isWordStart?_eq hi, Option.bind_eq_bind, Option.bind_some]
  cases hopens : syn.rawLiterals && (windowAt content i).isWordStart with
  | false => rfl
  | true => exact rawOpener?_eq htext hi (Bool.and_eq_true_iff.mp hopens).2

/-- So many hash marks among the next bytes are all of these. -/
theorem count_hashes_iff {n : Nat} {rest : Bytes} :
    ((rest.take n).filter (· == 0x23)).length = n ↔ List.replicate n 0x23 <+: rest := by
  constructor
  · intro hcount
    have hfilter := List.filter_sublist (p := (· == (0x23 : UInt8))) (l := rest.take n)
    have htake : (rest.take n).length ≤ n := List.length_take_le n rest
    have hall := hfilter.eq_of_length_le (by omega)
    have hhashes : rest.take n = List.replicate n 0x23 := by
      refine List.eq_replicate_iff.mpr ⟨by rw [← hall]; exact hcount, fun b hb => ?_⟩
      rw [← hall] at hb
      simpa using (List.mem_filter.mp hb).2
    rw [← hhashes]
    exact List.take_prefix n rest
  · rintro ⟨tail, rfl⟩
    rw [List.take_left' List.length_replicate, List.filter_replicate]
    simp

theorem closesRaw?_eq (hi : i < content.length) (hashes : Nat) :
    closesRaw? content i hashes = some ((windowAt content i).closesRaw hashes) := by
  have hdrop : content.drop i = content[i] :: content.drop (i + 1) :=
    (List.getElem_cons_drop hi).symm
  have hrest : ((((content.drop (i + 1)).take hashes).filter (· == 0x23)).length == hashes) =
      (List.replicate hashes (0x23 : UInt8)).isPrefixOf (content.drop (i + 1)) := by
    rw [Bool.eq_iff_iff, beq_iff_eq, count_hashes_iff, List.isPrefixOf_iff_prefix]
  unfold closesRaw? Window.closesRaw Window.startsWith Bytes.startsWith
  rw [List.getElem?_eq_getElem hi, from?_eq hi, windowAt, hdrop, List.isPrefixOf, ← hrest,
    BEq.comm]
  rfl

/-- The text before an offset, cut after its last bytes. -/
theorem drop_before (n : Nat) (hi : i ≤ content.length) :
    (windowAt content i).before.drop n = (windowAt content (i - n)).before := by
  have hlength : (content.take i).length = i := by
    rw [List.length_take, Nat.min_eq_left hi]
  rw [windowAt, windowAt, List.drop_reverse, hlength, List.take_take,
    Nat.min_eq_left (Nat.sub_le i n)]

theorem hasFormatLetters?_eq (htext : Utf8.IsText content) {b : UInt8}
    (hb : content[i]? = some b) (hascii : b < 0x80) :
    hasFormatLetters? content i = some (windowAt content i).hasFormatLetters := by
  obtain ⟨hi, hget⟩ := List.getElem?_eq_some_iff.mp hb
  generalize hletters : (windowAt content i).before.takeWhile Bytes.isLetter = letters
  have hprefix : letters <+: (windowAt content i).before := hletters ▸ List.takeWhile_prefix _
  have hlength : letters.length ≤ i := by
    have hle := hprefix.length_le
    rw [windowAt, List.length_reverse, List.length_take] at hle
    omega
  have hslice : (content.drop (i - letters.length)).take (i - (i - letters.length)) =
      letters.reverse := by
    have htake : letters.reverse = ((windowAt content i).before.take letters.length).reverse :=
      congrArg List.reverse (List.prefix_iff_eq_take.mp hprefix)
    rw [htake, windowAt, List.reverse_take, List.reverse_reverse, List.length_reverse,
      List.length_take, Nat.min_eq_left hi.le, List.drop_take]
  unfold hasFormatLetters? Window.hasFormatLetters
  rw [before?_eq hi.le, Option.bind_eq_bind, Option.bind_some]
  simp only [sub?_eq hlength, Option.bind_eq_bind, Option.bind_some, Option.pure_def, hletters,
    drop_before _ hi.le, show (content.take i).reverse = (windowAt content i).before from rfl,
    behind?_eq isIdentifierByte ((Nat.sub_le i letters.length).trans hi.le)]
  cases hword : (windowAt content (i - letters.length)).before.head?.any isIdentifierByte with
  | true => rfl
  | false =>
    have hstart := isBoundary_of_not_in_word htext ((Nat.sub_le i _).trans hi.le) hword
    rw [text?_eq (Nat.sub_le i _) hi.le hstart (isBoundary_of_getElem? hb hascii), hslice]
    rfl

theorem opening?_eq (htext : Utf8.IsText content) (hi : i < content.length) {syn : Syntactics}
    (hsyn : syn.Regular) : opening? syn content i = some (State.opening? syn (windowAt content i)) := by
  have hfind : (syn.literals.findM? fun lit => startsWith? content i lit.mark) =
      some (syn.literals.find? fun lit => (windowAt content i).startsWith lit.mark) :=
    findM?_eq_some fun lit _ => startsWith?_eq hi.le lit.mark
  unfold opening? State.opening?
  rw [hfind, Option.bind_eq_bind, Option.bind_some]
  cases hlit : syn.literals.find? fun lit => (windowAt content i).startsWith lit.mark with
  | none => rfl
  | some lit =>
    obtain ⟨hne, hmark⟩ := hsyn.literals lit (List.mem_of_find?_eq_some hlit)
    obtain ⟨b, more, hcons⟩ := List.exists_cons_of_ne_nil hne
    have hstands : (windowAt content i).startsWith lit.mark = true := by
      have hfound := List.find?_some hlit
      exact hfound
    obtain ⟨rest, hrest⟩ := Bytes.startsWith_iff.mp hstands
    have hb : content[i]? = some b := by
      rw [← head?_rest, hrest, hcons]
      rfl
    have hascii : b < 0x80 := lt_of_not_word (hmark b (by rw [hcons]; exact List.mem_cons_self)).1
    dsimp only [Option.map_some]
    rw [hasFormatLetters?_eq htext hb hascii]
    cases syn.formatLiterals <;> rfl

theorem regionMove?_eq (htext : Utf8.IsText content) {b : UInt8} (hb : content[i]? = some b)
    {syn : Syntactics} (hsyn : syn.Regular) (s : State) :
    regionMove? syn s content i b = some (State.regionMove? syn s b (windowAt content i)) := by
  have hi := (List.getElem?_eq_some_iff.mp hb).1
  have hblock : (syn.blockComments.findM? fun marks => startsWith? content i marks.1) =
      some (syn.blockComments.find? fun marks => (windowAt content i).startsWith marks.1) :=
    findM?_eq_some fun marks _ => startsWith?_eq hi.le marks.1
  unfold regionMove? State.regionMove?
  rw [lineComment?_eq hi, Option.bind_eq_bind, Option.bind_some]
  cases (windowAt content i).lineComment? syn with
  | some mark => rfl
  | none =>
    dsimp only
    rw [hblock, Option.bind_eq_bind, Option.bind_some]
    cases syn.blockComments.find? fun marks => (windowAt content i).startsWith marks.1 with
    | some marks => rfl
    | none =>
      dsimp only
      split
      · rename_i hquote
        rw [opensCharLiteral?_eq htext hb (by rw [hquote.1]; decide)]
        rfl
      split
      · cases s.suspended <;> rfl
      rw [rawOpening?_eq htext hi, Option.bind_eq_bind, Option.bind_some]
      cases (if syn.rawLiterals && (windowAt content i).isWordStart then
        (windowAt content i).rawOpener? else none) with
      | some raw => rfl
      | none =>
        dsimp only
        rw [opening?_eq htext hi hsyn]
        rfl

theorem codeMove?_eq (htext : Utf8.IsText content) {b : UInt8} (hb : content[i]? = some b)
    {syn : Syntactics} (hsyn : syn.Regular) (s : State) :
    codeMove? syn s content i b = some (State.codeMove syn s b (windowAt content i)) := by
  have hi := (List.getElem?_eq_some_iff.mp hb).1
  unfold codeMove? State.codeMove
  rw [regionMove?_eq htext hb hsyn, Option.bind_eq_bind, Option.bind_some]
  cases State.regionMove? syn s b (windowAt content i) with
  | some m => rfl
  | none =>
    dsimp only
    rw [isWordStart?_eq hi, Option.bind_eq_bind, Option.bind_some]
    cases hstart : (windowAt content i).isWordStart with
    | false => rfl
    | true =>
      rw [word?_eq htext hi hstart]
      rfl

theorem mentionMove?_eq (htext : Utf8.IsText content) (hi : i < content.length)
    (kind : CaptureKind) :
    mentionMove? kind content i = some (State.mentionMove kind (windowAt content i)) := by
  unfold mentionMove? State.mentionMove
  rw [isWordStart?_eq hi, Option.bind_eq_bind, Option.bind_some]
  cases hstart : (windowAt content i).isWordStart with
  | false => rfl
  | true =>
    rw [word?_eq htext hi hstart]
    rfl

theorem literalMove?_eq (htext : Utf8.IsText content) (hi : i < content.length) (lit : Literal) :
    literalMove? lit content i = some (State.literalMove lit (windowAt content i)) := by
  unfold literalMove? State.literalMove
  rw [isWordStart?_eq hi, Option.bind_eq_bind, Option.bind_some]
  cases hstart : (windowAt content i).isWordStart with
  | false => rfl
  | true =>
    have hpos := List.length_pos_iff.mpr (Window.word_ne_nil hstart)
    have hend := wordEnd_le hi.le
    have hstop : wordEnd content i = i + (windowAt content i).word.length := rfl
    -- The byte before the end of the word is its last one.
    obtain ⟨x, hx⟩ : ∃ x, content[wordEnd content i - 1]? = some x :=
      ⟨_, List.getElem?_eq_getElem (by omega)⟩
    have hlast : (windowAt content i).word.getLast? = some x := by
      have hprefix : (windowAt content i).word <+: content.drop i := List.takeWhile_prefix _
      obtain ⟨rest, hrest⟩ := hprefix
      have hget : (content.drop i)[(windowAt content i).word.length - 1]? = some x := by
        rw [List.getElem?_drop, ← hx, hstop]
        congr 1
        omega
      rw [List.getLast?_eq_getElem?, ← hget, ← hrest, List.getElem?_append_left (by omega)]
    have hbrace : ((windowAt content i).rest.drop (windowAt content i).word.length).head? =
        (windowAt content (wordEnd content i)).rest.head? := by
      rw [hstop, windowAt, windowAt, List.drop_drop]
    have hopens : (windowAt content (wordEnd content i)).startsWith [0x7b] = true ↔
        (windowAt content (wordEnd content i)).rest.head? = some 0x7b := by
      rw [Window.startsWith, Bytes.startsWith_iff, List.head?_eq_some_iff]
      rfl
    simp only [if_true, sub?_eq (show 1 ≤ wordEnd content i by omega), hx, startsWith?_eq hend,
      hlast, hbrace, hopens, Option.bind_eq_bind, Option.bind_some, Option.some.injEq]
    have hfirst := isBoundary_of_isWordStart htext hi hstart
    split
    · rename_i htrimmed
      have hslice : (content.drop i).take (wordEnd content i - 1 - i) =
          (windowAt content i).word.dropLast := by
        rw [hstop, show i + (windowAt content i).word.length - 1 - i =
          (windowAt content i).word.length - 1 by omega, take_word (Nat.sub_le _ _),
          List.dropLast_eq_take]
      have hdollar : isBoundary content (wordEnd content i - 1) = true :=
        isBoundary_of_getElem? hx (by rw [htrimmed.2.1]; decide)
      rw [text?_eq (by omega) (by omega) hfirst hdollar, hslice]
      rfl
    · have hword := word?_eq htext hi hstart
      unfold word? at hword
      rw [hword]
      rfl

theorem embedding?_eq (hi : i < content.length) (lit : Literal) :
    embedding? lit content i =
      some (lit.interpolation.filter fun mark => (windowAt content i).startsWith mark.opener) := by
  unfold embedding?
  cases lit.interpolation with
  | none => rfl
  | some mark =>
    dsimp only
    rw [startsWith?_eq hi.le]
    rfl

/-- In a text every move is read without a failure. -/
theorem move?_eq (htext : Utf8.IsText content) {b : UInt8} (hb : content[i]? = some b)
    {syn : Syntactics} (hsyn : syn.Regular) (s : State) :
    move? syn s content i = some (s.move syn b (windowAt content i)) := by
  have hi := (List.getElem?_eq_some_iff.mp hb).1
  unfold move? State.move
  rw [hb, Option.bind_eq_bind, Option.bind_some]
  by_cases hline : b = Bytes.newline
  · rw [if_pos hline, if_pos hline]
    rfl
  rw [if_neg hline, if_neg hline]
  cases s.mode with
  | code => exact codeMove?_eq htext hb hsyn s
  | lineComment => exact mentionMove?_eq htext hi .comment
  | blockComment close =>
    dsimp only
    rw [startsWith?_eq hi.le, Option.bind_eq_bind, Option.bind_some, mentionMove?_eq htext hi]
    split <;> rfl
  | literal lit escaped =>
    cases escaped with
    | true => rfl
    | false =>
      dsimp only
      by_cases hescape : lit.escapes = true ∧ b = 0x5c
      · rw [if_pos hescape, if_pos hescape]
        rfl
      rw [if_neg hescape, if_neg hescape, startsWith?_eq hi.le, Option.bind_eq_bind,
        Option.bind_some]
      by_cases hdoubled : lit.interpolation = some .brace ∧
          (windowAt content i).startsWith (bytes "\x7b\x7b") = true
      · rw [if_pos hdoubled, if_pos hdoubled]
        rfl
      rw [if_neg hdoubled, if_neg hdoubled, embedding?_eq hi, Option.bind_eq_bind, Option.bind_some]
      cases lit.interpolation.filter fun mark => (windowAt content i).startsWith mark.opener with
      | some mark => rfl
      | none =>
        dsimp only
        rw [startsWith?_eq hi.le, Option.bind_some, literalMove?_eq htext hi]
        split <;> rfl
  | rawLiteral hashes =>
    dsimp only
    rw [closesRaw?_eq hi, Option.bind_eq_bind, Option.bind_some, mentionMove?_eq htext hi]
    split <;> rfl

/-! ### The run is read without a failure -/

theorem windowAt_length {front rest : Bytes} (hcontent : content = front ++ rest) :
    windowAt content front.length = ⟨front.reverse, rest⟩ := by
  rw [windowAt, hcontent, List.take_left, List.drop_left]

/-- The move of the lexer is read at the offset where it stands. -/
theorem move?_length {syn : Syntactics} (hsyn : syn.Regular) (htext : Utf8.IsText content)
    (s : State) {front rest : Bytes} {b : UInt8} (hcontent : content = front ++ b :: rest) :
    front.length < content.length ∧ move? syn s content front.length =
      some (s.move syn b ⟨front.reverse, b :: rest⟩) := by
  have hb : content[front.length]? = some b := by simp [hcontent]
  refine ⟨(List.getElem?_eq_some_iff.mp hb).1, ?_⟩
  rw [move?_eq htext hb hsyn, windowAt_length hcontent]

/-- After a move the lexer stands behind what it has read so far. -/
theorem advance_front {front rest : Bytes} {b : UInt8} (hcontent : content = front ++ b :: rest)
    (m : Move) :
    content = (front ++ (b :: rest).take m.width) ++ rest.drop (m.width - 1) ∧
      (Window.advance ⟨front.reverse, b :: rest⟩ m.width).before =
        (front ++ (b :: rest).take m.width).reverse := by
  refine ⟨?_, List.reverse_append.symm⟩
  rw [hcontent, List.append_assoc, take_append_drop_pred b rest m.width_pos]

/-- What is read from an offset on is what the lexer finds behind it; the columns of a line are
its offsets behind the beginning of the line. The induction is on the run of the lexer. -/
theorem run?_eq {syn : Syntactics} (hsyn : syn.Regular) (htext : Utf8.IsText content) {s : State}
    (hs : s.Regular) (name : Bytes) (line column : Nat) (found : List Hit)
    {front before rest : Bytes} (hcontent : content = front ++ rest)
    (hbefore : before = front.reverse) (hcolumn : column ≤ front.length) :
    run? syn name content s line (front.length - column) found front.length =
      some (run syn name s line column found before rest) := by
  fun_induction run syn name s line column found before rest generalizing front with
  | case1 s line column found before =>
    rw [run?, if_neg (by simp [hcontent])]
  | case2 s line column found before b rest w m found' next hm =>
    rename_i ih
    subst hbefore
    obtain ⟨hlt, hmove⟩ : front.length < content.length ∧
      move? syn s content front.length = some m := move?_length hsyn htext s hcontent
    have hline : m.InLine w := s.inLine_move hsyn hs rfl
    obtain ⟨hrest, hadvance⟩ := advance_front hcontent m
    have hwidth : ((b :: rest).take m.width).length = 1 := by simp [hm, Move.width]
    have hfound : found' = found := by
      show (match s.report? name w m with
        | some kind => (⟨kind, line, column⟩ : Hit) :: found
        | none => found) = found
      rw [hm]
      rfl
    have hread := ih (hs.after hline.tame) hrest hadvance (Nat.zero_le _)
    rw [List.length_append, hwidth, hfound] at hread
    rw [run?, if_pos hlt, hmove, hfound]
    simp only [hm] at hread ⊢
    exact hread
  | case3 s line column found before b rest w m found' next hm =>
    rename_i ih
    subst hbefore
    obtain ⟨hlt, hmove⟩ : front.length < content.length ∧
      move? syn s content front.length = some m := move?_length hsyn htext s hcontent
    have hline : m.InLine w := s.inLine_move hsyn hs rfl
    obtain ⟨hrest, hadvance⟩ := advance_front hcontent m
    have hwidth : ((b :: rest).take m.width).length = m.width := hline.length_take
    have hread := ih (hs.after hline.tame) hrest hadvance (by
      rw [List.length_append, hwidth]
      omega)
    rw [List.length_append, hwidth, Nat.add_sub_add_right] at hread
    have hbehind : before? content front.length = some front.reverse := by
      rw [before?_eq hlt.le]
      exact congrArg (some ·.before) (windowAt_length hcontent)
    have hhere : from? content front.length = some (b :: rest) := by
      rw [from?_eq hlt.le]
      exact congrArg (some ·.rest) (windowAt_length hcontent)
    have hplace : sub? front.length (front.length - column) = some column := by
      rw [sub?_eq (Nat.sub_le _ _), Nat.sub_sub_self hcolumn]
    rw [run?, if_pos hlt, hmove]
    split
    · rename_i heq
      cases heq
    · rename_i heq
      exact absurd (Option.some.inj heq) hm
    · rename_i heq
      obtain rfl := Option.some.inj heq
      rw [hbehind, hhere, hplace]
      exact hread

end

/-- The uses of `name` in a file of the given syntax, read by offsets. -/
def hits? (syn : Syntactics) (content name : Bytes) : Option (List Hit) :=
  if name.isEmpty || !Bytes.contains name content then some []
  else run? syn name content {} 1 0 [] 0

/-- In a text the lexer never reads out of range, never slices a character, and its columns are
never negative. -/
theorem hits?_eq {syn : Syntactics} (hsyn : syn.Regular) {content : Bytes}
    (htext : Utf8.IsText content) (name : Bytes) :
    hits? syn content name = some (hits syn content name) := by
  unfold hits? hits
  split
  · rfl
  · exact @run?_eq content syn hsyn htext {} .start name 1 0 [] [] [] content rfl rfl (Nat.le_refl 0)

end SymbolRename.Lexer.Offsets
