import Mathlib
import SymbolRename.Proofs.Lexer.Tokens
import SymbolRename.Proofs.Text.Utf8

/-!
# What the lexer looks ahead for

In some languages a word decides what the bytes around it are: letters before a quote make it
a raw or a format literal, a letter between quotes is a character, and a comment may begin with
a word. Words that decide nothing are neutral. The lexer makes the same moves in two texts whose
next words are the same or neutral: `Lexer.State.SameRegion.move_eq_of_akin`.
-/

namespace SymbolRename

/-! ### Neutral words -/

/-- A word that decides nothing about the bytes around it. -/
structure Syntactics.IsNeutral (syn : Syntactics) (w : Bytes) : Prop where
  format : syn.formatLiterals = true →
    [bytes "f", bytes "rf", bytes "fr"].contains (w.map Bytes.toLower) = false
  raw : syn.rawLiterals = true → [bytes "r", bytes "br", bytes "cr"].contains w = false
  char : syn.charLiterals = true → 2 ≤ w.length ∧ ∀ b ∈ w, b < 0x80
  comment : ∀ marks ∈ syn.blockComments,
    ¬ (Bytes.IsWord (marks.1.drop 1) ∧ marks.1.drop 1 <+: w)

theorem Syntactics.isNeutral_iff {syn : Syntactics} {w : Bytes} :
    ((syn.formatLiterals = true →
        [bytes "f", bytes "rf", bytes "fr"].contains (w.map Bytes.toLower) = false) ∧
      (syn.rawLiterals = true → [bytes "r", bytes "br", bytes "cr"].contains w = false) ∧
      (syn.charLiterals = true → 2 ≤ w.length ∧ ∀ b ∈ w, b < 0x80) ∧
      ∀ marks ∈ syn.blockComments,
        ¬ (Bytes.IsWord (marks.1.drop 1) ∧ marks.1.drop 1 <+: w)) ↔ syn.IsNeutral w :=
  ⟨fun h => ⟨h.1, h.2.1, h.2.2.1, h.2.2.2⟩, fun h => ⟨h.format, h.raw, h.char, h.comment⟩⟩

instance (syn : Syntactics) (w : Bytes) : Decidable (syn.IsNeutral w) :=
  decidable_of_iff _ Syntactics.isNeutral_iff

/-! ### Texts that differ in the next word -/

/-- The same bytes up to the first word; the first words are the same or both neutral, and
the texts are the same again up to the next one. -/
inductive Bytes.SameButWord (neutral : Bytes → Prop) : Bytes → Bytes → Prop
  | nil : SameButWord neutral [] []
  | other {x : UInt8} {a b : Bytes} (hx : isIdentifierByte x = false)
      (h : SameButWord neutral a b) : SameButWord neutral (x :: a) (x :: b)
  | word {u v a b : Bytes} (hu : u.IsWord) (hv : v.IsWord)
      (hneutral : u = v ∨ neutral u ∧ neutral v) (hend : a.head?.any isIdentifierByte = false) (h : SameToWord a b) :
      SameButWord neutral (u ++ a) (v ++ b)

theorem Bytes.SameButWord.sameToWord {neutral : Bytes → Prop} {a b : Bytes}
    (h : SameButWord neutral a b) : SameToWord a b := by
  induction h with
  | nil => exact .nil
  | other hx _ ih => exact .other hx ih
  | @word u v a b hu hv _ _ h =>
    obtain ⟨x, u, rfl⟩ := List.exists_cons_of_ne_nil hu.1
    obtain ⟨y, v, rfl⟩ := List.exists_cons_of_ne_nil hv.1
    exact .word _ _ (hu.2 x List.mem_cons_self) (hv.2 y List.mem_cons_self)

/-- A text splits behind its first bytes of some kind. -/
theorem Bytes.split_takeWhile (p : UInt8 → Bool) (a : Bytes) :
    a.takeWhile p ++ a.drop (a.takeWhile p).length = a ∧
      (a.drop (a.takeWhile p).length).head?.any p = false := by
  induction a with
  | nil => exact ⟨rfl, rfl⟩
  | cons x a ih =>
    cases hx : p x with
    | true => simpa [hx] using ih
    | false => simp [hx]

/-- Texts that share a word at the beginning differ at most in the next one. -/
theorem Bytes.SamePastWord.sameButWord (neutral : Bytes → Prop) {a b : Bytes} (h : SamePastWord a b)
    (hword : a.head?.any isIdentifierByte = true) : SameButWord neutral a b := by
  obtain ⟨hsplit, hend⟩ := split_takeWhile isIdentifierByte a
  have hsplit' := (split_takeWhile isIdentifierByte b).1
  rw [← h.takeWhile_eq] at hsplit'
  have hisWord : IsWord (a.takeWhile isIdentifierByte) := by
    refine ⟨fun hnil => ?_, fun x hx => List.mem_takeWhile_imp hx⟩
    rw [hnil] at hend
    rw [List.length_nil, List.drop_zero, hword] at hend
    cases hend
  rw [← hsplit, ← hsplit']
  exact .word hisWord hisWord (.inl rfl) hend h.drop

/-- Bytes in front of both texts; if a word goes on behind them, it has to be the same. -/
theorem Bytes.SameButWord.append {neutral : Bytes → Prop} {front a b : Bytes}
    (h : SameButWord neutral a b)
    (hpast : front.getLast?.any isIdentifierByte = true → SamePastWord a b) :
    SameButWord neutral (front ++ a) (front ++ b) := by
  induction front with
  | nil => exact h
  | cons x front ih =>
    cases hx : isIdentifierByte x with
    | false =>
      refine .other hx (ih fun hlast => hpast ?_)
      cases front with
      | nil => cases hlast
      | cons y front => rwa [List.getLast?_cons_cons]
    | true =>
      obtain ⟨hsplit, hend⟩ := split_takeWhile isIdentifierByte (x :: front)
      have hisWord : IsWord ((x :: front).takeWhile isIdentifierByte) :=
        ⟨by simp [hx], fun y hy => List.mem_takeWhile_imp hy⟩
      generalize (x :: front).takeWhile isIdentifierByte = u at hsplit hend hisWord
      generalize (x :: front).drop u.length = more at hsplit hend
      cases more with
      | nil =>
        rw [List.append_nil] at hsplit
        subst hsplit
        have hlast : (x :: front).getLast?.any isIdentifierByte = true := by
          rw [List.getLast?_eq_some_getLast hisWord.1]
          exact hisWord.2 _ (List.getLast_mem hisWord.1)
        refine ((hpast hlast).append hisWord.2).sameButWord neutral ?_
        simpa using hx
      | cons y more =>
        rw [← hsplit, List.append_assoc, List.append_assoc]
        exact .word hisWord hisWord (.inl rfl) (by simpa using hend) (h.sameToWord.append _)

/-- A word stands at the beginning of a text when it stands at the beginning of its first
word. -/
theorem Bytes.startsWith_word_iff {a word : Bytes} (hword : ∀ b ∈ word, isIdentifierByte b = true) :
    startsWith a word = true ↔ word <+: a.takeWhile isIdentifierByte := by
  rw [startsWith, List.isPrefixOf_iff_prefix]
  constructor
  · rintro ⟨rest, rfl⟩
    rw [List.takeWhile_append_of_pos hword]
    exact List.prefix_append _ _
  · exact fun h => h.trans (List.takeWhile_prefix _)

theorem Bytes.takeWhile_word {u a : Bytes} (hu : u.IsWord)
    (hend : a.head?.any isIdentifierByte = false) :
    (u ++ a).takeWhile isIdentifierByte = u :=
  takeWhile_append_of_head hu.2 hend

/-- A word that no neutral word begins with stands at the beginning of both texts or of
neither. -/
theorem Bytes.SameButWord.startsWith_word_eq {neutral : Bytes → Prop} {a b word : Bytes}
    (h : SameButWord neutral a b) (hword : word.IsWord)
    (hneutral : ∀ u, neutral u → ¬ word <+: u) :
    startsWith a word = startsWith b word := by
  rw [Bool.eq_iff_iff, startsWith_word_iff hword.2, startsWith_word_iff hword.2]
  cases h with
  | nil => rfl
  | other hx h => simp [hx]
  | word hu hv hsame hend h =>
    rw [takeWhile_word hu hend, takeWhile_word hv (h.head.symm.trans hend)]
    rcases hsame with rfl | ⟨hfu, hfv⟩
    · rfl
    · exact iff_of_false (hneutral _ hfu) (hneutral _ hfv)

/-- The mark of a region stands at the beginning of both texts or of neither. -/
theorem Bytes.SameButWord.startsWith_eq {neutral : Bytes → Prop} {a b mark : Bytes}
    (h : SameButWord neutral a b) (hmark : mark.IsRegionMark)
    (hneutral : ∀ u, neutral u → ¬ (IsWord (mark.drop 1) ∧ mark.drop 1 <+: u)) :
    startsWith a mark = startsWith b mark := by
  rcases hmark with hmark | ⟨hhead, hword⟩
  · exact h.sameToWord.startsWith_eq fun x hx => (hmark.2 x hx).1
  · obtain ⟨x, mark, rfl⟩ : ∃ x more, mark = x :: more := by
      cases mark with
      | nil => exact absurd rfl hhead.1
      | cons x more => exact ⟨x, more, rfl⟩
    have hx : isIdentifierByte x = false := (hhead.2 x List.mem_cons_self).1
    have hdiffer : ∀ {u : Bytes} {a : Bytes}, u.IsWord → startsWith (u ++ a) (x :: mark) = false := by
      intro u a hu
      obtain ⟨y, u, rfl⟩ := List.exists_cons_of_ne_nil hu.1
      have hne : (x == y) = false := by
        refine beq_eq_false_iff_ne.mpr ?_
        rintro rfl
        rw [hu.2 x List.mem_cons_self] at hx
        cases hx
      simp [startsWith, List.isPrefixOf, hne]
    cases h with
    | nil => rfl
    | word hu hv => rw [hdiffer hu, hdiffer hv]
    | other _ h =>
      have hrest := h.startsWith_word_eq hword fun u hu hstands => hneutral u hu ⟨hword, hstands⟩
      simp only [startsWith, List.isPrefixOf] at hrest ⊢
      rw [show (x :: mark).drop 1 = mark from rfl] at hrest
      rw [hrest]

/-! ### Literals -/

/-- Bytes of no word of which a text begins with a run begin the other text with the same run. -/
theorem Bytes.SameToWord.takeWhile_eq {a b : Bytes} (h : SameToWord a b) {p : UInt8 → Bool}
    (hp : ∀ x, p x = true → isIdentifierByte x = false) :
    a.takeWhile p = b.takeWhile p ∧
      SameToWord (a.drop (a.takeWhile p).length) (b.drop (a.takeWhile p).length) := by
  induction h with
  | nil => exact ⟨rfl, .nil⟩
  | @word x y a b hx hy =>
    have hno : ∀ z, isIdentifierByte z = true → p z = false := by
      intro z hz
      refine Bool.eq_false_iff.mpr fun hpz => ?_
      rw [hp z hpz] at hz
      cases hz
    simpa [hno x hx, hno y hy] using SameToWord.word a b hx hy
  | @other x a b hx h ih =>
    cases hpx : p x with
    | true => simpa [hpx] using ih
    | false => simpa [hpx] using SameToWord.other hx h

theorem isIdentifierByte_of_le {b : UInt8} (h : 0x80 ≤ b) : isIdentifierByte b = true := by
  simp [isIdentifierByte, h]

theorem lt_of_isIdentifierByte {b : UInt8} (h : isIdentifierByte b = false) : b < 0x80 := by
  refine UInt8.not_le.mp fun hle => ?_
  rw [isIdentifierByte_of_le hle] at h
  cases h

/-- A quote before a character that is not escaped opens a literal when a quote follows it. -/
theorem Lexer.Window.opensCharLiteral_cons (q : UInt8) (before : Bytes) {c : UInt8}
    (hc : c ≠ 0x5c) (more : Bytes) : (⟨before, q :: c :: more⟩ : Window).opensCharLiteral =
      ((more.drop (Utf8.next c more).2).head? == some 0x27) := by
  unfold opensCharLiteral
  split
  · rename_i heq
    simp only [List.cons.injEq] at heq
    exact absurd heq.2.1 hc
  · rename_i heq
    simp only [List.cons.injEq] at heq
    obtain ⟨_, rfl, rfl⟩ := heq
    rfl
  · rename_i hno
    exact absurd rfl (hno _ _ _)

/-- The same for a character of one byte. -/
theorem Lexer.Window.opensCharLiteral_ascii (q : UInt8) (before : Bytes) {c : UInt8}
    (hc : c ≠ 0x5c) (hlt : c < 0x80) (more : Bytes) :
    (⟨before, q :: c :: more⟩ : Window).opensCharLiteral = (more.head? == some 0x27) := by
  have hnext : (Utf8.next c more).2 = 0 := by simp [Utf8.next, hlt]
  rw [opensCharLiteral_cons q before hc, hnext, List.drop_zero]

/-- A quote before an ASCII word of two or more bytes opens no character literal. -/
theorem Lexer.Window.opensCharLiteral_eq_false (q : UInt8) (before : Bytes) {u : Bytes}
    (hu : u.IsWord) (hlength : 2 ≤ u.length) (hlt : ∀ x ∈ u, x < 0x80) (d : Bytes) :
    (⟨before, q :: (u ++ d)⟩ : Window).opensCharLiteral = false := by
  match u, hlength with
  | c :: e :: more, _ =>
    have hc := ne_of_isIdentifierByte (hu.2 c List.mem_cons_self) (x := 0x5c) rfl
    have he := hu.2 e (List.mem_cons_of_mem c List.mem_cons_self)
    rw [List.cons_append, opensCharLiteral_ascii q before hc (hlt c List.mem_cons_self)]
    refine beq_eq_false_iff_ne.mpr fun heq => ?_
    exact ne_of_isIdentifierByte he (x := 0x27) rfl (Option.some.inj heq)

/-- Before the same word it depends on the byte behind it whether a quote opens a character
literal. -/
theorem Lexer.Window.opensCharLiteral_word_eq (q : UInt8) (before before' : Bytes) {u a b : Bytes}
    (hu : u.IsWord) (ha : a.head?.any isIdentifierByte = false)
    (hb : b.head?.any isIdentifierByte = false) (hhead : a.head? = some 0x27 ↔ b.head? = some 0x27) :
    (⟨before', q :: (u ++ b)⟩ : Window).opensCharLiteral =
      (⟨before, q :: (u ++ a)⟩ : Window).opensCharLiteral := by
  obtain ⟨c, more, rfl⟩ := List.exists_cons_of_ne_nil hu.1
  have hc := ne_of_isIdentifierByte (hu.2 c List.mem_cons_self) (x := 0x5c) rfl
  have hstart : ∀ {d : Bytes}, d.head?.any isIdentifierByte = false → ∀ x ∈ d.head?, x < 0x80 := by
    intro d hd x hx
    rw [hx] at hd
    exact lt_of_isIdentifierByte hd
  obtain ⟨hnext, hle⟩ := Utf8.next_append c (a := more) (hstart ha)
  have hnext' := (Utf8.next_append c (a := more) (hstart hb)).1
  rw [List.cons_append, List.cons_append, opensCharLiteral_cons q _ hc, opensCharLiteral_cons q _ hc,
    hnext, hnext', List.drop_append_of_le_length hle, List.drop_append_of_le_length hle]
  cases hrest : more.drop (Utf8.next c more).2 with
  | nil =>
    rw [Bool.eq_iff_iff, beq_iff_eq, beq_iff_eq]
    exact hhead.symm
  | cons => rfl

/-- A single quote opens a character literal in both texts or in neither. -/
theorem Lexer.Window.opensCharLiteral_eq {neutral : Bytes → Prop} {a b : Bytes}
    (h : Bytes.SameButWord neutral a b)
    (hneutral : ∀ u, neutral u → 2 ≤ u.length ∧ ∀ x ∈ u, x < 0x80) (q : UInt8)
    (before before' : Bytes) :
    (⟨before', q :: b⟩ : Window).opensCharLiteral =
      (⟨before, q :: a⟩ : Window).opensCharLiteral := by
  cases h with
  | nil => rfl
  | @other y a b hy h =>
    by_cases hescape : y = 0x5c
    · rw [hescape]
      rfl
    · have hlt := lt_of_isIdentifierByte hy
      rw [opensCharLiteral_ascii q _ hescape hlt, opensCharLiteral_ascii q _ hescape hlt,
        Bool.eq_iff_iff, beq_iff_eq, beq_iff_eq]
      exact (h.sameToWord.head_eq_iff rfl).symm
  | @word u v a b hu hv hsame hend h =>
    rcases hsame with rfl | ⟨hneutralu, hneutralv⟩
    · exact opensCharLiteral_word_eq q before before' hu hend (h.head.symm.trans hend)
        (h.head_eq_iff rfl)
    · obtain ⟨hlengthu, hltu⟩ := hneutral u hneutralu
      obtain ⟨hlengthv, hltv⟩ := hneutral v hneutralv
      rw [opensCharLiteral_eq_false q before' hv hlengthv hltv,
        opensCharLiteral_eq_false q before hu hlengthu hltu]

/-- A raw opener stands at the beginning of both texts or of neither. -/
theorem Lexer.Window.rawOpener?_eq {neutral : Bytes → Prop} {w v : Window}
    (h : Bytes.SameButWord neutral w.rest v.rest)
    (hneutral : ∀ u, neutral u → [bytes "r", bytes "br", bytes "cr"].contains u = false) :
    v.rawOpener? = w.rawOpener? := by
  obtain ⟨before, rest⟩ := w
  obtain ⟨before', rest'⟩ := v
  have hempty : ∀ (before : Bytes) (x : UInt8) (a : Bytes), isIdentifierByte x = false →
      (⟨before, x :: a⟩ : Window).rawOpener? = none := by
    intro before x a hx
    have hword : (⟨before, x :: a⟩ : Window).word = [] := by simp [word, hx]
    unfold rawOpener?
    rw [hword]
    exact if_neg fun hopens => by cases hopens.1
  cases h with
  | nil => rfl
  | other hx h => rw [hempty _ _ _ hx, hempty _ _ _ hx]
  | @word u v a b hu hv hsame hend h =>
    have hwordu : (⟨before, u ++ a⟩ : Window).word = u := Bytes.takeWhile_word hu hend
    have hwordv : (⟨before', v ++ b⟩ : Window).word = v :=
      Bytes.takeWhile_word hv (h.head.symm.trans hend)
    show (⟨before', v ++ b⟩ : Window).rawOpener? = (⟨before, u ++ a⟩ : Window).rawOpener?
    unfold rawOpener?
    rw [hwordu, hwordv]
    simp only [List.drop_left]
    rcases hsame with rfl | ⟨hneutralu, hneutralv⟩
    · obtain ⟨hhashes, hrest⟩ := h.takeWhile_eq (p := (· == 0x23)) fun x hx => by
        rw [beq_iff_eq.mp hx]
        rfl
      rw [← hhashes]
      simp only [hrest.head_eq_iff (x := 0x22) rfl]
    · simp only [hneutral u hneutralu, hneutral v hneutralv, Bool.false_eq_true, false_and, if_false]

/-- The word that ends just before a position; empty if none does. -/
def Lexer.Window.lastWord (w : Window) : Bytes := (w.before.takeWhile isIdentifierByte).reverse

theorem isIdentifierByte_of_isLetter {b : UInt8} (h : Bytes.isLetter b = true) :
    isIdentifierByte b = true := by
  simp [isIdentifierByte, h]

/-- The format letters are letters. -/
theorem Lexer.isLetter_of_format {letters : Bytes}
    (h : [bytes "f", bytes "rf", bytes "fr"].contains (letters.map Bytes.toLower) = true) :
    ∀ x ∈ letters, Bytes.isLetter x = true := by
  have hforms : ∀ form ∈ [bytes "f", bytes "rf", bytes "fr"], ∀ y ∈ form, y = 0x66 ∨ y = 0x72 := by
    decide +kernel
  intro x hx
  have hlower : Bytes.toLower x = 0x66 ∨ Bytes.toLower x = 0x72 :=
    hforms _ (List.contains_iff_mem.mp h) _ (List.mem_map_of_mem hx)
  unfold Bytes.toLower at hlower
  split at hlower
  · rename_i hcapital
    simp [Bytes.isLetter, hcapital]
  · rcases hlower with rfl | rfl <;> rfl

section

variable {run more : Bytes}

/-- Letters before bytes that are of no word are taken whole. -/
theorem Lexer.takeWhile_isLetter_append (hall : ∀ x ∈ run, Bytes.isLetter x = true)
    (hend : more.head?.any isIdentifierByte = false) :
    (run ++ more).takeWhile Bytes.isLetter = run := by
  rw [List.takeWhile_append_of_pos hall]
  cases more with
  | nil => simp
  | cons y more =>
    have hy : Bytes.isLetter y = false := by
      refine Bool.eq_false_iff.mpr fun hy => ?_
      simp [isIdentifierByte_of_isLetter hy] at hend
    simp [hy]

/-- In a word that has other bytes too, the letters at its beginning stop before one of these. -/
theorem Lexer.any_head?_drop_isLetter (hbytes : ∀ x ∈ run, isIdentifierByte x = true)
    (hall : ¬ ∀ x ∈ run, Bytes.isLetter x = true) :
    ((run ++ more).drop ((run ++ more).takeWhile Bytes.isLetter).length).head?.any
      isIdentifierByte = true := by
  have hshort : (run.takeWhile Bytes.isLetter).length ≠ run.length := by
    intro hlength
    have hwhole := (List.takeWhile_prefix Bytes.isLetter (l := run)).eq_of_length hlength
    exact hall fun x hx => List.mem_takeWhile_imp (hwhole.symm ▸ hx)
  have hle := (List.takeWhile_prefix Bytes.isLetter (l := run)).length_le
  obtain ⟨y, rest, hrest⟩ : ∃ y rest,
      run.drop (run.takeWhile Bytes.isLetter).length = y :: rest := by
    refine List.exists_cons_of_ne_nil fun hnil => hshort ?_
    have hzero := congrArg List.length hnil
    rw [List.length_drop, List.length_nil] at hzero
    omega
  rw [List.takeWhile_append, if_neg hshort, List.drop_append_of_le_length hle, hrest]
  exact hbytes y (List.mem_of_mem_drop (hrest ▸ List.mem_cons_self))

end

/-- Format letters are a whole word before the position. -/
theorem Lexer.Window.hasFormatLetters_eq (w : Window) :
    w.hasFormatLetters =
      [bytes "f", bytes "rf", bytes "fr"].contains (w.lastWord.map Bytes.toLower) := by
  obtain ⟨hsplit, hend⟩ := Bytes.split_takeWhile isIdentifierByte w.before
  have hbytes : ∀ x ∈ w.before.takeWhile isIdentifierByte, isIdentifierByte x = true :=
    fun x hx => List.mem_takeWhile_imp hx
  unfold hasFormatLetters lastWord
  generalize w.before.takeWhile isIdentifierByte = run at hsplit hend hbytes ⊢
  generalize w.before.drop run.length = more at hsplit hend
  rw [← hsplit]
  by_cases hall : ∀ x ∈ run, Bytes.isLetter x = true
  · rw [takeWhile_isLetter_append hall hend]
    dsimp only
    rw [List.drop_left, hend]
    rfl
  · have hno : [bytes "f", bytes "rf", bytes "fr"].contains (run.reverse.map Bytes.toLower) = false :=
      Bool.eq_false_iff.mpr fun h => hall fun x hx =>
        isLetter_of_format h x (List.mem_reverse.mpr hx)
    dsimp only
    rw [hno, any_head?_drop_isLetter hbytes hall]
    rfl

/-! ### Moves -/

/-- A mark that opens embedded code stands at the beginning of both texts or of neither. -/
theorem Lexer.startsWith_opener_eq {a b : Bytes} (h : Bytes.SamePastWord a b)
    (mark : Interpolation) :
    Bytes.startsWith b mark.opener = Bytes.startsWith a mark.opener := by
  cases mark with
  | dollarBrace =>
    have hbrace : Bytes.IsMark [0x7b] := by decide
    exact (h.startsWith_cons_eq rfl fun x hx => (hbrace.2 x hx).1).symm
  | brace =>
    have hbrace : Bytes.IsMark [0x7b] := by decide
    exact (h.sameToWord.startsWith_eq fun x hx => (hbrace.2 x hx).1).symm

/-- Both windows stand behind alike bytes and words, and before texts that are the same but for
neutral words. -/
structure Lexer.Window.Akin (neutral : Bytes → Prop) (w v : Window) : Prop where
  wordBefore : v.before.head?.any isIdentifierByte = w.before.head?.any isIdentifierByte
  solidBefore : v.before.head?.any (!Bytes.isBlank ·) = w.before.head?.any (!Bytes.isBlank ·)
  lastWord : w.lastWord = v.lastWord ∨ neutral w.lastWord ∧ neutral v.lastWord
  rest : Bytes.SameButWord neutral w.rest v.rest

section

variable {syn : Syntactics} {w v : Lexer.Window}

theorem Lexer.Window.Akin.isWordStart_eq {neutral : Bytes → Prop} (h : w.Akin neutral v) :
    v.isWordStart = w.isWordStart := by
  unfold isWordStart
  rw [h.wordBefore, h.rest.sameToWord.head]

theorem Lexer.Window.Akin.startsWith_eq {neutral : Bytes → Prop} (h : w.Akin neutral v)
    {mark : Bytes} (hmark : ∀ x ∈ mark, isIdentifierByte x = false) :
    v.startsWith mark = w.startsWith mark :=
  (h.rest.sameToWord.startsWith_eq hmark).symm

theorem Lexer.Window.Akin.startsWith_opening_eq (h : w.Akin syn.IsNeutral v) (hsyn : syn.Regular)
    {marks : Bytes × Bytes} (hmarks : marks ∈ syn.blockComments) :
    v.startsWith marks.1 = w.startsWith marks.1 :=
  (h.rest.startsWith_eq (hsyn.blockComments marks hmarks).1
    fun _ hu => hu.comment marks hmarks).symm

/-- A block comment that begins with a mark opens in both windows or in neither. -/
theorem Lexer.Window.Akin.any_blockComments_eq (h : w.Akin syn.IsNeutral v) (hsyn : syn.Regular)
    (mark : Bytes) :
    (syn.blockComments.any fun (opening, _) =>
        Bytes.startsWith opening mark && v.startsWith opening) =
      syn.blockComments.any fun (opening, _) =>
        Bytes.startsWith opening mark && w.startsWith opening := by
  rw [Bool.eq_iff_iff, List.any_eq_true, List.any_eq_true]
  refine exists_congr fun marks => and_congr_right fun hmarks => ?_
  simp only [h.startsWith_opening_eq hsyn hmarks]

theorem Lexer.Window.Akin.find?_blockComments_eq (h : w.Akin syn.IsNeutral v)
    (hsyn : syn.Regular) :
    syn.blockComments.find? (fun (opening, _) => v.startsWith opening) =
      syn.blockComments.find? fun (opening, _) => w.startsWith opening :=
  List.find?_congr fun _ hmarks => h.startsWith_opening_eq hsyn hmarks

theorem Lexer.Window.Akin.lineComment?_eq (h : w.Akin syn.IsNeutral v) (hsyn : syn.Regular) :
    v.lineComment? syn = w.lineComment? syn := by
  unfold lineComment?
  refine List.find?_congr fun mark hmark => ?_
  rw [h.startsWith_eq fun x hx => ((hsyn.lineComments mark hmark).2 x hx).1, h.solidBefore,
    h.any_blockComments_eq hsyn]

theorem Lexer.Window.Akin.hasFormatLetters_eq (h : w.Akin syn.IsNeutral v)
    (hformat : syn.formatLiterals = true) : v.hasFormatLetters = w.hasFormatLetters := by
  rw [Window.hasFormatLetters_eq, Window.hasFormatLetters_eq]
  rcases h.lastWord with heq | ⟨hw, hv⟩
  · rw [heq]
  · rw [hw.format hformat, hv.format hformat]

theorem Lexer.Window.Akin.opening?_eq (h : w.Akin syn.IsNeutral v) (hsyn : syn.Regular) :
    State.opening? syn v = State.opening? syn w := by
  have hfound : syn.literals.find? (fun lit => v.startsWith lit.mark) =
      syn.literals.find? (fun lit => w.startsWith lit.mark) := by
    refine List.find?_congr fun lit hlit => ?_
    exact h.startsWith_eq fun x hx => ((hsyn.literals lit hlit).2 x hx).1
  unfold State.opening?
  rw [hfound]
  cases hformat : syn.formatLiterals with
  | false => rfl
  | true => rw [h.hasFormatLetters_eq hformat]

/-- In code the same region is opened or closed. The heads are bytes of words, or the same. -/
theorem Lexer.State.SameRegion.regionMove?_eq_of_akin (hsyn : syn.Regular) {s t : State}
    (h : SameRegion s t) (hw : w.Akin syn.IsNeutral v) {b b' : UInt8}
    (hb : ∀ x, isIdentifierByte x = false → (b' = x ↔ b = x)) (hhead : w.rest.head? = some b) :
    regionMove? syn t b' v = regionMove? syn s b w := by
  have hchar : b = 0x27 ∧ syn.charLiterals = true → v.opensCharLiteral = w.opensCharLiteral := by
    rintro ⟨rfl, hcharLiterals⟩
    obtain ⟨before, rest⟩ := w
    obtain ⟨before', rest'⟩ := v
    have hrest := hw.rest
    generalize rest' = d at hrest ⊢
    generalize rest = a at hrest hhead ⊢
    cases hrest with
    | nil => cases hhead
    | other _ hmore =>
      exact Window.opensCharLiteral_eq hmore (fun u hu => hu.char hcharLiterals) _ _ _
    | @word u v a b hu =>
      obtain ⟨x, u, rfl⟩ := List.exists_cons_of_ne_nil hu.1
      obtain rfl := Option.some.inj (hhead : some x = some 0x27)
      cases hu.2 _ List.mem_cons_self
  have hraw : (if syn.rawLiterals && v.isWordStart then v.rawOpener? else none) =
      if syn.rawLiterals && w.isWordStart then w.rawOpener? else none := by
    rw [hw.isWordStart_eq]
    cases hrawLiterals : syn.rawLiterals with
    | false => rfl
    | true => rw [Window.rawOpener?_eq hw.rest fun u hu => hu.raw hrawLiterals]
  unfold regionMove? embeddedEnds
  rw [hw.lineComment?_eq hsyn, hw.find?_blockComments_eq hsyn, hraw, hw.opening?_eq hsyn, h.suspended, h.braces]
  simp only [hb 0x27 rfl, hb 0x7d rfl]
  split
  · rfl
  · split
    · rfl
    · split
      · rename_i hquote
        rw [hchar hquote]
      · rfl

/-- Both lexers make the same move where no word of code begins. Inside comments and literals
the texts have to share the word that begins here, and to close a comment alike. -/
theorem Lexer.State.SameRegion.move_eq_of_akin (hsyn : syn.Regular) {s t : State}
    (hs : s.Regular) (h : SameRegion s t) (hw : w.Akin syn.IsNeutral v) {b : UInt8}
    (hhead : w.rest.head? = some b)
    (hpast : s.mode ≠ .code → Bytes.SamePastWord w.rest v.rest)
    (hclose : ∀ close, s.mode = .blockComment close → v.startsWith close = w.startsWith close)
    (hcode : (s.move syn b w).isWord = false) : t.move syn b v = s.move syn b w := by
  have hmention : ∀ kind, s.mode ≠ .code → mentionMove kind v = mentionMove kind w := by
    intro kind hmode
    unfold mentionMove Window.word
    rw [hw.isWordStart_eq, (hpast hmode).takeWhile_eq]
  unfold move at hcode ⊢
  split
  · rfl
  rename_i hline
  rw [if_neg hline] at hcode
  rw [h.mode]
  cases hmode : s.mode with
  | code =>
    have hregion : regionMove? syn t b v = regionMove? syn s b w :=
      h.regionMove?_eq_of_akin hsyn hw (fun _ _ => Iff.rfl) hhead
    simp only [hmode, codeMove] at hcode ⊢
    rw [hregion]
    cases hfound : regionMove? syn s b w with
    | some m => rfl
    | none =>
      rw [hfound, Option.getD_none] at hcode
      rw [Option.getD_none, Option.getD_none, hw.isWordStart_eq]
      split
      · rename_i hstart
        rw [if_pos hstart] at hcode
        cases hcode
      · rfl
  | lineComment => exact hmention .comment (by simp [hmode])
  | blockComment close => simp only [hclose close hmode, hmention .comment (by simp [hmode])]
  | literal lit escaped =>
    cases escaped with
    | true => rfl
    | false =>
      have hmark := hs.literal lit false hmode
      have hsame := hpast (by simp [hmode])
      have hword : v.word = w.word := hsame.takeWhile_eq.symm
      have hopener : ∀ mark : Interpolation, v.startsWith mark.opener =
          w.startsWith mark.opener := startsWith_opener_eq hsame
      have hbraces : Bytes.IsMark (bytes "\x7b\x7b") := by decide
      have hdoubled : v.startsWith (bytes "\x7b\x7b") = w.startsWith (bytes "\x7b\x7b") :=
        hw.startsWith_eq fun x hx => (hbraces.2 x hx).1
      have hafter : (v.rest.drop w.word.length).head? = some 0x7b ↔
          (w.rest.drop w.word.length).head? = some 0x7b :=
        (hsame.drop.head_eq_iff (x := 0x7b) rfl).symm
      simp only [literalMove, hword, hopener, hdoubled, hafter, hw.isWordStart_eq,
        hw.startsWith_eq fun x hx => (hmark.2 x hx).1]
  | rawLiteral hashes =>
    have hcloses : v.closesRaw hashes = w.closesRaw hashes := by
      refine hw.startsWith_eq fun x hx => ?_
      rcases List.mem_cons.mp hx with rfl | hx
      · rfl
      · rw [List.eq_of_mem_replicate hx]
        rfl
    simp only [hcloses, hmention .stringLiteral (by simp [hmode])]

end

end SymbolRename
