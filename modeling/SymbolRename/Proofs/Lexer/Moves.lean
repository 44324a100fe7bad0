import SymbolRename.Proofs.Lexer.Pieces

/-!
# What the moves of the lexer are and cover

What stands where a move is made is said once, for every move in every region
(`Lexer.State.makes_move`). From it, every move but that of a line feed covers bytes of one
line, in every language: a mark that stands here, a word or a byte (`Lexer.State.inLine_move`).
The marks that the lexer waits for are marks of the language (`Lexer.State.Regular.after`).
-/

namespace SymbolRename

/-! ### Marks -/

instance (w : Bytes) : Decidable w.IsWord := @instDecidableAnd _ _ _ (List.decidableBAll _ w)

/-- A mark of a region: one without bytes of words, or one such byte and then a word. -/
def Bytes.IsRegionMark (mark : Bytes) : Prop :=
  mark.IsMark ∨ Bytes.IsMark (mark.take 1) ∧ Bytes.IsWord (mark.drop 1)

instance (mark : Bytes) : Decidable mark.IsRegionMark := by
  unfold Bytes.IsRegionMark
  infer_instance

theorem Bytes.IsMark.newline_not_mem {mark : Bytes} (h : mark.IsMark) : newline ∉ mark :=
  fun hmem => (h.2 _ hmem).2 rfl

theorem Bytes.IsWord.newline_not_mem {w : Bytes} (h : w.IsWord) : newline ∉ w := by
  intro hmem
  cases h.2 _ hmem

theorem Bytes.IsRegionMark.newline_not_mem {mark : Bytes} (h : mark.IsRegionMark) :
    newline ∉ mark := by
  rcases h with h | ⟨hhead, hword⟩
  · exact h.newline_not_mem
  · intro hmem
    rw [← List.take_append_drop 1 mark] at hmem
    rcases List.mem_append.mp hmem with hmem | hmem
    · exact hhead.newline_not_mem hmem
    · exact hword.newline_not_mem hmem

/-- All marks of the language are marks of regions; only those of comments may hold words. -/
structure Syntactics.Regular (syn : Syntactics) : Prop where
  lineComments : ∀ mark ∈ syn.lineComments, mark.IsMark
  blockComments : ∀ marks ∈ syn.blockComments, marks.1.IsRegionMark ∧ marks.2.IsRegionMark
  literals : ∀ lit ∈ syn.literals, lit.mark.IsMark

theorem Language.regular_syntactics (l : Language) : l.syntactics.Regular := by
  cases l <;> exact ⟨by decide, by decide, by decide⟩

/-- The marks that the lexer waits for are such marks. -/
structure Lexer.State.Regular (s : State) : Prop where
  literal : ∀ lit escaped, s.mode = .literal lit escaped → lit.mark.IsMark
  comment : ∀ close, s.mode = .blockComment close → close.IsRegionMark
  suspended : ∀ inner ∈ s.suspended, inner.lit.mark.IsMark

theorem Lexer.State.Regular.start : ({} : State).Regular := ⟨nofun, nofun, nofun⟩

/-- What the lexer waits for within a region is such a mark. -/
def Lexer.Mode.Regular : Mode → Prop
  | .literal lit _ => lit.mark.IsMark
  | .blockComment close => close.IsRegionMark
  | _ => True

theorem Lexer.State.regular_iff {s : State} :
    s.Regular ↔ s.mode.Regular ∧ ∀ inner ∈ s.suspended, inner.lit.mark.IsMark := by
  constructor
  · intro hs
    refine ⟨?_, hs.suspended⟩
    cases hmode : s.mode with
    | literal lit escaped => exact hs.literal lit escaped hmode
    | blockComment close => exact hs.comment close hmode
    | code | lineComment | rawLiteral => trivial
  · rintro ⟨hregular, hsuspended⟩
    exact ⟨fun _ _ hmode => by rwa [hmode] at hregular, fun _ hmode => by rwa [hmode] at hregular,
      hsuspended⟩

/-- The marks that a move makes the lexer wait for are such marks, and what it mentions is
excluded. -/
def Lexer.Move.Tame : Move → Prop
  | .mention kind _ => kind.isExcluded = true
  | .openBlockComment _ close => close.IsRegionMark
  | .openLiteral lit | .openEmbedded lit _ => lit.mark.IsMark
  | .closeEmbedded inner outer =>
    inner.lit.mark.IsMark ∧ ∀ other ∈ outer, other.lit.mark.IsMark
  | _ => True

/-! ### What a move can be -/

namespace Lexer

section

variable (syn : Syntactics) (s : State) (b : UInt8) (w : Window)

/-- The moves that open or close a region of code, each with what stands here then. -/
inductive Bounds : Move → Prop
  | lineComment {mark : Bytes} (hmark : mark ∈ syn.lineComments)
      (hstands : w.startsWith mark = true) : Bounds (.openLineComment mark)
  | blockComment {mark close : Bytes} (hmarks : (mark, close) ∈ syn.blockComments)
      (hstands : w.startsWith mark = true) : Bounds (.openBlockComment mark close)
  | charLiteral : Bounds .openCharLiteral
  | loneQuote : Bounds .loneQuote
  | closeEmbedded {inner : Suspended} {outer : List Suspended} (hb : b = 0x7d)
      (hsuspended : s.suspended = inner :: outer) : Bounds (.closeEmbedded inner outer)
  | rawLiteral {letters hashes : Nat} (hraw : w.rawOpener? = some (letters, hashes)) :
      Bounds (.openRawLiteral letters hashes)
  | literal {lit opened : Literal} (hlit : lit ∈ syn.literals) (hmark : opened.mark = lit.mark)
      (hstands : w.startsWith lit.mark = true) : Bounds (.openLiteral opened)

/-- The moves in each region, each with what stands here then. -/
inductive Makes : Move → Prop
  | newline (hb : b = Bytes.newline) : Makes .newline
  | bounds (hmode : s.mode = .code) {m : Move} (hregion : State.regionMove? syn s b w = some m) :
      Makes m
  | word (hmode : s.mode = .code) (hregion : State.regionMove? syn s b w = none)
      (hstart : w.isWordStart = true) : Makes (.word w.word)
  | blank (hmode : s.mode = .code) : Makes .blank
  | punct (hmode : s.mode = .code) : Makes (.punct b)
  | mention {kind : CaptureKind} {v : Bytes} (hmode : s.mode ≠ .code)
      (hkind : kind.isExcluded = true) (hstart : w.isWordStart = true) (hv : v <+: w.word) :
      Makes (.mention kind v)
  | pass (hmode : s.mode ≠ .code) : Makes .pass
  | closeBlockComment {close : Bytes} (hmode : s.mode = .blockComment close)
      (hstands : w.startsWith close = true) : Makes (.closeBlockComment close)
  | escaped {lit : Literal} (hmode : s.mode = .literal lit true) : Makes .escaped
  | escape {lit : Literal} (hmode : s.mode = .literal lit false) (hb : b = 0x5c) : Makes .escape
  | doubledBrace {lit : Literal} (hmode : s.mode = .literal lit false)
      (hstands : w.startsWith (bytes "\x7b\x7b") = true) : Makes .doubledBrace
  | openEmbedded {lit : Literal} {mark : Interpolation} (hmode : s.mode = .literal lit false)
      (hstands : w.startsWith mark.opener = true) : Makes (.openEmbedded lit mark)
  | closeLiteral {lit : Literal} (hmode : s.mode = .literal lit false)
      (hstands : w.startsWith lit.mark = true) : Makes (.closeLiteral lit.mark)
  | closeRawLiteral {hashes : Nat} (hmode : s.mode = .rawLiteral hashes)
      (hcloses : w.closesRaw hashes = true) : Makes (.closeRawLiteral hashes)

end

section

variable {syn : Syntactics} {s : State} {b : UInt8} {w : Window}

theorem Bounds.of_regionMove? {m : Move} (h : State.regionMove? syn s b w = some m) :
    Bounds syn s b w m := by
  unfold State.regionMove? at h
  split at h
  · rename_i hfound
    obtain rfl := Option.some.inj h
    have hstands := List.find?_some hfound
    simp only [Bool.and_eq_true] at hstands
    exact .lineComment (List.mem_of_find?_eq_some hfound) hstands.1.1
  split at h
  · rename_i hfound
    obtain rfl := Option.some.inj h
    exact .blockComment (List.mem_of_find?_eq_some hfound) (List.find?_some hfound :)
  split at h
  · obtain rfl := Option.some.inj h
    split
    · exact .charLiteral
    · exact .loneQuote
  split at h
  · rename_i hends
    split at h
    · obtain rfl := Option.some.inj h
      exact .closeEmbedded hends.1 ‹_›
    · cases h
  split at h
  · rename_i hraw
    obtain rfl := Option.some.inj h
    split at hraw
    · exact .rawLiteral hraw
    · cases hraw
  · unfold State.opening? at h
    simp only [Option.map_map, Option.map_eq_some_iff] at h
    obtain ⟨lit, hfound, rfl⟩ := h
    have hlit := List.mem_of_find?_eq_some hfound
    have hstands : w.startsWith lit.mark = true := (List.find?_some hfound :)
    simp only [Function.comp_apply]
    split
    · exact .literal hlit rfl hstands
    · exact .literal hlit rfl hstands

theorem Makes.of_mentionMove {kind : CaptureKind} (hmode : s.mode ≠ .code)
    (hkind : kind.isExcluded = true) : Makes syn s b w (State.mentionMove kind w) := by
  unfold State.mentionMove
  split
  · exact .mention hmode hkind ‹_› (List.prefix_refl _)
  · exact .pass hmode

theorem Makes.of_literalMove (lit : Literal) (hmode : s.mode ≠ .code) :
    Makes syn s b w (State.literalMove lit w) := by
  unfold State.literalMove
  split
  · dsimp only
    split
    · exact .mention hmode rfl ‹_› (List.dropLast_prefix _)
    · exact .mention hmode rfl ‹_› (List.prefix_refl _)
  · exact .pass hmode

theorem Makes.of_codeMove (hmode : s.mode = .code) :
    Makes syn s b w (State.codeMove syn s b w) := by
  unfold State.codeMove
  cases hregion : State.regionMove? syn s b w with
  | some m => exact .bounds hmode hregion
  | none =>
    rw [Option.getD_none]
    split
    · exact .word hmode hregion ‹_›
    split
    · exact .blank hmode
    · exact .punct hmode

/-- What a step of the lexer can be: the cases of its proofs about moves. -/
theorem State.makes_move (syn : Syntactics) (s : State) (b : UInt8) (w : Window) :
    Makes syn s b w (s.move syn b w) := by
  unfold move
  split
  · exact .newline ‹_›
  split
  · exact .of_codeMove ‹_›
  -- Outside of code a word is mentioned unless what ends or embeds the region stands here.
  all_goals
    rename_i hmode
    have hcode : s.mode ≠ .code := by simp [hmode]
  · exact .of_mentionMove hcode rfl
  · split
    · exact .closeBlockComment hmode ‹_›
    · exact .of_mentionMove hcode rfl
  · exact .escaped hmode
  · split
    · rename_i hescape
      exact .escape hmode hescape.2
    split
    · rename_i hbraces
      exact .doubledBrace hmode hbraces.2
    split
    · rename_i hmark
      exact .openEmbedded hmode (Option.filter_eq_some_iff.mp hmark).2
    split
    · exact .closeLiteral hmode ‹_›
    · exact .of_literalMove _ hcode
  · split
    · exact .closeRawLiteral hmode ‹_›
    · exact .of_mentionMove hcode rfl

end

end Lexer

/-! ### What moves cover -/

/-- What a word begins with is no line feed. -/
theorem Lexer.Window.newline_not_mem_word (w : Window) : Bytes.newline ∉ w.word := by
  intro hmem
  have hbyte := List.mem_takeWhile_imp hmem
  cases hbyte

theorem Lexer.Window.word_ne_nil {w : Window} (hstart : w.isWordStart = true) : w.word ≠ [] := by
  unfold isWordStart at hstart
  unfold word
  cases hrest : w.rest with
  | nil => simp [hrest] at hstart
  | cons b rest =>
    have hb : isIdentifierByte b = true := by
      rw [hrest] at hstart
      simpa using (Bool.and_eq_true_iff.mp hstart).1
    simp [hb]

theorem Lexer.Window.word_isWord {w : Window} (hstart : w.isWordStart = true) : w.word.IsWord :=
  ⟨word_ne_nil hstart, fun _ hb => List.mem_takeWhile_imp hb⟩

/-- A word begins with a byte of a word that stands behind none. -/
theorem Lexer.Window.isWordStart_iff {w : Window} {b : UInt8} (hhead : w.rest.head? = some b) :
    w.isWordStart = true ↔
      isIdentifierByte b = true ∧ w.before.head?.any isIdentifierByte = false := by
  simp [isWordStart, hhead]

/-- A move covers what it is taken for: bytes of the text, none of them a line feed unless
it is the move of a line feed. -/
structure Lexer.Move.Covers (m : Move) (content : Bytes) : Prop where
  width : m.width ≤ content.length
  line : m ≠ .newline → Bytes.newline ∉ content.take m.width

theorem Lexer.Move.Covers.of_text {m : Move} {content text : Bytes} (h : text <+: content)
    (hwidth : text.length = m.width) (hline : Bytes.newline ∉ text) : m.Covers content := by
  obtain ⟨rest, rfl⟩ := h
  refine ⟨by simp [← hwidth], fun _ => ?_⟩
  rw [← hwidth, List.take_left]
  exact hline

/-- A move of one byte that is no line feed covers it. -/
theorem Lexer.Move.Covers.of_head {m : Move} {w : Window} {b : UInt8}
    (hhead : w.rest.head? = some b) (hb : b ≠ Bytes.newline) (hwidth : m.width = 1) :
    m.Covers w.rest := by
  obtain ⟨rest, hrest⟩ := List.head?_eq_some_iff.mp hhead
  refine .of_text (⟨rest, by rw [hrest]; rfl⟩ : [b] <+: w.rest) hwidth.symm ?_
  simpa using hb.symm

/-- The move of a word covers the word. -/
theorem Lexer.Window.take_word (w : Window) (hstart : w.isWordStart = true) :
    w.rest.take (Move.word w.word).width = w.word := by
  have hpos := List.length_pos_iff.mpr (word_ne_nil hstart)
  have hwidth : (Move.word w.word).width = w.word.length := by
    simp only [Move.width]
    omega
  obtain ⟨rest, hrest⟩ : w.word <+: w.rest := List.takeWhile_prefix _
  rw [hwidth]
  rw [← hrest, List.take_left]

/-- A move for one byte that is no line feed, or for a mark that stands here. -/
theorem Lexer.Move.Covers.of_inline {m : Move} {w : Window} {b : UInt8} {mark : Bytes}
    (hhead : w.rest.head? = some b) (hb : b ≠ Bytes.newline) (h : w.startsWith mark = true)
    (hmark : Bytes.newline ∉ mark) (hwidth : m.width = max 1 mark.length) : m.Covers w.rest := by
  by_cases hnil : mark = []
  · exact .of_head hhead hb (by rw [hwidth, hnil]; rfl)
  · obtain ⟨rest, hrest⟩ := Bytes.startsWith_iff.mp h
    have hpos := List.length_pos_iff.mpr hnil
    exact .of_text ⟨rest, hrest.symm⟩ (by omega) hmark

/-- The word here is covered by a move as wide as the beginning of the word. -/
theorem Lexer.Move.Covers.of_word {m : Move} {w : Window} {v : Bytes}
    (hstart : w.isWordStart = true) (hv : v <+: w.word) (hwidth : m.width = max 1 v.length) :
    m.Covers w.rest := by
  have hbytes : w.word <+: w.rest := List.takeWhile_prefix _
  obtain ⟨b, more, hcons⟩ := List.exists_cons_of_ne_nil (Window.word_ne_nil hstart)
  have hline := w.newline_not_mem_word
  by_cases hnil : v = []
  · rw [hcons] at hbytes hline
    refine .of_text ((List.prefix_append [b] more).trans hbytes) ?_ fun hmem => ?_
    · rw [hwidth, hnil]
      rfl
    · exact hline (List.mem_cons.mpr (.inl (List.mem_singleton.mp hmem)))
  · have hpos := List.length_pos_iff.mpr hnil
    exact .of_text (hv.trans hbytes) (by omega) fun hmem => hline (hv.subset hmem)

/-- A raw opener covers its letters, its hash marks and the quote. -/
theorem Lexer.Window.rawOpener?_text {w : Window} {letters hashes : Nat}
    (h : w.rawOpener? = some (letters, hashes)) :
    w.word ++ (List.replicate hashes 0x23 ++ [0x22]) <+: w.rest ∧ w.word.length = letters ∧
      [bytes "r", bytes "br", bytes "cr"].contains w.word = true := by
  unfold rawOpener? at h
  obtain ⟨rest, hrest⟩ : w.word <+: w.rest := List.takeWhile_prefix _
  have hafter : w.rest.drop w.word.length = rest := by rw [← hrest, List.drop_left]
  simp only [hafter] at h
  split at h
  · rename_i hopens
    obtain ⟨rfl, rfl⟩ := Prod.mk.inj (Option.some.inj h)
    obtain ⟨more, hmore⟩ := List.head?_eq_some_iff.mp hopens.2
    refine ⟨⟨more, ?_⟩, rfl, hopens.1⟩
    have hhashes : rest.takeWhile (· == 0x23) =
        List.replicate (rest.takeWhile (· == 0x23)).length 0x23 :=
      List.eq_replicate_iff.mpr ⟨rfl, fun b hb => by simpa using List.mem_takeWhile_imp hb⟩
    have hsplit : rest.takeWhile (· == 0x23) ++ 0x22 :: more = rest := by
      obtain ⟨tail, htail⟩ := List.takeWhile_prefix (· == (0x23 : UInt8)) (l := rest)
      generalize rest.takeWhile (· == 0x23) = marks at htail hmore
      rw [← htail, List.drop_left] at hmore
      rw [← htail, hmore]
    rw [← hrest, List.append_assoc, List.append_assoc, ← hhashes]
    exact congrArg (w.word ++ ·) hsplit
  · cases h

/-- A move covers bytes of one line, unless it is that of a line feed. -/
structure Lexer.Move.InLine (m : Move) (w : Window) : Prop where
  covers : m.Covers w.rest
  tame : m.Tame
  newline : m = .newline → w.rest.head? = some Bytes.newline

theorem Lexer.Move.InLine.length_take {m : Move} {w : Window} (h : m.InLine w) :
    (w.rest.take m.width).length = m.width := by
  rw [List.length_take]
  exact Nat.min_eq_left h.covers.width

theorem Lexer.Move.InLine.take_newline {m : Move} {w : Window} (h : m.InLine w)
    (hm : m = .newline) : w.rest.take m.width = [Bytes.newline] := by
  obtain ⟨rest, hrest⟩ := List.head?_eq_some_iff.mp (h.newline hm)
  rw [hrest, hm]
  rfl

/-- A move that opens or closes a region of code covers bytes of one line. -/
theorem Lexer.Bounds.inLine {syn : Syntactics} (hsyn : syn.Regular) {s : State}
    (hs : s.Regular) {b : UInt8} {w : Window} (hhead : w.rest.head? = some b)
    (hb : b ≠ Bytes.newline) {m : Move} (h : Bounds syn s b w m) : m.InLine w := by
  cases h with
  | lineComment hmark hstands =>
    exact ⟨.of_inline hhead hb hstands (hsyn.lineComments _ hmark).newline_not_mem rfl, trivial,
      by rintro ⟨⟩⟩
  | blockComment hmarks hstands =>
    obtain ⟨hopening, hclose⟩ := hsyn.blockComments _ hmarks
    exact ⟨.of_inline hhead hb hstands hopening.newline_not_mem rfl, hclose, by rintro ⟨⟩⟩
  | charLiteral | loneQuote => exact ⟨.of_head hhead hb rfl, trivial, by rintro ⟨⟩⟩
  | closeEmbedded _ hsuspended =>
    have hall := hs.suspended
    rw [hsuspended] at hall
    exact ⟨.of_head hhead hb rfl, ⟨hall _ List.mem_cons_self,
      fun other hother => hall other (List.mem_cons_of_mem _ hother)⟩, by rintro ⟨⟩⟩
  | rawLiteral hraw =>
    obtain ⟨htext, rfl, _⟩ := Window.rawOpener?_text hraw
    refine ⟨.of_text htext ?_ fun hmem => ?_, trivial, by rintro ⟨⟩⟩
    · simp only [Move.width, List.length_append, List.length_replicate, List.length_singleton]
      omega
    · rcases List.mem_append.mp hmem with hmem | hmem
      · exact w.newline_not_mem_word hmem
      · rcases List.mem_append.mp hmem with hmem | hmem
        · cases List.eq_of_mem_replicate hmem
        · cases List.mem_singleton.mp hmem
  | literal hlit hmark hstands =>
    have hline := hsyn.literals _ hlit
    rw [← hmark] at hline hstands
    exact ⟨.of_inline hhead hb hstands hline.newline_not_mem rfl, hline, by rintro ⟨⟩⟩

/-- Every move but that of a line feed covers bytes of one line. -/
theorem Lexer.State.inLine_move {syn : Syntactics} (hsyn : syn.Regular) {s : State}
    (hs : s.Regular) {b : UInt8} {w : Window} (hhead : w.rest.head? = some b) :
    (s.move syn b w).InLine w := by
  by_cases hb : b = Bytes.newline
  · obtain ⟨rest, hrest⟩ := List.head?_eq_some_iff.mp hhead
    rw [move, if_pos hb]
    exact ⟨⟨by simp [hrest, Move.width], fun hne => absurd rfl hne⟩, trivial, fun _ => hb ▸ hhead⟩
  have hmakes := s.makes_move syn b w
  generalize s.move syn b w = m at hmakes ⊢
  cases hmakes with
  | newline hnewline => exact absurd hnewline hb
  | bounds _ hregion => exact (Bounds.of_regionMove? hregion).inLine hsyn hs hhead hb
  | word _ _ hstart => exact ⟨.of_word hstart (List.prefix_refl _) rfl, trivial, by rintro ⟨⟩⟩
  | mention _ hkind hstart hv => exact ⟨.of_word hstart hv rfl, hkind, by rintro ⟨⟩⟩
  | blank | punct | pass | escaped | escape =>
    exact ⟨.of_head hhead hb rfl, trivial, by rintro ⟨⟩⟩
  | closeBlockComment hmode hstands =>
    exact ⟨.of_inline hhead hb hstands (hs.comment _ hmode).newline_not_mem rfl, trivial,
      by rintro ⟨⟩⟩
  | doubledBrace _ hstands =>
    obtain ⟨rest, hrest⟩ := Bytes.startsWith_iff.mp hstands
    exact ⟨.of_text ⟨rest, hrest.symm⟩ rfl (by decide), trivial, by rintro ⟨⟩⟩
  | @openEmbedded _ mark hmode hstands =>
    refine ⟨.of_inline hhead hb hstands ?_ rfl, hs.literal _ _ hmode, by rintro ⟨⟩⟩
    cases mark <;> decide
  | closeLiteral hmode hstands =>
    exact ⟨.of_inline hhead hb hstands (hs.literal _ _ hmode).newline_not_mem rfl, trivial,
      by rintro ⟨⟩⟩
  | closeRawLiteral _ hcloses =>
    refine ⟨.of_inline hhead hb hcloses (fun hmem => ?_) ?_, trivial, by rintro ⟨⟩⟩
    · rcases List.mem_cons.mp hmem with hquote | hhash
      · cases hquote
      · cases List.eq_of_mem_replicate hhash
    · simp only [Move.width, List.length_cons, List.length_replicate]
      omega

/-! ### The region after a move -/

@[simp] theorem Lexer.State.nest_mode (s : State) (b : UInt8) : (s.nest b).mode = s.mode := by
  unfold nest
  repeat' split
  all_goals rfl

@[simp] theorem Lexer.State.nest_suspended (s : State) (b : UInt8) :
    (s.nest b).suspended = s.suspended := by
  unfold nest
  repeat' split
  all_goals rfl

theorem Lexer.State.nest_braces (s : State) (b : UInt8) :
    (s.nest b).braces =
      if b = 0x7b then s.braces + 1 else if b = 0x7d then s.braces - 1 else s.braces := by
  unfold nest
  split
  · subst b
    rfl
  split
  · subst b
    rfl
  split
  · rfl
  split
  · rfl
  split <;> rfl

/-- Both states stand in the same region, within the same suspended literals. -/
structure Lexer.State.SameRegion (s t : State) : Prop where
  mode : t.mode = s.mode
  suspended : t.suspended = s.suspended
  braces : t.braces = s.braces

/-- A move leads to the same region from the same region. -/
theorem Lexer.State.SameRegion.after {s t : State} (h : SameRegion s t) (m : Move) :
    SameRegion (s.after m) (t.after m) := by
  obtain ⟨hmode, hsuspended, hbraces⟩ := h
  cases m with
  | newline => exact ⟨by simp only [State.after, afterNewline, hmode], hsuspended, hbraces⟩
  | openLineComment | openBlockComment | closeBlockComment | openCharLiteral | closeLiteral
  | openLiteral | openRawLiteral | closeRawLiteral => exact ⟨rfl, hsuspended, hbraces⟩
  | escape | escaped =>
    simp only [State.after, hmode]
    split
    · exact ⟨rfl, hsuspended, hbraces⟩
    · exact ⟨hmode, hsuspended, hbraces⟩
  | openEmbedded lit mark =>
    refine ⟨?_, ?_, ?_⟩
    · simp only [State.after, afterPunct, push, nest_mode]
    · simp only [State.after, afterPunct, push, nest_suspended, hsuspended, hbraces]
    · simp only [State.after, afterPunct, push, nest_braces, hbraces]
  | closeEmbedded inner outer => exact ⟨rfl, rfl, rfl⟩
  | punct b =>
    refine ⟨?_, ?_, ?_⟩
    · simp only [State.after, afterPunct, push, nest_mode, hmode]
    · simp only [State.after, afterPunct, push, nest_suspended, hsuspended]
    · simp only [State.after, afterPunct, push, nest_braces, hbraces]
  | loneQuote | word | doubledBrace | blank | mention | pass => exact ⟨hmode, hsuspended, hbraces⟩

/-- After such a move the lexer waits for marks without line feeds, too. -/
theorem Lexer.State.Regular.after {s : State} (hs : s.Regular) {m : Move} (hm : m.Tame) :
    (s.after m).Regular := by
  obtain ⟨hmode, hsuspended⟩ := regular_iff.mp hs
  refine regular_iff.mpr ?_
  cases m with
  | newline =>
    refine ⟨?_, hsuspended⟩
    simp only [State.after, afterNewline]
    split
    · trivial
    · rename_i hwas
      rw [hwas] at hmode
      split
      · exact hmode
      · trivial
    · exact hmode
  | openBlockComment | openLiteral => exact ⟨hm, hsuspended⟩
  | openCharLiteral => exact ⟨(by decide : Literal.single.mark.IsMark), hsuspended⟩
  | openLineComment | closeBlockComment | closeLiteral | openRawLiteral | closeRawLiteral =>
    exact ⟨trivial, hsuspended⟩
  | escape | escaped =>
    simp only [State.after]
    split
    · rename_i hwas
      rw [hwas] at hmode
      exact ⟨hmode, hsuspended⟩
    · exact ⟨hmode, hsuspended⟩
  | openEmbedded lit mark =>
    simp only [State.after, afterPunct, push, nest_mode, nest_suspended]
    exact ⟨trivial, List.forall_mem_cons.mpr ⟨hm, hsuspended⟩⟩
  | closeEmbedded inner outer => exact hm
  | punct b =>
    simp only [State.after, afterPunct, push, nest_mode, nest_suspended]
    exact ⟨hmode, hsuspended⟩
  | loneQuote | word | doubledBrace | blank | mention | pass => exact ⟨hmode, hsuspended⟩

end SymbolRename
