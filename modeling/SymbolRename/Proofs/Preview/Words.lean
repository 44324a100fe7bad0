import SymbolRename.Proofs.Lexer.WholeWords
import SymbolRename.Proofs.Preview.EditScript
import SymbolRename.Proofs.Text.Decimal
import SymbolRename.Operation

/-!
# The words of a preview

Apart from its colours a preview of changes shows the paths of their files, the numbers of their
lines, and the lines before and after them. So a word with an underscore that stands in the preview
stands in one of the paths or lines: `Preview.mem_words_diff`.
-/

namespace SymbolRename

/-- An underscore among the bytes of a text is one of its characters. -/
theorem underscore_mem_of_mem_bytes {s : String} (h : 0x5f ∈ bytes s) : '_' ∈ s.toList := by
  rw [bytes_eq_flatMap] at h
  obtain ⟨c, hc, hbyte⟩ := List.mem_flatMap.mp h
  have hascii : c.toNat < 0x80 := by
    by_contra hlarge
    exact absurd (Utf8.le_of_mem_encode (Nat.le_of_not_lt hlarge) hbyte) (by decide)
  rw [Utf8.encode_of_lt hascii, List.mem_singleton] at hbyte
  have hnat : c.toNat = '_'.toNat :=
    (Utf8.toNat_ofNat (by omega)).symm.trans (congrArg UInt8.toNat hbyte).symm
  rwa [← Char.ofNat_toNat c, hnat] at hc

/-- The bytes of a word stand in the text. -/
theorem Bytes.mem_of_mem_words {w content : Bytes} (h : w ∈ words content) {b : UInt8}
    (hb : b ∈ w) : b ∈ content := by
  obtain ⟨_, front, rest, rfl, _⟩ := exists_of_mem_words h
  exact List.mem_append_left _ (List.mem_append_right _ hb)

/-- A text without bytes of identifiers has no words. -/
theorem Bytes.words_eq_nil {content : Bytes} (h : ∀ b ∈ content, isIdentifierByte b = false) :
    words content = [] := by
  induction content with
  | nil => rw [words]
  | cons b content ih =>
    obtain ⟨hb, hrest⟩ := List.forall_mem_cons.mp h
    rw [words_other hb, ih hrest]

/-- A word is its only word. -/
theorem Bytes.words_of_isWord {w : Bytes} (h : w.IsWord) : words w = [w] := by
  have hwords := @words_word w [] h rfl
  rwa [List.append_nil, words] at hwords

/-- Bytes that keep words apart: at least one, and none of a word. -/
def Bytes.IsGap (gap : Bytes) : Prop := gap ≠ [] ∧ ∀ b ∈ gap, isIdentifierByte b = false

instance (gap : Bytes) : Decidable gap.IsGap :=
  @instDecidableAnd _ _ _ (List.decidableBAll _ gap)

theorem Bytes.IsGap.words_append {gap : Bytes} (h : gap.IsGap) (a : Bytes) :
    words (a ++ gap) = words a := by
  obtain ⟨b, more, rfl⟩ := List.exists_cons_of_ne_nil h.1
  have hhead := h.2 b List.mem_cons_self
  rw [Bytes.words_append (.inr (by simpa using hhead)), words_eq_nil h.2, List.append_nil]

/-- Texts on both sides of a gap keep their words. -/
theorem Bytes.IsGap.words_between {gap : Bytes} (h : gap.IsGap) (a b : Bytes) :
    words (a ++ gap ++ b) = words a ++ words b := by
  have hlast : (a ++ gap).getLast?.any isIdentifierByte = false := by
    rw [List.getLast?_append_of_ne_nil _ h.1, List.getLast?_eq_some_getLast h.1, Option.any_some]
    exact h.2 _ (List.getLast_mem h.1)
  rw [Bytes.words_append (.inl hlast), h.words_append]

/-! ### Lines of a text -/

/-- A line break: a line feed or a carriage return. -/
def Diff.IsBreak (c : Char) : Prop := c = '\n' ∨ c = '\r'

/-- A part of a text that stands between line breaks and the ends of the text. -/
def Diff.IsPart (text part : List Char) : Prop :=
  ∃ before after, text = before ++ part ++ after ∧ (∀ c ∈ before.getLast?, IsBreak c) ∧
    (after ≠ [] → ∃ c ∈ part.getLast?, IsBreak c)

/-- The lines of a text are such parts. The induction is on what is left; `front` stands before the
current line. -/
theorem Diff.isPart_go {front line text : List Char} (hfront : ∀ c ∈ front.getLast?, IsBreak c) :
    ∀ l ∈ splitLines.go line text, IsPart (front ++ line.reverse ++ text) l := by
  fun_induction splitLines.go line text generalizing front with
  | case1 => exact fun l hl => absurd hl List.not_mem_nil
  | case2 line =>
    intro l hl
    rw [List.mem_singleton.mp hl]
    exact ⟨front, [], rfl, hfront, fun hne => absurd rfl hne⟩
  | case3 line rest ih =>
    have hbreak : ∀ c ∈ (front ++ line.reverse ++ ['\r', '\n']).getLast?, IsBreak c := by
      simp [IsBreak]
    intro l hl
    rcases List.mem_cons.mp hl with rfl | hl
    · exact ⟨front, rest, by simp, hfront, fun _ => ⟨'\n', by simp, .inl rfl⟩⟩
    · simpa using ih hbreak l hl
  | case4 line c rest _ hc ih =>
    have hbreak : ∀ d ∈ (front ++ line.reverse ++ [c]).getLast?, IsBreak d := by
      rw [List.getLast?_concat]
      exact fun d hd => Option.some.inj hd ▸ hc
    intro l hl
    rcases List.mem_cons.mp hl with rfl | hl
    · exact ⟨front, rest, by simp, hfront, fun _ => ⟨c, by simp, hc⟩⟩
    · simpa using ih hbreak l hl
  | case5 line c rest _ _ ih =>
    intro l hl
    simpa using ih hfront l hl

theorem Diff.isPart_splitLines {text : List Char} : ∀ l ∈ splitLines text, IsPart text l :=
  @isPart_go [] [] text (by simp)

/-- A line break ends every word. -/
theorem Diff.any_getLast?_of_break {cs : List Char} (h : ∀ c ∈ cs.getLast?, IsBreak c) :
    (bytes (String.ofList cs)).getLast?.any isIdentifierByte = false := by
  rcases List.eq_nil_or_concat' cs with rfl | ⟨cs, c, rfl⟩
  · rfl
  · rw [bytes_ofList, List.flatMap_append]
    rcases h c (by simp) with rfl | rfl <;> simp [String.utf8EncodeChar] <;> decide

/-- A line break begins no word. -/
theorem Diff.any_head?_of_break {cs : List Char} (h : ∀ c ∈ cs.head?, IsBreak c) :
    (bytes (String.ofList cs)).head?.any isIdentifierByte = false := by
  cases cs with
  | nil => rfl
  | cons c cs =>
    rw [bytes_ofList, List.flatMap_cons]
    rcases h c rfl with rfl | rfl <;> rfl

/-- The words of such a part are words of the text. -/
theorem Diff.IsPart.words_subset {text part : List Char} (h : IsPart text part) :
    Bytes.words (bytes (String.ofList part)) ⊆ Bytes.words (bytes (String.ofList text)) := by
  obtain ⟨before, after, rfl, hbefore, hafter⟩ := h
  have hwords : Bytes.words (bytes (String.ofList (before ++ part ++ after))) =
      Bytes.words (bytes (String.ofList before)) ++ Bytes.words (bytes (String.ofList part)) ++
        Bytes.words (bytes (String.ofList after)) := by
    rw [String.ofList_append, String.ofList_append, bytes_append, bytes_append, Bytes.words_append,
      Bytes.words_append (.inl (any_getLast?_of_break hbefore))]
    by_cases hempty : after = []
    · rw [hempty]
      exact .inr rfl
    · obtain ⟨c, hc, hbreak⟩ := hafter hempty
      refine .inl ?_
      rw [← bytes_append, ← String.ofList_append]
      refine any_getLast?_of_break fun d hd => ?_
      rw [List.getLast?_append, Option.mem_def.mp hc] at hd
      exact Option.some.inj hd ▸ hbreak
  rw [hwords]
  exact fun w hw => List.mem_append_left _ (List.mem_append_right _ hw)

/-! ### Painted texts -/

namespace Painted

/-- The words of the text, whatever its colours. -/
def words (p : Painted) : List Bytes := Bytes.words (bytes (p.render false))

/-- The text does not end within a word. -/
def EndsApart (p : Painted) : Prop :=
  (bytes (p.render false)).getLast?.any isIdentifierByte = false

theorem render_append (p q : Painted) (color : Bool) :
    render (p ++ q) color = render p color ++ render q color := by
  rw [render, List.map_append, String.join_append]
  rfl

theorem render_cons (s : Span) (p : Painted) : render (s :: p) false = s.text ++ render p false :=
  render_append [s] p false

theorem render_styled (style : Style) (s : String) : (styled style s).render false = s := by
  simp [styled, render]

theorem render_plain (s : String) : (plain s).render false = s := by
  simp [plain, render]

theorem words_append {p q : Painted} (h : p.EndsApart) : (p ++ q).words = p.words ++ q.words := by
  unfold words
  rw [render_append, bytes_append, Bytes.words_append (.inl h)]

theorem EndsApart.append {p q : Painted} (hp : p.EndsApart) (hq : q.EndsApart) :
    EndsApart (p ++ q) := by
  unfold EndsApart at hp hq ⊢
  rw [render_append, bytes_append, List.getLast?_append]
  cases hlast : (bytes (render q false)).getLast? with
  | none => exact hp
  | some b =>
    rw [hlast] at hq
    exact hq

section

variable {α : Type} {l : List α} {f : α → Painted}

theorem EndsApart.flatMap (h : ∀ x ∈ l, (f x).EndsApart) : EndsApart (l.flatMap f) := by
  induction l with
  | nil => rfl
  | cons x l ih =>
    obtain ⟨hx, hl⟩ := List.forall_mem_cons.mp h
    exact hx.append (ih hl)

/-- A word of texts that do not end within words is a word of one of them. -/
theorem exists_of_mem_words_flatMap (h : ∀ x ∈ l, (f x).EndsApart) {w : Bytes}
    (hw : w ∈ words (l.flatMap f)) : ∃ x ∈ l, w ∈ (f x).words := by
  induction l with
  | nil => simp [words, render, Bytes.words] at hw
  | cons x l ih =>
    obtain ⟨hx, hl⟩ := List.forall_mem_cons.mp h
    rw [List.flatMap_cons, words_append hx] at hw
    rcases List.mem_append.mp hw with hw | hw
    · exact ⟨x, List.mem_cons_self, hw⟩
    · obtain ⟨y, hy, hw⟩ := ih hl hw
      exact ⟨y, List.mem_cons_of_mem x hy, hw⟩

end

/-- The words of a text that is made of two others and gaps are those of the two. -/
theorem words_of_gaps {p : Painted} {first second third x y : String}
    (hrender : p.render false = first ++ x ++ second ++ y ++ third) (hfirst : (bytes first).IsGap)
    (hsecond : (bytes second).IsGap) (hthird : (bytes third).IsGap) :
    p.words = Bytes.words (bytes x) ++ Bytes.words (bytes y) := by
  rw [words, hrender, bytes_append, bytes_append, bytes_append, bytes_append, hthird.words_append,
    hsecond.words_between]
  have hbegin := hfirst.words_between [] (bytes x)
  rw [List.nil_append, Bytes.words, List.nil_append] at hbegin
  rw [hbegin]

/-- A text that ends with a line feed. -/
theorem EndsApart.of_newline {p : Painted} {s : String} (h : p.render false = s ++ "\n") :
    p.EndsApart := by
  unfold EndsApart
  rw [h, bytes_append, List.getLast?_append]
  rfl

end Painted

namespace Preview

/-- Highlighting a name leaves the text of the line. -/
theorem render_highlight (base strong : Style) (word line : List Char) :
    (highlight base strong word line).render false = String.ofList line := by
  unfold highlight
  split
  · exact Painted.render_styled _ _
  · rename_i hword
    have hgo : ∀ skip piece line, (highlight.go base strong word skip piece line).render false =
        String.ofList (piece.reverse ++ line.drop skip) := by
      intro skip piece line
      fun_induction highlight.go base strong word skip piece line with
      | case1 => simp [Painted.render]
      | case2 skip piece c rest hskip ih =>
        obtain ⟨skip, rfl⟩ := Nat.exists_eq_succ_of_ne_zero (Nat.ne_of_gt hskip)
        exact ih
      | case3 skip piece c rest hskip hprefix ih =>
        obtain rfl : skip = 0 := Nat.eq_zero_of_not_pos hskip
        obtain ⟨more, hmore⟩ := List.isPrefixOf_iff_prefix.mp hprefix
        obtain ⟨first, word, rfl⟩ := List.exists_cons_of_ne_nil fun hnil =>
          hword (List.isEmpty_iff.mpr hnil)
        obtain ⟨rfl, rfl⟩ := List.cons.inj hmore
        rw [Painted.render_cons, Painted.render_cons, ih, ← String.ofList_append,
          ← String.ofList_append]
        simp
      | case4 skip piece c rest hskip _ ih =>
        obtain rfl : skip = 0 := Nat.eq_zero_of_not_pos hskip
        simpa using ih
    simpa using hgo 0 [] line

/-- One line of a difference as it is written without colours. -/
def plainLine (tag : Diff.Tag) (line : List Char) : String :=
  let mark := match tag with
    | .remove => "-"
    | .add => "+"
    | .keep => " "
  mark ++ String.ofList (Text.dropTrailing (· == '\n') line) ++ "\n"

/-- Without colours the names of a line play no part. -/
theorem render_diffLine (old new : List Char) (tag : Diff.Tag) (line : List Char) :
    (diffLine old new tag line).render false = plainLine tag line := by
  unfold diffLine plainLine
  cases tag <;> simp [Painted.render_append, Painted.render_styled, Painted.render_plain,
    render_highlight, String.append_assoc]

/-- The words of a line of a difference are words of the line. -/
theorem words_diffLine (old new : List Char) (tag : Diff.Tag) (line : List Char) :
    (diffLine old new tag line).EndsApart ∧
      (diffLine old new tag line).words ⊆ Bytes.words (bytes (String.ofList line)) := by
  have hrender : ∃ mark ∈ ["-", "+", " "], (diffLine old new tag line).render false =
      mark ++ String.ofList (Text.dropTrailing (· == '\n') line) ++ "\n" := by
    rw [render_diffLine]
    cases tag <;> simp [plainLine]
  obtain ⟨mark, hmark, hrender⟩ := hrender
  refine ⟨.of_newline hrender, ?_⟩
  have hword : Bytes.words (bytes mark) = [] ∧
      (bytes mark).getLast?.any isIdentifierByte = false := by
    fin_cases hmark <;> exact ⟨Bytes.words_eq_nil (by decide +kernel), by decide +kernel⟩
  have hbody : Bytes.words (bytes (String.ofList (Text.dropTrailing (· == '\n') line))) ⊆
      Bytes.words (bytes (String.ofList line)) := by
    have hbreak : ∀ c ∈ (line.rtakeWhile (· == '\n')).head?, Diff.IsBreak c := by
      intro c hc
      have hfeed := List.mem_rtakeWhile_imp (p := (· == '\n')) (List.mem_of_head? hc)
      exact .inl (beq_iff_eq.mp hfeed)
    conv_rhs => rw [← List.rdropWhile_append_rtakeWhile (p := (· == '\n')) (l := line),
      String.ofList_append, bytes_append, Bytes.words_append (.inr (Diff.any_head?_of_break hbreak))]
    exact List.subset_append_left _ _
  unfold Painted.words
  rw [hrender, bytes_append, bytes_append, Bytes.words_append (.inr rfl),
    Bytes.words_append (.inl hword.2), hword.1, List.nil_append,
    Bytes.words_eq_nil (show ∀ b ∈ bytes "\n", _ by decide +kernel), List.append_nil]
  exact hbody

theorem endsApart_header (line : Nat) :
    (Painted.styled .lineNumber s!"@@ line {line} @@\n").EndsApart := by
  refine .of_newline (s := s!"@@ line {line} @@") ?_
  rw [Painted.render_styled]
  simp [toString, String.append_assoc]

theorem endsApart_lineDiff (old new : List Char) (line : Nat) (before after : String) :
    (lineDiff old new line before after).EndsApart := by
  refine .append (.append (endsApart_header line) (.flatMap fun entry _ => ?_)) ?_
  · exact (words_diffLine old new entry.1 entry.2).1
  · exact .of_newline (s := "") (by rw [Painted.render_plain, String.empty_append])

/-- The words with an underscore in the difference of a changed line are words of the line before
or after the change. -/
theorem mem_words_lineDiff {old new : List Char} {line : Nat} {before after : String} {w : Bytes}
    (hunderscore : 0x5f ∈ w) (hw : w ∈ (lineDiff old new line before after).words) :
    w ∈ Bytes.words (bytes before) ∨ w ∈ Bytes.words (bytes after) := by
  have hfeed : w ∉ Bytes.words (bytes "\n") := fun hmem =>
    absurd (underscore_mem_of_mem_bytes (Bytes.mem_of_mem_words hmem hunderscore)) (by decide)
  have hpart : ∀ {text : String} {l : List Char}, l ∈ Diff.splitLines (text.toList ++ ['\n']) →
      w ∈ Bytes.words (bytes (String.ofList l)) → w ∈ Bytes.words (bytes text) := by
    intro text l hl hmem
    have hwords := (Diff.isPart_splitLines l hl).words_subset hmem
    rw [String.ofList_append, String.ofList_toList, bytes_append,
      Bytes.words_append (.inr rfl)] at hwords
    exact (List.mem_append.mp hwords).resolve_right hfeed
  have hlines : ∀ entry ∈ Diff.lines (before.toList ++ ['\n']) (after.toList ++ ['\n']),
      (diffLine old new entry.1 entry.2).EndsApart :=
    fun entry _ => (words_diffLine old new entry.1 entry.2).1
  unfold lineDiff at hw
  rw [Painted.words_append ((endsApart_header line).append (.flatMap hlines)),
    Painted.words_append (endsApart_header line)] at hw
  rcases List.mem_append.mp hw with hw | hw
  · rcases List.mem_append.mp hw with hw | hw
    · rw [Painted.words, Painted.render_styled] at hw
      have hmem := underscore_mem_of_mem_bytes (Bytes.mem_of_mem_words hw hunderscore)
      have hdigits : '_' ∉ Nat.toDigits 10 line := fun hdigit =>
        absurd (Count.isDigit_of_mem_toDigits hdigit) (by decide)
      simp [toString, Nat.repr, hdigits] at hmem
    · obtain ⟨⟨tag, l⟩, hl, hw⟩ := Painted.exists_of_mem_words_flatMap hlines hw
      have hwords := (words_diffLine old new tag l).2 hw
      exact (Diff.mem_lines hl).imp (hpart · hwords) (hpart · hwords)
  · rw [Painted.words, Painted.render_plain] at hw
    exact absurd hw hfeed

/-- The changed lines of a file come from changes in it. -/
structure OfChanges (changes : List Change) (entry : Path × LineChanges) : Prop where
  file : ∃ c ∈ changes, c.location.file = entry.1
  lines : ∀ line ∈ entry.2, ∃ c ∈ changes, line.2 = (c.before, c.after)

theorem mem_insertLine {line : Nat} {before after : String} {lines : LineChanges}
    {entry : Nat × String × String} (h : entry ∈ insertLine line before after lines) :
    entry.2 = (before, after) ∨ entry ∈ lines := by
  induction lines with
  | nil => exact .inl (congrArg Prod.snd (List.mem_singleton.mp h))
  | cons first rest ih =>
    rw [insertLine] at h
    split at h
    · rcases List.mem_cons.mp h with rfl | h
      · exact .inl rfl
      · exact .inr h
    · split at h
      · exact .inr h
      · rcases List.mem_cons.mp h with rfl | h
        · exact .inr List.mem_cons_self
        · exact (ih h).imp_right (List.mem_cons_of_mem first)

theorem OfChanges.insertChange {changes : List Change} {c : Change} (hc : c ∈ changes)
    {files : List (Path × LineChanges)} (h : ∀ entry ∈ files, OfChanges changes entry) :
    ∀ entry ∈ insertChange c files, OfChanges changes entry := by
  have hnew : OfChanges changes (c.location.file, [(c.location.line, c.before, c.after)]) :=
    ⟨⟨c, hc, rfl⟩, fun line hline => ⟨c, hc, congrArg Prod.snd (List.mem_singleton.mp hline)⟩⟩
  induction files with
  | nil => exact List.forall_mem_singleton.mpr hnew
  | cons first rest ih =>
    obtain ⟨hfirst, hrest⟩ := List.forall_mem_cons.mp h
    rw [Preview.insertChange]
    split
    · exact List.forall_mem_cons.mpr ⟨hnew, h⟩
    · refine List.forall_mem_cons.mpr ⟨⟨hfirst.file, fun line hline => ?_⟩, hrest⟩
      rcases mem_insertLine hline with heq | hline
      · exact ⟨c, hc, heq⟩
      · exact hfirst.lines line hline
    · exact List.forall_mem_cons.mpr ⟨hfirst, ih hrest⟩

theorem OfChanges.foldl {changes made : List Change} (hmade : made ⊆ changes)
    {files : List (Path × LineChanges)} (h : ∀ entry ∈ files, OfChanges changes entry) :
    ∀ entry ∈ made.foldl (fun files c => Preview.insertChange c files) files,
      OfChanges changes entry := by
  induction made generalizing files with
  | nil => exact h
  | cons c made ih =>
    obtain ⟨hc, hmade⟩ := List.cons_subset.mp hmade
    exact ih hmade (OfChanges.insertChange hc h)

/-- The lines that head the changes of a file. -/
def fileHeader (name : String) : Painted :=
  Painted.styled .fileName s!"--- {name}\n+++ {name}\n"

theorem words_fileHeader (name : String) :
    (fileHeader name).EndsApart ∧ (fileHeader name).words ⊆ Bytes.words (bytes name) := by
  have hrender : (fileHeader name).render false =
      "--- " ++ name ++ "\n+++ " ++ name ++ "\n" := by
    rw [fileHeader, Painted.render_styled]
    simp [toString]
  refine ⟨.of_newline hrender, ?_⟩
  rw [Painted.words_of_gaps hrender (by decide +kernel) (by decide +kernel) (by decide +kernel)]
  exact List.append_subset.mpr ⟨List.Subset.refl _, List.Subset.refl _⟩

theorem endsApart_file (cwd : Path) (old new : List Char) (entry : Path × LineChanges) :
    Painted.EndsApart (fileHeader (shownPath cwd entry.1) ++ entry.2.flatMap fun line =>
      lineDiff old new line.1 line.2.1 line.2.2) :=
  .append (words_fileHeader _).1 (.flatMap fun _ _ => endsApart_lineDiff _ _ _ _ _)

theorem endsApart_diff (cwd : Path) (changes : List Change) (old new : String) :
    (diff cwd changes old new).EndsApart :=
  .flatMap fun entry _ => endsApart_file cwd old.toList new.toList entry

/-- A word with an underscore that a preview of changes shows stands in the path of one of their
files, or in a line before or after a change. -/
theorem mem_words_diff {cwd : Path} {changes : List Change} {old new : String} {w : Bytes}
    (hunderscore : 0x5f ∈ w) (hw : w ∈ (diff cwd changes old new).words) :
    ∃ c ∈ changes, w ∈ Bytes.words (bytes (shownPath cwd c.location.file)) ∨
      w ∈ Bytes.words (bytes c.before) ∨ w ∈ Bytes.words (bytes c.after) := by
  obtain ⟨entry, hentry, hw⟩ := Painted.exists_of_mem_words_flatMap
    (fun entry _ => endsApart_file cwd old.toList new.toList entry) hw
  obtain ⟨⟨c, hc, hfile⟩, hlines⟩ :=
    OfChanges.foldl (List.Subset.refl changes) (fun _ h => absurd h List.not_mem_nil) entry hentry
  rw [Painted.words_append (words_fileHeader _).1] at hw
  rcases List.mem_append.mp hw with hw | hw
  · exact ⟨c, hc, .inl (hfile ▸ (words_fileHeader _).2 hw)⟩
  · obtain ⟨line, hline, hw⟩ :=
      Painted.exists_of_mem_words_flatMap (fun line _ => endsApart_lineDiff _ _ _ _ _) hw
    obtain ⟨c, hc, heq⟩ := hlines line hline
    rw [heq] at hw
    exact ⟨c, hc, .inr (mem_words_lineDiff hunderscore hw)⟩

end Preview

namespace Operation

/-- The part of a batch's preview about one mapping. -/
def mappingPreview (cwd : Path) (m : MappingReport) : Painted :=
  Painted.plain s!"# {m.old} -> {m.new}\n" ++ Preview.diff cwd m.locations m.old m.new

/-- Without colours a batch's preview is the parts about its mappings in a row. -/
theorem batchPreview_diff (d : Disk) (r : Report) : batchPreview d .diff false r =
    some (Painted.render ((r.mappings.filter fun m => !m.locations.isEmpty).flatMap
      (mappingPreview d.herePath)) false) := by
  unfold batchPreview
  refine congrArg some ?_
  induction r.mappings.filter fun m => !m.locations.isEmpty with
  | nil => rfl
  | cons m rest ih =>
    rw [List.map_cons, List.flatMap_cons, Painted.render_append, String.join_cons, ih,
      mappingPreview, Painted.render_append, Painted.render_plain]

/-- The line that heads the part about a mapping shows its names. -/
theorem words_mappingHeader (m : MappingReport) :
    (Painted.plain s!"# {m.old} -> {m.new}\n").EndsApart ∧
      (Painted.plain s!"# {m.old} -> {m.new}\n").words =
        Bytes.words (bytes m.old) ++ Bytes.words (bytes m.new) := by
  have hrender : (Painted.plain s!"# {m.old} -> {m.new}\n").render false =
      "# " ++ m.old ++ " -> " ++ m.new ++ "\n" := by
    rw [Painted.render_plain]
    simp [toString]
  refine ⟨.of_newline hrender, ?_⟩
  exact Painted.words_of_gaps hrender (by decide +kernel) (by decide +kernel) (by decide +kernel)

/-- A word with an underscore in the preview of a batch stands in a mapping, in the path of a
changed file, or in a line before or after a change. -/
theorem mem_words_batchPreview {d : Disk} {r : Report} {text : String}
    (h : batchPreview d .diff false r = some text) {w : Bytes} (hunderscore : 0x5f ∈ w)
    (hw : w ∈ Bytes.words (bytes text)) :
    ∃ m ∈ r.mappings, w ∈ Bytes.words (bytes m.old) ∨ w ∈ Bytes.words (bytes m.new) ∨
      ∃ c ∈ m.locations, w ∈ Bytes.words (bytes (Preview.shownPath d.herePath c.location.file)) ∨
        w ∈ Bytes.words (bytes c.before) ∨ w ∈ Bytes.words (bytes c.after) := by
  rw [batchPreview_diff] at h
  obtain rfl := Option.some.inj h
  have hparts : ∀ m ∈ r.mappings.filter fun m => !m.locations.isEmpty,
      (mappingPreview d.herePath m).EndsApart :=
    fun m _ => (words_mappingHeader m).1.append (Preview.endsApart_diff _ _ _ _)
  obtain ⟨m, hm, hw⟩ := Painted.exists_of_mem_words_flatMap hparts hw
  refine ⟨m, List.mem_of_mem_filter hm, ?_⟩
  rw [mappingPreview, Painted.words_append (words_mappingHeader m).1, (words_mappingHeader m).2,
    List.append_assoc] at hw
  rcases List.mem_append.mp hw with hw | hw
  · exact .inl hw
  · rcases List.mem_append.mp hw with hw | hw
    · exact .inr (.inl hw)
    · exact .inr (.inr (Preview.mem_words_diff hunderscore hw))

end Operation

end SymbolRename
