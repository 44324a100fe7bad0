import SymbolRename.Proofs.Lexer.Soundness
import SymbolRename.Proofs.Lexer.WholeWords
import SymbolRename.Proofs.Rename.Substitution
import Mathlib.Data.List.DropRight

/-!
# Changed lines

A change shows its line before and after a rewrite. In each line of a text whose spans were
replaced, the spans of this line were replaced (`Rewrite.Replaced.line`), so the line after the
rewrite is the line before with the name replaced at every occurrence on it
(`Rewrite.shows_of_rewrite`).
-/

namespace SymbolRename

/-! ### Texts that end at a line -/

theorem Utf8.IsText.of_append_left {u v : Bytes} (h : IsText (u ++ v))
    (hv : ∀ b ∈ v.head?, b < 0x80) : IsText u := by
  cases v with
  | nil => rwa [List.append_nil] at h
  | cons b v =>
    rw [List.append_cons] at h
    refine (h.split (List.cons_ne_nil b []) fun x hx => ?_).1
    rw [List.mem_singleton.mp hx]
    exact hv b rfl

theorem Utf8.IsText.of_append_right {u v : Bytes} (h : IsText (u ++ v))
    (hu : ∀ b ∈ u.getLast?, b < 0x80) : IsText v := by
  rcases List.eq_nil_or_concat' u with rfl | ⟨u, b, rfl⟩
  · exact h
  · refine (h.split (List.cons_ne_nil b []) fun x hx => ?_).2
    rw [List.mem_singleton.mp hx]
    exact hu b (by simp)

/-- A text without ASCII bytes at its end is a text. -/
theorem Utf8.IsText.rdropWhile {p : UInt8 → Bool} (hp : ∀ b, p b = true → b < 0x80)
    {content : Bytes} (h : IsText content) : IsText (content.rdropWhile p) := by
  induction content using List.reverseRecOn with
  | nil => rwa [List.rdropWhile_nil]
  | append_singleton kept b ih =>
    by_cases hb : p b = true
    · rw [List.rdropWhile_concat_pos _ _ _ hb]
      refine ih (h.of_append_left fun x hx => ?_)
      obtain rfl := Option.some.inj hx
      exact hp b hb
    · rwa [List.rdropWhile_concat_neg _ _ _ hb]

namespace Rewrite

/-- The bytes behind the last line feed. -/
def lastLine (front : Bytes) : Bytes := front.rtakeWhile (· != Bytes.newline)

theorem lastLine_append {text : Bytes} (h : Bytes.newline ∉ text) (front : Bytes) :
    lastLine (front ++ text) = lastLine front ++ text := by
  have hother : ∀ b ∈ text.reverse, (b != Bytes.newline) = true := fun b hb =>
    bne_iff_ne.mpr fun heq => h (heq ▸ List.mem_reverse.mp hb)
  unfold lastLine List.rtakeWhile
  rw [List.reverse_append, List.takeWhile_append_of_pos hother, List.reverse_append,
    List.reverse_reverse]

theorem lastLine_newline (front : Bytes) : lastLine (front ++ [Bytes.newline]) = [] :=
  List.rtakeWhile_concat_neg _ _ _ (by simp)

theorem ne_newline_of_mem_lastLine {front : Bytes} {b : UInt8} (hb : b ∈ lastLine front) :
    (b != Bytes.newline) = true := by
  unfold lastLine at hb
  exact List.mem_rtakeWhile_imp (p := (· != Bytes.newline)) hb

theorem newline_not_mem_lastLine (front : Bytes) : Bytes.newline ∉ lastLine front := fun hmem =>
  bne_iff_ne.mp (ne_newline_of_mem_lastLine hmem) rfl

/-- A text is its last line, or a line feed stands before that. -/
theorem lastLine_cases (front : Bytes) :
    lastLine front = front ∧ Bytes.newline ∉ front ∨
      ∃ before, front = before ++ [Bytes.newline] ++ lastLine front := by
  induction front using List.reverseRecOn with
  | nil => exact .inl ⟨rfl, List.not_mem_nil⟩
  | append_singleton front b ih =>
    by_cases hb : b = Bytes.newline
    · rw [hb, lastLine_newline]
      exact .inr ⟨front, (List.append_nil _).symm⟩
    · have hnot : Bytes.newline ∉ [b] := fun hmem => hb (List.mem_singleton.mp hmem).symm
      rw [lastLine_append hnot]
      refine ih.imp (fun ⟨heq, hmem⟩ => ?_) fun ⟨before, heq⟩ => ⟨before, ?_⟩
      · rw [heq]
        exact ⟨rfl, List.not_mem_append hmem hnot⟩
      · rw [← List.append_assoc, ← heq]

theorem endsAt_lastLine (front : Bytes) :
    EndsAt front (lineStarts front).length (lastLine front).length := by
  induction front using List.reverseRecOn with
  | nil => exact .nil
  | append_singleton front b ih =>
    by_cases hb : b = Bytes.newline
    · rw [hb, lastLine_newline]
      exact ih.newline.lines ▸ ih.newline
    · have hnot : Bytes.newline ∉ [b] := fun hmem => hb (List.mem_singleton.mp hmem).symm
      rw [lastLine_append hnot, List.length_append]
      exact (ih.append hnot).lines ▸ ih.append hnot

/-- The column at the end of a text is the length of its last line. -/
theorem EndsAt.column_eq {front : Bytes} {line column : Nat} (h : EndsAt front line column) :
    column = (lastLine front).length := by
  have hstart := Option.some.inj (h.start.symm.trans (endsAt_lastLine front).start)
  have hcolumn := h.column
  have hlast := (endsAt_lastLine front).column
  omega

/-- The line in which a front ends goes on behind it. -/
theorem lineBytes_append_lastLine (front rest : Bytes) :
    lineBytes (front ++ rest) (front.count Bytes.newline + 1) =
      lastLine front ++ lineBytes rest 1 := by
  have hother : ∀ b ∈ lastLine front, (b != Bytes.newline) = true :=
    fun b => ne_newline_of_mem_lastLine
  rcases lastLine_cases front with ⟨heq, hnot⟩ | ⟨before, heq⟩
  · rw [heq] at hother ⊢
    rw [List.count_eq_zero.mpr hnot, Nat.zero_add, lineBytes_one, lineBytes_one,
      List.takeWhile_append_of_pos hother]
  · have hcount : front.count Bytes.newline = before.count Bytes.newline + 1 := by
      rw [heq, List.count_append, List.count_append,
        List.count_eq_zero.mpr (newline_not_mem_lastLine front)]
      rfl
    have hbehind := lineBytes_append_right before (Bytes.newline :: (lastLine front ++ rest)) 0
    rw [lineBytes_newline, Nat.zero_add, lineBytes_one,
      List.takeWhile_append_of_pos hother] at hbehind
    rw [hcount, lineBytes_one, ← hbehind]
    congr 1
    conv_lhs => rw [heq]
    simp

/-- What of the line stands in a front, for the lines behind it. -/
def lineFront (front : Bytes) (n : Nat) : Bytes := if n = 0 then lastLine front else []

theorem lineFront_append (front kept : Bytes) :
    lineFront front (kept.count Bytes.newline) ++ lastLine kept = lastLine (front ++ kept) := by
  unfold lineFront
  rcases lastLine_cases kept with ⟨heq, hnot⟩ | ⟨before, heq⟩
  · rw [List.count_eq_zero.mpr hnot, if_pos rfl, heq, lastLine_append hnot]
  · have hcount : kept.count Bytes.newline ≠ 0 := by
      rw [heq, List.count_append, List.count_append]
      simp
    have hlast := lastLine_append (newline_not_mem_lastLine kept)
      (front ++ before ++ [Bytes.newline])
    rw [lastLine_newline, List.nil_append, List.append_assoc front, List.append_assoc front,
      ← heq] at hlast
    rw [if_neg hcount, List.nil_append, hlast]

/-! ### One line of a text with replaced spans -/

section

variable {old new front rest rest' : Bytes} {places : List (Nat × Nat)}

/-- The replaced spans stand behind the front. -/
theorem Replaced.le_of_mem (h : Replaced old new front places rest rest') :
    ∀ place ∈ places, (lineStarts front).length ≤ place.1 := by
  induction h with
  | nil => exact fun place hplace => absurd hplace List.not_mem_nil
  | @cons front kept rest rest' line column places hends _ ih =>
    have hline := hends.lines
    rw [Rewrite.length_lineStarts, List.count_append] at hline
    rw [Rewrite.length_lineStarts, List.count_append, List.count_append] at ih
    rw [Rewrite.length_lineStarts]
    intro place hplace
    rcases List.mem_cons.mp hplace with rfl | hplace
    · show _ ≤ line
      omega
    · have hle := ih place hplace
      omega

/-- In every line the spans on it are replaced. The induction is on the spans: a line ends before
the first one, holds it, or begins behind it. -/
theorem Replaced.line (hold : Bytes.newline ∉ old) (hnew : Bytes.newline ∉ new)
    (h : Replaced old new front places rest rest') (n : Nat) :
    Replaced old new (lineFront front n)
      ((places.filter (·.1 = (lineStarts front).length + n)).map fun place => (1, place.2))
      (lineBytes rest (n + 1)) (lineBytes rest' (n + 1)) := by
  induction h generalizing n with
  | nil front rest => exact .nil _ _
  | @cons front kept rest rest' line column places hends h ih =>
    have hline : line = (lineStarts front).length + kept.count Bytes.newline := by
      rw [← hends.lines, Rewrite.length_lineStarts, Rewrite.length_lineStarts, List.count_append]
      exact Nat.add_right_comm _ _ _
    have hcount : (front ++ kept ++ old).count Bytes.newline =
        (front ++ kept).count Bytes.newline := by
      rw [List.count_append, List.count_eq_zero.mpr hold, Nat.add_zero]
    have hlines : (lineStarts (front ++ kept ++ old)).length = line := by
      rw [← hends.lines, Rewrite.length_lineStarts, Rewrite.length_lineStarts, hcount]
    rw [hlines] at ih
    rcases Nat.lt_trichotomy n (kept.count Bytes.newline) with hlt | rfl | hgt
    · have hnone : ((line, column) :: places).filter
          (·.1 = (lineStarts front).length + n) = [] := by
        refine List.filter_eq_nil_iff.mpr fun place hplace heq => ?_
        have heq := of_decide_eq_true heq
        have hle : line ≤ place.1 := by
          rcases List.mem_cons.mp hplace with rfl | hplace
          · exact Nat.le_refl line
          · exact hlines ▸ h.le_of_mem place hplace
        omega
      rw [hnone, List.append_assoc, List.append_assoc,
        lineBytes_append_left hlt (old ++ rest) (new ++ rest')]
      exact .nil _ _
    · have hword : ∀ {word : Bytes}, Bytes.newline ∉ word → ∀ tail : Bytes,
          lineBytes (kept ++ word ++ tail) (kept.count Bytes.newline + 1) =
            lastLine kept ++ word ++ lineBytes tail 1 := by
        intro word hword tail
        have hbehind := lineBytes_append_lastLine (kept ++ word) tail
        rwa [List.count_append, List.count_eq_zero.mpr hword, Nat.add_zero,
          lastLine_append hword] at hbehind
      have hcolumn : EndsAt (lineFront front (kept.count Bytes.newline) ++ lastLine kept) 1 column := by
        have hone := EndsAt.nil.append (newline_not_mem_lastLine (front ++ kept))
        rwa [List.nil_append, Nat.zero_add, ← hends.column_eq, ← lineFront_append] at hone
      have hrest := ih 0
      rw [lineFront, if_pos rfl, lastLine_append hold, ← lineFront_append, Nat.add_zero,
        Nat.zero_add] at hrest
      rw [hword hold, hword hnew, ← hline, List.filter_cons_of_pos (by simp), List.map_cons]
      exact .cons hcolumn hrest
    · obtain ⟨m, rfl⟩ := Nat.exists_eq_add_of_lt hgt
      have hskip : ∀ {word : Bytes}, Bytes.newline ∉ word → ∀ tail : Bytes,
          lineBytes (kept ++ word ++ tail) (kept.count Bytes.newline + m + 1 + 1) =
            lineBytes tail (m + 1 + 1) := by
        intro word hword tail
        have hbehind := lineBytes_append_right (kept ++ word) tail m
        rwa [List.count_append, List.count_eq_zero.mpr hword, Nat.add_zero] at hbehind
      have hrest := ih (m + 1)
      have hsum : (lineStarts front).length + (kept.count Bytes.newline + m + 1) =
          line + (m + 1) := by omega
      rw [hskip hold, hskip hnew, hsum, List.filter_cons_of_neg (by simp)]
      exact hrest

/-- A word without such bytes keeps what is before it from being dropped. -/
theorem rdropWhile_append_word {p : UInt8 → Bool} {word : Bytes} (hne : word ≠ [])
    (hword : ∀ b ∈ word, p b = false) (kept rest : Bytes) :
    (kept ++ word ++ rest).rdropWhile p = kept ++ word ++ rest.rdropWhile p := by
  induction rest using List.reverseRecOn with
  | nil =>
    obtain ⟨word, b, rfl⟩ := (List.eq_nil_or_concat' word).resolve_left hne
    have hb : ¬ p b = true := Bool.not_eq_true _ ▸ hword b (by simp)
    rw [List.append_nil, List.rdropWhile_nil, List.append_nil, ← List.append_assoc,
      List.rdropWhile_concat_neg _ _ _ hb]
  | append_singleton rest b ih =>
    rw [← List.append_assoc]
    by_cases hb : p b = true
    · rw [List.rdropWhile_concat_pos _ _ _ hb, List.rdropWhile_concat_pos _ _ _ hb, ih]
    · rw [List.rdropWhile_concat_neg _ _ _ hb, List.rdropWhile_concat_neg _ _ _ hb,
        List.append_assoc]

/-- Spans of words are replaced as well when bytes that are not in them are dropped from the end. -/
theorem Replaced.rdropWhile {p : UInt8 → Bool} (hne : old ≠ []) (hne' : new ≠ [])
    (hold : ∀ b ∈ old, p b = false) (hnew : ∀ b ∈ new, p b = false)
    (h : Replaced old new front places rest rest') :
    Replaced old new front places (rest.rdropWhile p) (rest'.rdropWhile p) := by
  induction h with
  | nil front rest => exact .nil _ _
  | cons hends _ ih =>
    rw [rdropWhile_append_word hne hold, rdropWhile_append_word hne' hnew]
    exact .cons hends ih

/-- A text in which ASCII words were replaced is a text. -/
theorem Replaced.isText (hne : old ≠ []) (hold : ∀ b ∈ old, b < 0x80) (hnew : ∀ b ∈ new, b < 0x80)
    (h : Replaced old new front places rest rest') (htext : Utf8.IsText rest) :
    Utf8.IsText rest' := by
  induction h with
  | nil => exact htext
  | cons _ _ ih =>
    obtain ⟨hkept, hrest⟩ := htext.split hne hold
    exact (hkept.append (Utf8.isText_of_ascii hnew)).append (ih hrest)

end

/-! ### The text of a line -/

/-- A line stands between line feeds and the ends of the text. -/
theorem lineBytes_split {content : Bytes} {line start : Nat}
    (hstart : (lineStarts content)[line - 1]? = some start) :
    ∃ after, content = content.take start ++ lineBytes content line ++ after ∧
      (∀ b ∈ (content.take start).getLast?, b = Bytes.newline) ∧
      ∀ b ∈ after.head?, b = Bytes.newline := by
  unfold lineBytes
  rw [hstart, Option.getD_some]
  refine ⟨(content.drop start).dropWhile (· != Bytes.newline), ?_, ?_, ?_⟩
  · rw [List.append_assoc, List.takeWhile_append_dropWhile, List.take_append_drop]
  · rcases List.mem_cons.mp (List.mem_of_getElem? hstart) with rfl | hmem
    · simp
    · obtain ⟨i, rfl, hat⟩ := mem_startsAfter hmem
      obtain ⟨hlt, hget⟩ := List.getElem?_eq_some_iff.mp hat
      rw [Nat.zero_add, List.take_succ_eq_append_getElem hlt, hget, List.getLast?_concat]
      exact fun b hb => (Option.some.inj hb).symm
  · intro b hb
    have hnot := List.head?_dropWhile_not (· != Bytes.newline) (content.drop start)
    rw [hb] at hnot
    simpa using hnot

/-- What stands before and after a line is of no word. -/
theorem any_isIdentifierByte_of_newline {b? : Option UInt8} (hb : ∀ b ∈ b?, b = Bytes.newline) :
    b?.any isIdentifierByte = false := by
  cases b? with
  | none => rfl
  | some b =>
    rw [hb b rfl]
    rfl

/-- A line stands between line feeds and the ends of the text, or there is no such line. -/
theorem lineBytes_cases (content : Bytes) (line : Nat) :
    lineBytes content line = [] ∨ ∃ before after,
      content = before ++ lineBytes content line ++ after ∧
        (∀ b ∈ before.getLast?, b = Bytes.newline) ∧ ∀ b ∈ after.head?, b = Bytes.newline := by
  cases hstart : (lineStarts content)[line - 1]? with
  | none =>
    left
    rw [lineBytes, hstart, Option.getD_none, List.drop_length]
    rfl
  | some start => exact .inr ⟨_, lineBytes_split hstart⟩

/-- The lines of a text are texts. -/
theorem isText_lineBytes {content : Bytes} (h : Utf8.IsText content) (line : Nat) :
    Utf8.IsText (lineBytes content line) := by
  have hascii : ∀ b : UInt8, b = Bytes.newline → b < 0x80 := by
    rintro b rfl
    decide
  rcases lineBytes_cases content line with hempty | ⟨before, after, hsplit, hbefore, hafter⟩
  · rw [hempty]
    exact ⟨"", bytes_empty.symm⟩
  · rw [hsplit] at h
    exact (h.of_append_left fun b hb => hascii b (hafter b hb)).of_append_right
      fun b hb => hascii b (hbefore b hb)

/-- The text of a line has its bytes, without the carriage returns at its end. -/
theorem bytes_lineText {content : Bytes} (h : Utf8.IsText content) (line : Nat) :
    bytes (lineText content line) = (lineBytes content line).rdropWhile (· == 0x0d) := by
  have hascii : ∀ b : UInt8, (b == 0x0d) = true → b < 0x80 := fun b hb => by
    rw [beq_iff_eq.mp hb]
    decide
  have htext := (isText_lineBytes h line).rdropWhile hascii
  obtain ⟨text, htext⟩ := htext
  show bytes (Utf8.decodeLossy ((lineBytes content line).rdropWhile (· == 0x0d))) = _
  rw [htext, Utf8.decodeLossy_bytes]

/-- The whole words of the text of a line are words of the content. -/
theorem words_lineText_subset {content : Bytes} (h : Utf8.IsText content) (line : Nat) :
    Bytes.words (bytes (lineText content line)) ⊆ Bytes.words content := by
  rw [bytes_lineText h]
  rcases lineBytes_cases content line with hempty | ⟨before, after, hsplit, hbefore, hafter⟩
  · rw [hempty, List.rdropWhile_nil, Bytes.words]
    exact List.nil_subset _
  · have hline : Bytes.words (lineBytes content line) ⊆ Bytes.words content := by
      conv_rhs => rw [hsplit, Bytes.words_append (.inr (any_isIdentifierByte_of_newline hafter)),
        Bytes.words_append (.inl (any_isIdentifierByte_of_newline hbefore))]
      exact fun w hw => List.mem_append_left _ (List.mem_append_right _ hw)
    refine List.Subset.trans ?_ hline
    have hdropped : ((lineBytes content line).rtakeWhile (· == 0x0d)).head?.any
        isIdentifierByte = false := by
      cases hhead : ((lineBytes content line).rtakeWhile (· == 0x0d)).head? with
      | none => rfl
      | some b =>
        have hb := List.mem_rtakeWhile_imp (List.mem_of_head? hhead)
        rw [beq_iff_eq.mp hb]
        rfl
    conv_rhs => rw [← List.rdropWhile_append_rtakeWhile (p := (· == 0x0d))
      (l := lineBytes content line), Bytes.words_append (.inr hdropped)]
    exact List.subset_append_left _ _

end Rewrite

/-- A change shows its line before and after the occurrences of a name in a text are replaced by
another name: it stands at one of them, and on its line all of them are replaced. -/
structure Change.Shows (text : String) (found : List Occurrence) (old new : String) (c : Change) :
    Prop where
  placed : ∃ o ∈ found, o.location = c.location
  before : c.before = Rewrite.lineText (bytes text) c.location.line
  after : Rewrite.Replaced (bytes old) (bytes new) []
    ((found.filter (·.location.line = c.location.line)).map fun o => (1, o.location.column))
    (bytes c.before) (bytes c.after)

/-- No name holds a carriage return. -/
theorem Rewrite.ne_return_of_isValidIdentifier {name : String} (h : isValidIdentifier name = true) :
    ∀ b ∈ bytes name, (b == 0x0d) = false := by
  intro b hb
  refine beq_eq_false_iff_ne.mpr fun heq => ?_
  have hbyte := all_isIdentifierByte h b hb
  rw [heq] at hbyte
  cases hbyte

/-- The changes of a rewrite show it. -/
theorem Rewrite.shows_of_rewrite {path : Path} {d : Disk} {text old new : String}
    (hold : isValidIdentifier old = true) (hnew : isValidIdentifier new = true)
    {found : List Occurrence}
    (hfound : Source.lexical.occurrences d path text old none = .ok found) {rewritten : Bytes}
    {changes : List Change} (h : rewrite (bytes text) found old new = .ok (rewritten, changes)) :
    ∀ c ∈ changes, c.Shows text found old new ∧ c.after = lineText rewritten c.location.line := by
  have hne : bytes old ≠ [] := List.length_pos_iff.mp (length_pos_of_isValidIdentifier hold)
  have hne' : bytes new ≠ [] := List.length_pos_iff.mp (length_pos_of_isValidIdentifier hnew)
  obtain ⟨found', hfound', hstands, _⟩ :=
    standsApartAt_lexical path d text fun hempty => hne (bytes_eq_nil_iff.mpr hempty)
  obtain rfl := Except.ok.inj (hfound.symm.trans hfound')
  obtain ⟨offsets, hoffsets, h⟩ := bind_eq_ok_iff.mp h
  obtain ⟨result, hsplice, h⟩ := bind_eq_ok_iff.mp h
  obtain ⟨rfl, rfl⟩ := Prod.mk.inj (Except.ok.inj h)
  rw [eq_of_mapM_offsetOf hstands hoffsets] at hsplice
  have hreplaced := replaced_of_splice (hstands.imp fun _ _ => StandsApartAt.standsAt) hsplice
  rw [List.take_zero, List.drop_zero] at hreplaced
  have htext : Utf8.IsText (bytes text) := ⟨text, rfl⟩
  have htext' := hreplaced.isText hne (lt_of_isValidIdentifier hold)
    (lt_of_isValidIdentifier hnew) htext
  intro c hc
  obtain ⟨o, ho, rfl⟩ := List.mem_map.mp hc
  refine ⟨⟨⟨o, ho, rfl⟩, rfl, ?_⟩, rfl⟩
  obtain ⟨n, hn⟩ : ∃ n, o.location.line = n + 1 := by
    obtain ⟨i, hi, rfl⟩ := List.mem_iff_getElem.mp ho
    have hline := ((hstands.get hi (hstands.length_eq ▸ hi)).standsAt).line
    exact Nat.exists_eq_succ_of_ne_zero hline
  have hline := (hreplaced.line (newline_not_mem_of_isValidIdentifier hold)
    (newline_not_mem_of_isValidIdentifier hnew) n).rdropWhile hne hne'
    (Rewrite.ne_return_of_isValidIdentifier hold) (Rewrite.ne_return_of_isValidIdentifier hnew)
  have hfront : lineFront [] n = [] := by
    unfold lineFront
    split <;> rfl
  have hplaces : ((found.map Occurrence.position).filter
      (·.1 = (lineStarts []).length + n)).map (fun place => (1, place.2)) =
      (found.filter (·.location.line = n + 1)).map fun o => (1, o.location.column) := by
    rw [List.filter_map, List.map_map, show (lineStarts []).length + n = n + 1 from Nat.add_comm 1 n]
    rfl
  rw [hfront, hplaces, ← bytes_lineText htext, ← bytes_lineText htext'] at hline
  simp only [hn]
  exact hline

end SymbolRename
