import SymbolRename.Proofs.Dialect.Keys
import SymbolRename.Proofs.Dialect.Lines
import SymbolRename.Proofs.Fallible
import Mathlib.Data.List.Induction

/-!
# Captures are read back from the output of a query tool

A line that spells a capture is read by its dialect and by no other. So the dialect of an output is
found by counting lines, whatever stands between the captures, and the captures are read back in
source order: `Dialect.parseCaptures_writes`.
-/

namespace SymbolRename

/-! ### Sorting by position -/

/-- Where a capture stands in its file. -/
def Capture.position (c : Capture) : Nat × Nat := (c.location.line, c.location.column)

/-- The captures in source order, those of one position in the order in which they are given. -/
structure Dialect.StablySorted (sorted captures : List Capture) : Prop where
  perm : sorted.Perm captures
  ascends : sorted.Pairwise fun c d => Location.before d.position c.position = false
  keeps : ∀ position, sorted.filter (·.position = position) = captures.filter (·.position = position)

theorem Location.before_asymm {a b : Nat × Nat} (h : before a b = true) : before b a = false := by
  simp only [before, Bool.or_eq_true, Bool.and_eq_true, decide_eq_true_eq, beq_iff_eq] at h
  simp only [before, Bool.or_eq_false_iff, Bool.and_eq_false_imp, decide_eq_false_iff_not, beq_iff_eq]
  omega

theorem Location.not_before_trans {a b c : Nat × Nat} (hab : before b a = false)
    (hbc : before c b = false) : before c a = false := by
  simp only [before, Bool.or_eq_false_iff, Bool.and_eq_false_imp, decide_eq_false_iff_not,
    beq_iff_eq] at *
  omega

section

variable {c : Capture} {sorted captures : List Capture}

theorem Dialect.perm_insertByPosition (c : Capture) (sorted : List Capture) :
    (insertByPosition c sorted).Perm (c :: sorted) := by
  induction sorted with
  | nil => exact List.Perm.refl _
  | cons d rest ih =>
    rw [insertByPosition]
    split
    · exact List.Perm.refl _
    · exact (ih.cons d).trans (List.Perm.swap c d rest)

theorem Dialect.pairwise_insertByPosition
    (h : sorted.Pairwise fun a b => Location.before b.position a.position = false) :
    (insertByPosition c sorted).Pairwise fun a b => Location.before b.position a.position = false := by
  induction sorted with
  | nil => exact List.pairwise_singleton _ _
  | cons d rest ih =>
    obtain ⟨hd, hrest⟩ := List.pairwise_cons.mp h
    rw [insertByPosition]
    split
    · rename_i hbefore
      refine List.pairwise_cons.mpr ⟨fun e he => ?_, h⟩
      have hcd : Location.before d.position c.position = false := Location.before_asymm hbefore
      rcases List.mem_cons.mp he with rfl | he
      · exact hcd
      · exact Location.not_before_trans hcd (hd e he)
    · rename_i hbefore
      refine List.pairwise_cons.mpr ⟨fun e he => ?_, ih hrest⟩
      rcases List.mem_cons.mp ((perm_insertByPosition c rest).mem_iff.mp he) with rfl | he
      · exact Bool.eq_false_iff.mpr hbefore
      · exact hd e he

/-- A capture comes behind the captures of its position. -/
theorem Dialect.filter_insertByPosition
    (h : sorted.Pairwise fun a b => Location.before b.position a.position = false)
    (position : Nat × Nat) :
    (insertByPosition c sorted).filter (·.position = position) =
      (sorted ++ [c]).filter (·.position = position) := by
  induction sorted with
  | nil => rfl
  | cons d rest ih =>
    obtain ⟨hd, hrest⟩ := List.pairwise_cons.mp h
    rw [insertByPosition]
    split
    · rename_i hbefore
      have hlater : ∀ e ∈ d :: rest, e.position ≠ c.position := by
        intro e he heq
        have hnot : Location.before c.position d.position = false := by
          rcases List.mem_cons.mp he with rfl | he
          · rw [heq]
            simp [Location.before]
          · exact heq ▸ hd e he
        exact Bool.false_ne_true (hnot.symm.trans hbefore)
      by_cases hc : c.position = position
      · have hnone : (d :: rest).filter (·.position = position) = [] :=
          List.filter_eq_nil_iff.mpr fun e he => by simpa [← hc] using hlater e he
        rw [List.filter_append, hnone, List.filter_cons_of_pos (by simpa using hc), hnone]
        simp [hc]
      · rw [List.filter_append, List.filter_cons_of_neg (by simpa using hc)]
        simp [hc]
    · rw [List.filter_cons, ih hrest, List.cons_append, List.filter_cons]

/-- Sorting keeps all captures and those of one position in their order. The induction adds the
last capture. -/
theorem Dialect.stablySorted_sortByPosition (captures : List Capture) :
    StablySorted (sortByPosition captures) captures := by
  induction captures using List.reverseRecOn with
  | nil => exact ⟨List.Perm.refl _, .nil, fun _ => rfl⟩
  | append_singleton captures c ih =>
    have hstep : sortByPosition (captures ++ [c]) = insertByPosition c (sortByPosition captures) := by
      unfold sortByPosition
      rw [List.foldl_append]
      rfl
    rw [hstep]
    refine ⟨?_, pairwise_insertByPosition ih.ascends, fun position => ?_⟩
    · exact (perm_insertByPosition c _).trans ((ih.perm.cons c).trans
        (List.perm_append_singleton c captures).symm)
    · rw [filter_insertByPosition ih.ascends, List.filter_append, List.filter_append, ih.keeps]

end

namespace Dialect

/-! ### A line and the three dialects -/

section

variable {c : Capture} {line : List Char} {file : Path}

theorem parseLine_eq_none {d : Dialect} (h : d.fields? line = none) (file : Path) :
    d.parseLine line file = .ok none := by
  rw [parseLine, h]

/-- No kind is named up to a colon before which no `re` stands. -/
theorem firstAt_capture (before : Option Char) {a : List Char} (ha : ':' ∉ a)
    (hend : a.reverse.take 2 ≠ ['e', 'r']) (rest : List Char) :
    firstAt (behindKey ["capture"] false keyedKind?) before (a ++ ':' :: rest) =
      firstAt (behindKey ["capture"] false keyedKind?) (some ':') rest := by
  refine firstAt_colon (areKeys_of_subset (by decide)) ha ?_ rest
  rintro s ⟨t, rfl⟩ hs
  obtain rfl : s = "capture".toList := by simpa using hs
  rw [List.reverse_append] at hend
  exact hend rfl

/-- Blanks at the end change nothing about that. -/
theorem reverse_take_blanks {a : List Char} (b : Blanks) (h : a.reverse.take 2 ≠ ['e', 'r']) :
    (a ++ b.1).reverse.take 2 ≠ ['e', 'r'] := by
  rw [List.reverse_append]
  cases hb : b.1.reverse with
  | nil => exact h
  | cons x more =>
    have hx : Text.isBlank x = true := b.2 x (List.mem_reverse.mp (hb ▸ List.mem_cons_self))
    intro heq
    rw [List.cons_append] at heq
    obtain rfl := (List.cons.inj heq).1
    cases hx

theorem PairBlanks.reverse_take (p : PairBlanks) (row column : Nat) (a : List Char) :
    (a ++ p.print row column).reverse.take 2 ≠ ['e', 'r'] := by
  intro heq
  have hlast : ∃ init, a ++ p.print row column = init ++ [')'] := by
    refine ⟨a ++ (p.opening.1 ++ '(' :: (p.row.1 ++ (numeral row ++ (p.comma.1 ++ ',' ::
      (p.column.1 ++ (numeral column ++ p.closing.1)))))), ?_⟩
    simp [print]
  obtain ⟨init, hinit⟩ := hlast
  rw [hinit, List.reverse_append] at heq
  cases (List.cons.inj heq).1

/-- No kind is named in three parts without colons, whichever colons stand between them, when the
first two do not end in `re`. -/
theorem keyValueFields?_parts {opening position ending : List Char} (hopening : ':' ∉ opening)
    (hposition : ':' ∉ position) (hending : ':' ∉ ending)
    (hopeningEnd : opening.reverse.take 2 ≠ ['e', 'r'])
    (hpositionEnd : ∀ a, (a ++ position).reverse.take 2 ≠ ['e', 'r']) (first second : Option Blanks) :
    keyValueFields? (opening ++ (colon first ++ (position ++ (colon second ++ ending)))) = none := by
  refine keyValueFields?_eq_none ?_
  -- A colon cuts the line; up to it no key stands, and behind the last one none does.
  unfold colon
  cases first with
  | none =>
    cases second with
    | none => exact firstAt_eq_none (by simp [hopening, hposition, hending])
    | some b =>
      have hcolon : ':' ∉ opening ++ position ++ b.1 := by
        simp [hopening, hposition, colon_not_mem_blanks]
      have hskip := firstAt_capture none hcolon (reverse_take_blanks b (hpositionEnd opening)) ending
      simp only [Option.elim_none, Option.elim_some, List.nil_append, List.append_assoc,
        List.singleton_append] at hskip ⊢
      rw [hskip, firstAt_eq_none hending]
  | some b =>
    have hcolon : ':' ∉ opening ++ b.1 := by simp [hopening, colon_not_mem_blanks]
    have hskip := firstAt_capture none hcolon (reverse_take_blanks b hopeningEnd)
    simp only [Option.elim_some, List.append_assoc, List.singleton_append] at hskip ⊢
    rw [hskip]
    cases second with
    | none => exact firstAt_eq_none (by simp [hposition, hending])
    | some b' =>
      have hcolon : ':' ∉ position ++ b'.1 := by simp [hposition, colon_not_mem_blanks]
      have hnext := firstAt_capture (some ':') hcolon (reverse_take_blanks b' (hpositionEnd [])) ending
      simp only [Option.elim_some, List.append_assoc, List.singleton_append] at hnext ⊢
      rw [hnext, firstAt_eq_none hending]

/-- No kind is named in an at-capture line: before its colons stand a kind or a position. -/
theorem keyValueFields?_atCapture (s : AtCaptureSpelling) (htext : IsName c.text.toList) :
    keyValueFields? (s.print c) = none := by
  have hline : s.print c = (s.lead.1 ++ '@' :: c.kind.word.toList) ++ (colon s.kindColon ++
      ((s.start.print c.row c.location.column ++ s.stop.elim [] Stop.print) ++ (colon s.textColon ++
        (s.text.1 ++ (s.wrapping.wrap c.text.toList ++ s.trail.1))))) := by
    simp [AtCaptureSpelling.print, AtCaptureSpelling.printText]
  rw [hline]
  apply keyValueFields?_parts
  · have hword : ':' ∉ c.kind.word.toList := by cases c.kind <;> decide
    simp [colon_not_mem_blanks, hword]
  · cases s.stop <;> simp [Stop.print, PairBlanks.colon_not_mem, colon_not_mem_blanks]
  · have hname := @IsName.not_mem _ htext ':' (by decide)
    cases s.wrapping <;> simp [Wrapping.wrap, colon_not_mem_blanks, hname]
  · have hword : 2 ≤ c.kind.word.toList.reverse.length ∧
        c.kind.word.toList.reverse.take 2 ≠ ['e', 'r'] := by cases c.kind <;> decide
    rw [List.reverse_append, List.reverse_cons, List.append_assoc,
      List.take_append_of_le_length hword.1]
    exact hword.2
  · intro a
    cases s.stop with
    | none =>
      rw [Option.elim_none, List.append_nil]
      exact s.start.reverse_take _ _ a
    | some stop =>
      rw [Option.elim_some, Stop.print, ← List.singleton_append, ← List.append_assoc,
        ← List.append_assoc, ← List.append_assoc]
      exact stop.blanks.reverse_take _ _ _

/-- A line that spells a capture is read by its dialect. -/
theorem parseLine_spells {d : Dialect} (hc : Printable file c) (h : d.Spells c line) :
    d.parseLine line file = .ok (some c) := by
  have htext := isName_of_isValidIdentifier hc.text
  cases d with
  | positional =>
    obtain ⟨s, rfl⟩ := h
    rw [parseLine, fields?, positionalFields?_print s htext]
    exact build_eq hc .none
  | atCapture =>
    obtain ⟨s, rfl⟩ := h
    rw [parseLine, fields?, atCaptureFields?_print s htext]
    exact build_eq hc s.wrapping
  | keyValue =>
    obtain ⟨s, rfl⟩ := h
    rw [parseLine, fields?, keyValueFields?_print s htext]
    exact build_eq hc .none

/-- A kind is named by a letter first. -/
theorem exists_word_eq_cons (kind : CaptureKind) :
    ∃ x word, kind.word.toList = x :: word ∧ Text.isBlank x = false ∧ x ≠ '@' := by
  obtain ⟨x, word, hcons⟩ := List.exists_cons_of_ne_nil (word_ne_nil kind)
  refine ⟨x, word, hcons, ?_⟩
  cases kind <;> cases hcons <;> decide

/-- A line of positional fields is read by no other dialect. -/
theorem fields?_positional_eq_none (htext : IsName c.text.toList) {e : Dialect}
    (hne : e ≠ positional) (s : PositionalSpelling) : e.fields? (s.print c) = none := by
  cases e with
  | positional => exact absurd rfl hne
  | atCapture =>
    obtain ⟨x, word, hcons, hblank, hat⟩ := exists_word_eq_cons c.kind
    show atCaptureFields? (s.print c) = none
    rw [PositionalSpelling.print, hcons, List.cons_append]
    exact atCaptureFields?_eq_none s.lead hblank hat _
  | keyValue =>
    refine keyValueFields?_eq_none (firstAt_eq_none ?_)
    have hword : ':' ∉ c.kind.word.toList := by cases c.kind <;> decide
    have hname := @IsName.not_mem _ htext ':' (by decide)
    have hgap : ∀ g : Gap, ':' ∉ g.1 := fun g => colon_not_mem_blanks ⟨g.1, g.2.2⟩
    simp [PositionalSpelling.print, colon_not_mem_blanks, colon_not_mem_numeral, hword, hname, hgap]

/-- A line that begins with an at sign is read by no other dialect. -/
theorem fields?_atCapture_eq_none (htext : IsName c.text.toList) {e : Dialect}
    (hne : e ≠ atCapture) (s : AtCaptureSpelling) : e.fields? (s.print c) = none := by
  cases e with
  | positional =>
    have hword := isKindChar_of_mem_word c.kind
    show positionalFields? (s.print c) = none
    unfold AtCaptureSpelling.print colon
    cases s.kindColon with
    | none =>
      rw [Option.elim_none, List.nil_append, PairBlanks.print, List.append_assoc, List.cons_append]
      exact positionalFields?_eq_none s.lead (.inr rfl) hword s.start.opening (by decide)
    | some b =>
      rw [Option.elim_some, List.append_assoc, List.singleton_append]
      exact positionalFields?_eq_none s.lead (.inr rfl) hword b (by decide)
  | atCapture => exact absurd rfl hne
  | keyValue => exact keyValueFields?_atCapture s htext

/-- A line of keys and values is read by no other dialect: it begins with the name of a field and
a colon. -/
theorem fields?_keyValue_eq_none {e : Dialect} (hne : e ≠ keyValue) (s : KeyValueSpelling) :
    e.fields? (s.print c) = none := by
  obtain ⟨y, name, hname⟩ := List.exists_cons_of_ne_nil
    ((areKeys_of_subset fun _ h => h) _ s.first.name_mem).1
  have hall : ∀ n ∈ fieldNames, n.toList.all fun z => z.isAlpha && z != '@' &&
      !Text.isBlank z && isKindChar z := by decide
  have hchars : ∀ z ∈ y :: name, z.isAlpha = true ∧ z ≠ '@' ∧ Text.isBlank z = false ∧
      isKindChar z = true := by
    simpa [hname, and_assoc] using hall _ s.first.name_mem
  have hy := hchars y List.mem_cons_self
  have hline : s.print c = s.lead.1 ++ y :: (name ++ ((⟨[], List.forall_mem_nil _⟩ : Blanks).1 ++ ':' ::
      (s.first.value c ++ (printMore c s.more ++ s.trail.1)))) := by
    rw [KeyValueSpelling.print, Field.print_append, hname]
    rfl
  rw [hline]
  cases e with
  | positional =>
    exact positionalFields?_eq_none s.lead (.inl hy.1)
      (fun z hz => (hchars z (List.mem_cons_of_mem y hz)).2.2.2) _ (by decide)
  | atCapture => exact atCaptureFields?_eq_none s.lead hy.2.2.1 hy.2.1 _
  | keyValue => exact absurd rfl hne

/-- A line that spells a capture is read by no other dialect. -/
theorem parseLine_spells_of_ne {d e : Dialect} (hc : Printable file c) (h : d.Spells c line)
    (hne : e ≠ d) : e.parseLine line file = .ok none := by
  have htext := isName_of_isValidIdentifier hc.text
  refine parseLine_eq_none ?_ file
  cases d with
  | positional =>
    obtain ⟨s, rfl⟩ := h
    exact fields?_positional_eq_none htext hne s
  | atCapture =>
    obtain ⟨s, rfl⟩ := h
    exact fields?_atCapture_eq_none htext hne s
  | keyValue =>
    obtain ⟨s, rfl⟩ := h
    exact fields?_keyValue_eq_none hne s

/-! ### An output -/

theorem parseLines_cons {d : Dialect} {lines : List (List Char)} {found : Option Capture}
    {captures : List Capture} (hline : d.parseLine line file = .ok found)
    (h : d.parseLines file lines = .ok captures) :
    d.parseLines file (line :: lines) = .ok (found.toList ++ captures) := by
  obtain ⟨results, hresults, heq⟩ := bind_eq_ok_iff.mp h
  obtain rfl := Except.ok.inj heq
  unfold parseLines
  rw [List.mapM_cons, hline, hresults]
  cases found <;> rfl

/-- The captures that the lines write are read by their dialect, and none by another one. The
induction is on the lines. -/
theorem Writes.parseLines {d : Dialect} {lines : List (List Char)} {captures : List Capture}
    (h : d.Writes file lines captures) :
    d.parseLines file lines = .ok captures ∧
      ∀ e : Dialect, e ≠ d → e.parseLines file lines = .ok [] := by
  induction h with
  | nil => exact ⟨rfl, fun _ _ => rfl⟩
  | capture hc hline _ ih =>
    exact ⟨parseLines_cons (parseLine_spells hc hline) ih.1, fun e hne =>
      parseLines_cons (parseLine_spells_of_ne hc hline hne) (ih.2 e hne)⟩
  | other hline _ ih =>
    exact ⟨parseLines_cons (hline d) ih.1, fun e hne => parseLines_cons (hline e) (ih.2 e hne)⟩

/-- A tool that writes captures in one dialect, in any of its spellings and among any lines that no
dialect reads, is understood: the dialect is found as soon as there is a capture, and exactly the
captures are read, in source order and in their own order at one position. -/
theorem parseCaptures_writes {d : Dialect} {output : String} {captures : List Capture}
    (h : d.Writes file (Text.lines output.toList) captures) :
    detect output file = .ok (if captures = [] then none else some d) ∧
      ∃ sorted, parseCaptures output file = .ok sorted ∧ StablySorted sorted captures := by
  obtain ⟨hown, hothers⟩ := h.parseLines
  have hdetect : detect output file = .ok (if captures = [] then none else some d) := by
    have hcounts : counts output file =
        .ok (all.map fun e => (e, if e = d then captures.length else 0)) := by
      unfold counts all
      cases d <;> simp [hown, hothers, bind, Except.bind, pure, Except.pure]
    unfold detect
    rw [hcounts]
    cases captures with
    | nil => cases d <;> rfl
    | cons c captures => cases d <;> rfl
  refine ⟨hdetect, ?_⟩
  unfold parseCaptures
  rw [hdetect]
  split
  · rename_i hnil
    subst hnil
    exact ⟨[], rfl, stablySorted_sortByPosition []⟩
  · exact ⟨sortByPosition captures, by simp [bind, Except.bind, hown, pure, Except.pure],
      stablySorted_sortByPosition captures⟩

end

/-- A capture as a query prints it, with its number and the start position. -/
def queryLine : KeyValueSpelling where
  lead := ⟨[' '], List.all_eq_true.mp rfl⟩
  first := .kind ⟨[' '], List.all_eq_true.mp rfl⟩
    (some (1, ⟨[' '], List.all_eq_true.mp rfl⟩, ⟨[' '], List.all_eq_true.mp rfl⟩)) false
  more := [(⟨", ".toList, by decide, List.all_eq_true.mp rfl⟩,
      .start ⟨⟨[' '], List.all_eq_true.mp rfl⟩, ⟨[], nofun⟩, ⟨[], nofun⟩,
        ⟨[' '], List.all_eq_true.mp rfl⟩, ⟨[], nofun⟩⟩),
    (⟨", ".toList, by decide, List.all_eq_true.mp rfl⟩, .text ⟨[' '], List.all_eq_true.mp rfl⟩ .backtick)]
  trail := ⟨[], nofun⟩
  hasKind := by decide
  hasText := by decide
  hasPosition := by decide

/-- A capture with its row and column first and its kind last. -/
def recordLine : KeyValueSpelling where
  lead := ⟨[], nofun⟩
  first := .row ⟨[' '], List.all_eq_true.mp rfl⟩
  more := [(⟨" ".toList, by decide, List.all_eq_true.mp rfl⟩, .column ⟨[' '], List.all_eq_true.mp rfl⟩ true),
    (⟨",".toList, by decide, List.all_eq_true.mp rfl⟩, .text ⟨[], nofun⟩ .double),
    (⟨" ".toList, by decide, List.all_eq_true.mp rfl⟩, .kind ⟨[' '], List.all_eq_true.mp rfl⟩ none true)]
  trail := ⟨[], nofun⟩
  hasKind := by decide
  hasText := by decide
  hasPosition := by decide

/-- An output with a heading, where the captures are not in source order. -/
def queryOutput : String :=
  "a.rs\n capture: 1 - reference, start: (4, 0), text: `x`\nrow: 0 column: 3,text:\"x\" capture: @import"

theorem parseCaptures_writes_query :
    detect queryOutput ⟨"a.rs"⟩ = .ok (some keyValue) ∧
      ∃ sorted, parseCaptures queryOutput ⟨"a.rs"⟩ = .ok sorted ∧
        StablySorted sorted [⟨.reference, ⟨⟨"a.rs"⟩, 5, 0⟩, "x"⟩,
          ⟨.importUse, ⟨⟨"a.rs"⟩, 1, 3⟩, "x"⟩] := by
  have hlines : Text.lines queryOutput.toList =
      ["a.rs".toList, queryLine.print ⟨.reference, ⟨⟨"a.rs"⟩, 5, 0⟩, "x"⟩,
        recordLine.print ⟨.importUse, ⟨⟨"a.rs"⟩, 1, 3⟩, "x"⟩] := by decide +kernel
  have hwrites : Writes keyValue ⟨"a.rs"⟩ (Text.lines queryOutput.toList)
      [⟨.reference, ⟨⟨"a.rs"⟩, 5, 0⟩, "x"⟩, ⟨.importUse, ⟨⟨"a.rs"⟩, 1, 3⟩, "x"⟩] := by
    rw [hlines]
    refine .other (fun e => parseLine_eq_none ?_ _)
      (.capture ⟨rfl, by decide, by decide, by decide, by decide⟩ ⟨queryLine, rfl⟩
        (.capture ⟨rfl, by decide, by decide, by decide, by decide⟩ ⟨recordLine, rfl⟩ .nil))
    cases e <;> decide +kernel
  exact parseCaptures_writes hwrites

end Dialect

end SymbolRename
