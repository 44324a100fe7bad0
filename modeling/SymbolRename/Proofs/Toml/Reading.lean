import SymbolRename.Proofs.Text.Words
import SymbolRename.Toml.Reader
import Mathlib

/-!
# Reading the parts of a document

A reader reads a text when it takes exactly this text and gives a value; what follows is part of
the statement, because readers look ahead. These are the rules for the marks, blanks and ends of
lines that documents are made of.
-/

namespace SymbolRename.Toml.Reader

/-- The reader takes the text before `rest` and gives the value. -/
def Reads {α : Type} (read : Reader α) (text rest : List Char) (v : α) : Prop :=
  read (text ++ rest) = some (v, rest)

section

variable {α β : Type} {read : Reader α} {next' : α → Reader β} {text more rest : List Char} {v : α}
  {w : β}

theorem Reads.pure (v : α) (rest : List Char) : Reads (pure v) [] rest v := rfl

/-- Readers in a row take texts in a row. -/
theorem Reads.bind (h : Reads read text (more ++ rest) v) (h' : Reads (next' v) more rest w) :
    Reads (read >>= next') (text ++ more) rest w := by
  unfold Reads at h h' ⊢
  rw [List.append_assoc]
  simp only [Bind.bind, StateT.bind, h]
  exact h'

/-- A reader that takes nothing looks at what the next one takes. -/
theorem Reads.look (h : Reads read [] (text ++ rest) v) (h' : Reads (next' v) text rest w) :
    Reads (read >>= next') text rest w := h.bind h'

/-- A reader sees the whole text that is left. -/
theorem Reads.get {read : List Char → Reader β} (h : Reads (read (text ++ rest)) text rest w) :
    Reads (get >>= read) text rest w := h

/-- What comes after the last reader that takes text only answers. -/
theorem Reads.answer (h : Reads read text rest v) (h' : Reads (next' v) [] rest w) :
    Reads (read >>= next') text rest w := by
  have hboth := @Reads.bind _ _ _ _ _ [] _ _ _ h h'
  rwa [List.append_nil] at hboth

end

/-! ### Marks and runs -/

theorem take_eq (mark : String) (cs : List Char) : take mark cs =
    some (if mark.toList.isPrefixOf cs then (true, cs.drop mark.length) else (false, cs)) := by
  have hget : take mark cs = (if mark.toList.isPrefixOf cs then do
      set (cs.drop mark.length)
      return true
    else return false : Reader Bool) cs := rfl
  rw [hget]
  split <;> rfl

theorem reads_take (mark : String) (rest : List Char) :
    Reads (take mark) mark.toList rest true := by
  have hprefix : mark.toList.isPrefixOf (mark.toList ++ rest) = true :=
    List.isPrefixOf_iff_prefix.mpr (List.prefix_append _ _)
  rw [Reads, take_eq, if_pos hprefix, ← String.length_toList, List.drop_left]

theorem reads_take_false {mark : String} {rest : List Char}
    (h : mark.toList.isPrefixOf rest = false) : Reads (take mark) [] rest false := by
  rw [Reads, List.nil_append, take_eq, if_neg (by simp [h])]

theorem reads_expect (mark : String) (rest : List Char) : Reads (expect mark) mark.toList rest () :=
  (reads_take mark rest).answer rfl

theorem reads_next (c : Char) (rest : List Char) : Reads next [c] rest c := rfl

theorem any_head?_eq_false {p : Char → Bool} {rest : List Char}
    (h : ∀ c ∈ rest.head?, p c = false) : rest.head?.any p = false := by
  cases rest with
  | nil => rfl
  | cons c rest => exact h c rfl

/-- A run is taken up to the first character that does not belong to it. -/
theorem reads_takeRun {p : Char → Bool} {run rest : List Char} (hrun : ∀ c ∈ run, p c = true)
    (hrest : ∀ c ∈ rest.head?, p c = false) : Reads (takeRun p) run rest run := by
  have hread : takeRun p (run ++ rest) =
      some ((run ++ rest).takeWhile p, (run ++ rest).dropWhile p) := rfl
  have htake : (run ++ rest).takeWhile p = run :=
    takeWhile_append_of_head hrun (any_head?_eq_false hrest)
  have hsplit := List.takeWhile_append_dropWhile (p := p) (l := run ++ rest)
  rw [htake] at hsplit
  rw [Reads, hread, htake, List.append_cancel_left hsplit]

theorem reads_blanks {run rest : List Char} (hrun : ∀ c ∈ run, isBlank c = true)
    (hrest : ∀ c ∈ rest.head?, isBlank c = false) : Reads blanks run rest () :=
  (reads_takeRun hrun hrest).answer rfl

/-! ### Ends of lines -/

theorem reads_newline (rest : List Char) : Reads newline ['\n'] rest true := by
  have hreturn : Reads (take "\r\n") [] ('\n' :: rest) false := reads_take_false rfl
  refine hreturn.look ?_
  exact reads_take "\n" rest

theorem reads_newline_false {rest : List Char} (h : ∀ c ∈ rest.head?, c ≠ '\n' ∧ c ≠ '\r') :
    Reads newline [] rest false := by
  have hnot : "\r\n".toList.isPrefixOf rest = false ∧ "\n".toList.isPrefixOf rest = false := by
    cases rest with
    | nil => exact ⟨rfl, rfl⟩
    | cons c rest =>
      obtain ⟨hfeed, hreturn⟩ := h c rfl
      simp [List.isPrefixOf, Ne.symm hfeed, Ne.symm hreturn]
  refine (reads_take_false hnot.1).look ?_
  exact reads_take_false hnot.2

/-- A line ends at once. -/
theorem reads_endOfLine (rest : List Char) : Reads endOfLine ['\n'] rest () := by
  have hblanks : Reads blanks [] ('\n' :: rest) () :=
    reads_blanks (List.forall_mem_nil _) (by simp [isBlank])
  have hmark : Reads (take "#") [] ([] ++ '\n' :: rest) false := reads_take_false rfl
  have hcomment : Reads comment [] ('\n' :: rest) () := hmark.look rfl
  have hend : Reads atEnd [] (['\n'] ++ rest) false := rfl
  refine hblanks.look (hcomment.look ?_)
  exact hend.look ((reads_newline rest).answer rfl)

/-- Blanks and line feeds are passed over up to what comes next. -/
theorem reads_filler {gap : List Char} (hgap : ∀ c ∈ gap, c = ' ' ∨ c = '\n') {c : Char}
    (hfeed : c ≠ '\n') (hreturn : c ≠ '\r') (hblank : isBlank c = false) (hmark : c ≠ '#')
    (rest : List Char) : Reads filler gap (c :: rest) () := by
  have hafter : afterFiller? false (gap ++ c :: rest) = some (c :: rest) := by
    induction gap with
    | nil => simp [afterFiller?, hfeed, hreturn, hblank, hmark]
    | cons d gap ih =>
      obtain ⟨hd, hrest⟩ := List.forall_mem_cons.mp hgap
      rcases hd with rfl | rfl
      · simpa [afterFiller?, isBlank] using ih hrest
      · simpa [afterFiller?] using ih hrest
  refine Reads.get ?_
  rw [hafter]
  rfl

end SymbolRename.Toml.Reader
