import SymbolRename.Mapping.Text
import SymbolRename.Proofs.Dialect.Parts
import SymbolRename.Proofs.Fallible
import Mathlib.Data.List.TakeWhile

/-!
# Mappings on lines

A line is read by itself: its number stands in messages only, and a carriage return at its end
changes nothing. So what the lines of two texts hold is also what they hold with a line feed between
them (`Mapping.holds_append`).
-/

namespace SymbolRename

/-- A line without the carriage return at its end, from its reversal. -/
def Text.ended (line : List Char) : List Char :=
  match line with
  | '\r' :: more => more.reverse
  | _ => line.reverse

theorem Text.lines_go_lineFeed (line rest : List Char) :
    lines.go line ('\n' :: rest) = ended line :: lines.go [] rest := by
  rw [lines.go.eq_def]
  dsimp only
  rw [if_pos rfl]
  rfl

theorem Text.lines_go_cons {c : Char} (hc : c ≠ '\n') (line rest : List Char) :
    lines.go line (c :: rest) = lines.go (c :: line) rest := if_neg hc

/-- A text without a line feed is one line, or none. -/
theorem Text.lines_of_not_mem {line : List Char} (h : '\n' ∉ line) :
    lines line = if line.isEmpty then [] else [line] := by
  have hgo : ∀ cs : List Char, '\n' ∉ cs → ∀ run, lines.go run cs = lines.go (cs.reverse ++ run) [] := by
    intro cs
    induction cs with
    | nil => exact fun _ _ => rfl
    | cons c rest ih =>
      intro hcs run
      obtain ⟨hc, hrest⟩ := not_or.mp (mt List.mem_cons.mpr hcs)
      rw [lines_go_cons (Ne.symm hc), ih hrest, List.reverse_cons, List.append_assoc,
        List.singleton_append]
  rw [lines, hgo line h, List.append_nil, lines.go, List.isEmpty_reverse, List.reverse_reverse]

namespace Mapping

/-- The part of a line that is read: what stands before a comment. -/
def content (raw : List Char) : List Char := Text.trimChars (raw.takeWhile (· != '#'))

theorem parseLine_eq_ok_iff {number : Nat} {raw : List Char} {found : Option Mapping} :
    parseLine number raw = .ok found ↔ content raw = [] ∧ found = none ∨
      ∃ old new, splitPair? (content raw) = some (old, new) ∧ old ≠ [] ∧ new ≠ [] ∧
        content raw ≠ [] ∧ found = some ⟨String.ofList old, String.ofList new⟩ := by
  unfold parseLine content
  dsimp only
  generalize Text.trimChars (raw.takeWhile (· != '#')) = line
  by_cases hempty : line = []
  · simp [hempty, eq_comm]
  rw [if_neg (by simpa using hempty)]
  cases hsplit : splitPair? (line) with
  | none => simp [hempty]
  | some pair =>
    obtain ⟨old, new⟩ := pair
    by_cases hnames : old = [] ∨ new = []
    · have hnames' : (old.isEmpty || new.isEmpty) = true := by simpa using hnames
      simp only [hnames', if_true]
      refine iff_of_false nofun ?_
      rintro (⟨h, -⟩ | ⟨o, n, heq, ho, hn, -⟩)
      · exact hempty h
      · cases heq
        exact hnames.elim ho hn
    · have hnames' : (old.isEmpty || new.isEmpty) = false := by simpa using hnames
      obtain ⟨hold, hnew⟩ := not_or.mp hnames
      simp [hnames', hempty, hold, hnew, eq_comm]

/-- The number of a line stands in messages only. -/
theorem parseLine_congr {number : Nat} {raw : List Char} {found : Option Mapping}
    (h : parseLine number raw = .ok found) (other : Nat) : parseLine other raw = .ok found :=
  parseLine_eq_ok_iff.mpr (parseLine_eq_ok_iff.mp h)

theorem parseLines_cons_eq_ok_iff {number : Nat} {raw : List Char} {rest : List (List Char)}
    {ms : List Mapping} : parseLines number (raw :: rest) = .ok ms ↔
      ∃ found more, parseLine number raw = .ok found ∧ parseLines (number + 1) rest = .ok more ∧
        ms = found.toList ++ more := by
  rw [parseLines, bind_eq_ok_iff]
  constructor
  · rintro ⟨found, hfound, h⟩
    obtain ⟨more, hmore, h⟩ := bind_eq_ok_iff.mp h
    exact ⟨found, more, hfound, hmore, (Except.ok.inj h).symm⟩
  · rintro ⟨found, more, hfound, hmore, rfl⟩
    exact ⟨found, hfound, bind_eq_ok_iff.mpr ⟨more, hmore, rfl⟩⟩

theorem parseLines_congr {number : Nat} {lines : List (List Char)} {ms : List Mapping}
    (h : parseLines number lines = .ok ms) (other : Nat) : parseLines other lines = .ok ms := by
  induction lines generalizing number other ms with
  | nil => exact h
  | cons raw rest ih =>
    obtain ⟨found, more, hfound, hmore, rfl⟩ := parseLines_cons_eq_ok_iff.mp h
    exact parseLines_cons_eq_ok_iff.mpr
      ⟨found, more, parseLine_congr hfound other, ih hmore (other + 1), rfl⟩

/-- A carriage return at the end of a line means nothing. -/
theorem parseLine_carriageReturn (number : Nat) (raw : List Char) :
    parseLine number (raw ++ ['\r']) = parseLine number raw := by
  have hblank : ∀ c ∈ ['\r'], Text.isBlank c = true := List.forall_mem_singleton.mpr rfl
  have hcut : Text.trimChars ((raw ++ ['\r']).takeWhile (· != '#')) =
      Text.trimChars (raw.takeWhile (· != '#')) := by
    rw [List.takeWhile_append]
    split
    · rename_i hall
      rw [(List.takeWhile_prefix _).eq_of_length hall]
      exact Text.trimChars_append_blanks hblank
    · rfl
  unfold parseLine
  simp only [hcut, Text.trimChars_append_blanks hblank]

/-- The lines of the text hold the mappings. -/
def Holds (text : List Char) (ms : List Mapping) : Prop :=
  parseLines 1 (Text.lines text) = .ok ms

theorem holds_nil {ms : List Mapping} : Holds [] ms ↔ ms = [] :=
  ⟨fun h => (Except.ok.inj h).symm, fun h => h ▸ rfl⟩

/-- A single line, which may be the empty one that no text has. -/
theorem parseLines_single {number : Nat} {line : List Char} {ms : List Mapping} :
    parseLines number (if line.isEmpty then [] else [line]) = .ok ms ↔
      ∃ found, parseLine number line = .ok found ∧ ms = found.toList := by
  cases line with
  | nil =>
    refine ⟨fun h => ⟨none, rfl, (Except.ok.inj h).symm⟩, ?_⟩
    rintro ⟨found, hfound, rfl⟩
    rw [← Except.ok.inj hfound]
    rfl
  | cons c line =>
    rw [List.isEmpty_cons, if_neg Bool.false_ne_true, parseLines_cons_eq_ok_iff]
    constructor
    · rintro ⟨found, more, hfound, hmore, rfl⟩
      obtain rfl := Except.ok.inj hmore
      exact ⟨found, hfound, List.append_nil _⟩
    · rintro ⟨found, hfound, rfl⟩
      exact ⟨found, [], hfound, rfl, (List.append_nil _).symm⟩

/-- Two texts with a line feed between them hold what the one and then the other one holds. The
induction is on the first text, with a line begun. -/
theorem parseLines_go {number : Nat} {line text more : List Char} {ms : List Mapping} :
    parseLines number (Text.lines.go line (text ++ '\n' :: more)) = .ok ms ↔
      ∃ xs ys, parseLines number (Text.lines.go line text) = .ok xs ∧ Holds more ys ∧
        ms = xs ++ ys := by
  induction text generalizing number line ms with
  | nil =>
    have hline : parseLine number (Text.ended line) = parseLine number line.reverse := by
      unfold Text.ended
      split
      · rw [List.reverse_cons, parseLine_carriageReturn]
      · rfl
    have hend : Text.lines.go line [] = if line.reverse.isEmpty then [] else [line.reverse] := by
      rw [Text.lines.go, List.isEmpty_reverse]
    rw [List.nil_append, Text.lines_go_lineFeed, parseLines_cons_eq_ok_iff, hline, hend]
    simp only [parseLines_single]
    constructor
    · rintro ⟨found, ys, hfound, hys, rfl⟩
      exact ⟨_, ys, ⟨found, hfound, rfl⟩, parseLines_congr hys 1, rfl⟩
    · rintro ⟨_, ys, ⟨found, hfound, rfl⟩, hys, rfl⟩
      exact ⟨found, ys, hfound, parseLines_congr hys _, rfl⟩
  | cons c text ih =>
    rw [List.cons_append]
    by_cases hc : c = '\n'
    · rw [hc, Text.lines_go_lineFeed, Text.lines_go_lineFeed]
      simp only [parseLines_cons_eq_ok_iff, ih]
      constructor
      · rintro ⟨found, _, hfound, ⟨xs, ys, hxs, hys, rfl⟩, rfl⟩
        exact ⟨_, ys, ⟨found, xs, hfound, hxs, rfl⟩, hys, (List.append_assoc ..).symm⟩
      · rintro ⟨_, ys, ⟨found, xs, hfound, hxs, rfl⟩, hys, rfl⟩
        exact ⟨found, _, hfound, ⟨xs, ys, hxs, hys, rfl⟩, List.append_assoc ..⟩
    · rw [Text.lines_go_cons hc, Text.lines_go_cons hc]
      exact ih

theorem holds_append {text more : List Char} {ms : List Mapping} :
    Holds (text ++ '\n' :: more) ms ↔ ∃ xs ys, Holds text xs ∧ Holds more ys ∧ ms = xs ++ ys :=
  parseLines_go

/-- A text of one line holds what the line says. -/
theorem holds_line {line : List Char} {found : Option Mapping} (hline : '\n' ∉ line)
    (h : parseLine 1 line = .ok found) : Holds line found.toList := by
  unfold Holds
  rw [Text.lines_of_not_mem hline]
  exact parseLines_single.mpr ⟨found, h, rfl⟩

/-! ### Texts that are no JSON -/

/-- The first character that is no blank tells JSON from lines. -/
theorem isJson_eq (text : String) : isJson text =
    (text.toList.find? (!Text.isBlank ·)).any fun c => c == '[' || c == '\x7b' := by
  unfold isJson Text.trimStart Text.dropLeading
  rw [String.toList_ofList, List.find?_not_eq_head?_dropWhile]
  cases text.toList.dropWhile Text.isBlank with
  | nil => rfl
  | cons c rest =>
    rw [List.head?_cons, Option.any_some]
    split
    · rename_i heq
      rw [(List.cons.inj heq).1]
      rfl
    · rename_i heq
      rw [(List.cons.inj heq).1]
      rfl
    · rename_i hbracket hbrace
      have hc : c ≠ '[' ∧ c ≠ '\x7b' :=
        ⟨fun h => hbracket rest (h ▸ rfl), fun h => hbrace rest (h ▸ rfl)⟩
      simp [hc]

/-- A text that is no JSON is read as lines. -/
theorem parse_eq_ok_iff {text : String} (h : isJson text = false) {ms : List Mapping} :
    parse text = .ok ms ↔ ms ≠ [] ∧ Holds text.toList ms := by
  unfold parse
  rw [h, if_neg Bool.false_ne_true, bind_eq_ok_iff]
  constructor
  · rintro ⟨found, hfound, h⟩
    dsimp only at h
    split at h
    · cases h
    · rename_i hne
      obtain rfl := Except.ok.inj h
      exact ⟨by simpa using hne, hfound⟩
  · rintro ⟨hne, hfound⟩
    exact ⟨ms, hfound, if_neg (by simpa using hne)⟩

end Mapping

end SymbolRename
