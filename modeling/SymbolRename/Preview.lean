import SymbolRename.Diff
import SymbolRename.Occurrence
import SymbolRename.Report
import SymbolRename.Table

/-!
# Previews

Changed lines as differences, and occurrences, plans and reports as tables. Each
preview is one painted text, so its colours only add escape codes to it.
-/

namespace SymbolRename

/-- The ways to preview an operation. -/
inductive PreviewKind
  | table
  | diff
  | none
deriving DecidableEq, Repr

namespace PreviewKind

/-- The name of a preview format, in any case. -/
def parse? (s : String) : Option PreviewKind :=
  match Text.lower s with
  | "table" => some .table
  | "diff" => some .diff
  | "none" => some .none
  | _ => Option.none

/-- The word in which answers name a preview format. -/
def name : PreviewKind → String
  | table => "Table"
  | diff => "Diff"
  | none => "None"

end PreviewKind

/-- An explicit choice of colours decides; without one the terminal does. -/
def useColor (choice : Option Bool) (terminal : Bool) : Bool := choice.getD terminal

namespace Preview

/-- A path below the current directory is shown relative to it. -/
def shownPath (cwd p : Path) : String := ((p.below? cwd).getD p).text

/-- The line cut at every occurrence of the word, from the left: pieces between
occurrences in the base style, the occurrences in the strong one. -/
def highlight (base strong : Style) (word : List Char) (line : List Char) : Painted :=
  if word.isEmpty then Painted.styled base (String.ofList line)
  else go 0 [] line
where
  /-- `skip` characters still belong to the last occurrence; `piece` is the current
  piece reversed. -/
  go (skip : Nat) (piece : List Char) : List Char → Painted
    | [] => [⟨some base, String.ofList piece.reverse⟩]
    | c :: rest =>
      if 0 < skip then go (skip - 1) piece rest
      else if word.isPrefixOf (c :: rest) then
        ⟨some base, String.ofList piece.reverse⟩ :: ⟨some strong, String.ofList word⟩ ::
          go (word.length - 1) [] rest
      else go 0 (c :: piece) rest

/-- One line of a difference, with its mark. -/
def diffLine (old new : List Char) (tag : Diff.Tag) (line : List Char) : Painted :=
  let body := Text.dropTrailing (· == '\n') line
  (match tag with
    | .remove => Painted.styled .removed "-" ++ highlight .removed .removedName old body
    | .add => Painted.styled .added "+" ++ highlight .added .addedName new body
    | .keep => Painted.plain (" " ++ String.ofList body)) ++ Painted.plain "\n"

/-- The difference of one changed line. -/
def lineDiff (old new : List Char) (line : Nat) (before after : String) : Painted :=
  Painted.styled .lineNumber s!"@@ line {line} @@\n" ++
    (Diff.lines (before.toList ++ ['\n']) (after.toList ++ ['\n'])).flatMap
      (fun (tag, l) => diffLine old new tag l) ++ Painted.plain "\n"

/-- The changed lines of a file: line number, text before and text after. -/
abbrev LineChanges := List (Nat × String × String)

/-- Adds a change of a line; the first change of a line is the one shown. -/
def insertLine (line : Nat) (before after : String) : LineChanges → LineChanges
  | [] => [(line, before, after)]
  | (n, b) :: rest =>
    if line < n then (line, before, after) :: (n, b) :: rest
    else if line = n then (n, b) :: rest
    else (n, b) :: insertLine line before after rest

/-- Adds a change to the file it belongs to. -/
def insertChange (c : Change) : List (Path × LineChanges) → List (Path × LineChanges)
  | [] => [(c.location.file, [(c.location.line, c.before, c.after)])]
  | (file, lines) :: rest =>
    match c.location.file.compare file with
    | .lt => (c.location.file, [(c.location.line, c.before, c.after)]) :: (file, lines) :: rest
    | .eq => (file, insertLine c.location.line c.before c.after lines) :: rest
    | .gt => (file, lines) :: insertChange c rest

/-- The changed lines, one section for each file. -/
def diff (cwd : Path) (changes : List Change) (old new : String) : Painted :=
  let files := changes.foldl (fun files c => insertChange c files) []
  files.flatMap fun (file, lines) =>
    let name := shownPath cwd file
    Painted.styled .fileName s!"--- {name}\n+++ {name}\n" ++
      lines.flatMap fun (line, before, after) => lineDiff old.toList new.toList line before after

/-- A row for each occurrence, with the column counted from one; none if that count
would be too large. -/
def occurrences? (cwd : Path) (found : List Occurrence) : Option Painted := do
  let rows ← found.mapM fun o => do
    let column ← Count.add? o.location.column 1
    return [{ text := shownPath cwd o.location.file }, .count o.location.line, .count column,
      { text := o.role.word }]
  return (Table.mk (Table.headed ["File", "Line", "Col", "Role"]) rows).painted

/-- The net effect of each mapping, and the totals. -/
def report (r : Report) : Painted :=
  let rows := r.mappings.zipIdx.map fun (m, i) =>
    [.count (i + 1), { text := m.old }, { text := m.new }, .count m.changes,
      .count m.filesTouched.length]
  let totals := ["", "TOTALS", "", toString r.totalChanges, toString r.totalFiles].map fun s =>
    ({ text := s, style := some .totals } : Cell)
  (Table.mk (Table.headed ["#", "Old", "New", "Changes", "Files"]) (rows ++ [totals])).painted

/-- The steps of a plan in their order. -/
def steps (p : Plan) (mappings : List Mapping) : Painted :=
  let rows := p.steps.zipIdx.map fun (s, i) =>
    let kind : Cell := match p.cycleOf? s.origin with
      | some cycle => if s.isTemp then { text := s!"cycle {cycle + 1}" } else { text := "direct" }
      | none => { text := "direct" }
    [.count (i + 1), { text := s.old }, { text := s.new },
      { text := (mappings[s.origin]?.map Mapping.display).getD "" },
      { kind with style := if s.isTemp then some .cycle else none }]
  (Table.mk (Table.headed ["Step", "Old", "New", "Mapping", "Kind"]) rows).painted

end Preview

end SymbolRename
