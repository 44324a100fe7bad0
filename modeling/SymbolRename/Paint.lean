/-!
# Coloured text

A coloured text is a list of spans. Its plain text is the spans without their
styles; its painted text puts the escape codes of each style around the span.
-/

namespace SymbolRename

/-- How a span is painted: the codes that switch the style on and off again. -/
inductive Style
  /-- Select graphic rendition with these parameters, ended by a full reset. -/
  | graphic (codes : String)
  /-- A colour of the 256-colour palette, ended by the default colour. -/
  | palette (index : Nat)
deriving DecidableEq, Repr

namespace Style

/-- The code before a painted span. -/
def opening : Style → String
  | graphic codes => s!"\x1b[{codes}m"
  | palette index => s!"\x1b[38;5;{index}m"

/-- The code after a painted span. -/
def closing : Style → String
  | graphic _ => "\x1b[0m"
  | palette _ => "\x1b[39m"

/-- A removed line. -/
def removed : Style := .graphic "31"

/-- An added line. -/
def added : Style := .graphic "32"

/-- A removed name. -/
def removedName : Style := .graphic "1;41;37"

/-- An added name. -/
def addedName : Style := .graphic "1;42;30"

/-- The name of a file. -/
def fileName : Style := .graphic "1;37"

/-- The number of a line. -/
def lineNumber : Style := .graphic "34"

/-- The header of a table. -/
def header : Style := .palette 14

/-- The totals of a table. -/
def totals : Style := .palette 11

/-- A member of a cycle. -/
def cycle : Style := .palette 13

end Style

/-- A piece of text in one style, or in none. -/
structure Span where
  style : Option Style
  text : String
deriving DecidableEq, Repr

namespace Span

/-- The text with its style's codes around it. -/
def painted (s : Span) : String :=
  match s.style with
  | none => s.text
  | some style => style.opening ++ s.text ++ style.closing

end Span

/-- A text whose pieces may be coloured. -/
abbrev Painted := List Span

namespace Painted

/-- A text in no style. -/
def plain (s : String) : Painted := [⟨none, s⟩]

/-- A text in one style. -/
def styled (style : Style) (s : String) : Painted := [⟨some style, s⟩]

/-- The text as it is shown, with or without its colours. -/
def render (p : Painted) (color : Bool) : String :=
  String.join (p.map fun s => if color then s.painted else s.text)

end Painted

end SymbolRename
