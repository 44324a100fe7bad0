import SymbolRename.Path
import SymbolRename.Text.Blank
import SymbolRename.Text.Bytes

/-!
# Comment and string syntax of languages

A file's extension selects a language, and a language is known by its comment
marks and its string literals. Nothing else about a language matters for deciding
which words are code.
-/

namespace SymbolRename

/-- The mark that opens embedded code inside a literal. -/
inductive Interpolation
  /-- `${` opens embedded code. -/
  | dollarBrace
  /-- `{` opens embedded code, and `{{` stands for a brace. -/
  | brace
deriving DecidableEq, Repr

/-- The bytes of the mark that opens embedded code. -/
def Interpolation.opener : Interpolation → Bytes
  | dollarBrace => bytes "$\x7b"
  | brace => bytes "\x7b"

/-- How a string-like literal ends and what it may hold. -/
structure Literal where
  /-- The mark that opens and closes the literal. -/
  mark : Bytes
  /-- The literal goes on after a line feed. -/
  multiline : Bool
  /-- A backslash takes the byte after it out of the count. -/
  escapes : Bool
  /-- The mark that opens embedded code, if the literal can hold any. -/
  interpolation : Option Interpolation
deriving DecidableEq, Repr

namespace Literal

/-- A one-line literal in double quotes. -/
def double : Literal := ⟨bytes "\"", false, true, none⟩

/-- A one-line literal in single quotes. -/
def single : Literal := ⟨bytes "'", false, true, none⟩

/-- A literal in double quotes that may span lines. -/
def spanning : Literal := ⟨bytes "\"", true, true, none⟩

/-- A literal in backticks with embedded code. -/
def template : Literal := ⟨bytes "`", true, true, some .dollarBrace⟩

/-- A literal in backticks where a backslash means nothing. -/
def rawBacktick : Literal := ⟨bytes "`", true, false, none⟩

/-- A literal in three double quotes. -/
def tripleDouble : Literal := ⟨bytes "\"\"\"", true, true, none⟩

/-- A literal in three single quotes. -/
def tripleSingle : Literal := ⟨bytes "'''", true, true, none⟩

end Literal

/-- The comment and literal syntax of a language. -/
structure Syntactics where
  /-- The marks that open a comment up to the end of its line. -/
  lineComments : List Bytes
  /-- The opening and closing marks of comments that may span lines. -/
  blockComments : List (Bytes × Bytes)
  /-- The literals, in the order in which they are tried. -/
  literals : List Literal
  /-- A single quote opens a literal only where it looks like a character. -/
  charLiterals : Bool
  /-- Raw literals with a counted number of hash marks exist. -/
  rawLiterals : Bool
  /-- A format letter before a literal makes its braces open embedded code. -/
  formatLiterals : Bool
deriving Repr

/-- The language families whose comment and string syntax is known. -/
inductive Language
  | rust
  | javaScript
  | go
  | cFamily
  | python
  | ruby
  | shell
  | lua
  | generic
deriving DecidableEq, Repr

namespace Language

/-- The name of the family. -/
def name : Language → String
  | rust => "Rust"
  | javaScript => "JavaScript"
  | go => "Go"
  | cFamily => "CFamily"
  | python => "Python"
  | ruby => "Ruby"
  | shell => "Shell"
  | lua => "Lua"
  | generic => "Generic"

/-- The file extensions of each family, in small letters. -/
def extensions : List (Language × List String) :=
  [(rust, ["rs"]),
   (javaScript, ["js", "jsx", "mjs", "cjs", "ts", "tsx", "mts", "cts"]),
   (go, ["go"]),
   (cFamily, ["c", "h", "cc", "cpp", "cxx", "hpp", "hh", "java", "cs", "kt", "kts", "swift",
     "scala", "dart", "php"]),
   (python, ["py", "pyi"]),
   (ruby, ["rb", "rake"]),
   (shell, ["sh", "bash", "zsh"]),
   (lua, ["lua", "sql"])]

/-- The family of a file, by its extension in any case. -/
def ofPath (p : Path) : Language :=
  let ext := Text.lower (p.extension?.getD "")
  ((extensions.find? fun (_, known) => known.contains ext).map (·.1)).getD generic

/-- Comments between `/*` and `*/`. -/
def starredBlocks : List (Bytes × Bytes) := [(bytes "/*", bytes "*/")]

/-- The comment and literal syntax of a family. -/
def syntactics : Language → Syntactics
  | rust => ⟨[bytes "//"], starredBlocks, [.spanning], true, true, false⟩
  | javaScript => ⟨[bytes "//"], starredBlocks, [.template, .double, .single], false, false, false⟩
  | go => ⟨[bytes "//"], starredBlocks, [.rawBacktick, .double, .single], false, false, false⟩
  | cFamily =>
    ⟨[bytes "//"], starredBlocks, [.tripleDouble, .double, .single], false, false, false⟩
  | python =>
    ⟨[bytes "#"], [], [.tripleDouble, .tripleSingle, .double, .single], false, false, true⟩
  | ruby => ⟨[bytes "#"], [(bytes "=begin", bytes "=end")], [.double, .single], false, false, false⟩
  | shell => ⟨[bytes "#"], [], [.double, .single], false, false, false⟩
  | lua => ⟨[bytes "--"], [(bytes "--[[", bytes "]]")], [.double, .single], false, false, false⟩
  | generic => ⟨[bytes "//", bytes "#"], starredBlocks, [.double, .single], false, false, false⟩

end Language

end SymbolRename
