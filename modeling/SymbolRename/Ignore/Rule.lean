import SymbolRename.Glob
import SymbolRename.Text.Blank
import SymbolRename.Text.Utf8

/-!
# Ignore rules

An ignore file holds a rule on each line: a glob for entries below the file's own
directory. `!` in front keeps what an earlier rule ignores, a slash in front or in
the middle ties the glob to the directory, and a slash at the end limits it to
directories. Of several rules that match, the last one decides.
-/

namespace SymbolRename.Ignore

/-- What the rules say about an entry. -/
inductive Verdict
  | ignore
  | keep
deriving DecidableEq, Repr

/-- One line of an ignore file. -/
structure Rule where
  glob : Glob
  verdict : Verdict
  directoriesOnly : Bool
deriving DecidableEq, Repr

/-- The line without the blanks at its end, unless a backslash keeps the last one. -/
def trimLine (line : List Char) : List Char :=
  match line.reverse with
  | ' ' :: '\\' :: _ => line
  | _ => Text.dropTrailing Text.isBlank line

/-- A line's glob text after its marks: a leading slash ties it, a trailing slash
limits it to directories. -/
structure Marks where
  verdict : Verdict
  tied : Bool
  directoriesOnly : Bool
  text : List Char
deriving DecidableEq, Repr

/-- Reads the marks in front of a glob. A backslash lets it begin with `!` or `#`. -/
def leadingMarks (line : List Char) : Marks :=
  let slashed := fun (verdict : Verdict) (text : List Char) =>
    match text with
    | '/' :: rest => (⟨verdict, true, false, rest⟩ : Marks)
    | _ => ⟨verdict, false, false, text⟩
  match line with
  | '\\' :: '!' :: rest => ⟨.ignore, false, false, '!' :: rest⟩
  | '\\' :: '#' :: rest => ⟨.ignore, false, false, '#' :: rest⟩
  | '!' :: rest => slashed .keep rest
  | _ => slashed .ignore line

/-- Reads the marks on both sides of a glob. -/
def marks (line : List Char) : Marks :=
  let m := leadingMarks line
  match m.text.reverse with
  | '/' :: '\\' :: rest => { m with directoriesOnly := true, text := rest.reverse }
  | '/' :: rest => { m with directoriesOnly := true, text := rest.reverse }
  | _ => m

/-- The glob of a rule: anywhere below the directory unless a slash ties it, and
only the entries inside if it ends in two stars. -/
def Marks.globText (m : Marks) : String :=
  let anywhere := !m.tied && !m.text.contains '/' && m.text != ['*', '*']
  let text := if anywhere then '*' :: '*' :: '/' :: m.text else m.text
  String.ofList (if ['*', '*', '/'].isPrefixOf text.reverse then text ++ ['/', '*'] else text)

/-- Globs of ignore files stay in one directory, and take an unclosed class
literally. -/
def globOptions : Glob.Options := { separated := true, lenient := true }

/-- The rule on a line; blank lines, comments and malformed globs have none. -/
def Rule.ofLine? (line : List Char) : Option Rule :=
  if line.head? = some '#' then none
  else
    let line := trimLine line
    if line.isEmpty then none
    else
      let m := marks line
      match Glob.parse globOptions m.globText with
      | .ok glob => some ⟨glob, m.verdict, m.directoriesOnly⟩
      | .error _ => none

/-- The lines of a file as bytes: each ends at a line feed, which it loses together
with a carriage return just before it. -/
def splitLines (content : Bytes) : List Bytes :=
  go [] content
where
  /-- Reads on with the current line reversed in `line`. -/
  go (line : Bytes) : Bytes → List Bytes
    | [] => if line.isEmpty then [] else [line.reverse]
    | b :: rest =>
      if b = Bytes.newline then
        (match line with
          | 0x0d :: more => more.reverse
          | _ => line.reverse) :: go [] rest
      else go (b :: line) rest

/-- The lines up to the first that is no text. -/
def readable (lines : List Bytes) : List (List Char) :=
  (lines.map Utf8.decode?).takeWhile Option.isSome |>.filterMap (·.map String.toList)

/-- The rules of an ignore file; marks of byte order before the first line are
passed over. -/
def rulesOf (content : Bytes) : List Rule :=
  match readable (splitLines content) with
  | [] => []
  | first :: rest => (first.dropWhile (· == '\ufeff') :: rest).filterMap Rule.ofLine?

/-- The rule matches an entry, given by its path from the rule's directory. -/
def Rule.applies (r : Rule) (path : String) (isDirectory : Bool) : Bool :=
  (isDirectory || !r.directoriesOnly) && r.glob.accepts path

/-- What a list of rules says about an entry: the last rule that matches decides. -/
def verdict? (rules : List Rule) (path : String) (isDirectory : Bool) : Option Verdict :=
  (rules.reverse.find? (·.applies path isDirectory)).map (·.verdict)

end SymbolRename.Ignore
