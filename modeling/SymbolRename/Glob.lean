import SymbolRename.Glob.Pattern

/-!
# Globs

A glob is a pattern for paths: `?` is one byte, `*` any number of bytes, `[...]` one
of a class, `{a,b}` one of several, and `**` between slashes any number of
directories. A *separated* glob keeps `?` and `*` inside one directory.
-/

namespace SymbolRename

/-- A glob that was read: its text and the paths that it stands for. -/
structure Glob where
  text : String
  pattern : Pattern
deriving DecidableEq, Repr

namespace Glob

/-- Why a text is no glob. -/
inductive Fault
  | unclosedClass
  | invalidRange (low high : Char)
  | unopenedGroup
  | unclosedGroup
  | danglingEscape
deriving DecidableEq, Repr

/-- The wording of a fault. -/
def Fault.message : Fault → String
  | unclosedClass => "unclosed character class; missing ']'"
  | invalidRange low high => s!"invalid range; '{low}' > '{high}'"
  | unopenedGroup =>
    "unopened alternate group; missing '\x7b' (maybe escape '\x7d' with '[\x7d]'?)"
  | unclosedGroup =>
    "unclosed alternate group; missing '\x7d' (maybe escape '\x7b' with '[\x7b]'?)"
  | danglingEscape => "dangling '\\'"

/-- How globs are read. -/
structure Options where
  /-- `?` and `*` do not cross a slash. -/
  separated : Bool := false
  /-- A class that is never closed stands for its bracket. -/
  lenient : Bool := false

/-- A part of a glob. -/
inductive Token
  | literal (c : Char)
  | any
  | zeroOrMore
  /-- `**` at the beginning: nothing, or any directories with their slash. -/
  | leadingDirs
  /-- `**` at the end: everything below. -/
  | trailingDirs
  /-- `**` in the middle: one slash, or directories between two. -/
  | innerDirs
  | oneOf (negated : Bool) (ranges : List (Char × Char))
  /-- A closed group; nothing when all its branches are. -/
  | group (p : Option Pattern)
deriving DecidableEq, Repr

/-- The slash between directories. -/
def slash : UInt8 := 0x2f

/-- The bytes of a range of characters: the last byte of the lower one up to the
first byte of the higher one, and the other bytes of both. -/
def byteRanges (range : Char × Char) : List (UInt8 × UInt8) :=
  let single := fun b : UInt8 => (b, b)
  let low := bytes range.1.toString
  let high := bytes range.2.toString
  if range.1 = range.2 then low.map single
  else low.dropLast.map single ++ (low.getLast?.getD 0, high.head?.getD 0) :: high.tail.map single

namespace Token

/-- The bytes that `?` and `*` range over. -/
def reach (o : Options) : ByteSet := if o.separated then .allBut slash else .all

/-- What a token describes; nothing for a group without branches. -/
def pattern? (o : Options) : Token → Option Pattern
  | literal c => some (.literal (bytes c.toString))
  | any => some (.one (reach o))
  | zeroOrMore => some (.many (reach o))
  | leadingDirs =>
    let one := Pattern.one (.single slash)
    some (.either .empty (.either one (.seq (.many .all) one)))
  | trailingDirs => some (.seq (.one (.single slash)) (.many .all))
  | innerDirs =>
    let one := Pattern.one (.single slash)
    some (.either one (.seq one (.seq (.many .all) one)))
  | oneOf negated ranges => some (.one ⟨negated, ranges.flatMap byteRanges⟩)
  | group p => p

/-- What a branch describes; nothing for a branch without text. -/
def branch? (o : Options) (tokens : List Token) : Option Pattern :=
  match tokens.filterMap (pattern? o) with
  | [] => none
  | ps => some (.sequence ps)

/-- One of several branches; those without text do not count. -/
def ofBranches (o : Options) (branches : List (List Token)) : Token :=
  match (branches.filterMap (branch? o)).reverse with
  | [] => .group none
  | last :: more => .group (some (more.foldl (fun p q => .either q p) last))

end Token

/-- A group whose brace is still open. -/
structure OpenGroup where
  /-- The tokens before the group, the last first. -/
  before : List Token
  /-- The finished branches, the last first. -/
  branches : List (List Token)

/-- What has been read so far. -/
structure Progress where
  /-- The tokens of the current branch, the last first. -/
  tokens : List Token := []
  /-- The open groups, the innermost first. -/
  groups : List OpenGroup := []
  /-- A bracket that is never closed was met. -/
  unclosed : Bool := false

namespace Progress

/-- One more token. -/
def push (p : Progress) (t : Token) : Progress := { p with tokens := t :: p.tokens }

/-- Opens a group. -/
def openGroup (p : Progress) : Progress :=
  { p with tokens := [], groups := ⟨p.tokens, []⟩ :: p.groups }

/-- A comma begins the next branch of a group, and is plain outside groups. -/
def comma (p : Progress) : Progress :=
  match p.groups with
  | [] => p.push (.literal ',')
  | g :: outer =>
    { p with tokens := [], groups := { g with branches := p.tokens :: g.branches } :: outer }

/-- Closes the innermost group. -/
def closeGroup (o : Options) (p : Progress) : Except Fault Progress :=
  match p.groups with
  | [] => .error .unopenedGroup
  | g :: outer =>
    let branches := (p.tokens :: g.branches).reverse.map List.reverse
    .ok { p with tokens := Token.ofBranches o branches :: g.before, groups := outer }

/-- Two stars that stand for directories: in place of the slash before them, unless
they follow such stars. -/
def dirs (p : Progress) (t : Token) : Progress :=
  match p.tokens with
  | .leadingDirs :: _ => p
  | .trailingDirs :: _ => p
  | _ :: rest => { p with tokens := t :: rest }
  | [] => p.push t

/-- Two stars, with the character before them and what follows; the answer counts
the characters taken besides the first star. -/
def stars (p : Progress) (before : Option Char) (rest : List Char) : Progress × Nat :=
  let plain := ((p.push .zeroOrMore).push .zeroOrMore, 1)
  let inGroup := !p.groups.isEmpty
  if p.tokens.isEmpty then
    match rest with
    | [] => (p.push .leadingDirs, 1)
    | '/' :: _ => (p.push .leadingDirs, 2)
    | _ => plain
  else if before != some '/' && !(inGroup && (before == some ',' || before == some '\x7b')) then
    plain
  else
    match rest with
    | [] => (p.dirs .trailingDirs, 1)
    | '/' :: _ => (p.dirs .innerDirs, 2)
    | c :: _ =>
      if inGroup && (c == ',' || c == '\x7d') then (p.dirs .trailingDirs, 1) else plain

end Progress

/-- A class up to its closing bracket. -/
structure ByteClass where
  ranges : List (Char × Char)
  /-- The characters that were read. -/
  length : Nat

/-- Reads a class after its bracket and negation: `ranges` holds the ranges so far,
the last first, and `open` tells that a hyphen awaits its upper end. There is none
if the class is not closed. -/
def readRanges (ranges : List (Char × Char)) (first isOpen : Bool) :
    List Char → Except Fault (Option ByteClass)
  | [] => .ok none
  | c :: rest => do
    if c = ']' ∧ !first then
      let ranges := if isOpen then ('-', '-') :: ranges else ranges
      return some ⟨ranges.reverse, 1⟩
    else if c = '-' ∧ !first ∧ !isOpen then
      return (← readRanges ranges false true rest).map fun k => { k with length := k.length + 1 }
    else
      let ranges ← match isOpen, ranges with
        | true, (low, _) :: more =>
          if c < low then .error (.invalidRange low c) else .ok ((low, c) :: more)
        | _, _ => .ok ((c, c) :: ranges)
      return (← readRanges ranges false false rest).map fun k => { k with length := k.length + 1 }

/-- Reads a class after its bracket; the answer counts the characters taken. -/
def readClass (rest : List Char) : Except Fault (Option (Token × Nat)) := do
  let negated := rest.head? == some '!' || rest.head? == some '^'
  let marks := if negated then 1 else 0
  return (← readRanges [] true false (rest.drop marks)).map fun k =>
    (.oneOf negated k.ranges, k.length + marks)

/-- One step of reading: what becomes of `c` with the character before it and those
after it; the answer counts the further characters taken. -/
def step (o : Options) (p : Progress) (before : Option Char) (c : Char) (rest : List Char) :
    Except Fault (Progress × Nat) :=
  match c with
  | '?' => .ok (p.push .any, 0)
  | '*' =>
    match rest with
    | '*' :: more => .ok (p.stars before more)
    | _ => .ok (p.push .zeroOrMore, 0)
  | '[' =>
    if p.unclosed then .ok (p.push (.literal '['), 0)
    else do
      match ← readClass rest with
      | some (t, count) => return (p.push t, count)
      | none =>
        if o.lenient then return ({ p.push (.literal '[') with unclosed := true }, 0)
        else .error .unclosedClass
  | '\x7b' => .ok (p.openGroup, 0)
  | '\x7d' => do return (← p.closeGroup o, 0)
  | ',' => .ok (p.comma, 0)
  | '\\' =>
    match rest with
    | [] => .error .danglingEscape
    | d :: _ => .ok (p.push (.literal d), 1)
  | c => .ok (p.push (.literal c), 0)

/-- Reads on; `skip` characters were taken already. -/
def readFrom (o : Options) (p : Progress) (before : Option Char) (skip : Nat) :
    List Char → Except Fault Progress
  | [] => .ok p
  | c :: rest =>
    if 0 < skip then readFrom o p (some c) (skip - 1) rest
    else do
      let (p, count) ← step o p before c rest
      readFrom o p (some c) count rest

/-- The glob that a text spells; `**` alone stands for every path. -/
def parse (o : Options) (text : String) : Except Fault Glob := do
  let p ← readFrom o {} none 0 text.toList
  if !p.groups.isEmpty then .error .unclosedGroup
  else
    let pattern := match p.tokens with
      | [.leadingDirs] => .many .all
      | tokens => (Token.branch? o tokens.reverse).getD .empty
    return ⟨text, pattern⟩

/-- The glob stands for the path. -/
def accepts (g : Glob) (path : String) : Bool := g.pattern.accepts (bytes path)

end Glob

end SymbolRename
