/-!
# Line differences

The difference of two texts is a list of blocks of lines: kept, removed or added.
A shortest edit script is found by meeting in the middle; then each removed block,
and after them each added block, is moved up and down as far as equal lines allow,
which merges blocks that can be neighbours.
-/

namespace SymbolRename.Diff

/-- A line with its ending, as its characters. -/
abbrev Line := List Char

/-- What happens to the lines of a block. -/
inductive Tag
  | keep
  | remove
  | add
deriving DecidableEq, Repr

/-- Neighbouring lines that share one fate. -/
structure Block where
  tag : Tag
  lines : List Line
deriving DecidableEq, Repr

/-- The lines of a text with their endings: a line feed, a carriage return or both. -/
def splitLines (text : List Char) : List Line :=
  go [] text
where
  /-- Reads on with the current line reversed in `line`. -/
  go (line : List Char) : List Char → List Line
    | [] => if line.isEmpty then [] else [line.reverse]
    | '\r' :: '\n' :: rest => ('\n' :: '\r' :: line).reverse :: go [] rest
    | c :: rest =>
      if c = '\n' ∨ c = '\r' then (c :: line).reverse :: go [] rest else go (c :: line) rest

/-- The length of the common beginning of two lists. -/
def commonHead : List Line → List Line → Nat
  | a :: as, b :: bs => if a = b then commonHead as bs + 1 else 0
  | _, _ => 0

/-- The length of the common end of two lists. -/
def commonTail (a b : List Line) : Nat := commonHead a.reverse b.reverse

/-- The furthest positions reached on each diagonal. -/
abbrev Frontier := List (Int × Nat)

/-- The position reached on a diagonal. -/
def Frontier.at' (f : Frontier) (k : Int) : Nat := ((f.find? (·.1 == k)).map (·.2)).getD 0

/-- Records the position reached on a diagonal. -/
def Frontier.set (f : Frontier) (k : Int) (x : Nat) : Frontier :=
  (k, x) :: f.filter (·.1 != k)

/-- Where a path of one more edit enters diagonal `k`. -/
def Frontier.entry (f : Frontier) (d k : Int) : Nat :=
  if k = -d ∨ (k ≠ d ∧ f.at' (k - 1) < f.at' (k + 1)) then f.at' (k + 1) else f.at' (k - 1) + 1

/-- One round of a search with `d` edits over the diagonals `k`, `k - 2`, …; it stops
where the other search was met, which `meets` decides, with the point `found`. -/
def round (old new : List Line) (other : Frontier) (d : Int)
    (meets : Int → Nat → Bool) (found : Nat → Int → Nat → Nat × Nat) :
    Nat → Int → Frontier → Frontier × Option (Nat × Nat)
  | 0, _, f => (f, none)
  | count + 1, k, f =>
    let start := f.entry d k
    let y : Int := start - k
    let run :=
      if 0 ≤ y ∧ start < old.length ∧ y < new.length then
        commonHead (old.drop start) (new.drop y.toNat)
      else 0
    let x := start + run
    let f := f.set k x
    if meets k x then (f, some (found start k x))
    else round old new other d meets found count (k - 2) f

/-- A point on a shortest edit path, found by searching from both ends at once. -/
def middle (old new : List Line) : Nat → Nat → Frontier → Frontier → Option (Nat × Nat)
  | 0, _, _, _ => none
  | fuel + 1, d, forward, backward =>
    let n := old.length
    let m := new.length
    let delta : Int := n - m
    let odd := delta % 2 != 0
    let (forward, met) := round old new backward d
      (fun k x => odd && (k - delta).natAbs + 1 ≤ d && n ≤ x + backward.at' (-(k - delta)))
      (fun start k _ => (start, (start - k : Int).toNat)) (d + 1) d forward
    match met with
    | some point => some point
    | none =>
      let (backward, met) := round old.reverse new.reverse forward d
        (fun k x => !odd && (k - delta).natAbs ≤ d && n ≤ x + forward.at' (-(k - delta)))
        (fun _ k x => (n - x, m - (x - k : Int).toNat)) (d + 1) d backward
      match met with
      | some point => some point
      | none => middle old new fuel (d + 1) forward backward

/-- A block, unless it has no lines. -/
def block (tag : Tag) (lines : List Line) : List Block :=
  if lines.isEmpty then [] else [⟨tag, lines⟩]

/-- The blocks of a shortest edit script, `fuel` bounding the halvings. -/
def script : Nat → List Line → List Line → List Block
  | 0, old, new => block .remove old ++ block .add new
  | fuel + 1, old, new =>
    let head := commonHead old new
    let old' := old.drop head
    let new' := new.drop head
    let tail := commonTail old' new'
    let old'' := old'.take (old'.length - tail)
    let new'' := new'.take (new'.length - tail)
    block .keep (old.take head) ++
      (if old''.isEmpty ∨ new''.isEmpty then block .remove old'' ++ block .add new''
      else match middle old'' new'' ((old''.length + new''.length + 1) / 2 + 1) 0 [] [] with
        | some (x, y) =>
          script fuel (old''.take x) (new''.take y) ++ script fuel (old''.drop x) (new''.drop y)
        | none => block .remove old'' ++ block .add new'') ++
      block .keep (old'.drop (old'.length - tail))

/-- Joins neighbouring blocks of kept lines. -/
def joinKept : List Block → List Block
  | [] => []
  | b :: rest =>
    match joinKept rest with
    | c :: more =>
      if b.tag = .keep ∧ c.tag = .keep then ⟨.keep, b.lines ++ c.lines⟩ :: more
      else b :: c :: more
    | [] => [b]

/-- The blocks before a block, nearest first, and those after it. -/
structure Focus where
  before : List Block
  this : Block
  after : List Block

/-- Moves the block up as far as the lines before it allow. -/
def Focus.up : Nat → Focus → Focus
  | 0, f => f
  | fuel + 1, f =>
    match f.before with
    | [] => f
    | prev :: more =>
      if prev.tag = .keep then
        let n := commonTail prev.lines f.this.lines
        if n = 0 then if prev.lines.isEmpty then Focus.up fuel { f with before := more } else f
        else
          let shared := prev.lines.drop (prev.lines.length - n)
          let kept := prev.lines.take (prev.lines.length - n)
          let after := match f.after with
            | next :: rest =>
              if next.tag = .keep then ⟨.keep, shared ++ next.lines⟩ :: rest
              else ⟨.keep, shared⟩ :: next :: rest
            | [] => [⟨.keep, shared⟩]
          let this := ⟨f.this.tag, shared ++ f.this.lines.take (f.this.lines.length - n)⟩
          Focus.up fuel ⟨block .keep kept ++ more, this, after⟩
      else if prev.tag = f.this.tag then
        Focus.up fuel ⟨more, ⟨prev.tag, prev.lines ++ f.this.lines⟩, f.after⟩
      else Focus.up fuel ⟨more, f.this, prev :: f.after⟩

/-- Moves the block down as far as the lines after it allow. -/
def Focus.down : Nat → Focus → Focus
  | 0, f => f
  | fuel + 1, f =>
    match f.after with
    | [] => f
    | next :: more =>
      if next.tag = .keep then
        let n := commonHead next.lines f.this.lines
        if n = 0 then if next.lines.isEmpty then Focus.down fuel { f with after := more } else f
        else
          let shared := next.lines.take n
          let kept := next.lines.drop n
          let before := match f.before with
            | prev :: rest =>
              if prev.tag = .keep then ⟨.keep, prev.lines ++ shared⟩ :: rest
              else ⟨.keep, shared⟩ :: prev :: rest
            | [] => [⟨.keep, shared⟩]
          let this := ⟨f.this.tag, f.this.lines.drop n ++ shared⟩
          Focus.down fuel ⟨before, this, block .keep kept ++ more⟩
      else if next.tag = f.this.tag then
        Focus.down fuel ⟨f.before, ⟨next.tag, f.this.lines ++ next.lines⟩, more⟩
      else Focus.down fuel ⟨next :: f.before, f.this, more⟩

/-- Moves every block with this tag, from the first on. -/
def compact (tag : Tag) (reach : Nat) : Nat → List Block → List Block → List Block
  | 0, before, blocks => before.reverse ++ blocks
  | _ + 1, before, [] => before.reverse
  | fuel + 1, before, b :: rest =>
    if b.tag = tag then
      let f := Focus.down reach (Focus.up reach ⟨before, b, rest⟩)
      compact tag reach fuel (f.this :: f.before) f.after
    else compact tag reach fuel (b :: before) rest

/-- Puts the removed lines of neighbouring changes before the added ones. -/
def grouped (removed added : List Line) : List Block → List Block
  | [] => block .remove removed ++ block .add added
  | b :: rest =>
    match b.tag with
    | .keep => block .remove removed ++ block .add added ++ b :: grouped [] [] rest
    | .remove => grouped (removed ++ b.lines) added rest
    | .add => grouped removed (added ++ b.lines) rest

/-- The blocks that turn the old lines into the new ones. -/
def blocks (old new : List Line) : List Block :=
  let size := old.length + new.length
  let found := joinKept (script (size + 1) old new)
  let reach := 4 * size + 8
  grouped [] [] (compact .add reach reach [] (compact .remove reach reach [] found))

/-- The lines of a difference, each with its fate. -/
def lines (old new : List Char) : List (Tag × Line) :=
  (blocks (splitLines old) (splitLines new)).flatMap fun b => b.lines.map fun l => (b.tag, l)

end SymbolRename.Diff
