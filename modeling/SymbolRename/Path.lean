/-!
# Paths

A path is its text; two spellings of one path agree in their components. The
first component of a path may be the root `/` or the current directory `.`; after
it, empty segments and `.` are spelling only.
-/

namespace SymbolRename

/-- A file path as it was written. -/
structure Path where
  text : String
deriving DecidableEq, Repr, Inhabited

/-- One meaningful step of a path. -/
inductive Component
  /-- The file system's root, at the head of an absolute path. -/
  | root
  /-- The current directory, kept only at the head of a relative path. -/
  | here
  /-- The parent directory. -/
  | up
  /-- A named entry. -/
  | name (s : String)
deriving DecidableEq, Repr

namespace Component

/-- The place of a component's sort in the order of components. -/
def rank : Component → Nat
  | root => 0
  | here => 1
  | up => 2
  | name _ => 3

/-- Components are ordered by sort, names among themselves by their bytes. -/
def compare (a b : Component) : Ordering :=
  match a, b with
  | name s, name t => Ord.compare s t
  | _, _ => Ord.compare a.rank b.rank

end Component

namespace Path

/-- Splits a text at each slash. -/
def segmentsOf : List Char → List (List Char)
  | [] => [[]]
  | '/' :: rest => [] :: segmentsOf rest
  | c :: rest =>
    match segmentsOf rest with
    | [] => [[c]]
    | first :: more => (c :: first) :: more

theorem segmentsOf_ne_nil (cs : List Char) : segmentsOf cs ≠ [] := by
  unfold segmentsOf
  split
  · simp
  · simp
  · split <;> simp

/-- The segments between slashes, as texts. -/
def segments (p : Path) : List String := (segmentsOf p.text.toList).map String.ofList

theorem segments_ne_nil (p : Path) : p.segments ≠ [] :=
  mt List.map_eq_nil_iff.mp (segmentsOf_ne_nil p.text.toList)

/-- A segment past the head: empty segments and `.` mean nothing. -/
def stepOf? (segment : String) : Option Component :=
  if segment = "" ∨ segment = "." then none
  else if segment = ".." then some .up
  else some (.name segment)

/-- The meaningful steps of a path, in order. -/
def components (p : Path) : List Component :=
  match p.segments with
  | [] => []
  | [""] => []
  | "" :: rest => .root :: rest.filterMap stepOf?
  | "." :: rest => .here :: rest.filterMap stepOf?
  | segments => segments.filterMap stepOf?

/-- Two spellings of the same path. -/
def same (p q : Path) : Bool := p.components == q.components

/-- Lexicographic order of components, a shorter path before its extensions. -/
def compareComponents : List Component → List Component → Ordering
  | [], [] => .eq
  | [], _ :: _ => .lt
  | _ :: _, [] => .gt
  | a :: as, b :: bs => (a.compare b).then (compareComponents as bs)

/-- The order in which paths are listed. -/
def compare (p q : Path) : Ordering := compareComponents p.components q.components

/-- The path starts at the root. -/
def isAbsolute (p : Path) : Bool := p.text.toList.head? == some '/'

/-- `q` seen from `p`: an absolute `q` stands for itself. -/
def join (p q : Path) : Path :=
  if q.isAbsolute then q
  else if p.text = "" ∨ p.text.toList.getLast? = some '/' then ⟨p.text ++ q.text⟩
  else ⟨p.text ++ "/" ++ q.text⟩

/-- The last component, if it is a name. -/
def fileName? (p : Path) : Option String :=
  match p.components.getLast? with
  | some (.name s) => some s
  | _ => none

/-- The part of a file name after its last dot; a name whose only dot is its first
character has none. -/
def extensionOf? (name : String) : Option String :=
  let after := (name.toList.reverse.takeWhile (· != '.')).reverse
  let before := name.toList.take (name.toList.length - after.length - 1)
  if before.isEmpty then none else some (String.ofList after)

/-- The extension of the last component, without its dot. -/
def extension? (p : Path) : Option String := p.fileName?.bind extensionOf?

/-- Drops raw segments until `count` components are gone. -/
def dropSegments : Nat → List String → List String
  | 0, segments => segments
  | _ + 1, [] => []
  | count + 1, segment :: rest =>
    if (stepOf? segment).isSome then dropSegments count rest
    else dropSegments (count + 1) rest

/-- Segments joined by slashes again. -/
def ofSegments (segments : List String) : Path := ⟨"/".intercalate segments⟩

/-- Removes the meaningless segments at both ends. -/
def trimSegments (segments : List String) : List String :=
  let isSilent := fun s : String => (stepOf? s).isNone
  ((segments.dropWhile isSilent).reverse.dropWhile isSilent).reverse

/-- The rest of `p` below `base`, if `base` is made of `p`'s first components. -/
def below? (p base : Path) : Option Path :=
  let mine := p.components
  let theirs := base.components
  if theirs.isPrefixOf mine then
    if theirs.isEmpty then
      match p.segments with
      | "." :: _ => some p
      | "" :: _ :: _ => some p
      | segments => some (ofSegments (trimSegments segments))
    else
      let marks := match theirs.head? with
        | some .root => 1
        | some .here => 1
        | _ => 0
      some (ofSegments (trimSegments
        (dropSegments (theirs.length - marks) (p.segments.drop marks))))
  else none

/-- Removes the last meaningful segment and the meaningless ones around it. -/
def dropLastStep (segments : List String) : List String :=
  let isSilent := fun s : String => (stepOf? s).isNone
  (((segments.reverse.dropWhile isSilent).drop 1).dropWhile isSilent).reverse

/-- The path without its last component, if it has one besides the root. -/
def parent? (p : Path) : Option Path :=
  match p.segments, p.components with
  | _, [] => none
  | _, [.root] => none
  | "" :: rest, _ => some ⟨"/" ++ (ofSegments (dropLastStep rest)).text⟩
  | "." :: rest, [.here] => some (ofSegments (dropLastStep rest))
  | "." :: rest, _ => some (ofSegments ("." :: dropLastStep rest))
  | segments, _ => some (ofSegments (dropLastStep segments))

end Path

/-- An absolute position in the file tree: the names from the root down. -/
abbrev Place := List String

namespace Place

/-- The path text of a place. -/
def toPath (p : Place) : Path := ⟨"/" ++ "/".intercalate p⟩

end Place

end SymbolRename
