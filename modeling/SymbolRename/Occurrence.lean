import SymbolRename.Role

/-!
# Occurrences

An occurrence is a use that a rename may change. `Occurrence.select` reduces the
captures of a file to its occurrences: one for each position that some capture
claims and no excluded capture claims, in source order.
-/

namespace SymbolRename

/-- A use of the name in question that may be renamed. -/
structure Occurrence where
  kind : CaptureKind
  location : Location
  text : String
deriving DecidableEq, Repr

namespace Occurrence

/-- The line and column of an occurrence. -/
def position (o : Occurrence) : Nat × Nat := (o.location.line, o.location.column)

/-- The role reported for an occurrence. -/
def role (o : Occurrence) : Role := Role.ofKind o.kind

/-- Of several captures at one position the most specific kind wins. -/
def specificity : CaptureKind → Nat
  | .definition => 6
  | .importUse => 5
  | .exportUse => 4
  | .parameter => 3
  | .typeReference => 2
  | .reference => 1
  | .stringLiteral | .comment => 0

/-- A capture read as an occurrence. -/
def ofCapture (c : Capture) : Occurrence := ⟨c.kind, c.location, c.text⟩

/-- Puts an occurrence into a list that is sorted by position, one for each
position; of two at the same position the more specific one stays, and of two
equally specific ones the earlier. -/
def insert (o : Occurrence) : List Occurrence → List Occurrence
  | [] => [o]
  | p :: rest =>
    if Location.before o.position p.position then o :: p :: rest
    else if p.position = o.position then
      (if specificity o.kind ≤ specificity p.kind then p else o) :: rest
    else p :: insert o rest

/-- The capture names what is looked for, inside the range if there is one. -/
def isRelevant (name : String) (range : Option LineRange) (c : Capture) : Bool :=
  c.text == name && range.all (·.contains c.location.line)

/-- The occurrences of `name` among the captures of one file. -/
def select (captures : List Capture) (name : String) (range : Option LineRange) :
    List Occurrence :=
  let relevant := captures.filter (isRelevant name range)
  let claimed := (relevant.filter (·.kind.isExcluded)).map
    fun c => (c.location.line, c.location.column)
  let kept := (relevant.filter (!·.kind.isExcluded)).foldl
    (fun found c => insert (ofCapture c) found) []
  kept.filter (!claimed.contains ·.position)

/-- How many occurrences play each role. -/
def counts (occurrences : List Occurrence) : RoleCounts :=
  RoleCounts.ofRoles (occurrences.map role)

end Occurrence

end SymbolRename
