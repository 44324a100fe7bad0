import SymbolRename.Json.Reader
import SymbolRename.Path
import SymbolRename.Mapping.Text

/-!
# Manifests

A manifest is the JSON list of a snapshot's entries. `Manifest.parse` takes what
`Manifest.render` writes, with members in any order and unknown members passed
over.
-/

namespace SymbolRename

/-- One saved file. -/
structure SnapshotEntry where
  /-- The label of the step before which the file was saved. -/
  label : String
  /-- The file. -/
  original : Path
  /-- Its copy. -/
  backup : Path
  /-- The digest of its content. -/
  checksum : String
deriving DecidableEq, Repr

namespace Manifest

open Json (Reader Problem)

/-- An entry in JSON. -/
def entryJson (e : SnapshotEntry) : Json :=
  .object [("label", .string e.label), ("original_path", .string e.original.text),
    ("backup_path", .string e.backup.text), ("checksum", .string e.checksum)]

/-- The text of a manifest. -/
def render (entries : List SnapshotEntry) : String :=
  (Json.array (entries.map entryJson)).pretty

/-- The members of an entry, as far as they have been read. -/
structure Members where
  label : Option String := none
  original : Option String := none
  backup : Option String := none
  checksum : Option String := none

/-- Stops at a problem whose place is not decided yet. -/
def fail {α : Type} (p : Problem) : Reader α := throw ⟨p, none⟩

/-- Stops at a value of the wrong sort. Scalars are read before the problem is placed;
of a list or object nothing is. -/
def wrongType {α : Type} (fuel : Nat) (expected : String) : Reader α :=
  Reader.place do
    match ← Reader.peekSolid? with
    | none => Reader.failNext .eofInValue
    | some '[' => fail (.wrongType "sequence" expected)
    | some '\x7b' => fail (.wrongType "map" expected)
    | some _ =>
      let v ← Reader.value fuel Json.depthLimit
      fail (.wrongType (Mapping.sortOf v) expected)

/-- Reads a string. -/
def text (fuel : Nat) (expected : String) : Reader String := do
  match ← Reader.peekSolid? with
  | some '"' => Reader.string
  | _ => wrongType fuel expected

/-- What a member's value is called in a message. -/
def expectedText (key : String) : String :=
  if key = "original_path" ∨ key = "backup_path" then "path string" else "a string"

/-- Sets a member that is not there yet. -/
def Members.set (m : Members) (key s : String) : Members :=
  match key with
  | "label" => { m with label := some s }
  | "original_path" => { m with original := some s }
  | "backup_path" => { m with backup := some s }
  | _ => { m with checksum := some s }

/-- The member, if it was read already. -/
def Members.get? (m : Members) (key : String) : Option String :=
  match key with
  | "label" => m.label
  | "original_path" => m.original
  | "backup_path" => m.backup
  | _ => m.checksum

/-- The names of an entry's members. -/
def keys : List String := ["label", "original_path", "backup_path", "checksum"]

/-- The entry with the given members, all of which are needed. -/
def Members.entry (m : Members) : Reader SnapshotEntry := do
  let need := fun (key : String) (v : Option String) =>
    (v.elim (fail (.missingField key)) pure : Reader String)
  let label ← need "label" m.label
  let original ← need "original_path" m.original
  let backup ← need "backup_path" m.backup
  let checksum ← need "checksum" m.checksum
  return ⟨label, ⟨original⟩, ⟨backup⟩, checksum⟩

/-- Reads the members of an object up to its closing brace. -/
def readMembers (fuel : Nat) : Nat → Bool → Members → Reader SnapshotEntry
  | 0, _, m => m.entry
  | count + 1, first, m => do
    if ← Reader.moreKeys first then
      let key ← Reader.string
      if keys.contains key then
        if (m.get? key).isSome then fail (.duplicateField key)
        else
          Reader.colon
          readMembers fuel count false (m.set key (← text fuel (expectedText key)))
      else
        Reader.colon
        let _ ← Reader.value fuel Json.depthLimit
        readMembers fuel count false m
    else m.entry

/-- Reads the items of a list that stands for an entry, in the order of the members. -/
def readItems (fuel : Nat) : List String → Bool → Members → Reader SnapshotEntry
  | [], _, m => m.entry
  | key :: rest, first, m => do
    if ← Reader.moreItems first then
      readItems fuel rest false (m.set key (← text fuel (expectedText key)))
    else
      fail (.wrongLength (keys.length - rest.length - 1) "struct SnapshotEntry with 4 elements")

/-- Runs a reader and then takes the closing bracket, also after a problem, so that
the problem is placed behind it. -/
def closing {α : Type} (read : Reader α) (close : Reader Unit) : Reader α := fun s =>
  match read s with
  | .ok v s =>
    match close s with
    | .ok _ s => .ok v s
    | .error e s => .error e s
  | .error e s =>
    match close s with
    | .ok _ s => .error e s
    | .error _ s => .error e s

/-- Reads one entry: an object, or a list of the members. -/
def readEntry (fuel : Nat) : Reader SnapshotEntry := do
  match ← Reader.peekSolid? with
  | none => Reader.failNext .eofInValue
  | some '[' =>
    Reader.skip
    Reader.place (closing (readItems fuel keys true {}) Reader.endList)
  | some '\x7b' =>
    Reader.skip
    Reader.place (closing (readMembers fuel fuel true {}) Reader.endObject)
  | some _ => wrongType fuel "struct SnapshotEntry"

/-- Reads the entries of a list up to its closing bracket. -/
def readEntries (fuel : Nat) : Nat → Bool → Reader (List SnapshotEntry)
  | 0, _ => return []
  | count + 1, first => do
    if ← Reader.moreItems first then
      let entry ← readEntry fuel
      return entry :: (← readEntries fuel count false)
    else return []

/-- Reads a manifest. -/
def readAll (fuel : Nat) : Reader (List SnapshotEntry) := do
  match ← Reader.peekSolid? with
  | none => Reader.failNext .eofInValue
  | some '[' =>
    Reader.skip
    Reader.place (closing (readEntries fuel fuel true) Reader.endList)
  | some _ => wrongType fuel "a sequence"

/-- The entries of a manifest's text. -/
def parse (text : String) : Except Json.Fault (List SnapshotEntry) :=
  Json.readAll (readAll (Json.readFuel text)) text

end Manifest

end SymbolRename
