import SymbolRename.Occurrence
import SymbolRename.Report

/-!
# Answers of operations

What each operation answers, as a JSON value with members in a fixed order and as a
summary for people.
-/

namespace SymbolRename

/-- A path in JSON. -/
def Path.toJson (p : Path) : Json := .string p.text

/-- A count in JSON. -/
def countJson (n : Nat) : Json := .number (.natural n)

namespace Location

/-- A position in JSON. -/
def toJson (l : Location) : Json :=
  .object [("file", l.file.toJson), ("line", countJson l.line), ("column", countJson l.column)]

end Location

namespace RoleCounts

/-- Counts of roles in JSON. -/
def toJson (c : RoleCounts) : Json :=
  .object [("definitions", countJson c.definitions), ("references", countJson c.references),
    ("imports", countJson c.imports), ("exports", countJson c.exports),
    ("parameters", countJson c.parameters)]

end RoleCounts

namespace Change

/-- A changed place in JSON. -/
def toJson (c : Change) : Json :=
  .object [("location", c.location.toJson), ("role", .string c.role.word),
    ("before", .string c.before), ("after", .string c.after)]

end Change

namespace FileFailure

/-- A failed file in JSON; without a mapping that member is left out. -/
def toJson (f : FileFailure) : Json :=
  .object ([("path", f.path.toJson)] ++
    (f.mapping.toList.map fun m => ("mapping", countJson m)) ++ [("message", .string f.message)])

/-- A failed file on a line of its own. -/
def line (f : FileFailure) : String := s!"✗ {f.path.text}: {f.message}\n"

end FileFailure

namespace Ambiguity

/-- An ambiguous dependency in JSON. -/
def toJson (a : Ambiguity) : Json :=
  .object [("mapping", countJson a.mapping), ("candidates", .array (a.candidates.map countJson)),
    ("chosen", countJson a.chosen)]

end Ambiguity

/-- Mapping numbers, counted from one, in brackets. -/
def numberList (indices : List Nat) : String :=
  "[" ++ ", ".intercalate (indices.map fun i => toString (i + 1)) ++ "]"

/-- The answer of a search for a name. -/
structure FindAnswer where
  name : String
  occurrences : List Occurrence
  failures : List FileFailure

namespace FindAnswer

/-- How many files hold an occurrence. -/
def files (a : FindAnswer) : Nat := (PathSet.ofList (a.occurrences.map (·.location.file))).length

/-- How many occurrences play each role. -/
def counts (a : FindAnswer) : RoleCounts := Occurrence.counts a.occurrences

/-- The answer in JSON. -/
def json (a : FindAnswer) : Json :=
  let occurrence := fun o : Occurrence => Json.object
    [("file", o.location.file.toJson), ("line", countJson o.location.line),
      ("column", countJson o.location.column), ("kind", .string o.kind.word),
      ("role", .string o.role.word)]
  .object [("success", .bool true), ("operation", .string "find"), ("name", .string a.name),
    ("summary", .object [("occurrences", countJson a.occurrences.length),
      ("files", countJson a.files), ("roles", a.counts.toJson)]),
    ("occurrences", .array (a.occurrences.map occurrence)),
    ("failures", .array (a.failures.map FileFailure.toJson))]

/-- The answer for people. -/
def summary (a : FindAnswer) : String :=
  let c := a.counts
  s!"Found {a.occurrences.length} occurrences of '{a.name}' in {a.files} files\n" ++
    (if a.occurrences.isEmpty then ""
      else s!"  definitions: {c.definitions}, references: {c.references}, " ++
        s!"imports: {c.imports}, exports: {c.exports}, parameters: {c.parameters}\n") ++
    String.join (a.failures.map FileFailure.line)

end FindAnswer

/-- The answer of a rename. -/
structure RenameAnswer where
  old : String
  new : String
  dryRun : Bool
  outcome : Outcome

namespace RenameAnswer

/-- The answer in JSON. -/
def json (a : RenameAnswer) : Json :=
  .object [("success", .bool true), ("operation", .string "rename"), ("old", .string a.old),
    ("new", .string a.new), ("dryRun", .bool a.dryRun),
    ("changedLocations", countJson a.outcome.changes.length),
    ("filesTouched", .array (a.outcome.filesTouched.map Path.toJson)),
    ("changes", .array (a.outcome.changes.map Change.toJson)),
    ("failures", .array (a.outcome.failures.map FileFailure.toJson))]

/-- The answer for people. -/
def summary (a : RenameAnswer) : String :=
  let o := a.outcome
  let verb := if a.dryRun then "Would rename" else "✓ Renamed"
  s!"{verb} '{a.old}' to '{a.new}': {o.changes.length} changes across {o.filesTouched.length} files\n" ++
    (if o.changes.isEmpty && o.failures.isEmpty then s!"No occurrences of '{a.old}' found\n" else "") ++
    String.join (o.failures.map FileFailure.line)

end RenameAnswer

/-- The answer of planning a batch. -/
structure PlanAnswer where
  mappings : List Mapping
  plan : Plan

namespace PlanAnswer

/-- The answer in JSON. -/
def json (a : PlanAnswer) : Json :=
  let step := fun s : PlanStep => Json.object
    [("old", .string s.old), ("new", .string s.new), ("originMappingIndex", countJson s.origin),
      ("isTemp", .bool s.isTemp)]
  let mapping := fun m : Mapping => Json.object [("old", .string m.old), ("new", .string m.new)]
  .object [("success", .bool true), ("operation", .string "plan"),
    ("mappings", .array (a.mappings.map mapping)), ("steps", .array (a.plan.steps.map step)),
    ("dependsOn", .array (a.plan.dependsOn.map fun d => d.elim .null countJson)),
    ("cycles", .array (a.plan.cycles.map fun c => .array (c.map countJson))),
    ("circularRenames", countJson a.plan.circularRenames),
    ("ambiguities", .array (a.plan.ambiguities.map Ambiguity.toJson))]

/-- A number filled up with blanks on its left to three characters. -/
def stepNumber (n : Nat) : String :=
  let digits := Nat.toDigits 10 n
  String.ofList (List.replicate (3 - digits.length) ' ' ++ digits)

/-- The answer for people. -/
def summary (a : PlanAnswer) : String :=
  s!"{a.mappings.length} mappings, {a.plan.steps.length} steps, " ++
    s!"{a.plan.circularRenames} circular renames\n" ++
    String.join (a.plan.steps.zipIdx.map fun (s, i) =>
      s!"{stepNumber (i + 1)}. {s.old} -> {s.new}" ++ (if s.isTemp then "  (cycle)\n" else "\n")) ++
    String.join (a.plan.ambiguities.map fun m =>
      s!"! mapping {m.mapping + 1} could depend on mappings {numberList m.candidates}; " ++
        s!"using {m.chosen + 1}\n")

end PlanAnswer

/-- The answer of a batch. -/
structure BatchAnswer where
  report : Report
  snapshotDir : Option Path

namespace BatchAnswer

/-- The answer in JSON. -/
def json (a : BatchAnswer) : Json :=
  let r := a.report
  let mapping := fun m : MappingReport => Json.object
    [("old", .string m.old), ("new", .string m.new), ("changes", countJson m.changes),
      ("filesTouched", .array (m.filesTouched.map Path.toJson))]
  .object ([("mapping", .array (r.mappings.map mapping)),
    ("totalChanges", countJson r.totalChanges), ("totalFiles", countJson r.totalFiles),
    ("circularRenames", countJson r.circularRenames), ("dryRun", .bool r.dryRun),
    ("stepsExecuted", countJson r.stepsExecuted), ("interrupted", .bool r.interrupted),
    ("warnings", .array (r.warnings.map .string)),
    ("ambiguities", .array (r.ambiguities.map Ambiguity.toJson)),
    ("failures", .array (r.failures.map FileFailure.toJson)),
    ("success", .bool true), ("operation", .string "batch")] ++
    a.snapshotDir.toList.map fun d => ("snapshotDir", d.toJson))

/-- The answer for people. -/
def summary (a : BatchAnswer) : String :=
  let r := a.report
  (if r.dryRun then "Dry run, no files were changed\n" else "") ++
    String.join (r.mappings.map fun m =>
      s!"  {m.old} -> {m.new}: {m.changes} changes in {m.filesTouched.length} files\n") ++
    s!"Total: {r.totalChanges} changes across {r.totalFiles} files\n" ++
    s!"Circular renames: {r.circularRenames}\n" ++
    (if r.interrupted then s!"Interrupted after {r.stepsExecuted} steps\n" else "") ++
    String.join (r.warnings.map fun w => s!"! {w}\n") ++
    String.join (r.failures.map FileFailure.line) ++
    (a.snapshotDir.elim "" fun d => s!"Snapshots: {d.text}\n")

end BatchAnswer

/-- The answer of putting a snapshot back. -/
structure RestoreAnswer where
  snapshot : String
  snapshotDir : Path
  restored : List Path

namespace RestoreAnswer

/-- The answer in JSON. -/
def json (a : RestoreAnswer) : Json :=
  .object [("success", .bool true), ("operation", .string "restore"),
    ("snapshot", .string a.snapshot), ("snapshotDir", a.snapshotDir.toJson),
    ("restored", .array (a.restored.map Path.toJson))]

/-- The answer for people. -/
def summary (a : RestoreAnswer) : String :=
  if a.restored.isEmpty then s!"Snapshot '{a.snapshot}' holds no files\n"
  else s!"✓ Restored {a.restored.length} files from snapshot '{a.snapshot}'\n" ++
    String.join (a.restored.map fun p => s!"  {p.text}\n")

end RestoreAnswer

/-- The answer to the question for the version. -/
structure VersionAnswer where
  name : String
  version : String

namespace VersionAnswer

/-- The answer in JSON. -/
def json (a : VersionAnswer) : Json :=
  .object [("name", .string a.name), ("version", .string a.version)]

/-- The answer for people. -/
def summary (a : VersionAnswer) : String := s!"{a.name} {a.version}"

end VersionAnswer

end SymbolRename
