import SymbolRename.Answer
import SymbolRename.Rename

/-!
# Batches

A batch runs the steps of a plan one after the other and folds what each step did
back onto the mapping it came from. Before each step of a real run a hook may save
the files that the step looks at. Between steps a batch can be interrupted: the
steps that ran stay, and no further step starts.
-/

namespace SymbolRename

/-- What a hook answers when it is asked to save files: its own new state, the disk
it leaves, whether it interrupts the batch, and what went wrong. -/
structure HookAnswer (σ : Type) where
  state : σ
  disk : Disk
  interrupts : Bool := false
  fault : Option Cause := none
  /-- The paths that cannot be written from now on, if that changed. -/
  unwritable : Option (List Path) := none

/-- Saves the content of some files under a label. -/
abbrev SnapshotHook (σ : Type) := σ → Disk → String → List Path → HookAnswer σ

/-- Commits files with a message; the answer describes the commit or what went wrong. -/
abbrev CommitHook := String → List Path → Except String String

namespace SnapshotHook

/-- Saves nothing. -/
def nothing : SnapshotHook Unit := fun _ d _ _ => { state := (), disk := d }

end SnapshotHook

namespace Batch

/-- What a batch works with. -/
structure Options where
  engine : Engine
  roots : List Path
  dryRun : Bool

/-! ### Planning -/

/-- A character of a temporary name. -/
def isTempChar (c : Char) : Bool := c.isAlphanum || c == '_' || c == '$'

/-- The temporary names in a text; `skip` characters belong to the last one. -/
def tempNamesIn (skip : Nat) : List Char → List String
  | [] => []
  | c :: rest =>
    if 0 < skip then tempNamesIn (skip - 1) rest
    else
      let mark := Plan.tempMark.toList
      if mark.isPrefixOf (c :: rest) then
        let name := mark ++ ((c :: rest).drop mark.length).takeWhile isTempChar
        String.ofList name :: tempNamesIn (name.length - 1) rest
      else tempNamesIn 0 rest

/-- The temporary names in the searched files of a project. -/
def takenNames (filter : Filter) (d : Disk) (roots : List Path) : Except Cause (List String) := do
  let s : Store := { disk := d }
  let files ← Search.candidates s roots filter [Plan.tempMark]
  return files.flatMap fun path =>
    match s.read path with
    | .ok content => tempNamesIn 0 (Utf8.decodeLossy content).toList
    | .error _ => []

/-- The plan of a mapping set in a project. -/
def plan (filter : Filter) (d : Disk) (roots : List Path) (mappings : List Mapping) :
    Except Cause Plan := do
  let taken ← takenNames filter d roots
  (Plan.make mappings taken).mapError .input

/-- What is told when a project was searched for temporary names. -/
def planRemarks (e : Engine) (d : Disk) (roots : List Path) : List String :=
  if !e.remarks.searches then []
  else match Search.candidates { disk := d } roots e.filter [Plan.tempMark] with
    | .ok files => [Search.remark files [Plan.tempMark]]
    | .error _ => []

/-! ### Running -/

/-- A batch that is under way. -/
structure State (σ : Type) where
  store : Store
  hook : σ
  /-- Somebody asked to stop. -/
  interrupt : Bool
  /-- The messages for the log, in order. -/
  log : List String := []
  report : Report
  /-- The files that any step changed. -/
  touched : PathSet := []
  /-- What was told on the way. -/
  remarks : List String := []
  /-- What stopped everything. -/
  stopped : Option Cause := none

namespace State

variable {σ : Type}

/-- One more message for the log. -/
def note (st : State σ) (message : String) : State σ := { st with log := st.log ++ [message] }

/-- A warning, which the log shows under a heading. -/
def warn (st : State σ) (heading warning : String) : State σ :=
  let st := st.note s!"{heading} {warning}"
  { st with report := { st.report with warnings := st.report.warnings ++ [warning] } }

/-- The batch stops early. -/
def halt (st : State σ) : State σ := { st with report := { st.report with interrupted := true } }

end State

/-- A step's number with three digits or more. -/
def paddedNumber (n : Nat) : String :=
  let digits := Nat.toDigits 10 n
  String.ofList (List.replicate (3 - digits.length) '0' ++ digits)

/-- The label under which files are saved before a step. -/
def label (number : Nat) : String := s!"step-{paddedNumber number}"

/-- The scope of every step: the roots, or the current directory without any. -/
def scope (o : Options) : Scope := .project (if o.roots.isEmpty then [⟨"."⟩] else o.roots)

/-- Saves the files that a step of a real run will look at; none if the batch has to
stop, with the state in which it does. -/
def prepare {σ : Type} (o : Options) (hook : SnapshotHook σ) (number : Nat) (step : PlanStep)
    (st : State σ) : Except (State σ) (State σ) :=
  if o.dryRun then .ok st
  else match Rename.candidates o.engine st.store step.old (scope o) with
    | .error cause => .error { st with stopped := some cause }
    | .ok files =>
      let a := hook st.hook st.store.disk (label number) files
      let st := { st with
        hook := a.state
        store := { st.store with
          disk := a.disk, unwritable := a.unwritable.getD st.store.unwritable }
        interrupt := st.interrupt || a.interrupts
        remarks := st.remarks ++ Rename.searchRemarks o.engine step.old files (scope o) }
      match a.fault with
      | none => .ok st
      | some cause =>
        .error (st.warn "ERROR"
          s!"snapshot before step {number} failed, batch stopped: {cause.message}").halt

/-- Adds what a step did to the mapping it came from; the places count for the step
that takes the mapping's old name away. -/
def addToMapping (m : MappingReport) (step : PlanStep) (outcome : Outcome) :
    MappingReport :=
  let files := PathSet.insertAll outcome.filesTouched m.filesTouched
  if step.old = m.old then
    { m with
      changes := m.changes + outcome.changes.length
      locations := m.locations ++ outcome.changes
      filesTouched := files }
  else { m with filesTouched := files }

/-- Adds what a step did to the report. -/
def addOutcome (r : Report) (step : PlanStep) (outcome : Outcome) : Report :=
  { r with
    stepsExecuted := r.stepsExecuted + 1
    mappings := r.mappings.modify step.origin fun m => addToMapping m step outcome
    failures := r.failures ++ outcome.failures.map fun f =>
      { f with mapping := some step.origin } }

/-- Runs one step. -/
def runStep {σ : Type} (o : Options) (number : Nat) (step : PlanStep) (st : State σ) : State σ :=
  let mark := if step.isTemp then " (temp)" else ""
  let st := st.note s!"Step {number}: {step.old} -> {step.new}{mark}"
  let p := Rename.run o.engine st.store step.old step.new (scope o)
  let st := { st with
    store := p.store, log := st.log ++ p.log, remarks := st.remarks ++ p.remarks }
  match p.stopped with
  | some cause => { st with stopped := some cause }
  | none =>
    { st with
      report := addOutcome st.report step p.outcome
      touched := PathSet.insertAll p.outcome.filesTouched st.touched }

/-- Runs the steps from a number on. -/
def runSteps {σ : Type} (o : Options) (hook : SnapshotHook σ) (total : Nat) (number : Nat) :
    State σ → List PlanStep → State σ
  | st, [] => st
  | st, step :: rest =>
    if st.interrupt then (st.note s!"Interrupted before step {number} of {total}").halt
    else match prepare o hook number step st with
      | .error st => st
      | .ok st =>
        let st := runStep o number step st
        if st.stopped.isSome then st else runSteps o hook total (number + 1) st rest

/-- The warning about an ambiguous dependency. -/
def ambiguityWarning (mappings : List Mapping) (a : Ambiguity) : String :=
  let new := (mappings[a.mapping]?.map (·.new)).getD ""
  s!"'{new}' is the old name of mappings {numberList a.candidates}; " ++
    s!"ordered after mapping {a.chosen + 1} only"

/-- The state before the first step. -/
def begin {σ : Type} (o : Options) (mappings : List Mapping) (plan : Plan) (store : Store)
    (hook : σ) (interrupt : Bool) : State σ :=
  let report : Report :=
    { mappings := mappings.map fun m => { old := m.old, new := m.new }
      circularRenames := plan.circularRenames
      dryRun := o.dryRun
      ambiguities := plan.ambiguities }
  let st : State σ := { store, hook, interrupt, report }
  let st := (plan.ambiguities.map (ambiguityWarning mappings)).foldl (·.warn "WARNING" ·) st
  st.note (s!"Batch of {mappings.length} mappings in {plan.steps.length} steps" ++
    if o.dryRun then " (dry run)" else "")

/-- Sums up the report. -/
def total (r : Report) (touched : PathSet) : Report :=
  { r with totalChanges := Count.total (r.mappings.map (·.changes)), totalFiles := touched.length }

/-- The names that no step found and no failure explains. -/
def notFound (r : Report) : List String :=
  (r.mappings.zipIdx.filter fun (m, i) =>
    m.changes == 0 && !r.failures.any (·.mapping == some i)).map fun (m, _) => m.old

/-- The message of the commit of a batch. -/
def commitMessage : List Mapping → String
  | [m] => s!"refactor: rename {m.display}"
  | mappings =>
    s!"refactor: batch rename of {mappings.length} symbols\n" ++
      String.join (mappings.map fun m => s!"\n{m.display}")

/-- The commit that a batch makes: none for a dry run, an early stop or no changes. -/
def commit? {σ : Type} (o : Options) (mappings : List Mapping) (st : State σ) :
    Option (String × List Path) :=
  if o.dryRun || st.report.interrupted || st.report.totalChanges == 0 then none
  else some (commitMessage mappings, st.touched)

/-- Commits, and notes how that went. -/
def commit {σ : Type} (hook : CommitHook) (st : State σ) (message : String)
    (files : List Path) : State σ :=
  match hook message files with
  | .ok description => st.note s!"VCS: {description}"
  | .error fault => st.warn "WARNING" s!"commit failed: {fault}"

/-- Sums up after the last step. -/
def finish {σ : Type} (o : Options) (mappings : List Mapping) (plan : Plan)
    (commitHook : Option CommitHook) (st : State σ) : State σ :=
  let st := { st with report := total st.report st.touched }
  let st :=
    if st.report.interrupted then st
    else (notFound st.report).foldl (fun st old => st.warn "WARNING" s!"'{old}' was not found") st
  let st := match commitHook, commit? o mappings st with
    | some hook, some (message, files) => commit hook st message files
    | _, _ => st
  let ending := if st.report.interrupted then "stopped" else "finished"
  st.note (s!"Batch {ending}: {st.report.totalChanges} changes in {st.report.totalFiles} files, " ++
    s!"{st.report.stepsExecuted} of {plan.steps.length} steps")

/-- Runs a plan in a store. -/
def execute {σ : Type} (o : Options) (hook : SnapshotHook σ) (commitHook : Option CommitHook)
    (mappings : List Mapping) (plan : Plan) (store : Store) (state : σ) (interrupt : Bool) :
    State σ :=
  let st := runSteps o hook plan.steps.length 1 (begin o mappings plan store state interrupt)
    plan.steps
  if st.stopped.isSome then st else finish o mappings plan commitHook st

/-- The store of a run: a dry run keeps its writes in memory. -/
def storeOf (o : Options) (d : Disk) : Store :=
  { disk := d, overlay := if o.dryRun then some [] else none }

/-- Plans a mapping set and runs the plan. -/
def run {σ : Type} (o : Options) (hook : SnapshotHook σ) (commitHook : Option CommitHook)
    (mappings : List Mapping) (d : Disk) (state : σ) (interrupt : Bool) :
    Except Cause (State σ) := do
  let p ← plan o.engine.filter d o.roots mappings
  let st := execute o hook commitHook mappings p (storeOf o d) state interrupt
  return { st with remarks := planRemarks o.engine d o.roots ++ st.remarks }

end Batch

end SymbolRename
