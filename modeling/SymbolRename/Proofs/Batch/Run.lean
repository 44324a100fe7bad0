import SymbolRename.Batch
import SymbolRename.Proofs.Fallible

/-!
# What the steps of a batch do to its state

The state of a batch seen field by field: messages only lengthen the log and the list of
warnings, saving files only concerns the disk and the hook, and one step is one rename
whose outcome is added to the report.
-/

namespace SymbolRename

/-- A plan is made for mappings that rename identifiers to others, and for the names that are
taken. -/
theorem Batch.plan_eq_ok {f : Filter} {d : Disk} {roots : List Path} {mappings : List Mapping}
    {p : Plan} (h : plan f d roots mappings = .ok p) :
    ∃ taken, takenNames f d roots = .ok taken ∧ p = Plan.ofMappings mappings taken ∧
      ∀ m ∈ mappings, m.IsProper := by
  obtain ⟨taken, htaken, hmake⟩ := bind_eq_ok_iff.mp h
  obtain ⟨_, hvalid, hp⟩ := bind_eq_ok_iff.mp (mapError_eq_ok_iff.mp hmake)
  exact ⟨taken, htaken, (Except.ok.inj hp).symm, (Mapping.validate_eq_ok_iff.mp hvalid).2⟩

/-- Where the steps of a batch search: the roots, or the current directory without any. -/
def Batch.stepRoots (o : Options) : List Path := if o.roots.isEmpty then [⟨"."⟩] else o.roots

theorem Batch.scope_eq (o : Options) : scope o = .project (stepRoots o) := rfl

@[simp] theorem Batch.State.note_store {σ : Type} (st : State σ) (message : String) :
    (st.note message).store = st.store := rfl

@[simp] theorem Batch.State.note_hook {σ : Type} (st : State σ) (message : String) :
    (st.note message).hook = st.hook := rfl

@[simp] theorem Batch.State.note_interrupt {σ : Type} (st : State σ) (message : String) :
    (st.note message).interrupt = st.interrupt := rfl

@[simp] theorem Batch.State.note_report {σ : Type} (st : State σ) (message : String) :
    (st.note message).report = st.report := rfl

@[simp] theorem Batch.State.note_touched {σ : Type} (st : State σ) (message : String) :
    (st.note message).touched = st.touched := rfl

@[simp] theorem Batch.State.note_stopped {σ : Type} (st : State σ) (message : String) :
    (st.note message).stopped = st.stopped := rfl

@[simp] theorem Batch.State.warn_store {σ : Type} (st : State σ) (heading warning : String) :
    (st.warn heading warning).store = st.store := rfl

@[simp] theorem Batch.State.warn_hook {σ : Type} (st : State σ) (heading warning : String) :
    (st.warn heading warning).hook = st.hook := rfl

@[simp] theorem Batch.State.warn_interrupt {σ : Type} (st : State σ) (heading warning : String) :
    (st.warn heading warning).interrupt = st.interrupt := rfl

@[simp] theorem Batch.State.warn_report {σ : Type} (st : State σ) (heading warning : String) :
    (st.warn heading warning).report =
      { st.report with warnings := st.report.warnings ++ [warning] } := rfl

@[simp] theorem Batch.State.warn_touched {σ : Type} (st : State σ) (heading warning : String) :
    (st.warn heading warning).touched = st.touched := rfl

@[simp] theorem Batch.State.warn_stopped {σ : Type} (st : State σ) (heading warning : String) :
    (st.warn heading warning).stopped = st.stopped := rfl

/-! ### One step -/

/-- The rename that a step is. -/
def Batch.renameOf {σ : Type} (o : Options) (step : PlanStep) (st : State σ) : Rename.Progress :=
  Rename.run o.engine st.store step.old step.new (scope o)

@[simp] theorem Batch.runStep_store {σ : Type} (o : Options) (number : Nat) (step : PlanStep)
    (st : State σ) : (runStep o number step st).store = (renameOf o step st).store := by
  unfold runStep
  simp only [State.note_store]
  split <;> rfl

@[simp] theorem Batch.runStep_hook {σ : Type} (o : Options) (number : Nat) (step : PlanStep)
    (st : State σ) : (runStep o number step st).hook = st.hook := by
  unfold runStep
  simp only [State.note_store]
  split <;> rfl

@[simp] theorem Batch.runStep_interrupt {σ : Type} (o : Options) (number : Nat) (step : PlanStep)
    (st : State σ) : (runStep o number step st).interrupt = st.interrupt := by
  unfold runStep
  simp only [State.note_store]
  split <;> rfl

@[simp] theorem Batch.runStep_stopped {σ : Type} (o : Options) (number : Nat) (step : PlanStep)
    (st : State σ) :
    (runStep o number step st).stopped = (renameOf o step st).stopped.or st.stopped := by
  unfold runStep renameOf
  simp only [State.note_store]
  split
  · rename_i cause h
    rw [h]
    rfl
  · rename_i h
    rw [h]
    rfl

/-- The outcome of a step is added to the report, unless everything stopped. -/
@[simp] theorem Batch.runStep_report {σ : Type} (o : Options) (number : Nat) (step : PlanStep)
    (st : State σ) :
    (runStep o number step st).report =
      if (renameOf o step st).stopped.isSome then st.report
      else addOutcome st.report step (renameOf o step st).outcome := by
  unfold runStep renameOf
  simp only [State.note_store]
  split
  · rename_i cause h
    rw [h]
    rfl
  · rename_i h
    rw [h]
    rfl

@[simp] theorem Batch.runStep_touched {σ : Type} (o : Options) (number : Nat) (step : PlanStep)
    (st : State σ) :
    (runStep o number step st).touched =
      if (renameOf o step st).stopped.isSome then st.touched
      else PathSet.insertAll (renameOf o step st).outcome.filesTouched st.touched := by
  unfold runStep renameOf
  simp only [State.note_store]
  split
  · rename_i cause h
    rw [h]
    rfl
  · rename_i h
    rw [h]
    rfl

/-! ### Before a step -/

/-- What the hook answers before a step, when the files that the step looks at are known. -/
def Batch.answerOf {σ : Type} (hook : SnapshotHook σ) (number : Nat) (st : State σ)
    (files : List Path) : HookAnswer σ :=
  hook st.hook st.store.disk (label number) files

/-- The state after files were saved. -/
def Batch.State.saved {σ : Type} (st : State σ) (answer : HookAnswer σ) (remarks : List String) :
    State σ :=
  { st with
    hook := answer.state
    store := { st.store with
      disk := answer.disk, unwritable := answer.unwritable.getD st.store.unwritable }
    interrupt := st.interrupt || answer.interrupts
    remarks := remarks }

/-- A dry run saves nothing. -/
theorem Batch.prepare_dry {σ : Type} {o : Options} (ho : o.dryRun = true)
    (hook : SnapshotHook σ) (number : Nat) (step : PlanStep) (st : State σ) :
    prepare o hook number step st = .ok st := by
  unfold prepare
  rw [if_pos ho]

/-- A real run saves the files that the step looks at. -/
theorem Batch.prepare_ok {σ : Type} {o : Options} (ho : o.dryRun = false)
    {hook : SnapshotHook σ} {number : Nat} {step : PlanStep} {st : State σ} {files : List Path}
    (hfiles : Rename.candidates o.engine st.store step.old (scope o) = .ok files)
    (hfault : (answerOf hook number st files).fault = none) :
    prepare o hook number step st = .ok (st.saved (answerOf hook number st files)
      (st.remarks ++ Rename.searchRemarks o.engine step.old files (scope o))) := by
  unfold answerOf at hfault
  unfold prepare
  simp only [ho, Bool.false_eq_true, if_false, hfiles, hfault]
  rfl

/-! ### The whole run -/

/-- The state with another log and other warnings. -/
def Batch.State.telling {σ : Type} (st : State σ) (log warnings : List String) : State σ :=
  { st with log := log, report := { st.report with warnings := warnings } }

theorem Batch.State.exists_telling {σ : Type} (st : State σ) (heading : String)
    (warnings : List String) :
    ∃ log told, warnings.foldl (State.warn · heading ·) st = st.telling log told := by
  induction warnings generalizing st with
  | nil => exact ⟨st.log, st.report.warnings, rfl⟩
  | cons warning rest ih =>
    obtain ⟨log, told, h⟩ := ih (st.warn heading warning)
    exact ⟨log, told, h⟩

/-- Before the first step nothing has been done, whatever is told. -/
theorem Batch.exists_begin {σ : Type} (o : Options) (mappings : List Mapping) (p : Plan)
    (store : Store) (hook : σ) (interrupt : Bool) :
    ∃ log told, begin o mappings p store hook interrupt = State.telling
      { store, hook, interrupt
        report :=
          { mappings := mappings.map fun m => { old := m.old, new := m.new }
            circularRenames := p.circularRenames
            dryRun := o.dryRun
            ambiguities := p.ambiguities } } log told := by
  obtain ⟨log, told, h⟩ := State.exists_telling
    { store, hook, interrupt
      report :=
        { mappings := mappings.map fun m => { old := m.old, new := m.new }
          circularRenames := p.circularRenames
          dryRun := o.dryRun
          ambiguities := p.ambiguities } } "WARNING" (p.ambiguities.map (ambiguityWarning mappings))
  unfold begin
  simp only [h]
  exact ⟨_, told, rfl⟩

/-- How a commit went is told. -/
theorem Batch.exists_commit {σ : Type} (hook : CommitHook) (st : State σ) (message : String)
    (files : List Path) : ∃ log told, commit hook st message files = st.telling log told := by
  unfold commit
  cases hook message files with
  | ok description => exact ⟨_, st.report.warnings, rfl⟩
  | error fault => exact ⟨_, st.report.warnings ++ [s!"commit failed: {fault}"], rfl⟩

/-- Summing up only tells. -/
theorem Batch.exists_finish {σ : Type} (o : Options) (mappings : List Mapping) (p : Plan)
    (commitHook : Option CommitHook) (st : State σ) :
    ∃ log told, finish o mappings p commitHook st =
      State.telling { st with report := total st.report st.touched } log told := by
  have hwarned : ∃ log told, (if (total st.report st.touched).interrupted = true then
        { st with report := total st.report st.touched }
      else (notFound (total st.report st.touched)).foldl
        (fun st old => st.warn "WARNING" s!"'{old}' was not found")
        { st with report := total st.report st.touched }) =
      State.telling { st with report := total st.report st.touched } log told := by
    split
    · exact ⟨st.log, st.report.warnings, rfl⟩
    · have hwarnings := State.exists_telling { st with report := total st.report st.touched }
        "WARNING" ((notFound (total st.report st.touched)).map fun old => s!"'{old}' was not found")
      simpa only [List.foldl_map] using hwarnings
  obtain ⟨log, told, h⟩ := hwarned
  unfold finish
  simp only [h]
  cases commitHook with
  | none => exact ⟨_, told, rfl⟩
  | some hook =>
    cases commit? o mappings (State.telling { st with report := total st.report st.touched } log
      told) with
    | none => exact ⟨_, told, rfl⟩
    | some committed =>
      obtain ⟨log', told', h'⟩ := exists_commit hook (State.telling
        { st with report := total st.report st.touched } log told) committed.1 committed.2
      simp only [h']
      exact ⟨_, told', rfl⟩

/-- The commit hook of a run is only told about. -/
theorem Batch.exists_execute {σ : Type} (o : Options) (hook : SnapshotHook σ)
    (commitHook : Option CommitHook) (mappings : List Mapping) (p : Plan) (store : Store)
    (state : σ) (interrupt : Bool) :
    ∃ log told, execute o hook commitHook mappings p store state interrupt =
      (execute o hook none mappings p store state interrupt).telling log told := by
  unfold execute
  generalize runSteps o hook p.steps.length 1 (begin o mappings p store state interrupt)
    p.steps = st
  dsimp only
  split
  · exact ⟨st.log, st.report.warnings, rfl⟩
  · obtain ⟨log, told, h⟩ := exists_finish o mappings p commitHook st
    obtain ⟨_, _, h'⟩ := exists_finish o mappings p none st
    refine ⟨log, told, ?_⟩
    rw [h, h']
    rfl

/-- A run is the run of its plan. -/
theorem Batch.run_of_plan {σ : Type} {o : Options} {hook : SnapshotHook σ}
    {commitHook : Option CommitHook} {mappings : List Mapping} {d : Disk} {state : σ}
    {interrupt : Bool} {p : Plan} (h : plan o.engine.filter d o.roots mappings = .ok p) :
    run o hook commitHook mappings d state interrupt = .ok
      { execute o hook commitHook mappings p (storeOf o d) state interrupt with
        remarks := planRemarks o.engine d o.roots ++
          (execute o hook commitHook mappings p (storeOf o d) state interrupt).remarks } := by
  unfold run
  rw [h]
  rfl

end SymbolRename
