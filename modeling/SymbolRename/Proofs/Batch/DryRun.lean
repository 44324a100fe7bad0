import Mathlib
import SymbolRename.Proofs.Batch.Run
import SymbolRename.Proofs.Rename.Mirror

/-!
# A dry run tells what a real run does

A dry run of a batch reports what the real run reports, and its overlay shows what the
real run leaves on the disk, which the dry run does not touch. The two runs are taken step
by step through stores that mirror each other; what may disturb the real run, the hook
that saves files and refused writes, is read off its `Batch.events`.
-/

namespace SymbolRename

/-- What can disturb a run from outside: a call of the hook that saves files, with the disk
it was given, and a file that a step could not process. -/
inductive Batch.Event (σ : Type)
  | saved (before : Disk) (answer : HookAnswer σ)
  | failed (fault : Rename.FileFault)

/-- The call of the hook before a step, if there is one. -/
def Batch.saves {σ : Type} (o : Options) (hook : SnapshotHook σ) (number : Nat)
    (step : PlanStep) (st : State σ) : List (Event σ) :=
  if o.dryRun then []
  else match Rename.candidates o.engine st.store step.old (scope o) with
    | .error _ => []
    | .ok files => [.saved st.store.disk (answerOf hook number st files)]

/-- What happens while steps are run, in order. -/
def Batch.events {σ : Type} (o : Options) (hook : SnapshotHook σ) (number : Nat) :
    State σ → List PlanStep → List (Event σ)
  | _, [] => []
  | st, step :: rest =>
    if st.interrupt then []
    else saves o hook number step st ++
      match prepare o hook number step st with
      | .error _ => []
      | .ok st =>
        (Rename.faults o.engine st.store step.old step.new (scope o)).map .failed ++
          if (runStep o number step st).stopped.isSome then []
          else events o hook (number + 1) (runStep o number step st) rest

/-- What happens during a whole run. -/
def Batch.runEvents {σ : Type} (o : Options) (hook : SnapshotHook σ) (mappings : List Mapping)
    (d : Disk) (state : σ) : List (Event σ) :=
  match plan o.engine.filter d o.roots mappings with
  | .error _ => []
  | .ok p => events o hook 1 (begin o mappings p (storeOf o d) state false) p.steps

/-- The hook saved all it was asked to and lets the batch go on, or the failure is not
that of a write. -/
def Batch.Event.Succeeds {σ : Type} : Event σ → Prop
  | .saved _ answer => answer.fault = none ∧ answer.interrupts = false
  | .failed fault => fault.isRefusal = false

/-- The hook left what a path leads to as it was. -/
def Batch.Event.Keeps {σ : Type} (path : Path) : Event σ → Prop
  | .saved before answer => answer.disk.open? path = before.open? path
  | .failed _ => True

/-- The hook left what is searched as it was, with nothing in the way of scratch files. -/
def Batch.Event.LeavesSearch {σ : Type} (f : Filter) (roots files : List Path) : Event σ → Prop
  | .saved _ answer => Search.files f roots answer.disk = .ok files ∧
      ∀ path ∈ files, answer.disk.ScratchFree path
  | .failed _ => True

/-- The event succeeds and touches neither the files that are searched nor the places of
their scratch files. -/
structure Batch.Event.IsQuiet {σ : Type} (f : Filter) (roots files : List Path)
    (event : Event σ) : Prop where
  succeeds : event.Succeeds
  keeps : ∀ path ∈ files, event.Keeps path
  leaves : event.LeavesSearch f roots files

instance {σ : Type} (event : Batch.Event σ) : Decidable event.Succeeds := by
  cases event <;> unfold Batch.Event.Succeeds <;> infer_instance

instance {σ : Type} (path : Path) (event : Batch.Event σ) : Decidable (event.Keeps path) := by
  cases event <;> unfold Batch.Event.Keeps <;> infer_instance

instance {σ : Type} (f : Filter) (roots files : List Path) (event : Batch.Event σ) :
    Decidable (event.LeavesSearch f roots files) := by
  cases event <;> unfold Batch.Event.LeavesSearch <;> infer_instance

instance {σ : Type} (f : Filter) (roots files : List Path) (event : Batch.Event σ) :
    Decidable (event.IsQuiet f roots files) :=
  decidable_of_iff (event.Succeeds ∧ (∀ path ∈ files, event.Keeps path) ∧
    event.LeavesSearch f roots files) ⟨fun ⟨h, h', h''⟩ => ⟨h, h', h''⟩,
    fun ⟨h, h', h''⟩ => ⟨h, h', h''⟩⟩

/-- A real run and a dry run that have done the same so far. -/
structure Batch.State.Mirrors {σ : Type} (f : Filter) (roots : List Path) (d : Disk)
    (files : List Path) (watched : Path → Prop) (state : σ) (real dry : State σ) : Prop where
  store : real.store.Mirrors f roots d files watched dry.store
  hook : dry.hook = state
  running : real.interrupt = false
  dryRunning : dry.interrupt = false
  report : dry.report = { real.report with dryRun := true }
  touched : dry.touched = real.touched
  stopped : dry.stopped = real.stopped

theorem Batch.State.Mirrors.note {σ : Type} {f : Filter} {roots : List Path} {d : Disk}
    {files : List Path} {watched : Path → Prop} {state : σ} {real dry : State σ}
    (h : Mirrors f roots d files watched state real dry) (message message' : String) :
    Mirrors f roots d files watched state (real.note message) (dry.note message') :=
  ⟨h.store, h.hook, h.running, h.dryRunning, h.report, h.touched, h.stopped⟩

theorem Batch.State.Mirrors.warn {σ : Type} {f : Filter} {roots : List Path} {d : Disk}
    {files : List Path} {watched : Path → Prop} {state : σ} {real dry : State σ}
    (h : Mirrors f roots d files watched state real dry) (heading warning : String) :
    Mirrors f roots d files watched state (real.warn heading warning)
      (dry.warn heading warning) := by
  refine ⟨h.store, h.hook, h.running, h.dryRunning, ?_, h.touched, h.stopped⟩
  simp only [State.warn, State.note, h.report]

theorem Batch.State.Mirrors.warnings {σ : Type} {f : Filter} {roots : List Path} {d : Disk}
    {files : List Path} {watched : Path → Prop} {state : σ} {real dry : State σ}
    (h : Mirrors f roots d files watched state real dry) (heading : String)
    (warnings : List String) :
    Mirrors f roots d files watched state (warnings.foldl (State.warn · heading ·) real)
      (warnings.foldl (State.warn · heading ·) dry) := by
  induction warnings generalizing real dry with
  | nil => exact h
  | cons warning rest ih => exact ih (h.warn heading warning)

/-- Saving files keeps the runs alike when it is quiet; the dry run saves nothing. -/
theorem Batch.State.Mirrors.saved {σ : Type} {f : Filter} {roots : List Path} {d : Disk}
    {files : List Path} {watched : Path → Prop} {state : σ} {real dry : State σ}
    (h : Mirrors f roots d files watched state real dry) (answer : HookAnswer σ)
    (hquiet : (Event.saved real.store.disk answer).IsQuiet f roots files)
    (hkeeps : ∀ path, watched path → (Event.saved real.store.disk answer).Keeps path)
    (remarks : List String) :
    Mirrors f roots d files watched state (real.saved answer remarks) dry := by
  obtain ⟨⟨_, hinterrupts⟩, _, hlooks, hfiles⟩ := hquiet
  obtain ⟨o, ho, hshows⟩ := h.store.shows
  refine ⟨⟨h.store.plain, h.store.readable, h.store.base, h.store.dryReadable,
    h.store.dryWritable, ⟨o, ho, fun path hpath => ?_⟩, hlooks, hfiles⟩, h.hook, ?_, h.dryRunning, h.report, h.touched, h.stopped⟩
  · have hsame : answer.disk.open? path = real.store.disk.open? path := hkeeps path hpath
    have hshow := hshows path hpath
    unfold Overlay.Shows at hshow ⊢
    simp only [State.saved, hsame]
    exact hshow
  · simp only [State.saved, h.running, hinterrupts, Bool.or_false]

/-- One step does the same in both runs. -/
theorem Batch.State.Mirrors.runStep {σ : Type} {o : Options} {d : Disk} {files : List Path}
    {watched : Path → Prop} {state : σ} {real dry : State σ}
    (h : Mirrors o.engine.filter (stepRoots o) d files watched state real dry)
    (hlooks : Search.files o.engine.filter (stepRoots o) d = .ok files)
    (hset : Store.Setting o.engine.filter d files watched)
    (hsource : o.engine.source.IgnoresDisk) (number : Nat) (step : PlanStep)
    (hwrites : ∀ fault ∈ Rename.faults o.engine real.store step.old step.new (scope o),
      fault.isRefusal = false) :
    Mirrors o.engine.filter (stepRoots o) d files watched state
      (Batch.runStep { o with dryRun := false } number step real)
      (Batch.runStep { o with dryRun := true } number step dry) := by
  have hrun : Rename.Progress.Mirrors o.engine.filter (stepRoots o) d files watched
      (renameOf { o with dryRun := false } step real)
      (renameOf { o with dryRun := true } step dry) :=
    Rename.run_mirrors h.store hlooks hset hsource step.old step.new hwrites
  refine ⟨?_, ?_, ?_, ?_, ?_, ?_, ?_⟩
  · simpa using hrun.store
  · simpa using h.hook
  · simpa using h.running
  · simpa using h.dryRunning
  · rw [runStep_report, runStep_report, hrun.stopped, hrun.outcome, h.report]
    split <;> rfl
  · rw [runStep_touched, runStep_touched, hrun.stopped, hrun.outcome, h.touched]
  · rw [runStep_stopped, runStep_stopped, hrun.stopped, h.stopped]

/-- Running the steps keeps the runs alike; the induction is on the steps that are left. -/
theorem Batch.State.Mirrors.runSteps {σ : Type} {o : Options} {d : Disk} {files : List Path}
    {watched : Path → Prop} {state : σ} {real dry : State σ}
    (h : Mirrors o.engine.filter (stepRoots o) d files watched state real dry)
    (hlooks : Search.files o.engine.filter (stepRoots o) d = .ok files)
    (hset : Store.Setting o.engine.filter d files watched)
    (hsource : o.engine.source.IgnoresDisk) (hook hook' : SnapshotHook σ) (total number : Nat)
    {steps : List PlanStep}
    (hquiet : ∀ event ∈ events { o with dryRun := false } hook number real steps,
      event.IsQuiet o.engine.filter (stepRoots o) files)
    (hkeeps : ∀ event ∈ events { o with dryRun := false } hook number real steps,
      ∀ path, watched path → event.Keeps path) :
    Mirrors o.engine.filter (stepRoots o) d files watched state
      (Batch.runSteps { o with dryRun := false } hook total number real steps)
      (Batch.runSteps { o with dryRun := true } hook' total number dry steps) := by
  induction steps generalizing number real dry with
  | nil => exact h
  | cons step rest ih =>
    obtain ⟨found, hfound, _, _⟩ := h.store.candidates hlooks hset [step.old]
    have hcandidates : Rename.candidates o.engine real.store step.old
        (scope { o with dryRun := false }) = .ok found := hfound
    have hsaves : saves { o with dryRun := false } hook number step real =
        [.saved real.store.disk (answerOf hook number real found)] := by
      simp [saves, hcandidates]
    simp only [events, h.running, Bool.false_eq_true, if_false, hsaves] at hquiet hkeeps
    have hcall := hquiet _ (List.mem_append_left _ (List.mem_singleton.mpr rfl))
    have hcall' := hkeeps _ (List.mem_append_left _ (List.mem_singleton.mpr rfl))
    have hprepare := prepare_ok (o := { o with dryRun := false }) rfl hcandidates hcall.succeeds.1
    have hsaved := h.saved _ hcall hcall' (real.remarks ++ Rename.searchRemarks o.engine step.old
      found (scope { o with dryRun := false }))
    simp only [Batch.runSteps, h.running, h.dryRunning, Bool.false_eq_true, if_false, hprepare,
      prepare_dry (o := { o with dryRun := true }) rfl] at hquiet hkeeps ⊢
    generalize real.saved (answerOf hook number real found) (real.remarks ++
      Rename.searchRemarks o.engine step.old found (scope { o with dryRun := false })) = next
      at hsaved hquiet hkeeps ⊢
    have hstep := hsaved.runStep hlooks hset hsource number step fun fault hfault =>
      (hquiet (.failed fault) (List.mem_append_right _ (List.mem_append_left _
        (List.mem_map.mpr ⟨fault, hfault, rfl⟩)))).succeeds
    rw [hstep.stopped]
    cases hstopped : (Batch.runStep { o with dryRun := false } number step next).stopped with
    | some cause =>
      simp only [Option.isSome_some, if_true]
      exact hstep
    | none =>
      simp only [hstopped, Option.isSome_none, Bool.false_eq_true, if_false] at hquiet hkeeps ⊢
      refine ih hstep (number + 1) (fun event hevent => hquiet event ?_)
        fun event hevent => hkeeps event ?_
      · exact List.mem_append_right _ (List.mem_append_right _ hevent)
      · exact List.mem_append_right _ (List.mem_append_right _ hevent)

/-- Both runs begin alike. -/
theorem Batch.State.Mirrors.begin {σ : Type} {o : Options} {d : Disk} {files : List Path}
    (watched : Path → Prop) (hlooks : Search.files o.engine.filter (stepRoots o) d = .ok files)
    (hfree : ∀ path ∈ files, d.ScratchFree path) (mappings : List Mapping) (p : Plan)
    (state : σ) :
    Mirrors o.engine.filter (stepRoots o) d files watched state
      (Batch.begin { o with dryRun := false } mappings p (storeOf { o with dryRun := false } d)
        state false)
      (Batch.begin { o with dryRun := true } mappings p (storeOf { o with dryRun := true } d)
        state false) := by
  unfold Batch.begin
  refine .note (.warnings ?_ _ _) _ _
  exact ⟨Store.Mirrors.start watched hlooks hfree, rfl, rfl, rfl, rfl, rfl, rfl⟩

/-- Summing up keeps the runs alike: without a commit hook in the real run, neither
commits. -/
theorem Batch.State.Mirrors.finish {σ : Type} {o : Options} {f : Filter} {roots : List Path}
    {d : Disk} {files : List Path} {watched : Path → Prop} {state : σ} {real dry : State σ}
    (h : Mirrors f roots d files watched state real dry) (mappings : List Mapping) (p : Plan)
    (commitHook : Option CommitHook) :
    Mirrors f roots d files watched state
      (Batch.finish { o with dryRun := false } mappings p none real)
      (Batch.finish { o with dryRun := true } mappings p commitHook dry) := by
  have htotal : Mirrors f roots d files watched state
      { real with report := total real.report real.touched }
      { dry with report := total dry.report dry.touched } := by
    refine ⟨h.store, h.hook, h.running, h.dryRunning, ?_, h.touched, h.stopped⟩
    simp only [total, h.report, h.touched]
  have hfound : notFound (total dry.report dry.touched) =
      notFound (total real.report real.touched) := by
    simp only [total, h.report, notFound]
  have hinterrupted : (total dry.report dry.touched).interrupted =
      (total real.report real.touched).interrupted := by
    simp only [total, h.report]
  have hwarned : Mirrors f roots d files watched state
      (if (total real.report real.touched).interrupted = true then
        { real with report := total real.report real.touched }
      else (notFound (total real.report real.touched)).foldl
        (fun st old => st.warn "WARNING" s!"'{old}' was not found")
        { real with report := total real.report real.touched })
      (if (total dry.report dry.touched).interrupted = true then
        { dry with report := total dry.report dry.touched }
      else (notFound (total dry.report dry.touched)).foldl
        (fun st old => st.warn "WARNING" s!"'{old}' was not found")
        { dry with report := total dry.report dry.touched }) := by
    rw [hfound, hinterrupted]
    split
    · exact htotal
    · have hwarnings := htotal.warnings "WARNING"
        ((notFound (total real.report real.touched)).map fun old => s!"'{old}' was not found")
      simpa only [List.foldl_map] using hwarnings
  unfold Batch.finish
  cases commitHook with
  | none => exact hwarned.note _ _
  | some commit =>
    have hnone : ∀ st : State σ, commit? { o with dryRun := true } mappings st = none := by
      intro st
      simp [commit?]
    simp only [hnone]
    exact hwarned.note _ _

/-- The steps of a dry run call no hook. -/
theorem Batch.runSteps_dry {σ : Type} {o : Options} (ho : o.dryRun = true)
    (hook hook' : SnapshotHook σ) (total number : Nat) (st : State σ) (steps : List PlanStep) :
    runSteps o hook total number st steps = runSteps o hook' total number st steps := by
  induction steps generalizing number st with
  | nil => rfl
  | cons step rest ih => simp only [runSteps, prepare_dry ho, ih]

/-- A dry run makes no commit. -/
theorem Batch.finish_dry {σ : Type} {o : Options} (ho : o.dryRun = true)
    (mappings : List Mapping) (p : Plan) (commitHook commitHook' : Option CommitHook)
    (st : State σ) : finish o mappings p commitHook st = finish o mappings p commitHook' st := by
  have hnone : ∀ st : State σ, commit? o mappings st = none := by
    intro st
    simp [commit?, ho]
  unfold finish
  simp only [hnone]

/-- A dry run calls no hook at all. -/
theorem Batch.run_dry {σ : Type} {o : Options} (ho : o.dryRun = true)
    (hook hook' : SnapshotHook σ) (commitHook commitHook' : Option CommitHook)
    (mappings : List Mapping) (d : Disk) (state : σ) (interrupt : Bool) :
    run o hook commitHook mappings d state interrupt =
      run o hook' commitHook' mappings d state interrupt := by
  unfold run execute
  simp only [runSteps_dry ho hook hook', finish_dry ho mappings _ commitHook commitHook']

/-- The runs of one plan are alike at their ends. -/
theorem Batch.execute_mirrors {σ : Type} {o : Options} {d : Disk} {files : List Path}
    {watched : Path → Prop} (hlooks : Search.files o.engine.filter (stepRoots o) d = .ok files)
    (hset : Store.Setting o.engine.filter d files watched)
    (hfree : ∀ path ∈ files, d.ScratchFree path) (hsource : o.engine.source.IgnoresDisk)
    (hook hook' : SnapshotHook σ) (commitHook : Option CommitHook) (mappings : List Mapping)
    (p : Plan) (state : σ)
    (hquiet : ∀ event ∈ events { o with dryRun := false } hook 1
        (begin { o with dryRun := false } mappings p (storeOf { o with dryRun := false } d)
          state false) p.steps,
      event.IsQuiet o.engine.filter (stepRoots o) files)
    (hkeeps : ∀ event ∈ events { o with dryRun := false } hook 1
        (begin { o with dryRun := false } mappings p (storeOf { o with dryRun := false } d)
          state false) p.steps,
      ∀ path, watched path → event.Keeps path) :
    State.Mirrors o.engine.filter (stepRoots o) d files watched state
      (execute { o with dryRun := false } hook none mappings p
        (storeOf { o with dryRun := false } d) state false)
      (execute { o with dryRun := true } hook' commitHook mappings p
        (storeOf { o with dryRun := true } d) state false) := by
  have hsteps := (State.Mirrors.begin watched hlooks hfree mappings p state).runSteps hlooks hset
    hsource hook hook' p.steps.length 1 hquiet hkeeps
  unfold execute
  simp only [hsteps.stopped]
  split
  · exact hsteps
  · exact hsteps.finish mappings p commitHook

/-- The files that the steps of a batch look at. -/
def Batch.files (o : Options) (d : Disk) : List Path :=
  (Search.files o.engine.filter (stepRoots o) d).toOption.getD []

/-- A batch that can be planned looks at files. -/
theorem Batch.files_of_plan {o : Options} {d : Disk} {mappings : List Mapping} {p : Plan}
    (h : plan o.engine.filter d o.roots mappings = .ok p) :
    Search.files o.engine.filter (stepRoots o) d = .ok (files o d) := by
  obtain ⟨taken, htaken, _⟩ := bind_eq_ok_iff.mp h
  obtain ⟨found, hfound, _⟩ := bind_eq_ok_iff.mp htaken
  obtain ⟨files, hfiles⟩ := Search.exists_files_of_candidates hfound rfl (stepRoots o) d
  unfold Batch.files
  rw [hfiles]
  rfl

/-- Planning comes before anything that tells the two kinds of run apart. -/
theorem Batch.run_of_plan_error {σ : Type} {o : Options} {mappings : List Mapping} {d : Disk}
    {cause : Cause} (h : plan o.engine.filter d o.roots mappings = .error cause)
    (hook : SnapshotHook σ) (commitHook : Option CommitHook) (state : σ) (interrupt : Bool) :
    run o hook commitHook mappings d state interrupt = .error cause := by
  unfold run
  rw [h]
  rfl

/-- What happens during the run of a plan. -/
theorem Batch.runEvents_of_plan {σ : Type} {o : Options} {d : Disk} {mappings : List Mapping}
    {p : Plan} (h : plan o.engine.filter d o.roots mappings = .ok p) (hook : SnapshotHook σ)
    (state : σ) :
    runEvents o hook mappings d state =
      events o hook 1 (begin o mappings p (storeOf o d) state false) p.steps := by
  unfold runEvents
  simp only [h]

/-- A quiet real run and the dry run are alike for every path that is spelled one way and
kept by the hook. -/
theorem Batch.runs_mirror {σ : Type} {o : Options} {hook : SnapshotHook σ}
    {mappings : List Mapping} {d : Disk} {state : σ} {p : Plan}
    (hplan : plan o.engine.filter d o.roots mappings = .ok p)
    (hsource : o.engine.source.IgnoresDisk)
    (hspelled : ∀ path ∈ files o d, d.SpelledOnce (files o d) path)
    (hplain : ∀ path ∈ files o d, ∀ p ∈ d.place? path,
      ¬ Ignore.IsRules o.engine.filter.level p)
    (hfree : ∀ path ∈ files o d, d.ScratchFree path)
    (hquiet : ∀ event ∈ runEvents { o with dryRun := false } hook mappings d state,
      event.IsQuiet o.engine.filter (stepRoots o) (files o d)) (watched : Path → Prop)
    (hfiles : ∀ path ∈ files o d, watched path)
    (hwatched : ∀ path, watched path → path ∈ files o d ∨ d.SpelledOnce (files o d) path ∧
      ∀ event ∈ runEvents { o with dryRun := false } hook mappings d state, event.Keeps path) :
    State.Mirrors o.engine.filter (stepRoots o) d (files o d) watched state
      (execute { o with dryRun := false } hook none mappings p
        (storeOf { o with dryRun := false } d) state false)
      (execute { o with dryRun := true } hook none mappings p
        (storeOf { o with dryRun := true } d) state false) := by
  rw [runEvents_of_plan (o := { o with dryRun := false }) hplan] at hquiet hwatched
  refine execute_mirrors (files_of_plan hplan) ⟨hfiles, fun path hpath => ?_, hplain⟩ hfree
    hsource hook hook none mappings p state hquiet fun event hevent path hpath => ?_
  · rcases hwatched path hpath with hmem | hother
    · exact hspelled path hmem
    · exact hother.1
  · rcases hwatched path hpath with hmem | hother
    · exact (hquiet _ hevent).keeps path hmem
    · exact hother.2 event hevent

/-- A dry run tells what the real run does. When the hook of the real run saves all it is
asked to and leaves the searched files alone, no write is refused, no commit is made, and
nothing stands at the scratch place of a searched file, then both runs fail for one cause,
or the dry run has the same report but for its mark, whatever its hooks are; its overlay
shows for every path that is spelled one way what the real run leaves on the disk; and it
touches neither the disk nor the hook. -/
theorem Batch.dry_run_tells {σ : Type} (o : Options) (hook : SnapshotHook σ)
    (mappings : List Mapping) (d : Disk) (state : σ)
    (hsource : o.engine.source.IgnoresDisk)
    (hspelled : ∀ path ∈ files o d, d.SpelledOnce (files o d) path)
    (hplain : ∀ path ∈ files o d, ∀ p ∈ d.place? path,
      ¬ Ignore.IsRules o.engine.filter.level p)
    (hfree : ∀ path ∈ files o d, d.ScratchFree path)
    (hquiet : ∀ event ∈ runEvents { o with dryRun := false } hook mappings d state,
      event.IsQuiet o.engine.filter (stepRoots o) (files o d)) :
    (∃ cause, run { o with dryRun := false } hook none mappings d state false = .error cause ∧
      ∀ hook' commitHook,
        run { o with dryRun := true } hook' commitHook mappings d state false = .error cause) ∨
    ∃ real dry, run { o with dryRun := false } hook none mappings d state false = .ok real ∧
      (∀ hook' commitHook,
        run { o with dryRun := true } hook' commitHook mappings d state false = .ok dry) ∧
      dry.report = { real.report with dryRun := true } ∧ dry.stopped = real.stopped ∧
      dry.hook = state ∧ dry.store.disk = d ∧
      ∀ path, d.SpelledOnce (files o d) path →
        (∀ event ∈ runEvents { o with dryRun := false } hook mappings d state,
          event.Keeps path) →
        dry.store.read path = Store.readDisk real.store.disk path := by
  cases hplan : plan o.engine.filter d o.roots mappings with
  | error cause =>
    exact .inl ⟨cause, run_of_plan_error (o := { o with dryRun := false }) hplan _ _ _ _,
      fun _ _ => run_of_plan_error (o := { o with dryRun := true }) hplan _ _ _ _⟩
  | ok p =>
  refine .inr ?_
  have hmirrors := runs_mirror hplan hsource hspelled hplain hfree hquiet
  have hall := hmirrors (· ∈ files o d) (fun _ h => h) fun _ h => .inl h
  refine ⟨_, _, run_of_plan (o := { o with dryRun := false }) hplan, fun hook' commitHook =>
    (run_dry (o := { o with dryRun := true }) rfl hook' hook commitHook none mappings d state
      false).trans (run_of_plan (o := { o with dryRun := true }) hplan),
    hall.report, hall.stopped, hall.hook, hall.store.base, fun path honce hkeeps => ?_⟩
  have hpath := hmirrors (fun q => q ∈ files o d ∨ q = path) (fun _ h => .inl h) ?_
  · exact (hpath.store.read (.inr rfl)).trans hpath.store.read_disk
  · rintro q (hmem | rfl)
    · exact .inl hmem
    · exact .inr ⟨honce, hkeeps⟩

/-- A disk with one project file, and others. -/
def Batch.diskWith (others : List (Place × Node)) : Disk :=
  { here := [], process := 7, nodes := (["a.js"], .file (bytes "foo") 420) :: others }

/-- A batch that searches this file. -/
def Batch.oneFile : Options :=
  { engine := { source := Source.lexical, filter := { level := 3 } }
    roots := [⟨"a.js"⟩], dryRun := false }

theorem Batch.dry_run_tells_one_file :
    ∃ dry, run { oneFile with dryRun := true } SnapshotHook.nothing none [⟨"foo", "bar"⟩]
        (diskWith []) () false = .ok dry ∧
      dry.store.disk = diskWith [] ∧ dry.store.read ⟨"a.js"⟩ = .ok (bytes "bar") := by
  have hreads : (run oneFile SnapshotHook.nothing none [⟨"foo", "bar"⟩]
      (diskWith []) () false).toOption.map (fun st => Store.readDisk st.store.disk ⟨"a.js"⟩) =
      some (.ok (bytes "bar")) := by decide +kernel
  rcases dry_run_tells oneFile SnapshotHook.nothing [⟨"foo", "bar"⟩] (diskWith []) ()
    Source.lexical_ignoresDisk (by decide +kernel) (by decide +kernel) (by decide +kernel)
    (by decide +kernel) with ⟨cause, hreal, _⟩ | ⟨real, dry, hreal, hdry, _, _, _, hdisk, hread⟩
  · rw [show oneFile = { oneFile with dryRun := false } from rfl, hreal] at hreads
    cases hreads
  · refine ⟨dry, hdry _ _, hdisk, ?_⟩
    rw [hread ⟨"a.js"⟩ (by decide +kernel) (by decide +kernel)]
    rw [show oneFile = { oneFile with dryRun := false } from rfl, hreal] at hreads
    exact Option.some.inj hreads

/-- A file at the scratch place of a searched file is lost in the real run, although no
hook and no write disturbs it, and stays in the dry run. -/
theorem Batch.dry_run_misses_scratch_file :
    ∃ d : Disk, ∃ scratch : Path,
      (∀ path ∈ files oneFile d, d.SpelledOnce (files oneFile d) path) ∧
      (∀ path ∈ files oneFile d, ∀ p ∈ d.place? path,
        ¬ Ignore.IsRules oneFile.engine.filter.level p) ∧
      d.SpelledOnce (files oneFile d) scratch ∧
      (∀ event ∈ runEvents oneFile SnapshotHook.nothing [⟨"foo", "bar"⟩] d (),
        event.Keeps ⟨"a.js"⟩ ∧ event.Keeps scratch ∧ event.Succeeds) ∧
      ∃ real dry, run oneFile SnapshotHook.nothing none [⟨"foo", "bar"⟩] d () false = .ok real ∧
        run { oneFile with dryRun := true } SnapshotHook.nothing none [⟨"foo", "bar"⟩] d ()
          false = .ok dry ∧
        dry.store.read scratch = .ok (bytes "kept") ∧
        Store.readDisk real.store.disk scratch = .error .missing := by
  have hreal : (run oneFile SnapshotHook.nothing none [⟨"foo", "bar"⟩]
      (diskWith [(["a.7.refactor.tmp"], .file (bytes "kept") 420)]) () false).toOption.map
      (fun st => Store.readDisk st.store.disk ⟨"a.7.refactor.tmp"⟩) =
      some (.error .missing) := by decide +kernel
  have hdry : (run { oneFile with dryRun := true } SnapshotHook.nothing none [⟨"foo", "bar"⟩]
      (diskWith [(["a.7.refactor.tmp"], .file (bytes "kept") 420)]) () false).toOption.map
      (fun st => st.store.read ⟨"a.7.refactor.tmp"⟩) =
      some (.ok (bytes "kept")) := by decide +kernel
  obtain ⟨real, hrun, hgone⟩ := Option.map_eq_some_iff.mp hreal
  obtain ⟨dry, hrun', hkept⟩ := Option.map_eq_some_iff.mp hdry
  exact ⟨diskWith [(["a.7.refactor.tmp"], .file (bytes "kept") 420)], ⟨"a.7.refactor.tmp"⟩,
    by decide +kernel, by decide +kernel, by decide +kernel, by decide +kernel,
    real, dry, toOption_eq_some_iff.mp hrun, toOption_eq_some_iff.mp hrun', hkept, hgone⟩

end SymbolRename
