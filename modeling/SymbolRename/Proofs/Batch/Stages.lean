import SymbolRename.Proofs.Batch.Run
import SymbolRename.Proofs.Rename.Visits

/-!
# The stages of a batch

A batch is seen as the list of steps that were started, each with the state it was started
in. What every step preserves is preserved by the run, and what is said about the files that
a run looks at is said about its stages. The interrupt flag can be set by somebody outside at
any time; a run under a signal looks at one before each step.
-/

namespace SymbolRename.Batch

/-- Whether somebody outside has asked to stop before the step of each number. -/
abbrev Signal := Nat → Bool

/-- The state when it is known whether somebody outside has asked to stop. -/
def State.heeding {σ : Type} (st : State σ) (asked : Bool) : State σ :=
  { st with interrupt := st.interrupt || asked }

/-- Runs the steps from a number on, under a signal that is looked at before each of them. -/
def runStepsUnder {σ : Type} (signal : Signal) (o : Options) (hook : SnapshotHook σ) (total : Nat)
    (number : Nat) : State σ → List PlanStep → State σ
  | st, [] => st
  | st, step :: rest =>
    let st := st.heeding (signal number)
    if st.interrupt then (st.note s!"Interrupted before step {number} of {total}").halt
    else match prepare o hook number step st with
      | .error st => st
      | .ok st =>
        let st := runStep o number step st
        if st.stopped.isSome then st
        else runStepsUnder signal o hook total (number + 1) st rest

/-- Runs a plan in a store under a signal. -/
def executeUnder {σ : Type} (signal : Signal) (o : Options) (hook : SnapshotHook σ)
    (commitHook : Option CommitHook) (mappings : List Mapping) (plan : Plan) (store : Store)
    (state : σ) (interrupt : Bool) : State σ :=
  let st := runStepsUnder signal o hook plan.steps.length 1
    (begin o mappings plan store state interrupt) plan.steps
  if st.stopped.isSome then st else finish o mappings plan commitHook st

/-- Plans a mapping set and runs the plan under a signal. -/
def runUnder {σ : Type} (signal : Signal) (o : Options) (hook : SnapshotHook σ)
    (commitHook : Option CommitHook) (mappings : List Mapping) (d : Disk) (state : σ)
    (interrupt : Bool) : Except Cause (State σ) := do
  let p ← plan o.engine.filter d o.roots mappings
  let st := executeUnder signal o hook commitHook mappings p (storeOf o d) state interrupt
  return { st with remarks := planRemarks o.engine d o.roots ++ st.remarks }

theorem runStepsUnder_never {σ : Type} (o : Options) (hook : SnapshotHook σ)
    (total number : Nat) (st : State σ) (steps : List PlanStep) :
    runStepsUnder (fun _ => false) o hook total number st steps =
      runSteps o hook total number st steps := by
  induction steps generalizing number st with
  | nil => rfl
  | cons step rest ih =>
    have hheeding : st.heeding false = st := by
      unfold State.heeding
      rw [Bool.or_false]
    rw [runStepsUnder, runSteps, hheeding]
    cases prepare o hook number step st with
    | error last => rfl
    | ok next => simp only [ih]

theorem executeUnder_never {σ : Type} (o : Options) (hook : SnapshotHook σ)
    (commitHook : Option CommitHook) (mappings : List Mapping) (p : Plan) (store : Store)
    (state : σ) (interrupt : Bool) :
    executeUnder (fun _ => false) o hook commitHook mappings p store state interrupt =
      execute o hook commitHook mappings p store state interrupt := by
  unfold executeUnder execute
  rw [runStepsUnder_never]

/-- A run is a run under a signal that is never given. -/
theorem runUnder_never {σ : Type} (o : Options) (hook : SnapshotHook σ)
    (commitHook : Option CommitHook) (mappings : List Mapping) (d : Disk) (state : σ)
    (interrupt : Bool) :
    runUnder (fun _ => false) o hook commitHook mappings d state interrupt =
      run o hook commitHook mappings d state interrupt := by
  unfold runUnder run
  simp only [executeUnder_never]

/-- A run under a signal is the run of its plan. -/
theorem runUnder_of_plan {σ : Type} {signal : Signal} {o : Options} {hook : SnapshotHook σ}
    {commitHook : Option CommitHook} {mappings : List Mapping} {d : Disk} {state : σ}
    {interrupt : Bool} {p : Plan} (h : plan o.engine.filter d o.roots mappings = .ok p) :
    runUnder signal o hook commitHook mappings d state interrupt = .ok
      { executeUnder signal o hook commitHook mappings p (storeOf o d) state interrupt with
        remarks := planRemarks o.engine d o.roots ++
          (executeUnder signal o hook commitHook mappings p (storeOf o d) state
            interrupt).remarks } := by
  unfold runUnder
  rw [h]
  rfl

/-- Only the report and what is told differ between the end of the steps and that of the run. -/
theorem exists_runUnder {σ : Type} (signal : Signal) {o : Options} (hook : SnapshotHook σ)
    (commitHook : Option CommitHook) {mappings : List Mapping} {d : Disk} (state : σ)
    (interrupt : Bool) {p : Plan} (h : plan o.engine.filter d o.roots mappings = .ok p) :
    ∃ st last, runUnder signal o hook commitHook mappings d state interrupt = .ok st ∧
      last = runStepsUnder signal o hook p.steps.length 1
        (begin o mappings p (storeOf o d) state interrupt) p.steps ∧
      st.store = last.store ∧ st.hook = last.hook := by
  refine ⟨_, _, runUnder_of_plan h, rfl, ?_⟩
  unfold executeUnder
  dsimp only
  split
  · exact ⟨rfl, rfl⟩
  · obtain ⟨log, told, hfinish⟩ := exists_finish o mappings p commitHook
      (runStepsUnder signal o hook p.steps.length 1
        (begin o mappings p (storeOf o d) state interrupt) p.steps)
    rw [hfinish]
    exact ⟨rfl, rfl⟩

/-- A step that was started: its number, what it renames and the state in which it did. -/
structure Stage (σ : Type) where
  number : Nat
  step : PlanStep
  state : State σ

/-- The steps that are started from a state on. -/
def stages {σ : Type} (signal : Signal) (o : Options) (hook : SnapshotHook σ) (number : Nat) :
    State σ → List PlanStep → List (Stage σ)
  | _, [] => []
  | st, step :: rest =>
    let st := st.heeding (signal number)
    if st.interrupt then []
    else match prepare o hook number step st with
      | .error _ => []
      | .ok st =>
        ⟨number, step, st⟩ ::
          if (runStep o number step st).stopped.isSome then []
          else stages signal o hook (number + 1) (runStep o number step st) rest

/-- The stores and files that the step of a stage looks at. -/
def Stage.visits {σ : Type} (stage : Stage σ) (o : Options) : List (Store × Path) :=
  Rename.visits o.engine stage.state.store stage.step.old stage.step.new (scope o)

/-- The stages of a whole run of a plan. -/
def runStages {σ : Type} (signal : Signal) (o : Options) (hook : SnapshotHook σ)
    (mappings : List Mapping) (p : Plan) (store : Store) (state : σ) (interrupt : Bool) :
    List (Stage σ) :=
  stages signal o hook 1 (begin o mappings p store state interrupt) p.steps

/-- What becomes of a batch that has steps left: it is interrupted, it cannot save the files
of the next step, the next step stops everything, or it goes on. -/
inductive Advance {σ : Type} (signal : Signal) (o : Options) (hook : SnapshotHook σ)
    (total number : Nat) (st : State σ) (step : PlanStep) (rest : List PlanStep) : Prop
  | interrupted
      (hrun : runStepsUnder signal o hook total number st (step :: rest) =
        ((st.heeding (signal number)).note
          s!"Interrupted before step {number} of {total}").halt)
      (hstages : stages signal o hook number st (step :: rest) = [])
  | unsaved (last : State σ)
      (hprepare : prepare o hook number step (st.heeding (signal number)) = .error last)
      (hrun : runStepsUnder signal o hook total number st (step :: rest) = last)
      (hstages : stages signal o hook number st (step :: rest) = [])
  | stopped (next : State σ)
      (hprepare : prepare o hook number step (st.heeding (signal number)) = .ok next)
      (hstopped : (runStep o number step next).stopped.isSome = true)
      (hrun : runStepsUnder signal o hook total number st (step :: rest) =
        runStep o number step next)
      (hstages : stages signal o hook number st (step :: rest) = [⟨number, step, next⟩])
  | going (next : State σ)
      (hprepare : prepare o hook number step (st.heeding (signal number)) = .ok next)
      (hstopped : (runStep o number step next).stopped = none)
      (hrun : runStepsUnder signal o hook total number st (step :: rest) =
        runStepsUnder signal o hook total (number + 1) (runStep o number step next) rest)
      (hstages : stages signal o hook number st (step :: rest) =
        ⟨number, step, next⟩ ::
          stages signal o hook (number + 1) (runStep o number step next) rest)

theorem advance {σ : Type} (signal : Signal) (o : Options) (hook : SnapshotHook σ)
    (total number : Nat) (st : State σ) (step : PlanStep) (rest : List PlanStep) :
    Advance signal o hook total number st step rest := by
  by_cases hinterrupt : (st.heeding (signal number)).interrupt = true
  · apply Advance.interrupted
    · simp only [runStepsUnder, if_pos hinterrupt]
    · simp only [stages, if_pos hinterrupt]
  · cases hprepare : prepare o hook number step (st.heeding (signal number)) with
    | error last =>
      apply Advance.unsaved last hprepare
      · simp only [runStepsUnder, if_neg hinterrupt, hprepare]
      · simp only [stages, if_neg hinterrupt, hprepare]
    | ok next =>
      by_cases hstopped : (runStep o number step next).stopped.isSome = true
      · apply Advance.stopped next hprepare hstopped
        · simp only [runStepsUnder, if_neg hinterrupt, hprepare, if_pos hstopped]
        · simp only [stages, if_neg hinterrupt, hprepare, if_pos hstopped]
      · apply Advance.going next hprepare (Option.not_isSome_iff_eq_none.mp hstopped)
        · simp only [runStepsUnder, if_neg hinterrupt, hprepare, if_neg hstopped]
        · simp only [stages, if_neg hinterrupt, hprepare, if_neg hstopped]

/-- What becomes of a batch before a step: nothing in a dry run, else the hook saves the files
that the step looks at, or the batch stops. -/
inductive Prepared {σ : Type} (o : Options) (hook : SnapshotHook σ) (number : Nat)
    (step : PlanStep) (st : State σ) : Except (State σ) (State σ) → Prop
  | dry (hdry : o.dryRun = true) : Prepared o hook number step st (.ok st)
  | unsearched {cause : Cause} (hdry : o.dryRun = false)
      (hfiles : Rename.candidates o.engine st.store step.old (scope o) = .error cause) :
      Prepared o hook number step st (.error { st with stopped := some cause })
  | saved {files : List Path} {remarks : List String} (hdry : o.dryRun = false)
      (hfiles : Rename.candidates o.engine st.store step.old (scope o) = .ok files)
      (hfault : (answerOf hook number st files).fault = none) :
      Prepared o hook number step st (.ok (st.saved (answerOf hook number st files) remarks))
  | failed {files : List Path} {cause : Cause} {remarks : List String} {warning : String}
      (hdry : o.dryRun = false)
      (hfiles : Rename.candidates o.engine st.store step.old (scope o) = .ok files)
      (hfault : (answerOf hook number st files).fault = some cause) :
      Prepared o hook number step st
        (.error ((st.saved (answerOf hook number st files) remarks).warn "ERROR" warning).halt)

theorem prepared {σ : Type} (o : Options) (hook : SnapshotHook σ) (number : Nat)
    (step : PlanStep) (st : State σ) :
    Prepared o hook number step st (prepare o hook number step st) := by
  cases hdry : o.dryRun with
  | true =>
    rw [prepare_dry hdry]
    exact .dry hdry
  | false =>
    cases hfiles : Rename.candidates o.engine st.store step.old (scope o) with
    | error cause =>
      have hprepare : prepare o hook number step st = .error { st with stopped := some cause } := by
        unfold prepare
        simp only [hdry, Bool.false_eq_true, if_false, hfiles]
      rw [hprepare]
      exact .unsearched hdry hfiles
    | ok files =>
      cases hfault : (answerOf hook number st files).fault with
      | none =>
        rw [prepare_ok hdry hfiles hfault]
        exact .saved hdry hfiles hfault
      | some cause =>
        have hprepare : prepare o hook number step st =
            .error (((st.saved (answerOf hook number st files)
              (st.remarks ++ Rename.searchRemarks o.engine step.old files (scope o))).warn "ERROR"
              s!"snapshot before step {number} failed, batch stopped: {cause.message}").halt) := by
          unfold answerOf at hfault
          unfold prepare
          simp only [hdry, Bool.false_eq_true, if_false, hfiles, hfault]
          rfl
        rw [hprepare]
        exact .failed hdry hfiles hfault

section

variable {σ : Type} {o : Options} {hook : SnapshotHook σ}

/-- What is done before a step is not reported. -/
theorem Prepared.report {number : Nat} {step : PlanStep} {st next : State σ}
    (h : Prepared o hook number step st (.ok next)) :
    next.report = st.report ∧ next.touched = st.touched ∧ next.stopped = st.stopped := by
  cases h with
  | dry => exact ⟨rfl, rfl, rfl⟩
  | saved => exact ⟨rfl, rfl, rfl⟩

/-- What holds of a batch goes on to hold whatever it heeds and tells, and whatever becomes of it
before a step. -/
structure Persists (o : Options) (hook : SnapshotHook σ) (P : State σ → Prop) : Prop where
  heeding : ∀ {st} signal, P st → P (st.heeding signal)
  halted : ∀ {st} message, P st → P (st.note message).halt
  ready : ∀ {number step st next}, P st → Prepared o hook number step st (.ok next) → P next
  unsaved : ∀ {number step st last}, P st → Prepared o hook number step st (.error last) → P last

/-- What the calls of a hook preserve of the store and of its own state goes on to hold. -/
theorem persists_of_calls {P : Store → σ → Prop}
    (hcall : ∀ {store state files} (number : Nat) (old : String), P store state →
      Rename.candidates o.engine store old (scope o) = .ok files →
      P { store with
            disk := (hook state store.disk (label number) files).disk
            unwritable := (hook state store.disk (label number) files).unwritable.getD
              store.unwritable }
        (hook state store.disk (label number) files).state) :
    Persists o hook fun st => P st.store st.hook where
  heeding _ h := h
  halted _ h := h
  ready h hprepared := by
    cases hprepared with
    | dry => exact h
    | saved _ hfiles => exact hcall _ _ h hfiles
  unsaved h hprepared := by
    cases hprepared with
    | unsearched => exact h
    | failed _ hfiles => exact hcall _ _ h hfiles

/-- What goes on to hold, and is preserved by the steps that are started, holds when each of them
is started and in the end. The induction is on the steps that are left. -/
theorem Persists.run {P : State σ → Prop} (hpersists : Persists o hook P) {signal : Signal}
    (total : Nat) {number : Nat} {st : State σ} {steps : List PlanStep}
    (hstep : ∀ stage ∈ stages signal o hook number st steps, P stage.state →
      P (runStep o stage.number stage.step stage.state)) (h : P st) :
    (∀ stage ∈ stages signal o hook number st steps, P stage.state) ∧
      P (runStepsUnder signal o hook total number st steps) := by
  induction steps generalizing number st with
  | nil => exact ⟨fun stage hstage => absurd hstage List.not_mem_nil, h⟩
  | cons step rest ih =>
    have hheeding := hpersists.heeding (signal number) h
    have hprepared := prepared o hook number step (st.heeding (signal number))
    cases advance signal o hook total number st step rest with
    | interrupted hrun hstages =>
      rw [hrun, hstages]
      exact ⟨fun stage hstage => absurd hstage List.not_mem_nil, hpersists.halted _ hheeding⟩
    | unsaved last hprepare hrun hstages =>
      rw [hrun, hstages]
      rw [hprepare] at hprepared
      exact ⟨fun stage hstage => absurd hstage List.not_mem_nil,
        hpersists.unsaved hheeding hprepared⟩
    | stopped next hprepare _ hrun hstages =>
      rw [hprepare] at hprepared
      rw [hstages] at hstep ⊢
      rw [hrun]
      have hnext := hpersists.ready hheeding hprepared
      exact ⟨List.forall_mem_singleton.mpr hnext, hstep _ List.mem_cons_self hnext⟩
    | going next hprepare _ hrun hstages =>
      rw [hprepare] at hprepared
      rw [hstages] at hstep ⊢
      rw [hrun]
      have hnext := hpersists.ready hheeding hprepared
      obtain ⟨hrest, hlast⟩ := ih (fun stage hstage => hstep stage (List.mem_cons_of_mem _ hstage))
        (hstep _ List.mem_cons_self hnext)
      exact ⟨List.forall_mem_cons.mpr ⟨hnext, hrest⟩, hlast⟩

/-- What every call does to the state of a hook, a run does to it. -/
theorem hook_runStepsUnder {r : σ → σ → Prop} (hrefl : ∀ s, r s s)
    (htrans : ∀ {a b c}, r a b → r b c → r a c)
    (hcall : ∀ s d label files, r s (hook s d label files).state) (signal : Signal) (o : Options)
    (total number : Nat) (st : State σ) (steps : List PlanStep) :
    r st.hook (runStepsUnder signal o hook total number st steps).hook := by
  have hpersists : Persists o hook fun next => r st.hook next.hook :=
    persists_of_calls (P := fun _ s => r st.hook s) fun _ _ h _ => htrans h (hcall _ _ _ _)
  refine (hpersists.run total (fun stage _ h => ?_) (hrefl _)).2
  rw [runStep_hook]
  exact h

end

end SymbolRename.Batch
