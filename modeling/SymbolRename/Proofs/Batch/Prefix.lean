import SymbolRename.Proofs.Batch.DryRun
import SymbolRename.Proofs.Batch.Recording
import SymbolRename.Proofs.Rename.Outside

/-!
# An early stop is a clean prefix

However the hook fails and whenever a batch is interrupted, it has run the first steps of its
plan and nothing else. Before each of these steps the hook was asked to save what the step
considers, and the commit hook gets the files that were rewritten: `Batch.run_stops_cleanly`.
-/

namespace SymbolRename

/-- The answer to a call changes nothing but places of an owner. -/
structure Call.KeepsOutside {σ : Type} (own : Place → Bool) (call : Call σ) : Prop where
  disk : call.disk.SameOutside own call.answer.disk
  unwritable : call.answer.unwritable = none

instance {σ : Type} (own : Place → Bool) (call : Call σ) : Decidable (call.KeepsOutside own) :=
  decidable_of_iff (call.disk.SameOutside own call.answer.disk ∧ call.answer.unwritable = none)
    ⟨fun ⟨h, h'⟩ => ⟨h, h'⟩, fun ⟨h, h'⟩ => ⟨h, h'⟩⟩

namespace Batch

/-- The store after some steps ran in order, with nothing before, between or behind them. -/
def played (o : Options) (store : Store) (steps : List PlanStep) : Store :=
  steps.foldl (fun s step => (Rename.run o.engine s step.old step.new (scope o)).store) store

theorem played_concat (o : Options) (store : Store) (steps : List PlanStep) (step : PlanStep) :
    played o store (steps ++ [step]) =
      (Rename.run o.engine (played o store steps) step.old step.new (scope o)).store := by
  rw [played, List.foldl_append]
  rfl

/-- The files that steps write, in order. -/
def rewritten (o : Options) : Store → List PlanStep → List Path
  | _, [] => []
  | s, step :: rest =>
    Rename.rewritten o.engine s step.old step.new (scope o) ++ rewritten o (played o s [step]) rest

theorem rewritten_concat (o : Options) (store : Store) (steps : List PlanStep)
    (step : PlanStep) :
    rewritten o store (steps ++ [step]) = rewritten o store steps ++
      Rename.rewritten o.engine (played o store steps) step.old step.new (scope o) := by
  induction steps generalizing store with
  | nil =>
    rw [List.nil_append, rewritten, rewritten, rewritten, List.append_nil, List.nil_append]
    rfl
  | cons first rest ih =>
    rw [List.cons_append, rewritten, rewritten, ih, List.append_assoc]
    rfl

/-! ### Calls before steps -/

/-- A call asks to save exactly the files that a step considers, and each still holds what it
held before the step. -/
structure Precedes {σ : Type} (own : Place → Bool) (o : Options) (before : Store) (number : Nat)
    (step : PlanStep) (call : Call σ) : Prop where
  label : call.label = label number
  files : Rename.candidates o.engine before step.old (scope o) = .ok call.files
  disk : before.disk.SameOutside own call.disk
  content : ∀ path ∈ call.files, Store.readDisk call.disk path = before.read path

/-- Each call is the one before the step at its position. -/
def Saves {σ : Type} (own : Place → Bool) (o : Options) (store : Store) (steps : List PlanStep)
    (calls : List (Call σ)) : Prop :=
  ∀ i call, calls[i]? = some call → ∃ step, steps[i]? = some step ∧
    Precedes own o (played o store (steps.take i)) (i + 1) step call

theorem Saves.concat {σ : Type} {own : Place → Bool} {o : Options} {store : Store}
    {done rest : List PlanStep} {step : PlanStep} {calls : List (Call σ)} {call : Call σ}
    (h : Saves own o store (done ++ step :: rest) calls) (hlength : calls.length = done.length)
    (hcall : Precedes own o (played o store done) (done.length + 1) step call) :
    Saves own o store (done ++ step :: rest) (calls ++ [call]) := by
  intro i next hnext
  by_cases hi : i < calls.length
  · rw [List.getElem?_append_left hi] at hnext
    exact h i next hnext
  · rw [List.getElem?_append_right (by omega)] at hnext
    have hlast : i = done.length := by
      have hlt := (List.getElem?_eq_some_iff.mp hnext).1
      rw [List.length_singleton] at hlt
      omega
    subst hlast
    rw [hlength, Nat.sub_self] at hnext
    obtain rfl := Option.some.inj hnext
    refine ⟨step, ?_, ?_⟩
    · rw [List.getElem?_append_right (Nat.le_refl _), Nat.sub_self]
      rfl
    · rw [List.take_left]
      exact hcall

/-! ### The run of the steps -/

/-- A run that recorded its calls has done some steps and goes on. -/
structure Reached {σ : Type} (own : Place → Bool) (o : Options) (store : Store)
    (done : List PlanStep) (st : State (σ × List (Call σ))) : Prop where
  outside : (played o store done).SameOutside own st.store
  executed : st.report.stepsExecuted = done.length
  going : st.report.interrupted = false
  running : st.stopped = none
  touched : st.touched.Lists (rewritten o store done)
  dry : o.dryRun = true → st.hook.2 = []
  real : o.dryRun = false → st.hook.2.map (·.answer.fault) = List.replicate done.length none

/-- A run that recorded its calls has ended: it did some first steps and no others. -/
structure EndsCleanly {σ : Type} (own : Place → Bool) (o : Options) (store : Store)
    (steps : List PlanStep) (calls : List (Call σ)) (report : Report) (files : PathSet)
    (after : Store) : Prop where
  executed : report.stepsExecuted ≤ steps.length
  /-- The files are as the executed steps leave them. -/
  outside : (played o store (steps.take report.stepsExecuted)).SameOutside own after
  interrupted : report.interrupted = true ↔ report.stepsExecuted < steps.length
  touched : files.Lists (rewritten o store (steps.take report.stepsExecuted))
  saves : Saves own o store steps calls
  dry : o.dryRun = true → calls = []
  /-- In a real run each executed step had its call, and at most one more call failed. -/
  real : o.dryRun = false → ∃ unsaved,
    calls.map (·.answer.fault) = List.replicate report.stepsExecuted none ++ unsaved ∧
      (unsaved = [] ∨ ∃ cause, unsaved = [some cause] ∧ report.interrupted = true)

variable {σ : Type} {own : Place → Bool} {o : Options} {store : Store}
  {done rest : List PlanStep} {step : PlanStep}

theorem stepRoots_ne_nil (o : Options) : stepRoots o ≠ [] := by
  unfold stepRoots
  split
  · exact List.cons_ne_nil _ _
  · rename_i hnot
    exact fun hnil => hnot (List.isEmpty_iff.mpr hnil)

theorem played_sameAccess (hsource : o.engine.source.IgnoresPlaces own)
    (hsearch : Search.Apart o.engine.filter.level (stepRoots o) own store.disk)
    (steps : List PlanStep) : store.SameAccess (played o store steps) := by
  induction steps generalizing store with
  | nil => exact .refl store
  | cons step rest ih =>
    have hstep := (Rename.run_outside (.refl own store) hsource (stepRoots_ne_nil o) hsearch
      step.old step.new).2
    exact hstep.trans (ih (hsearch.congr hstep.view))

/-- The call before the next step. -/
theorem precedes_of_sameOutside (hreal : store.overlay = none) (hreadable : store.unreadable = [])
    (hsource : o.engine.source.IgnoresPlaces own)
    (hsearch : Search.Apart o.engine.filter.level (stepRoots o) own store.disk) {s : Store}
    (hs : (played o store done).SameOutside own s) {files : List Path}
    (hfiles : Rename.candidates o.engine s step.old (scope o) = .ok files) (number : Nat)
    (answer : HookAnswer σ) :
    Precedes own o (played o store done) number step ⟨s.disk, label number, files, answer⟩ := by
  have haccess := played_sameAccess hsource hsearch done
  have hsearch' := hsearch.congr haccess.view
  have hcandidates : Rename.candidates o.engine s step.old (scope o) =
      Rename.candidates o.engine (played o store done) step.old (scope o) :=
    hs.candidates_eq (stepRoots_ne_nil o) hsearch' [step.old]
  refine ⟨rfl, hcandidates ▸ hfiles, hs.disk, fun path hpath => ?_⟩
  have hclears := Search.clears_of_candidates hsearch' (stepRoots_ne_nil o)
    (hcandidates ▸ hfiles) path hpath
  have hplain : (played o store done).overlay = none := by
    have hsome := haccess.overlay
    rw [hreal, Option.isSome_none] at hsome
    exact Option.not_isSome_iff_eq_none.mp (by rw [hsome]; exact Bool.false_ne_true)
  have hunreadable : (played o store done).unreadable = [] := haccess.unreadable.trans hreadable
  rw [Store.SameOutside.readDisk_eq hs.disk hclears, Store.read, hunreadable, hplain]
  rfl

/-- What becomes of a run before its next step: nothing but the record and the places of the
owner changes, and the calls that were made are those before the steps. -/
structure Asked (own : Place → Bool) (o : Options) (store : Store) (done : List PlanStep)
    (steps : List PlanStep) (st next : State (σ × List (Call σ))) : Prop where
  outside : (played o store done).SameOutside own next.store
  executed : next.report.stepsExecuted = st.report.stepsExecuted
  touched : next.touched = st.touched
  saves : Saves own o store steps next.hook.2
  dry : o.dryRun = true → next.hook.2 = []

theorem Reached.asked (hreal : o.dryRun = false → store.overlay = none)
    (hreadable : store.unreadable = []) (hsource : o.engine.source.IgnoresPlaces own)
    (hsearch : Search.Apart o.engine.filter.level (stepRoots o) own store.disk)
    {st : State (σ × List (Call σ))} (h : Reached own o store done st)
    (hsaves : Saves own o store (done ++ step :: rest) st.hook.2) {files : List Path}
    (remarks : List String) (hook : SnapshotHook σ) (hdry : o.dryRun = false)
    (hfiles : Rename.candidates o.engine st.store step.old (scope o) = .ok files)
    (hkeeps : ∀ call ∈ (answerOf hook.recorded (done.length + 1) st files).state.2,
      call.KeepsOutside own) :
    Asked own o store done (done ++ step :: rest) st
      (st.saved (answerOf hook.recorded (done.length + 1) st files) remarks) := by
  have hlength : st.hook.2.length = done.length := by
    have hmap := congrArg List.length (h.real hdry)
    rwa [List.length_map, List.length_replicate] at hmap
  have hcall := precedes_of_sameOutside (hreal hdry) hreadable hsource hsearch h.outside hfiles
    (done.length + 1) (hook st.hook.1 st.store.disk (label (done.length + 1)) files)
  have hlast := hkeeps _ (List.mem_append_right st.hook.2 (List.mem_singleton.mpr rfl))
  refine ⟨h.outside.trans ⟨hlast.disk, rfl, rfl, ?_⟩, rfl, rfl, hsaves.concat hlength hcall, ?_⟩
  · have hnone : (answerOf hook.recorded (done.length + 1) st files).unwritable = none :=
      hlast.unwritable
    simp only [State.saved, hnone, Option.getD_none]
  · intro hdry'
    rw [hdry] at hdry'
    cases hdry'

/-- A step that completes is one more step of the prefix. -/
theorem Reached.stepped (hsource : o.engine.source.IgnoresPlaces own)
    (hsearch : Search.Apart o.engine.filter.level (stepRoots o) own store.disk)
    {next : State (σ × List (Call σ))}
    (houtside : (played o store done).SameOutside own next.store)
    (hexecuted : next.report.stepsExecuted = done.length)
    (hgoing : next.report.interrupted = false)
    (htouched : next.touched.Lists (rewritten o store done))
    (hdry : o.dryRun = true → next.hook.2 = [])
    (hreal : o.dryRun = false →
      next.hook.2.map (·.answer.fault) = List.replicate (done.length + 1) none)
    {number : Nat} (hstopped : (runStep o number step next).stopped = none) :
    Reached own o store (done ++ [step]) (runStep o number step next) := by
  have haccess := played_sameAccess hsource hsearch done
  have hrun := (Rename.run_outside houtside hsource (stepRoots_ne_nil o)
    (hsearch.congr haccess.view) step.old step.new).1
  have hcompleted : (renameOf o step next).stopped = none := by
    rw [runStep_stopped, Option.or_eq_none_iff] at hstopped
    exact hstopped.1
  have hplayed : (Rename.run o.engine (played o store done) step.old step.new
      (scope o)).stopped = none := hrun.stopped.symm.trans hcompleted
  refine ⟨?_, ?_, ?_, hstopped, ?_, ?_, ?_⟩
  · rw [played_concat, runStep_store]
    exact hrun.store
  · rw [runStep_report, hcompleted]
    show next.report.stepsExecuted + 1 = _
    rw [hexecuted, List.length_append, List.length_singleton]
  · rw [runStep_report, hcompleted]
    exact hgoing
  · rw [runStep_touched, hcompleted, rewritten_concat]
    refine htouched.insertAll ?_
    have houtcome : (renameOf o step next).outcome =
        (Rename.run o.engine (played o store done) step.old step.new (scope o)).outcome :=
      hrun.outcome
    rw [houtcome]
    exact Rename.filesTouched_run hplayed
  · intro hdry'
    rw [runStep_hook]
    exact hdry hdry'
  · intro hreal'
    rw [runStep_hook, hreal hreal', List.length_append, List.length_singleton]

theorem EndsCleanly.finish {steps : List PlanStep} {st : State (σ × List (Call σ))}
    (h : EndsCleanly own o store steps st.hook.2 st.report st.touched st.store)
    (mappings : List Mapping) (p : Plan) (commitHook : Option CommitHook) :
    EndsCleanly own o store steps (finish o mappings p commitHook st).hook.2
      (Batch.finish o mappings p commitHook st).report
      (Batch.finish o mappings p commitHook st).touched
      (Batch.finish o mappings p commitHook st).store := by
  obtain ⟨log, told, hfinish⟩ := exists_finish o mappings p commitHook st
  rw [hfinish]
  exact ⟨h.executed, h.outside, h.interrupted, h.touched, h.saves, h.dry, h.real⟩

end Batch

end SymbolRename
