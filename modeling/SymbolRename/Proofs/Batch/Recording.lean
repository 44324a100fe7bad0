import SymbolRename.Proofs.Batch.Stages

/-!
# What the hooks of a batch are asked

A hook that saves files can be made to keep a record of what it was asked; the batch does
not notice. The commit hook is asked once or not at all, and its answer is only told.
-/

namespace SymbolRename

/-- What a hook that saves files was asked once, and what it answered. -/
structure Call (σ : Type) where
  disk : Disk
  label : String
  files : List Path
  answer : HookAnswer σ

/-- The hook with a record of its calls. -/
def SnapshotHook.recorded {σ : Type} (hook : SnapshotHook σ) :
    SnapshotHook (σ × List (Call σ)) :=
  fun s d label files =>
    let a := hook s.1 d label files
    { state := (a.state, s.2 ++ [⟨d, label, files, a⟩])
      disk := a.disk
      interrupts := a.interrupts
      fault := a.fault
      unwritable := a.unwritable }

namespace Batch

/-- The state with the report summed up and the names that were not found. -/
def State.summed {σ : Type} (st : State σ) : State σ :=
  let st := { st with report := total st.report st.touched }
  if st.report.interrupted then st
  else (notFound st.report).foldl (fun st old => st.warn "WARNING" s!"'{old}' was not found") st

/-- The last message of a batch. -/
def ending {σ : Type} (p : Plan) (st : State σ) : String :=
  let ending := if st.report.interrupted then "stopped" else "finished"
  s!"Batch {ending}: {st.report.totalChanges} changes in {st.report.totalFiles} files, " ++
    s!"{st.report.stepsExecuted} of {p.steps.length} steps"

/-- The state after the commit hook was asked, if there is one and the batch commits. -/
def State.committed {σ : Type} (o : Options) (mappings : List Mapping)
    (commitHook : Option CommitHook) (st : State σ) : State σ :=
  match commitHook, commit? o mappings st with
  | some hook, some (message, files) => commit hook st message files
  | _, _ => st

theorem finish_eq {σ : Type} (o : Options) (mappings : List Mapping) (p : Plan)
    (commitHook : Option CommitHook) (st : State σ) :
    finish o mappings p commitHook st =
      (st.summed.committed o mappings commitHook).note
        (ending p (st.summed.committed o mappings commitHook)) := rfl

/-- The calls of the hook in a run, in order. -/
def calls {σ : Type} (signal : Signal) (o : Options) (hook : SnapshotHook σ)
    (mappings : List Mapping) (d : Disk) (state : σ) (interrupt : Bool) : List (Call σ) :=
  match runUnder signal o hook.recorded none mappings d (state, []) interrupt with
  | .ok st => st.hook.2
  | .error _ => []

end Batch

end SymbolRename
