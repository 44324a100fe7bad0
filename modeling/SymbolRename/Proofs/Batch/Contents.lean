import SymbolRename.Proofs.Batch.Stages
import SymbolRename.Proofs.Rename.Effect

/-!
# The content of one file through a batch

Between the steps of a batch nothing changes a file that the hook leaves alone. What each
started step keeps of its content therefore holds at the end of the run:
`Batch.runUnder_contents`.
-/

namespace SymbolRename

/-- The hook leaves what a path reads. -/
def SnapshotHook.Leaves {σ : Type} (hook : SnapshotHook σ) (path : Path) : Prop :=
  ∀ state d label files,
    Store.readDisk (hook state d label files).disk path = Store.readDisk d path

namespace Batch

variable {σ : Type} {signal : Signal} {o : Options} {hook : SnapshotHook σ} {path : Path}

/-- Saving files before a step leaves the content of the file, whether it succeeds or not. -/
theorem Prepared.develops (hhook : hook.Leaves path) {number : Nat} {step : PlanStep}
    {st : State σ} {result : Except (State σ) (State σ)}
    (h : Prepared o hook number step st result) :
    ∀ next, result = .ok next ∨ result = .error next →
      st.store.Develops Eq path next.store := by
  have hsame : st.store.Develops Eq path st.store := .of_read_eq (fun _ => rfl) rfl rfl
  have hanswer : ∀ files remarks,
      st.store.Develops Eq path (st.saved (answerOf hook number st files) remarks).store := by
    intro files remarks
    refine .of_read_eq (fun _ => rfl) rfl ?_
    unfold Store.read
    rw [← hhook st.hook st.store.disk (label number) files]
    rfl
  cases h with
  | dry =>
    rintro next (heq | heq) <;> cases heq
    exact hsame
  | unsearched =>
    rintro next (heq | heq) <;> cases heq
    exact hsame
  | saved =>
    rintro next (heq | heq) <;> cases heq
    exact hanswer _ _
  | @failed files _ remarks _ _ _ _ =>
    rintro next (heq | heq) <;> cases heq
    exact hanswer files remarks

theorem Stage.develops (o : Options) (path : Path) (stage : Stage σ) :
    stage.state.store.Develops (fun _ _ => True) path
      (runStep o stage.number stage.step stage.state).store := by
  rw [runStep_store]
  refine (Rename.run_develops (r := fun _ _ => True) ?_).1.mono fun _ _ _ _ _ => trivial
  exact fun v _ => Rename.Acts.orSpares fun t changes c c' _ _ _ _ => trivial

/-- A file stays readable up to each step that is started, and to the end. -/
theorem develops_of_steps (hhook : hook.Leaves path) (total : Nat) {number : Nat} {st : State σ}
    {steps : List PlanStep} :
    (∀ stage ∈ stages signal o hook number st steps,
      st.store.Develops (fun _ _ => True) path stage.state.store) ∧
      st.store.Develops (fun _ _ => True) path
        (runStepsUnder signal o hook total number st steps).store := by
  have hpersists : Persists o hook fun next : State σ =>
      st.store.Develops (fun _ _ => True) path next.store := by
    refine ⟨fun _ h => h, fun _ h => h, fun h hprepared => ?_, fun h hprepared => ?_⟩
    · exact h.trans (fun _ _ _ _ _ => trivial) (hprepared.develops hhook _ (.inl rfl))
    · exact h.trans (fun _ _ _ _ _ => trivial) (hprepared.develops hhook _ (.inr rfl))
  refine hpersists.run total (fun stage _ h => ?_) (.of_read_eq (fun _ => trivial) rfl rfl)
  exact h.trans (fun _ _ _ _ _ => trivial) (Stage.develops o path stage)

/-- The started steps are the first ones. -/
theorem map_step_stages (signal : Signal) (o : Options) (hook : SnapshotHook σ) (number : Nat)
    (st : State σ) (steps : List PlanStep) :
    (stages signal o hook number st steps).map (·.step) <+: steps := by
  induction steps generalizing number st with
  | nil => exact List.prefix_rfl
  | cons step rest ih =>
    cases advance signal o hook 0 number st step rest with
    | interrupted _ hstages | unsaved _ _ _ hstages =>
      rw [hstages]
      exact List.nil_prefix
    | stopped _ _ _ _ hstages =>
      rw [hstages]
      exact ⟨rest, rfl⟩
    | going _ _ _ _ hstages =>
      rw [hstages]
      exact (List.prefix_cons_inj _).mpr (ih _ _)

theorem begin_store (o : Options) (mappings : List Mapping) (p : Plan) (store : Store)
    (state : σ) (interrupt : Bool) : (begin o mappings p store state interrupt).store = store := by
  obtain ⟨log, told, hbegin⟩ := exists_begin o mappings p store state interrupt
  rw [hbegin]
  rfl

theorem executeUnder_store (signal : Signal) (o : Options) (hook : SnapshotHook σ)
    (commitHook : Option CommitHook) (mappings : List Mapping) (p : Plan) (store : Store)
    (state : σ) (interrupt : Bool) :
    (executeUnder signal o hook commitHook mappings p store state interrupt).store =
      (runStepsUnder signal o hook p.steps.length 1 (begin o mappings p store state interrupt)
        p.steps).store := by
  unfold executeUnder
  generalize runStepsUnder signal o hook p.steps.length 1
    (begin o mappings p store state interrupt) p.steps = st
  by_cases hstopped : st.stopped.isSome = true
  · simp only [if_pos hstopped]
  · simp only [if_neg hstopped]
    obtain ⟨log, told, hfinish⟩ := exists_finish o mappings p commitHook st
    rw [hfinish]
    rfl

/-- Before the first step the files are read from the disk. -/
theorem read_storeOf (o : Options) (d : Disk) (path : Path) :
    (storeOf o d).read path = Store.readDisk d path := by
  unfold storeOf Store.read
  cases o.dryRun <;> rfl

/-- What every started step keeps of the content of a file holds after the last one; the
induction is on the steps that are left, and `done` are the stages before them. -/
theorem runStepsUnder_contents (hhook : hook.Leaves path) {all done : List (Stage σ)}
    {holds : List (Stage σ) → Bytes → Prop}
    (hstage : ∀ done stage rest c c', all = done ++ stage :: rest → holds done c →
      stage.state.store.read path = .ok c →
      (runStep o stage.number stage.step stage.state).store.read path = .ok c' →
      holds (done ++ [stage]) c')
    {total number : Nat} {st : State σ} {steps : List PlanStep}
    (hall : all = done ++ stages signal o hook number st steps) {c c' : Bytes}
    (hholds : holds done c) (hc : st.store.read path = .ok c)
    (hc' : (runStepsUnder signal o hook total number st steps).store.read path = .ok c') :
    holds all c' := by
  induction steps generalizing number st done c with
  | nil =>
    obtain rfl := Except.ok.inj (hc.symm.trans hc')
    rw [hall]
    simpa only [stages, List.append_nil] using hholds
  | cons step rest ih =>
    have hprepared := (prepared o hook number step (st.heeding (signal number))).develops hhook
    cases advance signal o hook total number st step rest with
    | interrupted hrun hstages =>
      rw [hrun] at hc'
      obtain rfl := Except.ok.inj (hc.symm.trans hc')
      rw [hall, hstages, List.append_nil]
      exact hholds
    | unsaved last hprepare hrun hstages =>
      rw [hrun] at hc'
      obtain rfl := (hprepared last (.inr hprepare)).rel hc hc'
      rw [hall, hstages, List.append_nil]
      exact hholds
    | stopped next hprepare _ hrun hstages =>
      rw [hrun] at hc'
      rw [hstages] at hall
      obtain ⟨b, hb⟩ := (hprepared next (.inl hprepare)).exists_read
        (Stage.develops o path ⟨number, step, next⟩) hc hc'
      obtain rfl := (hprepared next (.inl hprepare)).rel hc hb
      rw [hall]
      exact hstage done _ [] c c' hall hholds hb hc'
    | going next hprepare _ hrun hstages =>
      rw [hrun] at hc'
      rw [hstages] at hall
      have hbefore := hprepared next (.inl hprepare)
      have hstep := Stage.develops o path ⟨number, step, next⟩
      have hrest : (runStep o number step next).store.Develops (fun _ _ => True) path
          (runStepsUnder signal o hook total (number + 1) (runStep o number step next) rest).store :=
        (develops_of_steps hhook total).2
      have hlater : next.store.Develops (fun _ _ => True) path
          (runStepsUnder signal o hook total (number + 1) (runStep o number step next) rest).store :=
        hstep.trans (fun _ _ _ _ _ => trivial) hrest
      obtain ⟨b, hb⟩ := hbefore.exists_read hlater hc hc'
      obtain rfl := hbefore.rel hc hb
      obtain ⟨a, ha⟩ := hstep.exists_read hrest hb hc'
      have hmore : all = done ++ [⟨number, step, next⟩] ++
          stages signal o hook (number + 1) (runStep o number step next) rest := by
        rw [hall, List.append_assoc]
        rfl
      exact ih hmore (hstage done _ _ c a hall hholds hb ha) ha hc'

/-- The started steps take the content of a file from one to the next. -/
inductive Passage (o : Options) (path : Path) : List (Stage σ) → Bytes → Bytes → Prop
  | nil (c : Bytes) : Passage o path [] c c
  | cons {stage : Stage σ} {rest : List (Stage σ)} {a b c : Bytes}
      (ha : stage.state.store.read path = .ok a)
      (hb : (runStep o stage.number stage.step stage.state).store.read path = .ok b)
      (hrest : Passage o path rest b c) : Passage o path (stage :: rest) a c

theorem passage_append_iff {xs ys : List (Stage σ)} {a c : Bytes} :
    Passage o path (xs ++ ys) a c ↔ ∃ b, Passage o path xs a b ∧ Passage o path ys b c := by
  induction xs generalizing a with
  | nil =>
    constructor
    · exact fun h => ⟨a, .nil a, h⟩
    · rintro ⟨b, hb, h⟩
      cases hb
      exact h
  | cons stage xs ih =>
    constructor
    · intro h
      cases h with
      | cons ha hb hrest =>
        obtain ⟨b, hxs, hys⟩ := ih.mp hrest
        exact ⟨b, .cons ha hb hxs, hys⟩
    · rintro ⟨b, h, hys⟩
      cases h with
      | cons ha hb hxs => exact .cons ha hb (ih.mpr ⟨b, hxs, hys⟩)

/-- What every step of a passage preserves holds after it. -/
theorem Passage.preserves {stages : List (Stage σ)} {a c : Bytes} (h : Passage o path stages a c)
    (holds : Bytes → Prop) (hstages : ∀ stage ∈ stages, ∀ b b',
      stage.state.store.read path = .ok b →
      (runStep o stage.number stage.step stage.state).store.read path = .ok b' →
      holds b → holds b') (ha : holds a) : holds c := by
  induction h with
  | nil => exact ha
  | @cons stage rest a b c hread hread' _ ih =>
    refine ih (fun s hs => hstages s (List.mem_cons_of_mem _ hs)) ?_
    exact hstages stage List.mem_cons_self a b hread hread' ha

/-- The stages before a stage lead from the content of a file at the start to the one that the
stage finds; the induction is on the steps. -/
theorem stages_passage (hhook : hook.Leaves path) {number : Nat} {st : State σ}
    {steps : List PlanStep} {done rest : List (Stage σ)} {stage : Stage σ}
    (hsplit : stages signal o hook number st steps = done ++ stage :: rest) {c c' : Bytes}
    (hc : st.store.read path = .ok c) (hc' : stage.state.store.read path = .ok c') :
    Passage o path done c c' := by
  induction steps generalizing number st done c with
  | nil => exact absurd hsplit.symm (by simp [stages])
  | cons step more ih =>
    have hprepared := (prepared o hook number step (st.heeding (signal number))).develops hhook
    have hfirst : ∀ next, prepare o hook number step (st.heeding (signal number)) = .ok next →
        stage = ⟨number, step, next⟩ → Passage o path ([] : List (Stage σ)) c c' := by
      rintro next hprepare rfl
      obtain rfl := (hprepared next (.inl hprepare)).rel hc hc'
      exact .nil _
    cases advance signal o hook 0 number st step more with
    | interrupted _ hstages | unsaved _ _ _ hstages =>
      rw [hstages] at hsplit
      exact absurd hsplit.symm (by simp)
    | stopped next hprepare _ _ hstages =>
      rw [hstages] at hsplit
      cases done with
      | nil => exact hfirst next hprepare (List.cons.inj hsplit).1.symm
      | cons first done => exact absurd (List.cons.inj hsplit).2.symm (by simp)
    | going next hprepare _ _ hstages =>
      rw [hstages] at hsplit
      cases done with
      | nil => exact hfirst next hprepare (List.cons.inj hsplit).1.symm
      | cons first done =>
        obtain ⟨rfl, hmore⟩ := List.cons.inj hsplit
        have hbefore := hprepared next (.inl hprepare)
        have hstep := Stage.develops o path ⟨number, step, next⟩
        have hmem : stage ∈ stages signal o hook (number + 1) (runStep o number step next) more := by
          rw [hmore]
          exact List.mem_append_right _ List.mem_cons_self
        have hlater := (develops_of_steps hhook 0).1 stage hmem
        obtain ⟨b, hb⟩ := hbefore.exists_read
          (hstep.trans (fun _ _ _ _ _ => trivial) hlater) hc hc'
        obtain rfl := hbefore.rel hc hb
        obtain ⟨a, ha⟩ := hstep.exists_read hlater hb hc'
        exact .cons hb ha (ih hmore ha)

theorem runUnder_contents (hhook : hook.Leaves path) {commitHook : Option CommitHook}
    {mappings : List Mapping} {d : Disk} {state : σ} {interrupt : Bool} {p : Plan}
    (hplan : plan o.engine.filter d o.roots mappings = .ok p) {st : State σ}
    (hrun : runUnder signal o hook commitHook mappings d state interrupt = .ok st)
    {holds : List (Stage σ) → Bytes → Prop}
    (hstage : ∀ done stage rest c c',
      runStages signal o hook mappings p (storeOf o d) state interrupt = done ++ stage :: rest →
      holds done c → stage.state.store.read path = .ok c →
      (runStep o stage.number stage.step stage.state).store.read path = .ok c' →
      holds (done ++ [stage]) c')
    {c c' : Bytes} (hholds : holds [] c) (hc : Store.readDisk d path = .ok c)
    (hc' : st.store.read path = .ok c') :
    holds (runStages signal o hook mappings p (storeOf o d) state interrupt) c' := by
  rw [runUnder_of_plan hplan] at hrun
  obtain rfl := Except.ok.inj hrun
  have hbefore : (begin o mappings p (storeOf o d) state interrupt).store.read path = .ok c := by
    rw [begin_store, read_storeOf]
    exact hc
  simp only [executeUnder_store] at hc'
  exact runStepsUnder_contents hhook hstage rfl hholds hbefore hc'

/-- A run leaves a file readable. -/
theorem runUnder_develops (hhook : hook.Leaves path) {commitHook : Option CommitHook}
    {mappings : List Mapping} {d : Disk} {state : σ} {interrupt : Bool} {p : Plan}
    (hplan : plan o.engine.filter d o.roots mappings = .ok p) {st : State σ}
    (hrun : runUnder signal o hook commitHook mappings d state interrupt = .ok st) :
    (storeOf o d).Develops (fun _ _ => True) path st.store := by
  rw [runUnder_of_plan hplan] at hrun
  obtain rfl := Except.ok.inj hrun
  have hsteps := (@develops_of_steps _ signal o _ _ hhook p.steps.length 1
    (begin o mappings p (storeOf o d) state interrupt) p.steps).2
  rw [begin_store] at hsteps
  simpa only [executeUnder_store] using hsteps

/-- The stages of a run lead from the content of a file before it to the one after it. -/
theorem runUnder_passage (hhook : hook.Leaves path) {commitHook : Option CommitHook}
    {mappings : List Mapping} {d : Disk} {state : σ} {interrupt : Bool} {p : Plan}
    (hplan : plan o.engine.filter d o.roots mappings = .ok p) {st : State σ}
    (hrun : runUnder signal o hook commitHook mappings d state interrupt = .ok st)
    {c c' : Bytes} (hc : Store.readDisk d path = .ok c) (hc' : st.store.read path = .ok c') :
    Passage o path (runStages signal o hook mappings p (storeOf o d) state interrupt) c c' := by
  have hstage : ∀ (done : List (Stage σ)) (stage : Stage σ) rest b b',
      runStages signal o hook mappings p (storeOf o d) state interrupt = done ++ stage :: rest →
      Passage o path done c b → stage.state.store.read path = .ok b →
      (runStep o stage.number stage.step stage.state).store.read path = .ok b' →
      Passage o path (done ++ [stage]) c b' :=
    fun done stage rest b b' _ hdone hb hb' =>
      passage_append_iff.mpr ⟨b, hdone, .cons hb hb' (.nil b')⟩
  exact runUnder_contents hhook hplan hrun hstage (Passage.nil c) hc hc'

end Batch

end SymbolRename
