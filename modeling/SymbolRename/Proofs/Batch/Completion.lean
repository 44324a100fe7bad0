import SymbolRename.Proofs.Batch.DryRun
import SymbolRename.Proofs.Batch.Stages
import SymbolRename.Proofs.Lexer.Lines
import SymbolRename.Proofs.Plan.Steps

/-!
# Errors come before any mutation

A batch fails while it is planned or not at all. Once there is a plan, its steps rename
identifiers to other identifiers and its globs can be read, so no file, no answer of the
source and no hook ends the run with an error: `Batch.run_fails_only_in_planning`.
-/

namespace SymbolRename

/-- When the globs of a filter can be read, a rename finds its files. -/
theorem Rename.exists_candidates {e : Engine} {roots : List Path} {d : Disk} {files : List Path}
    (h : Search.files e.filter roots d = .ok files) (s : Store) (name : String)
    (roots' : List Path) : ∃ paths, candidates e s name (.project roots') = .ok paths := by
  obtain ⟨includes, excludes, hin, hex, _⟩ := Search.files_eq_ok_iff.mp h
  exact ⟨_, Search.candidates_eq (Search.files_eq_ok_iff.mpr ⟨includes, excludes, hin, hex, rfl⟩)
    [name]⟩

/-- A rename that ran to its end has found its files. -/
theorem Rename.exists_candidates_of_run {e : Engine} {s : Store} {old new : String} {scope : Scope}
    (h : (run e s old new scope).stopped = none) :
    ∃ files, candidates e s old scope = .ok files := by
  rcases run_cases e s old new scope with ⟨cause, hrun⟩ | ⟨paths, hpaths, _⟩
  · rw [hrun] at h
    cases h
  · exact ⟨paths, hpaths⟩

/-- Planning reads the globs of the filter. -/
theorem Batch.exists_files_of_plan {f : Filter} {d : Disk} {roots : List Path}
    {mappings : List Mapping} {p : Plan} (h : plan f d roots mappings = .ok p) :
    ∃ files, Search.files f roots d = .ok files := by
  obtain ⟨taken, htaken, _⟩ := bind_eq_ok_iff.mp h
  obtain ⟨found, hfound, _⟩ := bind_eq_ok_iff.mp htaken
  exact Search.exists_files_of_candidates hfound rfl roots d

/-- Every step of a plan renames one identifier to another. -/
theorem Batch.proper_of_plan {f : Filter} {d : Disk} {roots : List Path}
    {mappings : List Mapping} {p : Plan} (h : plan f d roots mappings = .ok p) {step : PlanStep}
    (hstep : step ∈ p.steps) : Mapping.IsProper ⟨step.old, step.new⟩ := by
  obtain ⟨taken, _, rfl, hproper⟩ := plan_eq_ok h
  exact (Plan.sound_ofMappings hproper taken).proper hproper hstep

/-- No step ends a run with an error; the induction is on the steps that are left. -/
theorem Batch.runStepsUnder_stopped {σ : Type} {o : Options}
    (hsource : o.engine.source.StaysInLines) {roots : List Path} {d : Disk} {files : List Path}
    (hfiles : Search.files o.engine.filter roots d = .ok files) (signal : Signal)
    (hook : SnapshotHook σ) (total number : Nat) {st : State σ} (hst : st.stopped = none)
    {steps : List PlanStep} (hproper : ∀ step ∈ steps, Mapping.IsProper ⟨step.old, step.new⟩)
    (hfits : ∀ stage ∈ stages signal o hook number st steps, ∀ v ∈ stage.visits o,
      v.1.Fits stage.step.old v.2) :
    (runStepsUnder signal o hook total number st steps).stopped = none := by
  induction steps generalizing number st with
  | nil => exact hst
  | cons step rest ih =>
    have hheeding : (st.heeding (signal number)).stopped = none := hst
    generalize hnow : st.heeding (signal number) = now at hheeding
    have hprepared : ∀ next, prepare o hook number step now = .ok next → next.stopped = none := by
      intro next hnext
      have hcases := prepared o hook number step now
      rw [hnext] at hcases
      exact hcases.report.2.2.trans hheeding
    have hruns : ∀ next : State σ, next.stopped = none →
        (∀ v ∈ (⟨number, step, next⟩ : Stage σ).visits o, v.1.Fits step.old v.2) →
        (runStep o number step next).stopped = none := by
      intro next hnext hvisits
      obtain ⟨paths, hpaths⟩ := Rename.exists_candidates hfiles next.store step.old (stepRoots o)
      have hdone := Rename.run_stopped hsource (hproper step List.mem_cons_self) hpaths hvisits
      rw [runStep_stopped, hnext, Option.or_none]
      exact hdone
    cases advance signal o hook total number st step rest with
    | interrupted hrun =>
      rw [hrun]
      exact hst
    | unsaved last hprepare hrun =>
      rw [hrun]
      rw [hnow] at hprepare
      have hcases := prepared o hook number step now
      rw [hprepare] at hcases
      cases hcases with
      | unsearched _ hnone =>
        obtain ⟨paths, hpaths⟩ := Rename.exists_candidates hfiles now.store step.old (stepRoots o)
        rw [scope_eq, hpaths] at hnone
        cases hnone
      | failed => exact hheeding
    | stopped next hprepare hstopped _ hstages =>
      rw [hstages] at hfits
      rw [hnow] at hprepare
      rw [hruns next (hprepared next hprepare) (hfits _ List.mem_cons_self)] at hstopped
      cases hstopped
    | going next hprepare hstopped hrun hstages =>
      rw [hstages] at hfits
      rw [hrun]
      exact ih (number + 1) hstopped (fun s hs => hproper s (List.mem_cons_of_mem step hs))
        fun stage hstage => hfits stage (List.mem_cons_of_mem _ hstage)

/-- Every text that a run looks at is small enough to count its bytes. -/
def Batch.IsCountable {σ : Type} (signal : Signal) (o : Options) (hook : SnapshotHook σ)
    (mappings : List Mapping) (p : Plan) (store : Store) (state : σ) (interrupt : Bool) : Prop :=
  ∀ stage ∈ runStages signal o hook mappings p store state interrupt, ∀ v ∈ stage.visits o,
    v.1.Fits stage.step.old v.2

instance {σ : Type} (signal : Batch.Signal) (o : Batch.Options) (hook : SnapshotHook σ)
    (mappings : List Mapping) (p : Plan) (store : Store) (state : σ) (interrupt : Bool) :
    Decidable (Batch.IsCountable signal o hook mappings p store state interrupt) := by
  unfold Batch.IsCountable
  infer_instance

/-- A plan that was made is executed without an error. -/
theorem Batch.executeUnder_stopped {σ : Type} {o : Options}
    (hsource : o.engine.source.StaysInLines) {d : Disk} {mappings : List Mapping} {p : Plan}
    (hplan : plan o.engine.filter d o.roots mappings = .ok p) (signal : Signal)
    (hook : SnapshotHook σ) (commitHook : Option CommitHook) (store : Store) (state : σ)
    (interrupt : Bool)
    (hcountable : IsCountable signal o hook mappings p store state interrupt) :
    (executeUnder signal o hook commitHook mappings p store state interrupt).stopped = none := by
  obtain ⟨files, hfiles⟩ := exists_files_of_plan hplan
  have hbegin : (begin o mappings p store state interrupt).stopped = none := by
    obtain ⟨log, told, hbegin⟩ := exists_begin o mappings p store state interrupt
    rw [hbegin]
    rfl
  have hsteps := runStepsUnder_stopped hsource hfiles signal hook p.steps.length 1 hbegin
    (fun step hstep => proper_of_plan hplan hstep) hcountable
  unfold executeUnder
  simp only [hsteps, Option.isSome_none, Bool.false_eq_true, if_false]
  obtain ⟨log, told, hfinish⟩ := exists_finish o mappings p commitHook
    (runStepsUnder signal o hook p.steps.length 1 (begin o mappings p store state interrupt)
      p.steps)
  rw [hfinish]
  exact hsteps

/-- Errors come before any mutation. Either the planning fails, and every run ends with its
error, whatever the hooks are; or there is a plan, and no run of it ends with an error,
whatever the files, the answers of the source and of the hooks and the interrupts are. -/
theorem Batch.run_fails_only_in_planning {o : Options}
    (hsource : o.engine.source.StaysInLines) (mappings : List Mapping) (d : Disk) :
    (∃ cause, plan o.engine.filter d o.roots mappings = .error cause ∧
      ∀ {σ : Type} (signal : Signal) (hook : SnapshotHook σ) (commitHook : Option CommitHook)
        (state : σ) (interrupt : Bool),
        runUnder signal o hook commitHook mappings d state interrupt = .error cause) ∨
    ∃ p, plan o.engine.filter d o.roots mappings = .ok p ∧
      ∀ {σ : Type} (signal : Signal) (hook : SnapshotHook σ) (commitHook : Option CommitHook)
        (state : σ) (interrupt : Bool),
        (∀ store, IsCountable signal o hook mappings p store state interrupt →
          (executeUnder signal o hook commitHook mappings p store state interrupt).stopped =
            none) ∧
        ∃ st, runUnder signal o hook commitHook mappings d state interrupt = .ok st ∧
          (IsCountable signal o hook mappings p (storeOf o d) state interrupt →
            st.stopped = none) := by
  cases hplan : plan o.engine.filter d o.roots mappings with
  | error cause =>
    refine .inl ⟨cause, rfl, fun signal hook commitHook state interrupt => ?_⟩
    unfold runUnder
    rw [hplan]
    rfl
  | ok p =>
    refine .inr ⟨p, rfl, fun signal hook commitHook state interrupt =>
      ⟨fun store hcountable => ?_, ?_⟩⟩
    · exact executeUnder_stopped hsource hplan signal hook commitHook store state interrupt
        hcountable
    · refine ⟨_, runUnder_of_plan hplan, fun hcountable => ?_⟩
      exact executeUnder_stopped hsource hplan signal hook commitHook _ state interrupt hcountable

/-- A batch over one file whose hook fails, and one without mappings. -/
theorem Batch.run_fails_only_in_planning_one_file :
    (∃ st, runUnder (fun _ => false) oneFile
        (fun _ d _ _ => ⟨(), d, true, some (.io .missing), none⟩) none [⟨"foo", "bar"⟩]
        (diskWith []) () false = .ok st ∧ st.stopped = none) ∧
    ∃ cause, ∀ signal commitHook, runUnder signal oneFile SnapshotHook.nothing commitHook []
      (diskWith []) () false = .error cause := by
  constructor
  · rcases run_fails_only_in_planning (o := oneFile) Source.lexical_staysInLines [⟨"foo", "bar"⟩]
      (diskWith []) with ⟨cause, hplan, _⟩ | ⟨p, hplan, hruns⟩
    · have hok : (plan oneFile.engine.filter (diskWith []) oneFile.roots
          [⟨"foo", "bar"⟩]).toOption.isSome = true := by decide +kernel
      rw [hplan] at hok
      cases hok
    · obtain ⟨_, st, hrun, hstopped⟩ := hruns (fun _ => false)
        (fun _ d _ _ => ⟨(), d, true, some (.io .missing), none⟩) none () false
      refine ⟨st, hrun, hstopped ?_⟩
      have hall : ∀ q ∈ (plan oneFile.engine.filter (diskWith []) oneFile.roots
          [⟨"foo", "bar"⟩]).toOption, IsCountable (fun _ => false) oneFile
            (fun _ d _ _ => ⟨(), d, true, some (.io .missing), none⟩) [⟨"foo", "bar"⟩] q
            (storeOf oneFile (diskWith [])) () false := by decide +kernel
      exact hall p (by rw [hplan]; rfl)
  · rcases run_fails_only_in_planning (o := oneFile) Source.lexical_staysInLines []
      (diskWith []) with ⟨cause, _, hruns⟩ | ⟨p, hplan, _⟩
    · exact ⟨cause, fun signal commitHook => hruns signal _ commitHook () false⟩
    · have hnone : (plan oneFile.engine.filter (diskWith []) oneFile.roots
          []).toOption.isSome = false := by decide +kernel
      rw [hplan] at hnone
      cases hnone

end SymbolRename
