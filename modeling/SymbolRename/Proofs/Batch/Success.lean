import SymbolRename.Proofs.Batch.Stages

/-!
# Batches without failures

A batch that ran to its end and reports no failure started every step of its plan, and no file
failed in any of them: `Batch.runUnder_succeeds`.
-/

namespace SymbolRename.Batch

variable {σ : Type} {signal : Signal} {o : Options} {hook : SnapshotHook σ}

/-- The batch ended without an error, ran to its end and reports no failure. -/
structure State.Succeeds (st : State σ) : Prop where
  stopped : st.stopped = none
  complete : st.report.interrupted = false
  failures : st.report.failures = []

/-- The step of a stage ran to its end, and no file failed in it. -/
structure Stage.Succeeds (o : Options) (stage : Stage σ) : Prop where
  stopped : (renameOf o stage.step stage.state).stopped = none
  failures : (renameOf o stage.step stage.state).outcome.failures = []

/-- A step after which nothing has failed has met no failure itself. -/
theorem Stage.Succeeds.of_runStep {stage : Stage σ}
    (hstopped : (runStep o stage.number stage.step stage.state).stopped = none)
    (hfailures : (runStep o stage.number stage.step stage.state).report.failures = []) :
    stage.Succeeds o ∧ stage.state.report.failures = [] := by
  rw [runStep_stopped, Option.or_eq_none_iff] at hstopped
  rw [runStep_report, hstopped.1] at hfailures
  obtain ⟨hbefore, hown⟩ := List.append_eq_nil_iff.mp hfailures
  exact ⟨⟨hstopped.1, List.map_eq_nil_iff.mp hown⟩, hbefore⟩

/-- Steps that succeed were all started, and each succeeds; the induction is on the steps that
are left. -/
theorem runStepsUnder_succeeds {total number : Nat} {st : State σ} {steps : List PlanStep}
    (h : (runStepsUnder signal o hook total number st steps).Succeeds) :
    st.report.failures = [] ∧ (stages signal o hook number st steps).map (·.step) = steps ∧
      ∀ stage ∈ stages signal o hook number st steps, stage.Succeeds o := by
  induction steps generalizing number st with
  | nil => exact ⟨h.failures, rfl, fun stage hstage => absurd hstage List.not_mem_nil⟩
  | cons step rest ih =>
    have hprepared := prepared o hook number step (st.heeding (signal number))
    cases advance signal o hook total number st step rest with
    | interrupted hrun =>
      have hcomplete := h.complete
      rw [hrun] at hcomplete
      cases hcomplete
    | unsaved last hprepare hrun =>
      rw [hprepare] at hprepared
      rw [hrun] at h
      cases hprepared with
      | unsearched => cases h.stopped
      | failed => cases h.complete
    | stopped next _ hstopped hrun =>
      rw [hrun] at h
      rw [h.stopped] at hstopped
      cases hstopped
    | going next hprepare hstopped hrun hstages =>
      rw [hprepare] at hprepared
      rw [hrun] at h
      have hreport : next.report = st.report := hprepared.report.1
      obtain ⟨hfailures, hsteps, hall⟩ := ih h
      obtain ⟨hstage, hbefore⟩ : (⟨number, step, next⟩ : Stage σ).Succeeds o ∧
          next.report.failures = [] :=
        Stage.Succeeds.of_runStep hstopped hfailures
      rw [hstages]
      exact ⟨hreport ▸ hbefore, congrArg (step :: ·) hsteps, List.forall_mem_cons.mpr ⟨hstage, hall⟩⟩

/-- A run that succeeds started all steps of its plan, and each succeeded. -/
theorem runUnder_succeeds {commitHook : Option CommitHook} {mappings : List Mapping} {d : Disk}
    {state : σ} {interrupt : Bool} {p : Plan}
    (hplan : plan o.engine.filter d o.roots mappings = .ok p) {st : State σ}
    (hrun : runUnder signal o hook commitHook mappings d state interrupt = .ok st)
    (h : st.Succeeds) :
    (runStages signal o hook mappings p (storeOf o d) state interrupt).map (·.step) = p.steps ∧
      ∀ stage ∈ runStages signal o hook mappings p (storeOf o d) state interrupt,
        stage.Succeeds o := by
  rw [runUnder_of_plan hplan] at hrun
  obtain rfl := Except.ok.inj hrun
  have hlast : (runStepsUnder signal o hook p.steps.length 1
      (begin o mappings p (storeOf o d) state interrupt) p.steps).Succeeds := by
    have hexecuted : (executeUnder signal o hook commitHook mappings p (storeOf o d) state
        interrupt).Succeeds := ⟨h.stopped, h.complete, h.failures⟩
    unfold executeUnder at hexecuted
    generalize runStepsUnder signal o hook p.steps.length 1
      (begin o mappings p (storeOf o d) state interrupt) p.steps = last at hexecuted
    by_cases hsome : last.stopped.isSome = true
    · rwa [if_pos hsome] at hexecuted
    · obtain ⟨log, told, hfinish⟩ := exists_finish o mappings p commitHook last
      rw [if_neg hsome, hfinish] at hexecuted
      exact ⟨hexecuted.stopped, hexecuted.complete, hexecuted.failures⟩
  exact (runStepsUnder_succeeds hlast).2

end SymbolRename.Batch
