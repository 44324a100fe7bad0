import SymbolRename.Proofs.Batch.NetEffect
import SymbolRename.Proofs.Batch.Recording

/-!
# The report accounts for the steps

What the steps of a batch did is folded into a report, by one rule for the places, by another for
the files, and by a third for the failures. Seen from the stages of a run, wherever it stopped, each
entry of the report is what the steps of its mapping did: `Batch.run_accounts`. The places come
from one step at most, because no temporary name is an old name.
-/

namespace SymbolRename

theorem Count.total_eq_sum (ns : List Nat) : total ns = ns.sum := by
  induction ns with
  | nil => rfl
  | cons n rest ih => rw [total, ih, List.sum_cons]

/-- A set has as many paths as the paths that it lists, apart from their spellings. -/
theorem PathSet.Lists.length_eq {s : PathSet} {paths : List Path} (h : s.Lists paths) :
    s.length = (paths.map Path.components).dedup.length := by
  have hnodup : (s.map Path.components).Nodup := by
    refine List.Pairwise.map _ (fun p q hlt heq => ?_) h.sorted
    rw [Path.compare_eq_iff.mpr (by rw [Path.same, beq_iff_eq, heq])] at hlt
    cases hlt
  have hperm : (s.map Path.components).Perm (paths.map Path.components).dedup := by
    refine (List.perm_ext_iff_of_nodup hnodup (List.nodup_dedup _)).mpr fun cs => ?_
    rw [List.mem_dedup, List.mem_map, List.mem_map]
    constructor
    · rintro ⟨q, hq, rfl⟩
      exact ⟨q, h.only hq, rfl⟩
    · rintro ⟨p, hp, rfl⟩
      obtain ⟨q, hq, hsame⟩ := h.all p hp
      exact ⟨q, hq, beq_iff_eq.mp hsame⟩
  rw [← hperm.length_eq, List.length_map]

namespace Batch

variable {σ : Type} {signal : Signal} {o : Options} {hook : SnapshotHook σ}
  {mappings : List Mapping} {done : List (Stage σ)} {r : Report} {touched : PathSet}

/-! ### The steps that ran -/

/-- What the step of a stage did. -/
def Stage.outcome (o : Options) (stage : Stage σ) : Outcome :=
  (renameOf o stage.step stage.state).outcome

/-- The files that the step of a stage rewrote, in order. -/
def Stage.rewritten (o : Options) (stage : Stage σ) : List Path :=
  Rename.rewritten o.engine stage.state.store stage.step.old stage.step.new (scope o)

/-- The step of a stage is one of this mapping and takes its old name away. -/
def Stage.leaves (i : Nat) (old : String) (stage : Stage σ) : Bool :=
  stage.step.origin = i ∧ stage.step.old = old

/-- A report and a set of files account for some stages: places are those of the steps that take
the old name of their mapping away, and files and failures are those of all steps. -/
structure Accounts (o : Options) (mappings : List Mapping) (done : List (Stage σ)) (r : Report)
    (touched : PathSet) : Prop where
  names : r.mappings.map (fun m => Mapping.mk m.old m.new) = mappings
  executed : r.stepsExecuted = done.length
  places : ∀ (i : Nat) (m : MappingReport), r.mappings[i]? = some m →
    m.locations = (done.filter (·.leaves i m.old)).flatMap (·.outcome o |>.changes) ∧
      m.changes = m.locations.length
  files : ∀ (i : Nat) (m : MappingReport), r.mappings[i]? = some m →
    m.filesTouched.Lists ((done.filter (·.step.origin = i)).flatMap (·.rewritten o))
  touched : touched.Lists (done.flatMap (·.rewritten o))
  failures : r.failures = done.flatMap fun stage =>
    (stage.outcome o).failures.map fun f => { f with mapping := some stage.step.origin }

theorem Accounts.congr (h : Accounts o mappings done r touched) {r' : Report}
    (hmappings : r'.mappings = r.mappings) (hexecuted : r'.stepsExecuted = r.stepsExecuted)
    (hfailures : r'.failures = r.failures) : Accounts o mappings done r' touched := by
  refine ⟨hmappings ▸ h.names, hexecuted.trans h.executed, fun i m hm => ?_, fun i m hm => ?_,
    h.touched, hfailures.trans h.failures⟩
  · exact h.places i m (hmappings ▸ hm)
  · exact h.files i m (hmappings ▸ hm)

/-- What a step adds to the mapping it came from. -/
theorem addToMapping_eq (m : MappingReport) (step : PlanStep) (outcome : Outcome) :
    (addToMapping m step outcome).old = m.old ∧ (addToMapping m step outcome).new = m.new ∧
      (addToMapping m step outcome).filesTouched =
        PathSet.insertAll outcome.filesTouched m.filesTouched ∧
      (addToMapping m step outcome).locations =
        m.locations ++ (if step.old = m.old then outcome.changes else []) ∧
      (addToMapping m step outcome).changes =
        m.changes + (if step.old = m.old then outcome.changes else []).length := by
  unfold addToMapping
  split <;> simp

/-- A step adds to the mapping it came from and leaves the others alone. -/
theorem getElem?_addOutcome (r : Report) (step : PlanStep) (outcome : Outcome) (i : Nat) :
    (addOutcome r step outcome).mappings[i]? =
      r.mappings[i]?.map fun m =>
        if step.origin = i then addToMapping m step outcome else m := by
  rw [addOutcome, List.getElem?_modify]
  rfl

/-- A step renames no mapping. -/
theorem names_addOutcome (r : Report) (step : PlanStep) (outcome : Outcome) :
    (addOutcome r step outcome).mappings.map (fun m => Mapping.mk m.old m.new) =
      r.mappings.map fun m => Mapping.mk m.old m.new := by
  refine List.ext_getElem? fun i => ?_
  rw [List.getElem?_map, List.getElem?_map, getElem?_addOutcome]
  cases r.mappings[i]? with
  | none => rfl
  | some m =>
    obtain ⟨hold, hnew, _⟩ := addToMapping_eq m step outcome
    by_cases horigin : step.origin = i
    · simp [horigin, hold, hnew]
    · simp [horigin]

/-- The places of a mapping after one more step. -/
theorem Accounts.places_add (h : Accounts o mappings done r touched) (stage : Stage σ) {i : Nat}
    {m : MappingReport}
    (hm : (addOutcome r stage.step (stage.outcome o)).mappings[i]? = some m) :
    m.locations = ((done ++ [stage]).filter (·.leaves i m.old)).flatMap
      (·.outcome o |>.changes) ∧ m.changes = m.locations.length := by
  rw [getElem?_addOutcome] at hm
  obtain ⟨before, hbefore, rfl⟩ := Option.map_eq_some_iff.mp hm
  obtain ⟨hlocations, hchanges⟩ := h.places i before hbefore
  obtain ⟨hold, _, _, hplaces, hcount⟩ := addToMapping_eq before stage.step (stage.outcome o)
  rw [List.filter_append, List.flatMap_append]
  by_cases horigin : stage.step.origin = i
  · rw [if_pos horigin, hplaces, hcount, hold, hchanges, ← hlocations, List.length_append]
    refine ⟨congrArg _ ?_, rfl⟩
    by_cases hleaves : stage.step.old = before.old <;> simp [Stage.leaves, horigin, hleaves]
  · rw [if_neg horigin, ← hlocations]
    exact ⟨by simp [Stage.leaves, horigin], hchanges⟩

/-- The files of a mapping after one more step. -/
theorem Accounts.files_add (h : Accounts o mappings done r touched) (stage : Stage σ)
    (hrewritten : (stage.outcome o).filesTouched.Lists (stage.rewritten o)) {i : Nat}
    {m : MappingReport}
    (hm : (addOutcome r stage.step (stage.outcome o)).mappings[i]? = some m) :
    m.filesTouched.Lists
      (((done ++ [stage]).filter (·.step.origin = i)).flatMap (·.rewritten o)) := by
  rw [getElem?_addOutcome] at hm
  obtain ⟨before, hbefore, rfl⟩ := Option.map_eq_some_iff.mp hm
  have hfiles := h.files i before hbefore
  rw [List.filter_append, List.flatMap_append]
  by_cases horigin : stage.step.origin = i
  · rw [if_pos horigin, (addToMapping_eq before stage.step _).2.2.1]
    simpa [horigin] using hfiles.insertAll hrewritten
  · rw [if_neg horigin]
    simpa [horigin] using hfiles

/-- One more step is added to what is accounted for. -/
theorem Accounts.add (h : Accounts o mappings done r touched) (stage : Stage σ)
    (hruns : (renameOf o stage.step stage.state).stopped = none) :
    Accounts o mappings (done ++ [stage]) (addOutcome r stage.step (stage.outcome o))
      (PathSet.insertAll (stage.outcome o).filesTouched touched) := by
  have hrewritten : (stage.outcome o).filesTouched.Lists (stage.rewritten o) :=
    Rename.filesTouched_run hruns
  refine ⟨(names_addOutcome _ _ _).trans h.names, ?_, fun i m => h.places_add stage,
    fun i m => h.files_add stage hrewritten, ?_, ?_⟩
  · rw [addOutcome, List.length_append, h.executed]
    rfl
  · rw [List.flatMap_append, List.flatMap_singleton]
    exact h.touched.insertAll hrewritten
  · rw [addOutcome, h.failures, List.flatMap_append, List.flatMap_singleton]

/-- The steps of a run are added one by one; the induction is on the steps that are left. -/
theorem Accounts.runStepsUnder (total : Nat) {number : Nat} {st : State σ}
    {steps : List PlanStep} (h : Accounts o mappings done st.report st.touched)
    (hend : (runStepsUnder signal o hook total number st steps).stopped = none) :
    Accounts o mappings (done ++ stages signal o hook number st steps)
      (runStepsUnder signal o hook total number st steps).report
      (runStepsUnder signal o hook total number st steps).touched := by
  induction steps generalizing number st done with
  | nil => simpa [stages, Batch.runStepsUnder] using h
  | cons step rest ih =>
    have hprepared := prepared o hook number step (st.heeding (signal number))
    cases advance signal o hook total number st step rest with
    | interrupted hrun hstages =>
      rw [hrun, hstages, List.append_nil]
      exact h.congr rfl rfl rfl
    | unsaved last hprepare hrun hstages =>
      rw [hrun] at hend ⊢
      rw [hstages, List.append_nil]
      rw [hprepare] at hprepared
      cases hprepared with
      | unsearched => cases hend
      | failed => exact h.congr rfl rfl rfl
    | stopped next hprepare hstopped hrun =>
      rw [hrun] at hend
      rw [hend] at hstopped
      cases hstopped
    | going next hprepare hgoing hrun hstages =>
      rw [hrun] at hend ⊢
      rw [hstages, List.append_cons]
      rw [hprepare] at hprepared
      obtain ⟨hreport, htouched, _⟩ : next.report = st.report ∧ next.touched = st.touched ∧
        next.stopped = st.stopped := hprepared.report
      have hruns : (renameOf o step next).stopped = none := by
        rw [runStep_stopped] at hgoing
        exact (Option.or_eq_none_iff.mp hgoing).1
      rw [← hreport, ← htouched] at h
      refine ih ?_ hend
      rw [runStep_report, runStep_touched, hruns]
      exact h.add ⟨number, step, next⟩ hruns

theorem State.report_warned (st : State σ) (heading : String) (warnings : List String) :
    (warnings.foldl (State.warn · heading ·) st).report =
      { st.report with warnings := st.report.warnings ++ warnings } := by
  induction warnings generalizing st with
  | nil => rw [List.foldl_nil, List.append_nil]
  | cons warning rest ih => rw [List.foldl_cons, ih, State.warn_report, List.append_assoc]; rfl

/-- The warning about a name that was not found. -/
def notFoundWarning (old : String) : String := s!"'{old}' was not found"

/-- Summing up tells which names were not found, and how a commit failed. -/
theorem exists_finish_report (o : Options) (mappings : List Mapping) (p : Plan)
    (commitHook : Option CommitHook) (st : State σ) :
    ∃ commit, (commit = [] ∨ ∃ fault : String, commit = [s!"commit failed: {fault}"]) ∧
      (finish o mappings p commitHook st).report =
        { total st.report st.touched with
          warnings := st.report.warnings ++ (if st.report.interrupted then []
            else (notFound (total st.report st.touched)).map notFoundWarning) ++ commit } := by
  have hsummed : st.summed.report = { total st.report st.touched with
      warnings := st.report.warnings ++ if st.report.interrupted then []
        else (notFound (total st.report st.touched)).map notFoundWarning } := by
    unfold State.summed
    dsimp only
    have hsame : (total st.report st.touched).interrupted = st.report.interrupted := rfl
    rw [hsame]
    split
    · rw [List.append_nil]
      rfl
    · have hwarned := State.report_warned { st with report := total st.report st.touched } "WARNING"
        ((notFound (total st.report st.touched)).map notFoundWarning)
      rwa [List.foldl_map] at hwarned
  rw [finish_eq, State.note_report]
  unfold State.committed
  split
  · rename_i hook message files _
    unfold commit
    split
    · exact ⟨[], .inl rfl, by rw [State.note_report, hsummed, List.append_nil]⟩
    · exact ⟨_, .inr ⟨_, rfl⟩, by rw [State.warn_report, hsummed]⟩
  · exact ⟨[], .inl rfl, by rw [hsummed, List.append_nil]⟩

/-- The mappings whose names were not found, in order. -/
theorem exists_notFound {r : Report}
    (hnames : r.mappings.map (fun m => Mapping.mk m.old m.new) = mappings) :
    ∃ missing : List Nat, missing.Pairwise (· < ·) ∧
      (∀ i, i ∈ missing ↔ ∃ m, r.mappings[i]? = some m ∧ m.changes = 0 ∧
        ∀ f ∈ r.failures, f.mapping ≠ some i) ∧
      (notFound r).map notFoundWarning =
        missing.filterMap fun i => mappings[i]?.map fun m => notFoundWarning m.old := by
  let hits := r.mappings.zipIdx.filter fun hit =>
    hit.1.changes == 0 && !r.failures.any (·.mapping == some hit.2)
  have hget : ∀ hit ∈ hits, r.mappings[hit.2]? = some hit.1 := fun hit hhit =>
    List.mem_zipIdx_iff_getElem?.mp (List.mem_of_mem_filter hhit)
  refine ⟨hits.map Prod.snd, ?_, fun i => ?_, ?_⟩
  · have hsub : (hits.map Prod.snd).Sublist (r.mappings.zipIdx.map Prod.snd) :=
      List.filter_sublist.map _
    refine List.Pairwise.sublist hsub ?_
    rw [List.zipIdx_map_snd]
    exact List.pairwise_lt_range'
  · simp only [hits, List.mem_map, List.mem_filter, Prod.exists, List.mem_zipIdx_iff_getElem?,
      Bool.and_eq_true, beq_iff_eq, Bool.not_eq_true', List.any_eq_false, ne_eq, and_assoc]
    constructor
    · rintro ⟨m, _, hm, hchanges, hfailures, rfl⟩
      exact ⟨m, hm, hchanges, hfailures⟩
    · rintro ⟨m, hm, hchanges, hfailures⟩
      exact ⟨m, i, hm, hchanges, hfailures, rfl⟩
  · rw [List.filterMap_map, notFound, List.map_map]
    symm
    rw [← List.filterMap_eq_map]
    refine List.filterMap_congr fun hit hhit => ?_
    rw [← hnames, Function.comp_apply, List.getElem?_map, hget hit hhit]
    rfl

/-! ### Whole runs -/

/-- What a report says about the steps that ran, which are the first ones of the plan and all of
them unless the run was interrupted. Files are told apart by their paths, however these are
spelled. -/
structure IsAccounted (o : Options) (mappings : List Mapping) (p : Plan) (done : List (Stage σ))
    (r : Report) : Prop where
  steps : done.map (·.step) <+: p.steps
  complete : r.interrupted = false → done.map (·.step) = p.steps
  executed : r.stepsExecuted = done.length
  names : r.mappings.map (fun m => Mapping.mk m.old m.new) = mappings
  /-- The changes of a mapping are those of the one step that takes its old name away, if it ran. -/
  changes : ∀ (i : Nat) (m : MappingReport), r.mappings[i]? = some m →
    (done.filter (·.leaves i m.old) = [] ∧ m.locations = [] ∧ m.changes = 0) ∨
      ∃ stage, done.filter (·.leaves i m.old) = [stage] ∧
        m.locations = (stage.outcome o).changes ∧ m.changes = (stage.outcome o).changes.length
  /-- The files of a mapping are those that its steps rewrote, in order and each once. -/
  files : ∀ (i : Nat) (m : MappingReport), r.mappings[i]? = some m →
    m.filesTouched.Lists ((done.filter (·.step.origin = i)).flatMap (·.rewritten o))
  totalChanges : r.totalChanges = (r.mappings.map (·.changes)).sum
  totalFiles : r.totalFiles = ((done.flatMap (·.rewritten o)).map Path.components).dedup.length
  failures : r.failures = done.flatMap fun stage =>
    (stage.outcome o).failures.map fun f => { f with mapping := some stage.step.origin }
  /-- Besides ambiguities and a commit that failed, the warnings of a run that was not interrupted
  tell which names were not found: those of the mappings without changes and without failures. -/
  warnings : r.interrupted = false → ∃ (missing : List Nat) (commit : List String),
    missing.Pairwise (· < ·) ∧
    (∀ i, i ∈ missing ↔ ∃ m, r.mappings[i]? = some m ∧ m.changes = 0 ∧
      ∀ f ∈ r.failures, f.mapping ≠ some i) ∧
    (commit = [] ∨ ∃ fault : String, commit = [s!"commit failed: {fault}"]) ∧
    r.warnings = p.ambiguities.map (ambiguityWarning mappings) ++
      missing.filterMap (fun i => mappings[i]?.map fun m => notFoundWarning m.old) ++ commit

variable {d : Disk} {state : σ} {interrupt : Bool} {p : Plan} {commitHook : Option CommitHook}
  {st : State σ}

/-- Among the first steps of a plan at most one takes the old name of a mapping away. -/
theorem length_filter_leaves {taken : List String} {temp : Nat → String}
    (harranged : p.Arranged mappings taken temp) (hsteps : done.map (·.step) <+: p.steps) {i : Nat}
    {m : Mapping} (hm : mappings[i]? = some m) :
    (done.filter (·.leaves i m.old)).length ≤ 1 := by
  have hmap : (done.filter (·.leaves i m.old)).map (·.step) =
      ((done.map (·.step)).filter (·.origin = i)).filter (·.old = m.old) := by
    rw [List.filter_filter, List.filter_map]
    refine congrArg _ (List.filter_congr fun stage _ => ?_)
    simp [Stage.leaves, Bool.and_comm]
  have hsub : ((done.filter (·.leaves i m.old)).map (·.step)).Sublist
      ((p.steps.filter (·.origin = i)).filter (·.old = m.old)) := by
    rw [hmap]
    exact (hsteps.sublist.filter _).filter _
  have hle := hsub.length_le
  rw [List.length_map] at hle
  refine hle.trans ?_
  by_cases hcycle : i ∈ p.cycles.flatten
  · have hhome : temp i ≠ m.old := ((harranged.fresh i hcycle).2 m (List.mem_of_getElem? hm)).1
    simp [harranged.detour i m hm hcycle, hhome]
  · simp [harranged.direct i m hm hcycle]

/-- The report is summed up from what the steps did. -/
theorem Accounts.finish {taken : List String} {temp : Nat → String}
    (harranged : p.Arranged mappings taken temp)
    (h : Accounts o mappings done st.report st.touched) (hsteps : done.map (·.step) <+: p.steps)
    (hcomplete : st.report.interrupted = false → done.map (·.step) = p.steps ∧
      st.report.warnings = p.ambiguities.map (ambiguityWarning mappings))
    (commitHook : Option CommitHook) :
    IsAccounted o mappings p done (finish o mappings p commitHook st).report := by
  obtain ⟨commit, hcommit, hreport⟩ := exists_finish_report o mappings p commitHook st
  rw [hreport]
  refine ⟨hsteps, fun hquiet => (hcomplete hquiet).1, h.executed, h.names, fun i m hm => ?_,
    h.files, Count.total_eq_sum _, h.touched.length_eq, h.failures, fun hquiet => ?_⟩
  · obtain ⟨hlocations, hchanges⟩ := h.places i m hm
    have hmapping : mappings[i]? = some ⟨m.old, m.new⟩ := by
      have hm : st.report.mappings[i]? = some m := hm
      rw [← h.names, List.getElem?_map, hm]
      rfl
    have hone := length_filter_leaves harranged hsteps hmapping
    rw [hchanges, hlocations]
    rcases Nat.le_one_iff_eq_zero_or_eq_one.mp hone with hone | hone
    · rw [List.length_eq_zero_iff.mp hone]
      exact .inl ⟨rfl, rfl, rfl⟩
    · obtain ⟨stage, hstage⟩ := List.length_eq_one_iff.mp hone
      rw [hstage, List.flatMap_singleton]
      exact .inr ⟨stage, rfl, rfl, rfl⟩
  · have hquiet : st.report.interrupted = false := hquiet
    have hnames : (total st.report st.touched).mappings.map (fun m => Mapping.mk m.old m.new) =
        mappings := h.names
    obtain ⟨missing, hascend, hmissing, hwarnings⟩ := exists_notFound hnames
    refine ⟨missing, commit, hascend, hmissing, hcommit, ?_⟩
    rw [← hwarnings, ← (hcomplete hquiet).2, hquiet]
    rfl

end Batch

end SymbolRename
