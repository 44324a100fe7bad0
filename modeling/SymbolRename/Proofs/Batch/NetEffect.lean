import SymbolRename.Proofs.Batch.Following
import SymbolRename.Proofs.Batch.Substitution
import SymbolRename.Proofs.Plan.Arrangement
import SymbolRename.Proofs.Preview.Words
import SymbolRename.Proofs.Rename.Changes

/-!
# What the report of a batch shows

The places of a mapping are those of the step that takes its old name away. For a mapping outside
all cycles this is the direct step, so each place shows its line before and after the old name is
replaced by the new one, and no temporary name. For a member of a cycle it is the step that writes
the temporary name, and this name is what its places show: `Batch.run_reports_net`.
-/

namespace SymbolRename

/-- The step of a plan that takes the old name of a mapping away: it writes the new name, or the
temporary name of a member of a cycle. -/
def Plan.leaving (p : Plan) (temp : Nat → String) (i : Nat) (m : Mapping) : PlanStep :=
  if i ∈ p.cycles.flatten then ⟨m.old, temp i, i, true⟩ else ⟨m.old, m.new, i, false⟩

theorem Plan.Arranged.eq_leaving {mappings : List Mapping} {taken : List String}
    {temp : Nat → String} {p : Plan} (h : p.Arranged mappings taken temp) {m : Mapping}
    {step : PlanStep} (hm : mappings[step.origin]? = some m) (hstep : step ∈ p.steps)
    (hold : step.old = m.old) : step = p.leaving temp step.origin m := by
  have hmem : step ∈ p.steps.filter (·.origin = step.origin) :=
    List.mem_filter.mpr ⟨hstep, decide_eq_true rfl⟩
  unfold leaving
  by_cases hcycle : step.origin ∈ p.cycles.flatten
  · rw [if_pos hcycle]
    rw [h.detour _ _ hm hcycle] at hmem
    rcases List.mem_cons.mp hmem with heq | hmem
    · exact heq
    · -- The step home takes the temporary name away.
      have hhome : step.old = temp step.origin :=
        congrArg PlanStep.old (List.mem_singleton.mp hmem)
      exact absurd (hhome.symm.trans hold)
        ((h.fresh _ hcycle).2 m (List.mem_of_getElem? hm)).1
  · rw [if_neg hcycle]
    rw [h.direct _ _ hm hcycle] at hmem
    exact List.mem_singleton.mp hmem

namespace Batch

variable {σ : Type} {signal : Signal} {o : Options} {hook : SnapshotHook σ}

/-! ### Where the reported places come from -/

/-- The reports of the mappings are in order, and each place of a mapping was changed by one of the
stages, in a step of this mapping that takes its old name away. -/
structure Records (o : Options) (mappings : List Mapping) (stages : List (Stage σ))
    (reports : List MappingReport) : Prop where
  names : reports.map (fun r => Mapping.mk r.old r.new) = mappings
  places : ∀ i r, reports[i]? = some r → ∀ c ∈ r.locations, ∃ stage ∈ stages,
    stage.step.origin = i ∧ stage.step.old = r.old ∧
      c ∈ (renameOf o stage.step stage.state).outcome.changes

variable {mappings : List Mapping} {done : List (Stage σ)} {reports : List MappingReport}

theorem Records.mapping (h : Records o mappings done reports) {i : Nat} {r : MappingReport}
    (hr : reports[i]? = some r) : mappings[i]? = some ⟨r.old, r.new⟩ := by
  conv_lhs => rw [← h.names, List.getElem?_map, hr]
  rfl

theorem Records.exists_report (h : Records o mappings done reports) {i : Nat} {m : Mapping}
    (hm : mappings[i]? = some m) : ∃ r, reports[i]? = some r ∧ ⟨r.old, r.new⟩ = m := by
  rw [← h.names, List.getElem?_map] at hm
  exact Option.map_eq_some_iff.mp hm

/-- What a step did is folded onto its mapping. -/
theorem Records.modify (h : Records o mappings done reports) {stage : Stage σ}
    (hstage : stage ∈ done) : Records o mappings done (reports.modify stage.step.origin
      (addToMapping · stage.step (renameOf o stage.step stage.state).outcome)) := by
  have hnames : ∀ (r : MappingReport) (outcome : Outcome),
      (addToMapping r stage.step outcome).old = r.old ∧
        (addToMapping r stage.step outcome).new = r.new := by
    intro r outcome
    unfold addToMapping
    split <;> exact ⟨rfl, rfl⟩
  refine ⟨?_, fun i r hr c hc => ?_⟩
  · rw [← h.names]
    refine List.ext_getElem? fun i => ?_
    rw [List.getElem?_map, List.getElem?_map, List.getElem?_modify]
    cases reports[i]? with
    | none => rfl
    | some r =>
      by_cases horigin : stage.step.origin = i
      · simp [horigin, hnames]
      · simp [horigin]
  · rw [List.getElem?_modify] at hr
    obtain ⟨r, hbefore, rfl⟩ := Option.map_eq_some_iff.mp hr
    by_cases horigin : stage.step.origin = i
    · rw [if_pos horigin] at hc ⊢
      rw [(hnames r _).1]
      unfold addToMapping at hc
      split at hc
      · rename_i hold
        rcases List.mem_append.mp hc with hc | hc
        · exact h.places i r hbefore c hc
        · exact ⟨stage, hstage, horigin, hold, hc⟩
      · exact h.places i r hbefore c hc
    · rw [if_neg horigin] at hc ⊢
      exact h.places i r hbefore c hc

theorem Records.runStep {number : Nat} {step : PlanStep} {st : State σ}
    (h : Records o mappings done st.report.mappings) (hstage : ⟨number, step, st⟩ ∈ done) :
    Records o mappings done (runStep o number step st).report.mappings := by
  rw [runStep_report]
  split
  · exact h
  · exact h.modify hstage

/-- Every step is recorded, and nothing else. -/
theorem Records.runStepsUnder (total : Nat) {number : Nat} {st : State σ}
    {steps : List PlanStep} (h : Records o mappings done st.report.mappings)
    (hsub : stages signal o hook number st steps ⊆ done) :
    Records o mappings done
      (runStepsUnder signal o hook total number st steps).report.mappings := by
  have hpersists : Persists o hook fun st : State σ => Records o mappings done st.report.mappings := by
    refine ⟨fun _ h => h, fun _ h => h, fun h hprepared => ?_, fun h hprepared => ?_⟩
    · rw [hprepared.report.1]
      exact h
    · cases hprepared with
      | unsearched => exact h
      | failed => exact h
  exact (hpersists.run total (fun _ hstage h => h.runStep (hsub hstage)) h).2

variable {d : Disk} {state : σ} {interrupt : Bool} {p : Plan} {commitHook : Option CommitHook}
  {st : State σ}

/-- The report of a whole run records its stages. -/
theorem runUnder_records (hplan : plan o.engine.filter d o.roots mappings = .ok p)
    (hrun : runUnder signal o hook commitHook mappings d state interrupt = .ok st) :
    Records o mappings (runStages signal o hook mappings p (storeOf o d) state interrupt)
      st.report.mappings := by
  rw [runUnder_of_plan hplan] at hrun
  obtain rfl := Except.ok.inj hrun
  have hbegin : Records o mappings
      (runStages signal o hook mappings p (storeOf o d) state interrupt)
      (begin o mappings p (storeOf o d) state interrupt).report.mappings := by
    obtain ⟨log, told, htold⟩ := exists_begin o mappings p (storeOf o d) state interrupt
    rw [htold]
    refine ⟨?_, fun i r hr c hc => ?_⟩
    · exact (List.map_map).trans (List.map_id _)
    · obtain ⟨m, _, rfl⟩ := List.mem_map.mp (List.mem_of_getElem? hr)
      exact absurd hc List.not_mem_nil
  have hlast := hbegin.runStepsUnder p.steps.length (List.Subset.refl _)
  show Records o mappings _
    (executeUnder signal o hook commitHook mappings p (storeOf o d) state interrupt).report.mappings
  unfold executeUnder
  dsimp only
  split
  · exact hlast
  · obtain ⟨log, told, hfinish⟩ := exists_finish o mappings p commitHook
      (Batch.runStepsUnder signal o hook p.steps.length 1
        (begin o mappings p (storeOf o d) state interrupt) p.steps)
    rw [hfinish]
    exact hlast

/-! ### What the places show -/

/-- A change shows what a step among the stages did to a line of a file. -/
def ShownBy (o : Options) (stages : List (Stage σ)) (step : PlanStep) (c : Change) : Prop :=
  ∃ stage ∈ stages, stage.step = step ∧ ∃ v ∈ stage.visits o, ∃ text found,
    Rename.Shows step.old step.new v text found c

/-- A run follows a file that does not hold a name before. -/
structure Lacks (signal : Signal) (o : Options) (hook : SnapshotHook σ) (mappings : List Mapping)
    (d : Disk) (state : σ) (interrupt : Bool) (p : Plan) (path : Path) (name : String) : Prop where
  follows : Follows signal o hook mappings d state interrupt p path
  missing : ∃ content, Store.readDisk d path = .ok content ∧ bytes name ∉ Bytes.words content

/-- The changes of a direct step do not show a temporary name. -/
theorem Lacks.not_mem_words {name : String} {c : Change}
    (h : Lacks signal o hook mappings d state interrupt p c.location.file name)
    (hsucceeds : ∀ stage ∈ runStages signal o hook mappings p (storeOf o d) state interrupt,
      stage.Succeeds o) (hname : name ∈ p.allocated) {step : PlanStep}
    (hshown : ShownBy o (runStages signal o hook mappings p (storeOf o d) state interrupt) step c)
    (hdirect : step.isTemp = false) (hold : step.old ∉ p.allocated)
    (hnew : step.new ∉ p.allocated) :
    bytes name ∉ Bytes.words (bytes c.before) ∧ bytes name ∉ Bytes.words (bytes c.after) := by
  obtain ⟨stage, hstage, rfl, v, hv, text, found, hshows⟩ := hshown
  obtain ⟨content, hcontent, hmissing⟩ := h.missing
  have hproper := proper_of_plan h.follows.plan
    ((map_step_stages signal o hook 1 _ p.steps).subset (List.mem_map_of_mem hstage))
  have hread : v.1.read c.location.file = .ok (bytes text) := by
    rw [hshows.file]
    exact hshows.read
  have htext : bytes name ∉ Bytes.words (bytes text) :=
    h.follows.not_mem_words_of_visit hsucceeds hstage hdirect hold hnew hv hcontent hread hname
      hmissing
  refine ⟨fun hmem => htext (hshows.mem_words_before hmem), fun hmem => ?_⟩
  rcases hshows.mem_words_after hproper hmem with hmem | heq
  · exact htext hmem
  · exact hnew (bytes_injective heq ▸ hname)

/-- The places that a report records show the steps that take the old names away. -/
theorem Records.shownBy (hsource : o.engine.source = Source.lexical)
    (hplan : plan o.engine.filter d o.roots mappings = .ok p) {taken : List String}
    {temp : Nat → String} (harranged : p.Arranged mappings taken temp)
    (h : Records o mappings (runStages signal o hook mappings p (storeOf o d) state interrupt)
      reports) {i : Nat} {r : MappingReport} (hr : reports[i]? = some r) {c : Change}
    (hc : c ∈ r.locations) :
    ShownBy o (runStages signal o hook mappings p (storeOf o d) state interrupt)
      (p.leaving temp i ⟨r.old, r.new⟩) c := by
  obtain ⟨stage, hstage, rfl, hold, hchange⟩ := h.places i r hr c hc
  have hstep := (map_step_stages signal o hook 1 _ _).subset (List.mem_map_of_mem hstage)
  have hleaving := harranged.eq_leaving (h.mapping hr) hstep hold
  obtain ⟨v, hv, text, found, hshows⟩ :=
    Rename.shows_of_mem_changes hsource (proper_of_plan hplan hstep) hchange
  exact ⟨stage, hstage, hleaving, v, hv, text, found, hleaving ▸ hshows⟩

/-- The names of mappings are not temporary. -/
theorem not_mem_allocated (hplan : plan o.engine.filter d o.roots mappings = .ok p) {m : Mapping}
    (hm : m ∈ mappings) : m.old ∉ p.allocated ∧ m.new ∉ p.allocated := by
  obtain ⟨taken, _, rfl, hproper⟩ := plan_eq_ok hplan
  have hsound := Plan.sound_ofMappings hproper taken
  exact ⟨fun hold => (hsound.fresh _ hold).1 (Plan.old_mem_names hm),
    fun hnew => (hsound.fresh _ hnew).1 (Plan.new_mem_names hm)⟩

/-- A temporary name in the preview of a report stands in the path of a file or in a line before or
after a change. -/
theorem exists_of_mem_words_batchPreview
    (hplan : plan o.engine.filter d o.roots mappings = .ok p) {stages : List (Stage σ)}
    {report : Report} (h : Records o mappings stages report.mappings) {shown : Disk}
    {text name : String} (htext : Operation.batchPreview shown .diff false report = some text)
    (hname : name ∈ p.allocated) (hmem : bytes name ∈ Bytes.words (bytes text)) :
    ∃ (i : Nat) (r : MappingReport) (c : Change), report.mappings[i]? = some r ∧
      c ∈ r.locations ∧
      (bytes name ∈ Bytes.words (bytes (Preview.shownPath shown.herePath c.location.file)) ∨
        bytes name ∈ Bytes.words (bytes c.before) ∨ bytes name ∈ Bytes.words (bytes c.after)) := by
  have hunderscore : 0x5f ∈ bytes name := by
    obtain ⟨taken, _, rfl, hproper⟩ := plan_eq_ok hplan
    obtain ⟨more, hmore⟩ := ((Plan.sound_ofMappings hproper taken).temp name hname).exists_bytes
    rw [hmore]
    exact List.mem_append_left _ (by decide +kernel)
  obtain ⟨r, hr, hword⟩ := Operation.mem_words_batchPreview htext hunderscore hmem
  obtain ⟨i, hi⟩ := List.getElem?_of_mem hr
  have hm : Mapping.mk r.old r.new ∈ mappings := List.mem_of_getElem? (h.mapping hi)
  obtain ⟨_, _, _, hproper⟩ := plan_eq_ok hplan
  obtain ⟨hold, hnew, -⟩ := hproper _ hm
  obtain ⟨holdName, hnewName⟩ := not_mem_allocated hplan hm
  rcases hword with hword | hword | ⟨c, hc, hword⟩
  · rw [Bytes.words_of_isWord (Bytes.isWord_of_isValidIdentifier hold)] at hword
    exact absurd (bytes_injective (List.mem_singleton.mp hword) ▸ hname) holdName
  · rw [Bytes.words_of_isWord (Bytes.isWord_of_isValidIdentifier hnew)] at hword
    exact absurd (bytes_injective (List.mem_singleton.mp hword) ▸ hname) hnewName
  · exact ⟨i, r, c, hi, hc, hword⟩

/-- What the report of a run shows. The places of a mapping show the step that takes its old name
away. When the run succeeds, those of a mapping outside all cycles show no temporary name, unless
the run does not follow their file or the file held this name before. So a temporary name in the
preview comes from a mapping in a cycle, from such a file, or from the path of a file. -/
structure State.ReportsNet (signal : Signal) (o : Options) (hook : SnapshotHook σ)
    (mappings : List Mapping) (d : Disk) (state : σ) (interrupt : Bool) (p : Plan)
    (temp : Nat → String) (st : State σ) : Prop where
  shows : ∀ (i : Nat) (m : Mapping), mappings[i]? = some m →
    ∃ r : MappingReport, st.report.mappings[i]? = some r ∧ r.old = m.old ∧ r.new = m.new ∧
      ∀ c ∈ r.locations, ShownBy o
        (runStages signal o hook mappings p (storeOf o d) state interrupt) (p.leaving temp i m) c
  clean : st.Succeeds → ∀ (i : Nat) (r : MappingReport), st.report.mappings[i]? = some r →
    i ∉ p.cycles.flatten → ∀ c ∈ r.locations, ∀ name ∈ p.allocated,
      Lacks signal o hook mappings d state interrupt p c.location.file name →
        bytes name ∉ Bytes.words (bytes c.before) ∧ bytes name ∉ Bytes.words (bytes c.after)
  preview : st.Succeeds → ∀ (shown : Disk) (text : String),
    Operation.batchPreview shown .diff false st.report = some text → ∀ name ∈ p.allocated,
      bytes name ∈ Bytes.words (bytes text) → ∃ (i : Nat) (r : MappingReport) (c : Change),
        st.report.mappings[i]? = some r ∧ c ∈ r.locations ∧
          (i ∈ p.cycles.flatten ∨
            ¬ Lacks signal o hook mappings d state interrupt p c.location.file name ∨
            bytes name ∈
              Bytes.words (bytes (Preview.shownPath shown.herePath c.location.file)))

/-- Every run under the lexical source reports this. -/
theorem run_reports_net (hsource : o.engine.source = Source.lexical)
    (hrun : runUnder signal o hook commitHook mappings d state interrupt = .ok st) :
    ∃ taken p temp, takenNames o.engine.filter d o.roots = .ok taken ∧
      plan o.engine.filter d o.roots mappings = .ok p ∧ p.Arranged mappings taken temp ∧
      st.ReportsNet signal o hook mappings d state interrupt p temp := by
  obtain ⟨p, hplan, -⟩ := bind_eq_ok_iff.mp hrun
  obtain ⟨taken, htaken, hp, -⟩ := plan_eq_ok hplan
  obtain ⟨temp, harranged⟩ := Plan.exists_arranged mappings taken
  rw [← hp] at harranged
  have hrecords := runUnder_records hplan hrun
  have hclean : st.Succeeds → ∀ (i : Nat) (r : MappingReport),
      st.report.mappings[i]? = some r → i ∉ p.cycles.flatten → ∀ c ∈ r.locations,
      ∀ name ∈ p.allocated,
        Lacks signal o hook mappings d state interrupt p c.location.file name →
        bytes name ∉ Bytes.words (bytes c.before) ∧ bytes name ∉ Bytes.words (bytes c.after) := by
    intro hsucceeds i r hr hopen c hc name hname hlacks
    obtain ⟨hold, hnew⟩ := not_mem_allocated hplan (List.mem_of_getElem? (hrecords.mapping hr))
    have hdirect := hrecords.shownBy hsource hplan harranged hr hc
    rw [Plan.leaving, if_neg hopen] at hdirect
    exact hlacks.not_mem_words (runUnder_succeeds hplan hrun hsucceeds).2 hname hdirect rfl hold
      hnew
  refine ⟨taken, p, temp, htaken, hplan, harranged, fun i m hm => ?_, hclean,
    fun hsucceeds shown text htext name hname hmem => ?_⟩
  · obtain ⟨r, hr, rfl⟩ := hrecords.exists_report hm
    exact ⟨r, hr, rfl, rfl, fun c hc => hrecords.shownBy hsource hplan harranged hr hc⟩
  · obtain ⟨i, r, c, hr, hc, hword⟩ :=
      exists_of_mem_words_batchPreview hplan hrecords htext hname hmem
    refine ⟨i, r, c, hr, hc, ?_⟩
    by_contra hnone
    simp only [not_or, not_not] at hnone
    obtain ⟨hopen, hlacks, hpath⟩ := hnone
    obtain ⟨hbefore, hafter⟩ := hclean hsucceeds i r hr hopen c hc name hname hlacks
    rcases hword with hword | hword | hword
    · exact hpath hword
    · exact hbefore hword
    · exact hafter hword

/-- A swap and a mapping beside it, whose change shows no temporary name. -/
theorem run_reports_net_beside_swap :
    ∃ st r, runUnder (fun _ => false) (sourceOptions [⟨"src"⟩] []) SnapshotHook.nothing none
        (swap "a" "b" ++ [⟨"c", "d"⟩]) (sourceDisk "a c b" []) () false = .ok st ∧ st.Succeeds ∧
      st.report.mappings[2]? = some r ∧
      r.locations.map (fun c => (c.before, c.after)) = [("b c a", "b d a")] ∧
      ∀ c ∈ r.locations, ∀ name ∈ (Plan.ofMappings (swap "a" "b" ++ [⟨"c", "d"⟩]) []).allocated,
        bytes name ∉ Bytes.words (bytes c.before) ∧ bytes name ∉ Bytes.words (bytes c.after) := by
  have hread : (runUnder (fun _ => false) (sourceOptions [⟨"src"⟩] []) SnapshotHook.nothing none
      (swap "a" "b" ++ [⟨"c", "d"⟩]) (sourceDisk "a c b" []) () false).toOption.map
      (fun st => (decide st.Succeeds, st.report.mappings[2]?.map fun r =>
        (r.locations.map (·.location.file), r.locations.map fun c => (c.before, c.after)))) =
      some (true, some ([⟨"src/a.js"⟩], [("b c a", "b d a")])) := by decide +kernel
  obtain ⟨st, hrun, hend⟩ := Option.map_eq_some_iff.mp hread
  obtain ⟨hsucceeds, hreport⟩ := Prod.mk.inj hend
  obtain ⟨r, hr, hlocations⟩ := Option.map_eq_some_iff.mp hreport
  obtain ⟨hfiles, hlines⟩ := Prod.mk.inj hlocations
  have hrun := toOption_eq_some_iff.mp hrun
  have hsucceeds := of_decide_eq_true hsucceeds
  obtain ⟨taken, p, temp, _, hplan, _, hnet⟩ := run_reports_net rfl hrun
  obtain rfl : Plan.ofMappings (swap "a" "b" ++ [⟨"c", "d"⟩]) [] = p := by
    refine Except.ok.inj (Eq.trans ?_ hplan)
    decide +kernel
  refine ⟨st, r, hrun, hsucceeds, hr, hlines, fun c hc name hname => ?_⟩
  refine hnet.clean hsucceeds 2 r hr (by decide +kernel) c hc name hname ?_
  have hfile : c.location.file = ⟨"src/a.js"⟩ := by
    have hmem := List.mem_map_of_mem (f := (·.location.file)) hc
    rw [hfiles] at hmem
    exact List.mem_singleton.mp hmem
  have hmissing : ∀ name ∈ (Plan.ofMappings (swap "a" "b" ++ [⟨"c", "d"⟩]) []).allocated,
      bytes name ∉ Bytes.words (bytes "a c b") := by decide +kernel
  rw [hfile]
  exact ⟨⟨hplan, rfl, by decide +kernel, fun _ _ _ _ h => h, fun _ _ _ _ => rfl,
    by decide +kernel, by decide +kernel⟩, _, by decide +kernel, hmissing name hname⟩

/-- The members of a cycle show temporary names, their own and those of others: in a dry run of a
swap no line after a change has its new name, and the preview shows a temporary name that the only
file does not hold. -/
theorem run_reports_temporary :
    ∃ st text, runUnder (fun _ => false) { sourceOptions [⟨"src"⟩] [] with dryRun := true }
        SnapshotHook.nothing none (swap "a" "b") (sourceDisk "a b" []) () false = .ok st ∧
      st.Succeeds ∧
      st.report.mappings.map (fun r => r.locations.map fun c => (c.before, c.after)) =
        [[("a b", "__refactor_tmp_1779addb_0 b")],
          [("__refactor_tmp_1779addb_0 b", "__refactor_tmp_1779addb_0 __refactor_tmp_1779addb_1")]] ∧
      "__refactor_tmp_1779addb_1" ∈ (Plan.ofMappings (swap "a" "b") []).allocated ∧
      Operation.batchPreview (sourceDisk "a b" []) .diff false st.report = some text ∧
      bytes "__refactor_tmp_1779addb_1" ∈ Bytes.words (bytes text) := by
  have hread : (runUnder (fun _ => false) { sourceOptions [⟨"src"⟩] [] with dryRun := true }
      SnapshotHook.nothing none (swap "a" "b") (sourceDisk "a b" []) () false).toOption.map
      (fun st => (decide st.Succeeds,
        st.report.mappings.map fun r => r.locations.map fun c => (c.before, c.after))) =
      some (true, [[("a b", "__refactor_tmp_1779addb_0 b")], [("__refactor_tmp_1779addb_0 b",
        "__refactor_tmp_1779addb_0 __refactor_tmp_1779addb_1")]]) := by decide +kernel
  have hpreview : ((runUnder (fun _ => false) { sourceOptions [⟨"src"⟩] [] with dryRun := true }
      SnapshotHook.nothing none (swap "a" "b") (sourceDisk "a b" []) () false).toOption.bind
      fun st => (Operation.batchPreview (sourceDisk "a b" []) .diff false st.report).map
        fun text => decide (bytes "__refactor_tmp_1779addb_1" ∈ Bytes.words (bytes text))) =
      some true := by decide +kernel
  obtain ⟨st, hrun, hend⟩ := Option.map_eq_some_iff.mp hread
  obtain ⟨hsucceeds, hlines⟩ := Prod.mk.inj hend
  rw [hrun, Option.bind_some] at hpreview
  obtain ⟨text, htext, hword⟩ := Option.map_eq_some_iff.mp hpreview
  exact ⟨st, text, toOption_eq_some_iff.mp hrun, of_decide_eq_true hsucceeds, hlines,
    by decide +kernel, htext, of_decide_eq_true hword⟩

end Batch

end SymbolRename
