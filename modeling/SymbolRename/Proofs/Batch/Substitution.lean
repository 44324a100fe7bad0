import SymbolRename.Proofs.Batch.DryRun
import SymbolRename.Proofs.Batch.TakenNames
import SymbolRename.Proofs.Plan.Words

/-!
# A batch replaces all words of code at once

A batch over texts of languages whose words stand apart replaces every word of code by the
target of its name, all at once. After each step of a dry run the files are the original
ones with the replayed words; the planned steps take every word to its target; and a real
run does what the dry run does.
-/

namespace SymbolRename

/-- The files of a batch have these contents, texts of languages whose words stand apart;
each is spelled one way, and while the steps run the search reaches all of them. -/
structure Batch.Readable (f : Filter) (d : Disk) (files : List Path) (p : Plan)
    (content : Path → Bytes) : Prop where
  spelled : ∀ path ∈ files, d.SpelledOnce files path
  reads : ∀ path ∈ files, Store.readDisk d path = .ok (content path)
  plain : ∀ path ∈ files, (Language.ofPath path).IsPlain = true
  text : ∀ path ∈ files, Utf8.IsText (content path)
  reached : ∀ steps, steps <+: p.steps → ∀ path ∈ files,
    Search.Reaches f (path.substitute (Plan.replayWord steps) (content path))

/-- A safe plan whose temporary names are no words of code in the files. -/
structure Batch.Planned (files : List Path) (mappings : List Mapping) (taken : List String)
    (p : Plan) (content : Path → Bytes) : Prop where
  proper : ∀ m ∈ mappings, m.IsProper
  safe : Plan.Safe mappings p
  sound : Plan.Sound mappings taken p
  unused : ∀ name ∈ p.allocated, ∀ path ∈ files, bytes name ∉ path.codeWords (content path)

/-- How often the files use the old name of a mapping that is the first with it; the others
have no uses. -/
def Mapping.uses (mappings : List Mapping) (files : List Path) (content : Path → Bytes) (i : Nat)
    (m : Mapping) : Nat :=
  if firstFor mappings m.old = some i then
    ∑ path ∈ files.toFinset, (path.codeWords (content path)).count (bytes m.old)
  else 0

/-! ### Contents on the way -/

theorem Path.substitute_nil (path : Path) (content : Bytes) :
    path.substitute (Plan.replayWord []) content = content :=
  Lexer.substitute_eq_self fun _ _ => rfl

section

variable {o : Batch.Options} {f : Filter} {d : Disk} {files : List Path}
  {mappings : List Mapping} {taken : List String} {p : Plan} {content : Path → Bytes}

theorem Batch.Planned.proper_of_mem (h : Planned files mappings taken p content)
    {steps : List PlanStep} (hsteps : steps <+: p.steps) {step : PlanStep} (hstep : step ∈ steps) :
    Mapping.IsProper ⟨step.old, step.new⟩ :=
  h.sound.proper h.proper (hsteps.subset hstep)

/-- The next step renames in what the steps before it made of a file. -/
theorem Batch.Planned.substitute_concat (h : Planned files mappings taken p content)
    (hread : Readable f d files p content) {before : List PlanStep} {step : PlanStep}
    (hsteps : before ++ [step] <+: p.steps) {path : Path} (hpath : path ∈ files) :
    path.substitute (Plan.replayWord (before ++ [step])) (content path) =
      Rename.renamed step.old step.new path
        (path.substitute (Plan.replayWord before) (content path)) := by
  have hwords : Bytes.MapsWords (Plan.replayWord before) := Plan.mapsWords_replayWord
    fun other hother => (h.proper_of_mem hsteps (List.mem_append_left _ hother)).2.1
  unfold Rename.renamed Path.substitute
  rw [Lexer.substitute_substitute (Language.plain_syntactics (hread.plain path hpath)) hwords]
  refine Lexer.substitute_congr fun w _ => ?_
  rw [Plan.replayWord_concat]

/-- What the steps make of a text is a text; the induction is on the last step. -/
theorem Batch.Planned.isText_substitute (h : Planned files mappings taken p content)
    (hread : Readable f d files p content) {steps : List PlanStep} (hsteps : steps <+: p.steps)
    {path : Path} (hpath : path ∈ files) :
    Utf8.IsText (path.substitute (Plan.replayWord steps) (content path)) := by
  induction steps using List.reverseRecOn with
  | nil =>
    rw [Path.substitute_nil]
    exact hread.text path hpath
  | append_singleton before step ih =>
    have hnames := h.proper_of_mem hsteps (List.mem_append_right _ List.mem_cons_self)
    have hne : bytes step.old ≠ [] := fun heq =>
      ne_empty_of_isValidIdentifier hnames.1 (bytes_eq_nil_iff.mp heq)
    rw [h.substitute_concat hread hsteps hpath]
    exact Lexer.isText_substitute hne (lt_of_isValidIdentifier hnames.1)
      (lt_of_isValidIdentifier hnames.2.1) (ih ((List.prefix_append before [step]).trans hsteps))

theorem Batch.Planned.legible (h : Planned files mappings taken p content)
    (hread : Readable f d files p content) {steps : List PlanStep} (hsteps : steps <+: p.steps)
    {path : Path} (hpath : path ∈ files) :
    Rename.Legible f path
      (path.substitute (Plan.replayWord steps) (content path)) :=
  ⟨hread.reached steps hsteps path hpath, hread.plain path hpath,
    h.isText_substitute hread hsteps hpath⟩

/-- A step that takes the old name of its mapping away replaces all uses of this name in the
original files, if the mapping is the first with it. -/
theorem Batch.Planned.sum_uses (h : Planned files mappings taken p content)
    (hread : Readable f d files p content) {before after : List PlanStep} {step : PlanStep}
    (hsplit : p.steps = before ++ step :: after) {m : Mapping}
    (hm : mappings[step.origin]? = some m) :
    ∑ path ∈ files.toFinset, Rename.uses step.old path
        (path.substitute (Plan.replayWord before) (content path)) =
      m.uses mappings files content step.origin := by
  have hprefix : before <+: p.steps := hsplit ▸ List.prefix_append before (step :: after)
  have hwords : Bytes.MapsWords (Plan.replayWord before) := Plan.mapsWords_replayWord
    fun other hother => (h.proper_of_mem hprefix hother).2.1
  have hcount : ∀ path ∈ files.toFinset, Rename.uses step.old path
        (path.substitute (Plan.replayWord before) (content path)) =
      if Mapping.firstFor mappings m.old = some step.origin then
        (path.codeWords (content path)).count (bytes m.old)
      else 0 := by
    intro path hpath
    have hmem := List.mem_toFinset.mp hpath
    have hsyn := Language.plain_syntactics (hread.plain path hmem)
    have hcode : path.codeWords (path.substitute (Plan.replayWord before) (content path)) =
        (path.codeWords (content path)).map (Plan.replayWord before) :=
      Lexer.codeWords_substitute hsyn hwords _
    rw [Rename.uses, hcode]
    exact h.safe.count_replayWord hsplit hm fun name hname => h.unused name hname path hmem
  rw [Finset.sum_congr rfl hcount, Mapping.uses]
  split
  · rfl
  · exact Finset.sum_const_zero

/-- The whole plan takes every word of code to its target. -/
theorem Batch.Planned.substitute_steps (h : Planned files mappings taken p content) {path : Path}
    (hpath : path ∈ files) :
    path.substitute (Plan.replayWord p.steps) (content path) =
      path.substitute (Mapping.targetWord mappings) (content path) := by
  refine Lexer.substitute_congr fun w hw => h.safe.replayWord fun name hname heq => ?_
  exact h.unused name hname path hpath (heq ▸ hw)

/-! ### The steps of a dry run -/

/-- A batch that has run some steps: the files have the replayed words, nothing failed, and
the changes of each mapping are its uses, counted for each step that took its old name. -/
structure Batch.State.Replaced {σ : Type} (mappings : List Mapping) (d : Disk)
    (files : List Path) (content : Path → Bytes) (steps : List PlanStep) (st : State σ) :
    Prop where
  store : st.store.Views d files fun path => path.substitute (Plan.replayWord steps) (content path)
  running : st.interrupt = false
  stopped : st.stopped = none
  completes : st.report.interrupted = false
  failures : st.report.failures = []
  changes : ∀ i m, mappings[i]? = some m → ∃ r, st.report.mappings[i]? = some r ∧
    r.old = m.old ∧ r.changes =
      steps.countP (PlanStep.Takes i m.old) * m.uses mappings files content i

/-- Telling changes nothing of this. -/
theorem Batch.State.Replaced.telling {σ : Type} {steps : List PlanStep}
    {st : State σ} (h : Replaced mappings d files content steps st) (log warnings : List String) :
    Replaced mappings d files content steps (st.telling log warnings) :=
  ⟨h.store, h.running, h.stopped, h.completes, h.failures, h.changes⟩

/-- The mapping of a step is credited with the changes of the step when the step takes its
old name away. -/
theorem Batch.addToMapping_changes (r : MappingReport) (step : PlanStep) (outcome : Outcome) :
    (addToMapping r step outcome).old = r.old ∧
      (addToMapping r step outcome).changes =
        if step.old = r.old then r.changes + outcome.changes.length else r.changes := by
  unfold addToMapping
  split
  · exact ⟨rfl, rfl⟩
  · exact ⟨rfl, rfl⟩

/-- One step more. -/
theorem Batch.State.Replaced.runStep {σ : Type} (hplanned : Planned files mappings taken p content)
    (hread : Readable o.engine.filter d files p content) (hsource : o.engine.source = Source.lexical)
    (hlooks : Search.files o.engine.filter (stepRoots o) d = .ok files)
    {before after : List PlanStep} {step : PlanStep} (hsplit : p.steps = before ++ step :: after)
    {st : State σ} (h : Replaced mappings d files content before st) (number : Nat) :
    Replaced mappings d files content (before ++ [step])
      (Batch.runStep o number step st) := by
  have hprefix : before ++ [step] <+: p.steps := ⟨after, by rw [hsplit]; simp⟩
  have hbefore : before <+: p.steps := (List.prefix_append before [step]).trans hprefix
  have hnames := hplanned.proper_of_mem hprefix (List.mem_append_right _ List.mem_cons_self)
  have hfile : ∀ path ∈ files, d.isFile path = true := by
    intro path hpath
    obtain ⟨_, _, hopen⟩ := Store.readDisk_eq_open?.mp (hread.reads path hpath)
    exact Disk.isFile_iff.mpr ⟨_, _, _, hopen⟩
  have hrun : (renameOf o step st).Views d files _ _ :=
    h.store.run hsource hread.spelled hfile hnames hlooks
      fun path hpath => hplanned.legible hread hbefore hpath
  have hgain : ∀ m, mappings[step.origin]? = some m →
      (renameOf o step st).outcome.changes.length =
        m.uses mappings files content step.origin :=
    fun m hm => hrun.changes.trans (hplanned.sum_uses hread hsplit hm)
  have hreport : (Batch.runStep o number step st).report =
      addOutcome st.report step (renameOf o step st).outcome := by
    rw [runStep_report, hrun.stopped]
    rfl
  refine ⟨?_, by rw [runStep_interrupt]; exact h.running, ?_, ?_, ?_, fun i m hm => ?_⟩
  · rw [runStep_store]
    exact hrun.store.congr fun path hpath => (hplanned.substitute_concat hread hprefix hpath).symm
  · rw [runStep_stopped, hrun.stopped, h.stopped]
    rfl
  · rw [hreport]
    exact h.completes
  · rw [hreport]
    simp [addOutcome, h.failures, hrun.failures]
  · obtain ⟨r, hr, hold, hchanges⟩ := h.changes i m hm
    have hmodify : (Batch.runStep o number step st).report.mappings[i]? = some
        (if step.origin = i then addToMapping r step (renameOf o step st).outcome else r) := by
      rw [hreport]
      simp only [addOutcome, List.getElem?_modify, hr]
      rfl
    refine ⟨_, hmodify, ?_⟩
    rw [List.countP_append, List.countP_singleton, Nat.add_mul, ← hchanges]
    by_cases horigin : step.origin = i
    · subst horigin
      obtain ⟨hold', hchanges'⟩ := addToMapping_changes r step (renameOf o step st).outcome
      rw [if_pos rfl, hold', hchanges', hold, hgain m hm]
      refine ⟨rfl, ?_⟩
      by_cases htakes : step.old = m.old
      · have : PlanStep.Takes step.origin m.old step := ⟨rfl, htakes⟩
        simp [this, htakes]
      · have : ¬ PlanStep.Takes step.origin m.old step := fun h => htakes h.2
        simp [this, htakes]
    · have : ¬ PlanStep.Takes i m.old step := fun h => horigin h.1
      simp [this, horigin, hold]

/-- All steps of a dry run; the induction is on the steps that are left. -/
theorem Batch.State.Replaced.runSteps {σ : Type} (ho : o.dryRun = true)
    (hplanned : Planned files mappings taken p content)
    (hread : Readable o.engine.filter d files p content) (hsource : o.engine.source = Source.lexical)
    (hlooks : Search.files o.engine.filter (stepRoots o) d = .ok files)
    {before after : List PlanStep} (hsplit : p.steps = before ++ after)
    {st : State σ} (h : Replaced mappings d files content before st)
    (hook : SnapshotHook σ) (total number : Nat) :
    Replaced mappings d files content p.steps
      (Batch.runSteps o hook total number st after) := by
  induction after generalizing before st number with
  | nil =>
    rw [hsplit, List.append_nil]
    exact h
  | cons step rest ih =>
    have hstep := h.runStep hplanned hread hsource hlooks hsplit number
    simp only [Batch.runSteps, h.running, Bool.false_eq_true, if_false, prepare_dry ho,
      hstep.stopped, Option.isSome_none]
    exact ih (by rw [hsplit]; simp) hstep (number + 1)

/-- A dry run of the plan. -/
theorem Batch.State.Replaced.execute {σ : Type} (ho : o.dryRun = true)
    (hplanned : Planned files mappings taken p content)
    (hread : Readable o.engine.filter d files p content) (hsource : o.engine.source = Source.lexical)
    (hlooks : Search.files o.engine.filter (stepRoots o) d = .ok files)
    (hook : SnapshotHook σ) (commitHook : Option CommitHook) (state : σ) :
    Replaced mappings d files content p.steps
      (Batch.execute o hook commitHook mappings p (storeOf o d) state false) := by
  have hbegin : Replaced mappings d files content []
      (begin o mappings p (storeOf o d) state false) := by
    obtain ⟨log, told, htold⟩ := exists_begin o mappings p (storeOf o d) state false
    rw [htold]
    refine State.Replaced.telling ?_ log told
    refine ⟨⟨rfl, rfl, rfl, by simp [storeOf, ho], fun path hpath => ?_, fun path _ _ => ?_⟩,
      rfl, rfl, rfl, rfl, fun i m hm => ?_⟩
    · rw [Path.substitute_nil, ← hread.reads path hpath]
      simp [storeOf, ho, Store.read, Overlay.content?]
    · simp [storeOf, ho, Store.read, Overlay.content?]
    · exact ⟨{ old := m.old, new := m.new }, by simp [hm], rfl, by simp⟩
  have hsteps := hbegin.runSteps ho hplanned hread hsource hlooks (List.nil_append p.steps).symm
    hook p.steps.length 1
  unfold Batch.execute
  simp only [hsteps.stopped, Option.isSome_none, Bool.false_eq_true, if_false]
  obtain ⟨log, told, htold⟩ := exists_finish o mappings p commitHook (Batch.runSteps o hook
    p.steps.length 1 (begin o mappings p (storeOf o d) state false) p.steps)
  rw [htold]
  refine State.Replaced.telling ?_ log told
  exact ⟨hsteps.store, hsteps.running, hsteps.stopped, hsteps.completes, hsteps.failures,
    hsteps.changes⟩

end

/-! ### Whole runs -/

/-- A plan without ambiguities is safe, and its temporary names are new to the files, when
planning looks at the files that the steps look at. -/
theorem Batch.exists_planned {o : Options} {d : Disk} {mappings : List Mapping} {p : Plan}
    {content : Path → Bytes} (hplan : plan o.engine.filter d o.roots mappings = .ok p)
    (hamb : p.ambiguities = []) (hread : Readable o.engine.filter d (files o d) p content)
    (hlooks : Search.files o.engine.filter o.roots d = .ok (files o d)) :
    ∃ taken, Planned (files o d) mappings taken p content := by
  obtain ⟨taken, htaken, rfl, hproper⟩ := plan_eq_ok hplan
  have hsound := Plan.sound_ofMappings hproper taken
  refine ⟨taken, hproper, Plan.safe_ofMappings hproper taken hamb, hsound,
    fun name hname path hpath huse => (hsound.fresh name hname).2 ?_⟩
  have hreached := hread.reached [] (List.nil_prefix) path hpath
  rw [Path.substitute_nil] at hreached
  exact mem_takenNames hlooks hread.spelled htaken hpath (hread.reads path hpath)
    ⟨hreached, hread.plain path hpath, hread.text path hpath⟩ (hsound.temp name hname) huse

/-- A batch of the lexical source that can be planned without ambiguities, over readable texts
of which none is an ignore file, with a hook and writes that succeed. -/
structure Batch.IsTextual {σ : Type} (o : Options) (hook : SnapshotHook σ)
    (mappings : List Mapping) (d : Disk) (state : σ) (content : Path → Bytes) (p : Plan) :
    Prop where
  source : o.engine.source = Source.lexical
  plan : plan o.engine.filter d o.roots mappings = .ok p
  unambiguous : p.ambiguities = []
  readable : Readable o.engine.filter d (files o d) p content
  plain : ∀ path ∈ files o d, ∀ place ∈ d.place? path,
    ¬ Ignore.IsRules o.engine.filter.level place
  succeeds : ∀ event ∈ runEvents { o with dryRun := false } hook mappings d state,
    event.Succeeds ∧ ∀ path ∈ files o d, event.Keeps path

/-- The end of a batch that replaced all words of code at once: every searched file has each
word replaced by the target of its name, what the hook keeps of any other path stayed, no
file failed, and the changes of each mapping that is the first with its old name are the
words of code with this name in the original files, while the other mappings have none. -/
structure Batch.State.IsSubstituted {σ : Type} (o : Options) (hook : SnapshotHook σ)
    (mappings : List Mapping) (d : Disk) (state : σ) (content : Path → Bytes) (st : State σ) :
    Prop where
  stopped : st.stopped = none
  completes : st.report.interrupted = false
  failures : st.report.failures = []
  files : ∀ path ∈ files o d, Store.readDisk st.store.disk path =
    .ok (path.substitute (Mapping.targetWord mappings) (content path))
  others : ∀ path, path ∉ Batch.files o d → d.SpelledOnce (Batch.files o d) path →
    (∀ event ∈ runEvents { o with dryRun := false } hook mappings d state, event.Keeps path) →
    Store.readDisk st.store.disk path = Store.readDisk d path
  changes : ∀ (i : Nat) (m : Mapping), mappings[i]? = some m →
    ∃ r : MappingReport, st.report.mappings[i]? = some r ∧ r.old = m.old ∧
      r.changes = m.uses mappings (Batch.files o d) content i

/-- A batch is one simultaneous substitution, when planning looks at the files that the
steps look at, nothing stands at the scratch place of such a file, and the hook leaves what
is searched as it is. -/
theorem Batch.run_substitutes {σ : Type} (o : Options) (hook : SnapshotHook σ)
    (commitHook : Option CommitHook) (mappings : List Mapping) (d : Disk) (state : σ)
    (content : Path → Bytes) {p : Plan} (h : IsTextual o hook mappings d state content p)
    (hlooks : Search.files o.engine.filter o.roots d = .ok (files o d))
    (hfree : ∀ path ∈ files o d, d.ScratchFree path)
    (hleaves : ∀ event ∈ runEvents { o with dryRun := false } hook mappings d state,
      event.LeavesSearch o.engine.filter (stepRoots o) (files o d)) :
    ∃ st, run { o with dryRun := false } hook commitHook mappings d state false = .ok st ∧
      st.IsSubstituted o hook mappings d state content := by
  obtain ⟨taken, hplanned⟩ := exists_planned h.plan h.unambiguous h.readable hlooks
  have hdry := State.Replaced.execute (o := { o with dryRun := true }) rfl hplanned
    h.readable h.source (files_of_plan h.plan) hook none state
  have hmirrors := runs_mirror h.plan (h.source ▸ Source.lexical_ignoresDisk) h.readable.spelled
    h.plain hfree fun event hevent =>
      ⟨(h.succeeds event hevent).1, (h.succeeds event hevent).2, hleaves event hevent⟩
  have hall := hmirrors (· ∈ files o d) (fun _ h => h) fun _ h => .inl h
  -- The commit hook of the real run is only told about.
  obtain ⟨log, told, htold⟩ := exists_execute { o with dryRun := false } hook commitHook mappings
    p (storeOf { o with dryRun := false } d) state false
  have hrun : run { o with dryRun := false } hook commitHook mappings d state false = .ok _ :=
    run_of_plan h.plan
  rw [htold] at hrun
  have hcompletes := hdry.completes
  have hfailures := hdry.failures
  have hchanges := hdry.changes
  rw [hall.report] at hcompletes hfailures hchanges
  refine ⟨_, hrun, hall.stopped.symm.trans hdry.stopped, hcompletes, hfailures,
    fun path hpath => ?_, fun path hpath honce hkeeps => ?_, fun i m hm => ?_⟩
  · rw [← hplanned.substitute_steps hpath]
    exact hall.store.read_disk.symm.trans ((hall.store.read hpath).symm.trans
      (hdry.store.reads path hpath))
  · have hother := hmirrors (fun q => q ∈ files o d ∨ q = path) (fun _ h => .inl h) ?_
    · exact hother.store.read_disk.symm.trans ((hother.store.read (.inr rfl)).symm.trans
        (hdry.store.others path honce hpath))
    · rintro q (hmem | rfl)
      · exact .inl hmem
      · exact .inr ⟨honce, hkeeps⟩
  · obtain ⟨r, hr, hold, hcount⟩ := hchanges i m hm
    refine ⟨r, hr, hold, ?_⟩
    rw [hcount]
    by_cases hfirst : Mapping.firstFor mappings m.old = some i
    · rw [hplanned.safe.countP_takes hplanned.sound hplanned.proper hm hfirst, Nat.one_mul]
    · rw [Mapping.uses, if_neg hfirst, Nat.mul_zero]

/-- A swap of two names. -/
def Batch.swap (a b : String) : List Mapping := [⟨a, b⟩, ⟨b, a⟩]

/-- A disk with one text in the directory `src`, and others. -/
def Batch.sourceDisk (text : String) (others : List (Place × Node)) : Disk :=
  { here := [], process := 7
    nodes := [(["src"], .directory 493), (["src", "a.js"], .file (bytes text) 420)] ++ others }

/-- A batch over some roots whose filter has this pattern. -/
def Batch.sourceOptions (roots : List Path) (pattern : List String) : Options :=
  { engine := { source := Source.lexical, filter := { level := 3, includes := pattern } }
    roots := roots, dryRun := false }

/-- A batch that searches one text, however often. -/
theorem Batch.isTextual_of_text {o : Options} {d : Disk} {mappings : List Mapping} {p : Plan}
    {text : String} (hsource : o.engine.source = Source.lexical)
    (hlevel : Search.binaryAsText o.engine.filter = true)
    (hplan : plan o.engine.filter d o.roots mappings = .ok p) (hamb : p.ambiguities = [])
    (hspelled : ∀ path ∈ files o d, d.SpelledOnce (files o d) path)
    (hreads : ∀ path ∈ files o d, Store.readDisk d path = .ok (bytes text))
    (hlanguage : ∀ path ∈ files o d, (Language.ofPath path).IsPlain = true)
    (hsize : ∀ steps ∈ p.steps.inits, ∀ path ∈ files o d,
      (path.substitute (Plan.replayWord steps) (bytes text)).length < Count.limit)
    (hplain : ∀ path ∈ files o d, ∀ place ∈ d.place? path,
      ¬ Ignore.IsRules o.engine.filter.level place)
    (hsucceeds : ∀ event ∈ runEvents { o with dryRun := false } SnapshotHook.nothing mappings d (),
      event.Succeeds ∧ ∀ path ∈ files o d, event.Keeps path) :
    IsTextual o SnapshotHook.nothing mappings d () (fun _ => bytes text) p := by
  refine ⟨hsource, hplan, hamb, ⟨hspelled, hreads, hlanguage, fun _ _ => ⟨text, rfl⟩, ?_⟩, hplain,
    hsucceeds⟩
  intro steps hsteps path hpath
  exact ⟨hsize steps ((List.mem_inits _ _).mpr hsteps) path hpath, .inl hlevel⟩

theorem Batch.run_substitutes_swap :
    ∃ st, run (sourceOptions [⟨"src"⟩] []) SnapshotHook.nothing none (swap "foo" "bar")
        (sourceDisk "foo(bar) // foo" []) () false = .ok st ∧
      Store.readDisk st.store.disk ⟨"src/a.js"⟩ = .ok (bytes "bar(foo) // foo") := by
  have htextual : IsTextual (sourceOptions [⟨"src"⟩] []) SnapshotHook.nothing (swap "foo" "bar")
      (sourceDisk "foo(bar) // foo" []) () (fun _ => bytes "foo(bar) // foo")
      (Plan.ofMappings (swap "foo" "bar") []) :=
    isTextual_of_text rfl rfl (by decide +kernel) (by decide +kernel) (by decide +kernel)
      (by decide +kernel) (by decide +kernel) (by decide +kernel) (by decide +kernel)
      (by decide +kernel)
  obtain ⟨st, hrun, hend⟩ := run_substitutes (sourceOptions [⟨"src"⟩] []) SnapshotHook.nothing
    none (swap "foo" "bar") (sourceDisk "foo(bar) // foo" []) () _ htextual (by decide +kernel)
    (by decide +kernel) (by decide +kernel)
  refine ⟨st, hrun, (hend.files ⟨"src/a.js"⟩ (by decide +kernel)).trans ?_⟩
  decide +kernel

/-- Both conditions are needed. Without roots and with a pattern, planning looks at no file,
and a temporary name meets a word of code; and a file at the scratch place of a searched one
is lost. -/
theorem Batch.run_misses :
    (∃ o d content p st, IsTextual o SnapshotHook.nothing (swap "a" "b") d () content p ∧
      (∀ path ∈ files o d, d.ScratchFree path) ∧
      (∀ event ∈ runEvents { o with dryRun := false } SnapshotHook.nothing (swap "a" "b") d (),
        event.LeavesSearch o.engine.filter (stepRoots o) (files o d)) ∧
      run { o with dryRun := false } SnapshotHook.nothing none (swap "a" "b") d () false = .ok st ∧
      ¬ st.IsSubstituted o SnapshotHook.nothing (swap "a" "b") d () content) ∧
    ∃ o d content p st, IsTextual o SnapshotHook.nothing (swap "a" "b") d () content p ∧
      Search.files o.engine.filter o.roots d = .ok (files o d) ∧
      run { o with dryRun := false } SnapshotHook.nothing none (swap "a" "b") d () false = .ok st ∧
      ¬ st.IsSubstituted o SnapshotHook.nothing (swap "a" "b") d () content := by
  constructor
  · have hread : (run (sourceOptions [] ["src/**"]) SnapshotHook.nothing none (swap "a" "b")
        (sourceDisk "a b __refactor_tmp_1779addb_0" []) () false).toOption.map
        (fun st => Store.readDisk st.store.disk ⟨"./src/a.js"⟩) = some (.ok (bytes "b a b")) := by
      decide +kernel
    obtain ⟨st, hrun, hbad⟩ := Option.map_eq_some_iff.mp hread
    refine ⟨sourceOptions [] ["src/**"], sourceDisk "a b __refactor_tmp_1779addb_0" [],
      fun _ => bytes "a b __refactor_tmp_1779addb_0", Plan.ofMappings (swap "a" "b") [], st,
      isTextual_of_text rfl rfl (by decide +kernel) (by decide +kernel) (by decide +kernel)
        (by decide +kernel) (by decide +kernel) (by decide +kernel) (by decide +kernel)
        (by decide +kernel),
      by decide +kernel, by decide +kernel, toOption_eq_some_iff.mp hrun, fun hend => ?_⟩
    have hgood := hend.files ⟨"./src/a.js"⟩ (by decide +kernel)
    rw [hbad] at hgood
    revert hgood
    decide +kernel
  · have hread : (run (sourceOptions [⟨"src/a.js"⟩] []) SnapshotHook.nothing none (swap "a" "b")
        (sourceDisk "a" [(["src", "a.7.refactor.tmp"], .file (bytes "kept") 420)]) ()
        false).toOption.map
        (fun st => Store.readDisk st.store.disk ⟨"src/a.7.refactor.tmp"⟩) =
        some (.error .missing) := by
      decide +kernel
    obtain ⟨st, hrun, hbad⟩ := Option.map_eq_some_iff.mp hread
    refine ⟨sourceOptions [⟨"src/a.js"⟩] [],
      sourceDisk "a" [(["src", "a.7.refactor.tmp"], .file (bytes "kept") 420)],
      fun _ => bytes "a", Plan.ofMappings (swap "a" "b") [], st,
      isTextual_of_text rfl rfl (by decide +kernel) (by decide +kernel) (by decide +kernel)
        (by decide +kernel) (by decide +kernel) (by decide +kernel) (by decide +kernel)
        (by decide +kernel),
      by decide +kernel, toOption_eq_some_iff.mp hrun, fun hend => ?_⟩
    have hgood := hend.others ⟨"src/a.7.refactor.tmp"⟩ (by decide +kernel) (by decide +kernel)
      (by decide +kernel)
    rw [hbad] at hgood
    revert hgood
    decide +kernel

end SymbolRename
