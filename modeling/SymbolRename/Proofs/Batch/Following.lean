import SymbolRename.Proofs.Batch.Completion
import SymbolRename.Proofs.Batch.Contents
import SymbolRename.Proofs.Batch.Success
import SymbolRename.Proofs.Plan.Interim
import SymbolRename.Proofs.Rename.Lexical
import SymbolRename.Proofs.Rename.Substitution

/-!
# A file through a run of lexical renames

Dry or real, the steps of a run under the lexical source replace words of code of a file. Before
the step that writes a temporary name the file does not hold it, and until the step that takes it
the name stands in code only, as long as no name that is renamed by way of temporary names
decides where literals and comments begin. So outside of these steps the file does not hold it:
`Batch.Follows.not_mem_words_of_interim`.
-/

namespace SymbolRename

/-! ### Temporary names are neutral -/

theorem Language.opening_ne_underscore (l : Language) : ∀ marks ∈ l.syntactics.blockComments,
    (marks.1.drop 1).head? ≠ some 0x5f := by
  cases l <;> decide +kernel

/-- No language looks at temporary names around its literals and comments. -/
theorem Plan.IsTemp.isNeutral {name : String} (h : IsTemp name) (l : Language) :
    l.syntactics.IsNeutral (bytes name) := by
  have hascii := lt_of_isValidIdentifier h.isValidIdentifier
  obtain ⟨more, hname⟩ := h.exists_bytes
  rw [hname] at hascii ⊢
  have hlength : 15 ≤ (bytes tempMark ++ more).length := by
    rw [List.length_append]
    exact Nat.le_add_right 15 _
  have hlong : ∀ w : Bytes, 15 ≤ w.length → ∀ words : List Bytes, (∀ u ∈ words, u.length < 15) →
      words.contains w = false := by
    intro w hw words hwords
    refine Bool.eq_false_iff.mpr fun hmem => ?_
    exact absurd (hwords w (List.contains_iff_mem.mp hmem)) (Nat.not_lt.mpr hw)
  refine ⟨fun _ => ?_, fun _ => hlong _ hlength _ (by decide +kernel), fun _ => ⟨?_, hascii⟩, ?_⟩
  · refine hlong _ ?_ _ (by decide +kernel)
    rwa [List.length_map]
  · omega
  · rintro marks hmarks ⟨hword, rest, hrest⟩
    obtain ⟨b, mark, hmark⟩ := List.exists_cons_of_ne_nil hword.1
    have hhead := l.opening_ne_underscore marks hmarks
    rw [hmark] at hrest hhead
    exact hhead (congrArg List.head? hrest)

/-! ### Steps in one file -/

/-- The hook leaves the disk a tree. -/
def SnapshotHook.KeepsTrees {σ : Type} (hook : SnapshotHook σ) : Prop :=
  ∀ state d label files, d.IsTree → (hook state d label files).disk.IsTree

namespace Batch

variable {σ : Type} {signal : Signal} {o : Options} {hook : SnapshotHook σ} {path : Path}

/-- The steps of a run find steady stores. -/
theorem stages_isSteady (hhook : hook.KeepsTrees) {number : Nat} {st : State σ}
    (h : st.store.IsSteady) {steps : List PlanStep} :
    ∀ stage ∈ stages signal o hook number st steps, stage.state.store.IsSteady := by
  have hpersists : Persists o hook fun st => st.store.IsSteady :=
    persists_of_calls (P := fun store _ => store.IsSteady) fun _ _ h _ hplain =>
      hhook _ _ _ _ (h hplain)
  refine (hpersists.run 0 (fun stage _ h => ?_) h).1
  rw [runStep_store]
  exact (Rename.run_isSteady h (scope o)).2

/-- The visits of a step under the lexical source replace the words of code of a file. -/
theorem Stage.actsOrSpares (hsource : o.engine.source = Source.lexical) {stage : Stage σ}
    (hsteady : stage.state.store.IsSteady) (hold : stage.step.old ≠ "") (path : Path) :
    ∀ v ∈ stage.visits o, Rename.ActsOrSpares o.engine stage.step.old stage.step.new none path
      (path.Renames (bytes stage.step.old) (bytes stage.step.new)) v :=
  fun v hv => Rename.actsOrSpares_lexical hsource hold
    ((Rename.run_isSteady hsteady (scope o)).1 v hv) v.2 path

/-- A step under the lexical source replaces the words of code of a file some times, and at least
once if it looks at the file and succeeds. -/
theorem Stage.renames (hsource : o.engine.source = Source.lexical) {stage : Stage σ}
    (hsteady : stage.state.store.IsSteady) (hold : stage.step.old ≠ "") {b b' : Bytes}
    (hb : stage.state.store.read path = .ok b)
    (hb' : (runStep o stage.number stage.step stage.state).store.read path = .ok b') :
    Relation.ReflTransGen (path.Renames (bytes stage.step.old) (bytes stage.step.new)) b b' ∧
      ∀ files, Rename.candidates o.engine stage.state.store stage.step.old (scope o) = .ok files →
        path ∈ files → stage.Succeeds o →
        Relation.TransGen (path.Renames (bytes stage.step.old) (bytes stage.step.new)) b b' := by
  rw [runStep_store] at hb'
  obtain ⟨hmany, hself⟩ := Rename.run_develops (Stage.actsOrSpares hsource hsteady hold path)
  refine ⟨hmany.rel hb hb', fun files hfiles hpath hsucceeds => ?_⟩
  rcases hself files hfiles hpath hsucceeds.stopped with ⟨f, hf, _⟩ | hacted
  · have hnone : (Rename.run o.engine stage.state.store stage.step.old stage.step.new
        (scope o)).outcome.failures = [] := hsucceeds.failures
    rw [hnone] at hf
    exact absurd hf List.not_mem_nil
  · exact hacted.rel hb hb'

end Batch

/-- The names that a plan renames by way of temporary names. -/
def Plan.detoured (p : Plan) : List String :=
  ((p.steps.filter (·.isTemp)).flatMap fun step => [step.old, step.new]).filter
    (· ∉ p.allocated)

namespace Batch

variable {σ : Type} {signal : Signal} {o : Options} {hook : SnapshotHook σ} {path : Path}

instance (s : Store) (roots : List Path) (f : Filter) (path : Path) (name : String) :
    Decidable (Search.Finds s roots f path name) :=
  decidable_of_iff (∀ found ∈ (Search.candidates s roots f [name]).toOption,
    ∀ content ∈ (s.read path).toOption, Bytes.contains (bytes name) content = true →
      path ∈ found) <| by
    simp only [Search.Finds, Option.mem_def, toOption_eq_some_iff]

instance (st : State σ) : Decidable st.Succeeds :=
  decidable_of_iff (st.stopped = none ∧ st.report.interrupted = false ∧ st.report.failures = [])
    ⟨fun h => ⟨h.1, h.2.1, h.2.2⟩, fun h => ⟨h.stopped, h.complete, h.failures⟩⟩

/-- A run under the lexical source that follows a file. Only the steps change the file, and the
names that go by way of temporary names are neutral in its language. Each step that takes a
temporary name back finds the file if it holds this name. -/
structure Follows (signal : Signal) (o : Options) (hook : SnapshotHook σ)
    (mappings : List Mapping) (d : Disk) (state : σ) (interrupt : Bool) (p : Plan)
    (path : Path) : Prop where
  plan : plan o.engine.filter d o.roots mappings = .ok p
  source : o.engine.source = Source.lexical
  tree : d.IsTree
  trees : hook.KeepsTrees
  leaves : hook.Leaves path
  neutral : ∀ name ∈ p.detoured, (Language.ofPath path).syntactics.IsNeutral (bytes name)
  found : ∀ stage ∈ runStages signal o hook mappings p (storeOf o d) state interrupt,
    stage.step.old ∈ p.allocated →
      Search.Finds stage.state.store (stepRoots o) o.engine.filter path stage.step.old

variable {mappings : List Mapping} {d : Disk} {state : σ} {interrupt : Bool} {p : Plan}

/-- The steps that were started find steady stores. -/
theorem Follows.isSteady (h : Follows signal o hook mappings d state interrupt p path) :
    ∀ stage ∈ runStages signal o hook mappings p (storeOf o d) state interrupt,
      stage.state.store.IsSteady := by
  refine stages_isSteady h.trees ?_
  rw [begin_store]
  exact fun _ => h.tree

/-- The names of a step by way of temporary names are neutral. -/
theorem Follows.isNeutral (h : Follows signal o hook mappings d state interrupt p path)
    {step : PlanStep} (hstep : step ∈ p.steps) (htemp : step.isTemp = true) :
    ∀ w ∈ [bytes step.old, bytes step.new], (Language.ofPath path).syntactics.IsNeutral w := by
  have hname : ∀ name ∈ [step.old, step.new],
      (Language.ofPath path).syntactics.IsNeutral (bytes name) := by
    intro name hname
    by_cases hallocated : name ∈ p.allocated
    · obtain ⟨taken, _, rfl, hproper⟩ := plan_eq_ok h.plan
      exact ((Plan.sound_ofMappings hproper taken).temp name hallocated).isNeutral _
    · refine h.neutral name (List.mem_filter.mpr ⟨?_, decide_eq_true hallocated⟩)
      exact List.mem_flatMap.mpr ⟨step, List.mem_filter.mpr ⟨hstep, htemp⟩, hname⟩
  simpa using hname

/-- A step replaces the words of code of the file some times, and at least once if it looks at
the file and succeeds. -/
theorem Follows.renames (h : Follows signal o hook mappings d state interrupt p path)
    {stage : Stage σ}
    (hstage : stage ∈ runStages signal o hook mappings p (storeOf o d) state interrupt)
    {b b' : Bytes} (hb : stage.state.store.read path = .ok b)
    (hb' : (runStep o stage.number stage.step stage.state).store.read path = .ok b') :
    Mapping.IsProper ⟨stage.step.old, stage.step.new⟩ ∧
      Relation.ReflTransGen (path.Renames (bytes stage.step.old) (bytes stage.step.new)) b b' ∧
      ∀ files, Rename.candidates o.engine stage.state.store stage.step.old (scope o) = .ok files →
        path ∈ files → stage.Succeeds o →
        Relation.TransGen (path.Renames (bytes stage.step.old) (bytes stage.step.new)) b b' := by
  have hproper := proper_of_plan h.plan
    ((map_step_stages signal o hook 1 _ p.steps).subset (List.mem_map_of_mem hstage))
  exact ⟨hproper, Stage.renames h.source (h.isSteady stage hstage)
    (ne_empty_of_isValidIdentifier hproper.1) hb hb'⟩

/-- A step brings in no whole identifier but its new name. -/
theorem Follows.mem_words (h : Follows signal o hook mappings d state interrupt p path)
    {stage : Stage σ}
    (hstage : stage ∈ runStages signal o hook mappings p (storeOf o d) state interrupt)
    {b b' : Bytes} (hb : stage.state.store.read path = .ok b)
    (hb' : (runStep o stage.number stage.step stage.state).store.read path = .ok b') {w : Bytes}
    (hw : w ∈ Bytes.words b') : w ∈ Bytes.words b ∨ w = bytes stage.step.new := by
  obtain ⟨hproper, hrenames, _⟩ := h.renames hstage hb hb'
  exact Path.mem_words_of_renames (Bytes.isWord_of_isValidIdentifier hproper.2.1) hrenames hw

/-- A step by way of temporary names changes words of code only, also when the new content is
read again. -/
theorem Follows.outside_eq (h : Follows signal o hook mappings d state interrupt p path)
    {stage : Stage σ}
    (hstage : stage ∈ runStages signal o hook mappings p (storeOf o d) state interrupt)
    (htemp : stage.step.isTemp = true) {b b' : Bytes} (hb : stage.state.store.read path = .ok b)
    (hb' : (runStep o stage.number stage.step stage.state).store.read path = .ok b') :
    path.outside b' = path.outside b := by
  obtain ⟨hproper, hrenames, _⟩ := h.renames hstage hb hb'
  have hstep : stage.step ∈ p.steps :=
    (map_step_stages signal o hook 1 _ p.steps).subset (List.mem_map_of_mem hstage)
  exact Path.outside_of_renames (Bytes.isWord_of_isValidIdentifier hproper.2.1)
    (h.isNeutral hstep htemp) hrenames

/-- When the step that takes a temporary name succeeds, the name is only left where it stood
outside of code. -/
theorem Follows.mem_outside (h : Follows signal o hook mappings d state interrupt p path)
    {stage : Stage σ}
    (hstage : stage ∈ runStages signal o hook mappings p (storeOf o d) state interrupt)
    (hold : stage.step.old ∈ p.allocated) (hsucceeds : stage.Succeeds o) {b b' : Bytes}
    (hb : stage.state.store.read path = .ok b)
    (hb' : (runStep o stage.number stage.step stage.state).store.read path = .ok b')
    (hmem : bytes stage.step.old ∈ Bytes.words b') :
    bytes stage.step.old ∈ Bytes.words (path.outside b) := by
  obtain ⟨hproper, _, hrenames⟩ := h.renames hstage hb hb'
  have hnew := Bytes.isWord_of_isValidIdentifier hproper.2.1
  have hne : bytes stage.step.old ≠ bytes stage.step.new := fun heq =>
    hproper.2.2 (bytes_injective heq)
  have hbefore := (h.mem_words hstage hb hb' hmem).resolve_right hne
  obtain ⟨files, hfiles⟩ := Rename.exists_candidates_of_run hsucceeds.stopped
  have hpath := h.found stage hstage hold files hfiles b hb (Bytes.contains_of_mem_words hbefore)
  exact Path.mem_outside_of_renames hnew hne (hrenames files hfiles hpath hsucceeds) hmem

/-- A name that no step of a passage writes does not come into the file. -/
theorem Follows.not_mem_words_of_passage
    (h : Follows signal o hook mappings d state interrupt p path) {name : String}
    {stages : List (Stage σ)}
    (hstages : stages ⊆ runStages signal o hook mappings p (storeOf o d) state interrupt)
    (hnew : ∀ stage ∈ stages, stage.step.new ≠ name) {a c : Bytes}
    (hpassage : Passage o path stages a c) (ha : bytes name ∉ Bytes.words a) :
    bytes name ∉ Bytes.words c := by
  refine hpassage.preserves (fun b => bytes name ∉ Bytes.words b) ?_ ha
  intro stage hstage b b' hb hb' hmissing hmem
  rcases h.mem_words (hstages hstage) hb hb' hmem with hbefore | heq
  · exact hmissing hbefore
  · exact hnew stage hstage (bytes_injective heq.symm)

/-- Steps by way of temporary names change words of code only. -/
theorem Follows.outside_eq_of_passage
    (h : Follows signal o hook mappings d state interrupt p path) {stages : List (Stage σ)}
    (hstages : stages ⊆ runStages signal o hook mappings p (storeOf o d) state interrupt)
    (htemp : ∀ stage ∈ stages, stage.step.isTemp = true) {a c : Bytes}
    (hpassage : Passage o path stages a c) : path.outside c = path.outside a := by
  refine hpassage.preserves (fun b => path.outside b = path.outside a) ?_ rfl
  intro stage hstage b b' hb hb' heq
  rw [h.outside_eq (hstages hstage) (htemp stage hstage) hb hb', heq]

/-- When the steps take a name away and home again, the file does not hold it after them if it did
not hold it before. -/
theorem Follows.not_mem_words_of_interim
    (h : Follows signal o hook mappings d state interrupt p path) {stages : List (Stage σ)}
    (hstages : stages ⊆ runStages signal o hook mappings p (storeOf o d) state interrupt)
    (hsucceeds : ∀ stage ∈ stages, stage.Succeeds o) {name : String} (hname : name ∈ p.allocated)
    (hinterim : Plan.Interim name (stages.map (·.step))) {a c : Bytes}
    (hpassage : Passage o path stages a c) (ha : bytes name ∉ Bytes.words a) :
    bytes name ∉ Bytes.words c := by
  generalize hsteps : stages.map (·.step) = steps at hinterim
  obtain @⟨_, _, _, _, _, _, haway, hhomeOld, hbetween, hothers⟩ := hinterim
  obtain ⟨before, rest₁, rfl, rfl, hrest₁⟩ := List.map_eq_append_iff.mp hsteps
  obtain ⟨away, rest₂, rfl, rfl, hrest₂⟩ := List.map_eq_cons_iff.mp hrest₁
  obtain ⟨between, rest₃, rfl, rfl, hrest₃⟩ := List.map_eq_append_iff.mp hrest₂
  obtain ⟨home, after, rfl, rfl, rfl⟩ := List.map_eq_cons_iff.mp hrest₃
  have hsub : ∀ stage ∈ before ++ ((away :: between) ++ ([home] ++ after)),
      stage ∈ runStages signal o hook mappings p (storeOf o d) state interrupt :=
    fun stage hstage => hstages hstage
  simp only [List.forall_mem_append] at hsub
  obtain ⟨hsubBefore, hsubBetween, hsubHome, hsubAfter⟩ := hsub
  rw [List.append_assoc, List.forall_mem_append, List.forall_mem_append, List.forall_mem_cons]
    at hothers
  obtain ⟨hnewBefore, -, -, hnewAfter⟩ := hothers
  obtain ⟨b, hpassBefore, hpassage⟩ := passage_append_iff.mp hpassage
  rw [← List.cons_append] at hpassage
  obtain ⟨e, hpassBetween, hpassage⟩ := passage_append_iff.mp hpassage
  rw [← List.singleton_append] at hpassage
  obtain ⟨g, hpassHome, hpassAfter⟩ := passage_append_iff.mp hpassage
  -- before the step away the name stands neither in code nor outside of it
  have hb : bytes name ∉ Bytes.words b :=
    h.not_mem_words_of_passage hsubBefore
      (fun stage hstage => hnewBefore _ (List.mem_map_of_mem hstage)) hpassBefore ha
  have hout : bytes name ∉ Bytes.words (path.outside e) := by
    have htemp : ∀ stage ∈ away :: between, stage.step.isTemp = true :=
      List.forall_mem_cons.mpr ⟨haway, fun stage hstage => hbetween _ (List.mem_map_of_mem hstage)⟩
    rw [h.outside_eq_of_passage hsubBetween htemp hpassBetween]
    exact fun hmem => hb ((path.mem_words_iff).mpr (.inr hmem))
  have hg : bytes name ∉ Bytes.words g := by
    have hhome := List.mem_singleton_self home
    cases hpassHome with
    | cons hread hread' hrest =>
      cases hrest
      rw [← hhomeOld] at hout hname ⊢
      have hsucceeded : home.Succeeds o := hsucceeds home (by simp)
      exact fun hmem => hout (h.mem_outside (hsubHome home hhome) hname hsucceeded hread hread' hmem)
  exact h.not_mem_words_of_passage hsubAfter
    (fun stage hstage => hnewAfter _ (List.mem_map_of_mem hstage)) hpassAfter hg

/-- Between the steps by way of temporary names the file does not hold a name that they take away
and home again, if it did not hold it before; nor when a direct step comes to it later. -/
theorem Follows.not_mem_words_of_visit
    (h : Follows signal o hook mappings d state interrupt p path) (hsucceeds : ∀ stage ∈
      runStages signal o hook mappings p (storeOf o d) state interrupt, stage.Succeeds o)
    {stage : Stage σ}
    (hstage : stage ∈ runStages signal o hook mappings p (storeOf o d) state interrupt)
    (hdirect : stage.step.isTemp = false) (hold : stage.step.old ∉ p.allocated)
    (hnew : stage.step.new ∉ p.allocated) {v : Store × Path} (hv : v ∈ stage.visits o)
    {original was : Bytes} (horiginal : Store.readDisk d path = .ok original)
    (hwas : v.1.read path = .ok was) {name : String} (hname : name ∈ p.allocated)
    (hmissing : bytes name ∉ Bytes.words original) : bytes name ∉ Bytes.words was := by
  have hproper := proper_of_plan h.plan
    ((map_step_stages signal o hook 1 _ p.steps).subset (List.mem_map_of_mem hstage))
  have hread : (begin o mappings p (storeOf o d) state interrupt).store.read path =
      .ok original := by
    rw [begin_store, read_storeOf, horiginal]
  have hvisit := Rename.develops_of_mem_visits (Stage.actsOrSpares h.source
    (h.isSteady stage hstage) (ne_empty_of_isValidIdentifier hproper.1) path) v hv
  obtain ⟨c, hc⟩ := ((develops_of_steps h.leaves 0).1 stage hstage).exists_read hvisit hread hwas
  -- The stages before this one lead to what the step finds.
  obtain ⟨done, rest, hsplit⟩ := List.append_of_mem hstage
  have hpassage : Passage o path done original c := stages_passage h.leaves hsplit hread hc
  have hbefore : bytes name ∉ Bytes.words c := by
    have hsub : done ⊆ runStages signal o hook mappings p (storeOf o d) state interrupt :=
      hsplit ▸ List.subset_append_left done _
    obtain ⟨later, hsteps⟩ := map_step_stages signal o hook 1
      (begin o mappings p (storeOf o d) state interrupt) p.steps
    have hinterim : Plan.Interim name p.steps := by
      obtain ⟨taken, _, rfl, hproper⟩ := plan_eq_ok h.plan
      exact Plan.interim_ofMappings hproper taken hname
    rw [← hsteps] at hinterim
    have hcut : (∀ other ∈ done.map (·.step), other.new ≠ name) ∨
        Plan.Interim name (done.map (·.step)) := by
      have hwhole : (stages signal o hook 1 (begin o mappings p (storeOf o d) state interrupt)
          p.steps).map (·.step) ++ later =
          done.map (·.step) ++ stage.step :: (rest.map (·.step) ++ later) := by
        rw [show stages signal o hook 1 (begin o mappings p (storeOf o d) state interrupt)
          p.steps = done ++ stage :: rest from hsplit]
        simp
      rw [hwhole] at hinterim
      exact hinterim.cut hdirect fun heq => hold (heq ▸ hname)
    rcases hcut with hothers | hinterim
    · exact h.not_mem_words_of_passage hsub
        (fun other hother => hothers _ (List.mem_map_of_mem hother)) hpassage hmissing
    · exact h.not_mem_words_of_interim hsub (fun other hother => hsucceeds other (hsub hother))
        hname hinterim hpassage hmissing
  intro hmem
  rcases Path.mem_words_of_renames (Bytes.isWord_of_isValidIdentifier hproper.2.1)
    (hvisit.rel hc hwas) hmem with hword | heq
  · exact hbefore hword
  · obtain rfl : name = stage.step.new := bytes_injective heq
    exact hnew hname

end Batch

end SymbolRename
