import SymbolRename.Proofs.Batch.Completion
import SymbolRename.Proofs.Batch.Contents
import SymbolRename.Proofs.Batch.Substitution
import SymbolRename.Proofs.Plan.Attempts

/-!
# Names stay apart in files where steps fail

The identifiers of a file are seen through a view of its contents. Steps may fail in the file,
each leaving it as it is. If no later step that changes the identifiers takes or writes a name
that a failed step left, identifiers with different targets keep different names:
`Batch.run_keeps_apart`.
-/

namespace SymbolRename

/-- The identifiers that a view sees in a file; none in one that cannot be read. -/
def Store.identifiers (view : Bytes → List String) (path : Path) (s : Store) : List String :=
  match s.read path with
  | .ok content => view content
  | .error _ => []

theorem Store.identifiers_of_read {view : Bytes → List String} {path : Path} {s : Store}
    {content : Bytes} (h : s.read path = .ok content) : s.identifiers view path = view content := by
  unfold identifiers
  rw [h]

/-- Identifiers with different targets have different names in the end. -/
def Mapping.KeepsApart (mappings : List Mapping) (original final : List String) : Prop :=
  ∃ current : String → String, final = original.map current ∧
    ∀ x ∈ original, ∀ y ∈ original, target mappings x ≠ target mappings y → current x ≠ current y

namespace Batch

variable {σ : Type}

/-- Wherever the step of a stage succeeds in the file of a path, it renames the identifiers of
the file. -/
def Stage.RenamesIn (o : Options) (view : Bytes → List String) (path : Path) (stage : Stage σ) :
    Prop :=
  ∀ v ∈ stage.visits o, Rename.Acts o.engine stage.step.old stage.step.new none path
    (fun c c' => view c' = (view c).map stage.step.rename) v

instance (o : Options) (view : Bytes → List String) (path : Path) (stage : Stage σ) :
    Decidable (stage.RenamesIn o view path) := by
  unfold Stage.RenamesIn
  infer_instance

/-- What the step of a stage does to the identifiers of a file. -/
def Stage.attempt (o : Options) (view : Bytes → List String) (path : Path) (stage : Stage σ) :
    Plan.Attempt :=
  ⟨stage.step, stage.state.store.identifiers view path,
    (runStep o stage.number stage.step stage.state).store.identifiers view path⟩

/-- A run without ambiguities in which every step renames the identifiers of a file where it
does not fail, and only steps change the file. -/
structure IsViewed (signal : Signal) (o : Options) (hook : SnapshotHook σ)
    (mappings : List Mapping) (d : Disk) (state : σ) (interrupt : Bool) (p : Plan)
    (view : Bytes → List String) (path : Path) : Prop where
  plan : plan o.engine.filter d o.roots mappings = .ok p
  unambiguous : p.ambiguities = []
  leaves : hook.Leaves path
  renames : ∀ stage ∈ runStages signal o hook mappings p (storeOf o d) state interrupt,
    stage.RenamesIn o view path

/-- A step leaves the identifiers of a file or renames them all, however often it comes by. -/
theorem Stage.RenamesIn.cases {o : Options} {view : Bytes → List String} {path : Path}
    {stage : Stage σ} (h : stage.RenamesIn o view path) (hne : stage.step.old ≠ stage.step.new)
    {c c' : Bytes} (hc : stage.state.store.read path = .ok c)
    (hc' : (runStep o stage.number stage.step stage.state).store.read path = .ok c') :
    view c' = view c ∨ view c' = (view c).map stage.step.rename := by
  rw [runStep_store] at hc'
  have hvisits : ∀ v ∈ Rename.visits o.engine stage.state.store stage.step.old stage.step.new
      (scope o), Rename.Acts o.engine stage.step.old stage.step.new (scope o).range? path
        (fun c c' => view c' = (view c).map stage.step.rename) v := h
  have hmany := (Rename.run_develops fun v hv => (hvisits v hv).orSpares).1.rel hc hc'
  have htwice : ∀ name, stage.step.rename (stage.step.rename name) = stage.step.rename name :=
    fun name => PlanStep.rename_of_ne (PlanStep.rename_ne_old hne name)
  clear hc hc'
  induction hmany with
  | refl => exact .inl rfl
  | tail _ hlast ih =>
    refine .inr ?_
    rcases ih with heq | heq
    · rw [hlast, heq]
    · rw [hlast, heq, List.map_map]
      exact List.map_congr_left fun name _ => htwice name

/-- What the started steps do to the identifiers of a file are attempts at them. -/
theorem IsViewed.attempts {signal : Signal} {o : Options} {hook : SnapshotHook σ}
    {commitHook : Option CommitHook} {mappings : List Mapping} {d : Disk} {state : σ}
    {interrupt : Bool} {p : Plan} {view : Bytes → List String} {path : Path}
    (h : IsViewed signal o hook mappings d state interrupt p view path) {st : State σ}
    (hrun : runUnder signal o hook commitHook mappings d state interrupt = .ok st)
    {original final : Bytes} (hbefore : Store.readDisk d path = .ok original)
    (hafter : st.store.read path = .ok final) :
    Plan.Attempts (view original)
      ((runStages signal o hook mappings p (storeOf o d) state interrupt).map
        (Stage.attempt o view path)) (view final) := by
  have hstage : ∀ done stage rest c c',
      runStages signal o hook mappings p (storeOf o d) state interrupt = done ++ stage :: rest →
      Plan.Attempts (view original) (done.map (Stage.attempt o view path)) (view c) →
      stage.state.store.read path = .ok c →
      (runStep o stage.number stage.step stage.state).store.read path = .ok c' →
      Plan.Attempts (view original) ((done ++ [stage]).map (Stage.attempt o view path))
        (view c') := by
    intro done stage rest c c' hsplit hdone hc hc'
    have hmem : stage ∈ runStages signal o hook mappings p (storeOf o d) state interrupt :=
      hsplit ▸ List.mem_append_right _ List.mem_cons_self
    have hstep : stage.step ∈ p.steps :=
      (map_step_stages signal o hook 1 _ p.steps).subset (List.mem_map_of_mem hmem)
    have hattempt : stage.attempt o view path = ⟨stage.step, view c, view c'⟩ := by
      unfold Stage.attempt
      rw [Store.identifiers_of_read hc, Store.identifiers_of_read hc']
    rw [List.map_append, List.map_singleton, hattempt]
    rcases (h.renames stage hmem).cases (proper_of_plan h.plan hstep).2.2 hc hc' with heq | heq
    · rw [heq]
      exact hdone.failed stage.step
    · rw [heq]
      exact hdone.carried stage.step
  exact runUnder_contents h.leaves h.plan hrun hstage .start hbefore hafter

/-- Failed steps do not merge identifiers. In a file that only the steps change, and none of
whose identifiers is a temporary name of the plan, any of the steps may fail. Unless a later
step that changes the identifiers takes or writes a name that a failed step left there,
identifiers with different targets have different names when the run ends. -/
theorem run_keeps_apart {signal : Signal} {o : Options} {hook : SnapshotHook σ}
    {commitHook : Option CommitHook} {mappings : List Mapping} {d : Disk} {state : σ}
    {interrupt : Bool} {p : Plan} {view : Bytes → List String} {path : Path}
    (hviewed : IsViewed signal o hook mappings d state interrupt p view path) {st : State σ}
    (hrun : runUnder signal o hook commitHook mappings d state interrupt = .ok st)
    {original final : Bytes} (hbefore : Store.readDisk d path = .ok original)
    (hafter : st.store.read path = .ok final)
    (hnew : ∀ name ∈ view original, name ∉ p.allocated)
    (hspared : ((runStages signal o hook mappings p (storeOf o d) state interrupt).map
      (Stage.attempt o view path)).Pairwise Plan.Attempt.SparedBy) :
    Mapping.KeepsApart mappings (view original) (view final) := by
  have hattempts := hviewed.attempts hrun hbefore hafter
  obtain ⟨taken, _, rfl, hproper⟩ := plan_eq_ok hviewed.plan
  have hsteps : (((runStages signal o hook mappings (Plan.ofMappings mappings taken) (storeOf o d)
      state interrupt).map (Stage.attempt o view path)).map (·.step)) <+:
      (Plan.ofMappings mappings taken).steps := by
    rw [List.map_map]
    exact map_step_stages signal o hook 1 _ _
  obtain ⟨current, heq, _, hapart⟩ :=
    hattempts.exists_apart hproper hviewed.unambiguous hsteps hspared hnew
  exact ⟨current, heq, hapart⟩

/-- A batch over the directory `src` whose source reports the same captures for every file. -/
def reporting (names : List String) : Options :=
  { engine :=
      { source := fun _ path _ _ => .ok (names.map fun name => ⟨.reference, ⟨path, 1, 0⟩, name⟩)
        filter := { level := 3 } }
    roots := [⟨"src"⟩], dryRun := false }

/-- The words of code in a file of this path, as names. -/
def names (path : Path) (content : Bytes) : List String :=
  (path.codeWords content).map Utf8.decodeLossy

/-- A batch in whose file the first step fails: the source is wrong about the name `p`. -/
theorem run_keeps_apart_failed_first :
    ∃ st : State Unit, runUnder (fun _ => false) (reporting ["x", "p"]) SnapshotHook.nothing none
        [⟨"p", "q"⟩, ⟨"x", "y"⟩] (sourceDisk "x p" []) () false = .ok st ∧
      st.store.read ⟨"src/a.js"⟩ = .ok (bytes "y p") ∧
      Mapping.KeepsApart [⟨"p", "q"⟩, ⟨"x", "y"⟩] (names ⟨"src/a.js"⟩ (bytes "x p"))
        (names ⟨"src/a.js"⟩ (bytes "y p")) := by
  have hread : (runUnder (fun _ => false) (reporting ["x", "p"]) SnapshotHook.nothing none
      [⟨"p", "q"⟩, ⟨"x", "y"⟩] (sourceDisk "x p" []) () false).toOption.map
      (fun st => st.store.read ⟨"src/a.js"⟩) = some (.ok (bytes "y p")) := by
    decide +kernel
  obtain ⟨st, hrun, hafter⟩ := Option.map_eq_some_iff.mp hread
  have hrun := toOption_eq_some_iff.mp hrun
  have hviewed : IsViewed (fun _ => false) (reporting ["x", "p"]) SnapshotHook.nothing
      [⟨"p", "q"⟩, ⟨"x", "y"⟩] (sourceDisk "x p" []) () false
      (Plan.ofMappings [⟨"p", "q"⟩, ⟨"x", "y"⟩] []) (names ⟨"src/a.js"⟩) ⟨"src/a.js"⟩ :=
    ⟨by decide +kernel, by decide +kernel, fun _ _ _ _ => rfl, by decide +kernel⟩
  exact ⟨st, hrun, hafter, run_keeps_apart hviewed hrun (by decide +kernel) hafter
    (by decide +kernel) (by decide +kernel)⟩

/-- A run after which identifiers of a file with different targets have one name. -/
def MergesIn (o : Options) (hook : SnapshotHook σ) (mappings : List Mapping) (d : Disk)
    (state : σ) (p : Plan) (path : Path) : Prop :=
  IsViewed (fun _ => false) o hook mappings d state false p (names path) path ∧
    ∃ st original final,
      runUnder (fun _ => false) o hook none mappings d state false = .ok st ∧
      Store.readDisk d path = .ok original ∧ st.store.read path = .ok final ∧
      ¬ Mapping.KeepsApart mappings (names path original) (names path final)

/-- Two identifiers that meet have been merged. -/
theorem MergesIn.intro {o : Options} {hook : SnapshotHook σ} {mappings : List Mapping} {d : Disk}
    {state : σ} {p : Plan} {path : Path}
    (hviewed : IsViewed (fun _ => false) o hook mappings d state false p (names path) path)
    (original final : Bytes) (i j : Nat) (x y : String)
    (hrun : (runUnder (fun _ => false) o hook none mappings d state false).toOption.map
      (fun st => st.store.read path) = some (.ok final))
    (hbefore : Store.readDisk d path = .ok original)
    (hx : (names path original)[i]? = some x) (hy : (names path original)[j]? = some y)
    (hmeet : (names path final)[i]? = (names path final)[j]?)
    (htargets : Mapping.target mappings x ≠ Mapping.target mappings y) :
    MergesIn o hook mappings d state p path := by
  obtain ⟨st, hrun, hafter⟩ := Option.map_eq_some_iff.mp hrun
  refine ⟨hviewed, st, original, final, toOption_eq_some_iff.mp hrun, hbefore, hafter, ?_⟩
  rintro ⟨current, heq, hapart⟩
  refine hapart x (List.mem_of_getElem? hx) y (List.mem_of_getElem? hy) htargets ?_
  rw [heq, List.getElem?_map, List.getElem?_map, hx, hy] at hmeet
  exact Option.some.inj hmeet

/-- Asks for nothing to be written in a file during the first step. -/
def refusing (path : Path) : SnapshotHook Nat := fun calls d _ _ =>
  { state := calls + 1, disk := d, unwritable := some (if calls = 0 then [path] else []) }

/-- The conditions are needed. Where the step from `b` fails, the step to `b` merges `a` into
it; where the first step from `x` fails, the second one takes the name to another target; and
a temporary name that planning did not see is taken for one of its own. -/
theorem run_merges :
    (∃ p, MergesIn (reporting ["a", "b"]) SnapshotHook.nothing [⟨"a", "b"⟩, ⟨"b", "c"⟩]
      (sourceDisk "a b" []) () p ⟨"src/a.js"⟩ ∧ p.allocated = []) ∧
    (∃ p, MergesIn (sourceOptions [⟨"src"⟩] []) (refusing ⟨"src/a.js"⟩)
      [⟨"x", "p"⟩, ⟨"x", "q"⟩, ⟨"y", "q"⟩] (sourceDisk "x y" []) 0 p ⟨"src/a.js"⟩ ∧
      p.allocated = []) ∧
    ∃ p, MergesIn (sourceOptions [] ["src/**"]) SnapshotHook.nothing (swap "a" "b")
      (sourceDisk "a b __refactor_tmp_1779addb_0" []) () p ⟨"./src/a.js"⟩ ∧
      ((runStages (fun _ => false) (sourceOptions [] ["src/**"]) SnapshotHook.nothing (swap "a" "b")
        p (storeOf (sourceOptions [] ["src/**"]) (sourceDisk "a b __refactor_tmp_1779addb_0" []))
        () false).map (Stage.attempt (sourceOptions [] ["src/**"]) (names ⟨"./src/a.js"⟩)
          ⟨"./src/a.js"⟩)).Pairwise Plan.Attempt.SparedBy := by
  refine ⟨⟨Plan.ofMappings [⟨"a", "b"⟩, ⟨"b", "c"⟩] [], ?_, by decide +kernel⟩,
    ⟨Plan.ofMappings [⟨"x", "p"⟩, ⟨"x", "q"⟩, ⟨"y", "q"⟩] [], ?_, by decide +kernel⟩,
    ⟨Plan.ofMappings (swap "a" "b") [], ?_, by decide +kernel⟩⟩
  · have hviewed : IsViewed (fun _ => false) (reporting ["a", "b"]) SnapshotHook.nothing
        [⟨"a", "b"⟩, ⟨"b", "c"⟩] (sourceDisk "a b" []) () false
        (Plan.ofMappings [⟨"a", "b"⟩, ⟨"b", "c"⟩] []) (names ⟨"src/a.js"⟩) ⟨"src/a.js"⟩ :=
      ⟨by decide +kernel, by decide +kernel, fun _ _ _ _ => rfl, by decide +kernel⟩
    apply MergesIn.intro hviewed (bytes "a b") (bytes "b b") 0 1 "a" "b" <;> decide +kernel
  · have hviewed : IsViewed (fun _ => false) (sourceOptions [⟨"src"⟩] [])
        (refusing ⟨"src/a.js"⟩) [⟨"x", "p"⟩, ⟨"x", "q"⟩, ⟨"y", "q"⟩] (sourceDisk "x y" []) 0 false
        (Plan.ofMappings [⟨"x", "p"⟩, ⟨"x", "q"⟩, ⟨"y", "q"⟩] []) (names ⟨"src/a.js"⟩)
        ⟨"src/a.js"⟩ :=
      ⟨by decide +kernel, by decide +kernel, fun _ _ _ _ => rfl, by decide +kernel⟩
    apply MergesIn.intro hviewed (bytes "x y") (bytes "q q") 0 1 "x" "y" <;> decide +kernel
  · have hviewed : IsViewed (fun _ => false) (sourceOptions [] ["src/**"]) SnapshotHook.nothing
        (swap "a" "b") (sourceDisk "a b __refactor_tmp_1779addb_0" []) () false
        (Plan.ofMappings (swap "a" "b") []) (names ⟨"./src/a.js"⟩) ⟨"./src/a.js"⟩ :=
      ⟨by decide +kernel, by decide +kernel, fun _ _ _ _ => rfl, by decide +kernel⟩
    apply MergesIn.intro hviewed (bytes "a b __refactor_tmp_1779addb_0") (bytes "b a b") 0 2 "a"
      "__refactor_tmp_1779addb_0" <;> decide +kernel

end Batch

end SymbolRename
