import SymbolRename.Proofs.Batch.Following
import SymbolRename.Proofs.Batch.Substitution

/-!
# No temporary name is left over

A run under the lexical source that completes without failures takes every temporary name back.
Before the step that writes the name the file does not hold it, and until the step that takes
it the name stands in code only, as long as no name that is renamed by way of temporary names
decides where literals and comments begin: `Batch.run_leaves_no_temporary`.
-/

namespace SymbolRename.Batch

variable {σ : Type} {signal : Signal} {o : Options} {hook : SnapshotHook σ} {path : Path}

/-- A real run under the lexical source that keeps track of a file. Only the steps change the
file, and the names that go by way of temporary names are neutral in its language. Planning finds
the file if it holds the mark of temporary names, and each step that takes a temporary name back
finds it if it holds this name. -/
structure Tracks (signal : Signal) (o : Options) (hook : SnapshotHook σ)
    (mappings : List Mapping) (d : Disk) (state : σ) (interrupt : Bool) (p : Plan)
    (path : Path) : Prop where
  plan : plan o.engine.filter d o.roots mappings = .ok p
  source : o.engine.source = Source.lexical
  real : o.dryRun = false
  tree : d.IsTree
  trees : hook.KeepsTrees
  leaves : hook.Leaves path
  neutral : ∀ name ∈ p.detoured, (Language.ofPath path).syntactics.IsNeutral (bytes name)
  planned : Search.Finds { disk := d } o.roots o.engine.filter path Plan.tempMark
  found : ∀ stage ∈ runStages signal o hook mappings p (storeOf o d) state interrupt,
    stage.step.old ∈ p.allocated →
      Search.Finds stage.state.store (stepRoots o) o.engine.filter path stage.step.old

variable {mappings : List Mapping} {d : Disk} {state : σ} {interrupt : Bool} {p : Plan}

theorem Tracks.follows (h : Tracks signal o hook mappings d state interrupt p path) :
    Follows signal o hook mappings d state interrupt p path :=
  ⟨h.plan, h.source, h.tree, h.trees, h.leaves, h.neutral, h.found⟩

/-- A file does not hold a temporary name before the run. -/
theorem Tracks.not_mem_words (h : Tracks signal o hook mappings d state interrupt p path)
    {content : Bytes} (hread : Store.readDisk d path = .ok content) {name : String}
    (hname : name ∈ p.allocated) : bytes name ∉ Bytes.words content := by
  intro hmem
  obtain ⟨taken, htaken, rfl, hproper⟩ := plan_eq_ok h.plan
  have hsound := Plan.sound_ofMappings hproper taken
  exact (hsound.fresh name hname).2
    (mem_takenNames_of_mem_words h.planned htaken hread (hsound.temp name hname) hmem)

/-- Temporary names are taken back. When a real run under the lexical source that keeps track of
a file completes without failures, the file holds no temporary name of the plan as a
whole identifier. -/
theorem run_leaves_no_temporary {commitHook : Option CommitHook}
    (h : Tracks signal o hook mappings d state interrupt p path) {st : State σ}
    (hrun : runUnder signal o hook commitHook mappings d state interrupt = .ok st)
    (hsucceeds : st.Succeeds) {content : Bytes} (hcontent : st.store.read path = .ok content) :
    ∀ name ∈ p.allocated, bytes name ∉ Bytes.words content := by
  intro name hname
  have hplain : (storeOf o d).overlay = none := by
    unfold storeOf
    rw [h.real]
    rfl
  obtain ⟨original, horiginal, _⟩ :=
    (runUnder_develops h.leaves h.plan hrun).backward hplain content hcontent
  rw [read_storeOf] at horiginal
  obtain ⟨hsteps, hstages⟩ := runUnder_succeeds h.plan hrun hsucceeds
  have hinterim : Plan.Interim name p.steps := by
    obtain ⟨taken, _, rfl, hproper⟩ := plan_eq_ok h.plan
    exact Plan.interim_ofMappings hproper taken hname
  rw [← hsteps] at hinterim
  exact h.follows.not_mem_words_of_interim (List.Subset.refl _) hstages hname hinterim
    (runUnder_passage h.leaves h.plan hrun horiginal hcontent) (h.not_mem_words horiginal hname)

theorem run_leaves_no_temporary_swap :
    ∃ st content, runUnder (fun _ => false) (sourceOptions [⟨"src"⟩] []) SnapshotHook.nothing none
        (swap "foo" "bar") (sourceDisk "foo(bar) // foo" []) () false = .ok st ∧
      st.Succeeds ∧ st.store.read ⟨"src/a.js"⟩ = .ok content ∧
      ∀ name ∈ (Plan.ofMappings (swap "foo" "bar") []).allocated,
        bytes name ∉ Bytes.words content := by
  have hread : (runUnder (fun _ => false) (sourceOptions [⟨"src"⟩] []) SnapshotHook.nothing none
      (swap "foo" "bar") (sourceDisk "foo(bar) // foo" []) () false).toOption.map
      (fun st => (decide st.Succeeds, st.store.read ⟨"src/a.js"⟩)) =
      some (true, .ok (bytes "bar(foo) // foo")) := by decide +kernel
  obtain ⟨st, hrun, hend⟩ := Option.map_eq_some_iff.mp hread
  obtain ⟨hsucceeds, hcontent⟩ := Prod.mk.inj hend
  have htracks : Tracks (fun _ => false) (sourceOptions [⟨"src"⟩] []) SnapshotHook.nothing
      (swap "foo" "bar") (sourceDisk "foo(bar) // foo" []) () false
      (Plan.ofMappings (swap "foo" "bar") []) ⟨"src/a.js"⟩ :=
    ⟨by decide +kernel, rfl, rfl, by decide +kernel, fun _ _ _ _ h => h, fun _ _ _ _ => rfl,
      by decide +kernel, by decide +kernel, by decide +kernel⟩
  have hrun := toOption_eq_some_iff.mp hrun
  have hsucceeds := of_decide_eq_true hsucceeds
  exact ⟨st, bytes "bar(foo) // foo", hrun, hsucceeds, hcontent,
    run_leaves_no_temporary htracks hrun hsucceeds hcontent⟩

/-- A run of the lexical source that succeeds and leaves a temporary name of its plan in a file. -/
def LeavesIn (o : Options) (mappings : List Mapping) (d : Disk) (p : Plan) (path : Path)
    (name : String) : Prop :=
  o.engine.source = Source.lexical ∧ plan o.engine.filter d o.roots mappings = .ok p ∧
    ∃ st content,
      runUnder (fun _ => false) o SnapshotHook.nothing none mappings d () false = .ok st ∧
      st.Succeeds ∧ st.store.read path = .ok content ∧ name ∈ p.allocated ∧
      bytes name ∈ Bytes.words content

/-- A file that ends with a temporary name. -/
theorem LeavesIn.intro {o : Options} {mappings : List Mapping} {d : Disk} {p : Plan} {path : Path}
    {name : String} (content : Bytes) (hsource : o.engine.source = Source.lexical)
    (hplan : plan o.engine.filter d o.roots mappings = .ok p)
    (hrun : (runUnder (fun _ => false) o SnapshotHook.nothing none mappings d () false).toOption.map
      (fun st => (decide st.Succeeds, st.store.read path)) = some (true, .ok content))
    (hname : name ∈ p.allocated) (hword : bytes name ∈ Bytes.words content) :
    LeavesIn o mappings d p path name := by
  obtain ⟨st, hrun, hend⟩ := Option.map_eq_some_iff.mp hrun
  obtain ⟨hsucceeds, hcontent⟩ := Prod.mk.inj hend
  exact ⟨hsource, hplan, st, content, toOption_eq_some_iff.mp hrun, of_decide_eq_true hsucceeds,
    hcontent, hname, hword⟩

/-- A disk with one Ruby text in the directory `src`. -/
def rubyDisk (text : String) : Disk :=
  { here := [], process := 7
    nodes := [(["src"], .directory 493), (["src", "a.rb"], .file (bytes text) 420)] }

/-- The conditions are needed. The name `begin` comes home behind an equals sign and opens a
comment, in which the other temporary name stays; and planning does not see a temporary name
that is in a comment already. -/
theorem run_leaves_temporary :
    (∃ p, LeavesIn (sourceOptions [⟨"src"⟩] []) (swap "a" "begin") (rubyDisk "value \\\n=a\nbegin\n")
      p ⟨"src/a.rb"⟩ "__refactor_tmp_32550713_1") ∧
    ∃ p, LeavesIn (sourceOptions [] ["src/**"]) (swap "a" "b")
      (sourceDisk "a b // __refactor_tmp_1779addb_0" []) p ⟨"./src/a.js"⟩
      "__refactor_tmp_1779addb_0" := by
  refine ⟨⟨Plan.ofMappings (swap "a" "begin") [], ?_⟩, Plan.ofMappings (swap "a" "b") [], ?_⟩
  · apply LeavesIn.intro (bytes "value \\\n=begin\n__refactor_tmp_32550713_1\n") rfl <;>
      decide +kernel
  · apply LeavesIn.intro (bytes "b a // __refactor_tmp_1779addb_0") rfl <;> decide +kernel

end SymbolRename.Batch
