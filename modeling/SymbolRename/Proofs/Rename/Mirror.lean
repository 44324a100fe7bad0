import SymbolRename.Proofs.Store.Mirror

/-!
# Renames in mirrored stores

One rename does the same to a disk and to an overlay that mirrors it, as long as the disk
takes every write: the same places change in the same files, and the same files fail.
-/

namespace SymbolRename

/-- A source that looks at the path, the content and the name only. -/
def Source.IgnoresDisk (source : Source) : Prop :=
  ∀ d e path content name, source d path content name = source e path content name

/-- The lexical source looks at the path, the content and the name only. -/
theorem Source.lexical_ignoresDisk : Source.lexical.IgnoresDisk := fun _ _ _ _ _ => rfl

/-- The faults that a rename under way meets in the files that are left, in order. -/
def Rename.Progress.faults (e : Engine) (old new : String) (range : Option LineRange) :
    Progress → List Path → List FileFault
  | _, [] => []
  | p, path :: rest =>
    let here := match inFile e p.store path old new range with
      | .ok _ => []
      | .error fault => [fault]
    if p.stopped.isSome then [] else here ++ faults e old new range (p.visit e old new range path) rest

/-- The faults that a rename meets, in order. -/
def Rename.faults (e : Engine) (s : Store) (old new : String) (scope : Scope) :
    List FileFault :=
  match candidates e s old scope with
  | .error _ => []
  | .ok paths =>
    Progress.faults e old new scope.range?
      { store := s, remarks := searchRemarks e old paths scope } paths

/-- A write was refused. -/
def Rename.FileFault.isRefusal : FileFault → Bool
  | unwritable _ => true
  | _ => false

theorem Source.IgnoresDisk.occurrences {source : Source} (h : source.IgnoresDisk) (d e : Disk)
    (path : Path) (content name : String) (range : Option LineRange) :
    source.occurrences d path content name range =
      source.occurrences e path content name range := by
  unfold Source.occurrences
  rw [h d e]

/-- The name is located alike in both stores. -/
theorem Store.Mirrors.locate {e : Engine} {roots : List Path} {d : Disk} {files : List Path}
    {watched : Path → Prop} {real dry : Store}
    (h : Mirrors e.filter roots d files watched real dry) (hsource : e.source.IgnoresDisk)
    {path : Path} (hpath : watched path) (name : String) (range : Option LineRange) :
    Rename.locate e dry path name range = Rename.locate e real path name range := by
  unfold Rename.locate Rename.readText
  simp only [h.read hpath, hsource.occurrences dry.disk real.disk]

/-- One file is renamed alike in both stores, unless the disk refuses the write. -/
theorem Store.Mirrors.inFile {e : Engine} {roots : List Path} {d : Disk} {files : List Path}
    {watched : Path → Prop} {real dry : Store}
    (h : Mirrors e.filter roots d files watched real dry)
    (hset : Setting e.filter d files watched) (hsource : e.source.IgnoresDisk) {path : Path}
    (hpath : path ∈ files) (old new : String) (range : Option LineRange)
    (hwrites : ∀ fault, Rename.inFile e real path old new range = .error fault →
      fault.isRefusal = false) :
    (∃ fault, Rename.inFile e real path old new range = .error fault ∧
      Rename.inFile e dry path old new range = .error fault) ∨
    ∃ real' dry' changes, Rename.inFile e real path old new range = .ok (real', changes) ∧
      Rename.inFile e dry path old new range = .ok (dry', changes) ∧
      Mirrors e.filter roots d files watched real' dry' := by
  have hlocate := h.locate hsource (hset.watches path hpath) old range
  unfold Rename.inFile at hwrites ⊢
  rw [hlocate]
  cases hfound : Rename.locate e real path old range with
  | error fault => exact .inl ⟨fault, rfl, rfl⟩
  | ok found =>
    obtain ⟨content, occurrences⟩ := found
    simp only [hfound, bind, Except.bind] at hwrites ⊢
    by_cases hempty : occurrences.isEmpty = true
    · simp only [hempty, if_true]
      exact .inr ⟨real, dry, [], rfl, rfl, h⟩
    · simp only [hempty] at hwrites ⊢
      cases hrewrite : Rewrite.rewrite (bytes content) occurrences old new with
      | error fault => exact .inl ⟨.span fault, rfl, rfl⟩
      | ok result =>
        obtain ⟨rewritten, changes⟩ := result
        simp only [hrewrite, mapError_ok] at hwrites ⊢
        cases hwrite : real.write path rewritten with
        | error reason =>
          rw [hwrite] at hwrites
          exact absurd (hwrites _ rfl) Bool.true_eq_false.mp
        | ok real' =>
          obtain ⟨dry', hdry, hmirrors⟩ := h.write hset hpath hwrite
          rw [hdry]
          exact .inr ⟨real', dry', changes, rfl, rfl, hmirrors⟩

/-- Two renames under way that did the same so far. -/
structure Rename.Progress.Mirrors (f : Filter) (roots : List Path) (d : Disk)
    (files : List Path) (watched : Path → Prop) (real dry : Progress) : Prop where
  store : real.store.Mirrors f roots d files watched dry.store
  outcome : dry.outcome = real.outcome
  stopped : dry.stopped = real.stopped

theorem Rename.Progress.Mirrors.visit {e : Engine} {roots : List Path} {d : Disk}
    {files : List Path} {watched : Path → Prop} {real dry : Progress}
    (h : Progress.Mirrors e.filter roots d files watched real dry)
    (hset : Store.Setting e.filter d files watched) (hsource : e.source.IgnoresDisk)
    {path : Path} (hpath : path ∈ files) (old new : String) (range : Option LineRange)
    (hrunning : real.stopped = none)
    (hwrites : ∀ fault, inFile e real.store path old new range = .error fault →
      fault.isRefusal = false) :
    Progress.Mirrors e.filter roots d files watched (real.visit e old new range path)
      (dry.visit e old new range path) := by
  have hdry : dry.stopped = none := h.stopped.trans hrunning
  unfold Progress.visit
  simp only [hrunning, hdry, Option.isSome_none, Bool.false_eq_true, if_false]
  rcases h.store.inFile hset hsource hpath old new range hwrites with
    ⟨fault, hr, hd⟩ | ⟨real', dry', changes, hr, hd, hmirrors⟩
  · simp only [hr, hd]
    cases hmessage : fault.message with
    | error cause => exact ⟨h.store, h.outcome, rfl⟩
    | ok message => exact ⟨h.store, by simp only [Progress.note, h.outcome], rfl⟩
  · simp only [hr, hd]
    cases changes with
    | nil => exact ⟨h.store, h.outcome, rfl⟩
    | cons change rest => exact ⟨hmirrors, by simp only [Progress.note, h.outcome], rfl⟩

/-- Renaming in several files keeps both stores alike; the induction is on the files
that are left. -/
theorem Rename.Progress.Mirrors.visits {e : Engine} {roots : List Path} {d : Disk}
    {files : List Path} {watched : Path → Prop} {real dry : Progress}
    (h : Progress.Mirrors e.filter roots d files watched real dry)
    (hset : Store.Setting e.filter d files watched) (hsource : e.source.IgnoresDisk)
    (old new : String) (range : Option LineRange) {paths : List Path}
    (hpaths : ∀ path ∈ paths, path ∈ files)
    (hwrites : ∀ fault ∈ real.faults e old new range paths, fault.isRefusal = false) :
    Progress.Mirrors e.filter roots d files watched
      (paths.foldl (Progress.visit e old new range) real)
      (paths.foldl (Progress.visit e old new range) dry) := by
  induction paths generalizing real dry with
  | nil => exact h
  | cons path rest ih =>
    rw [List.foldl_cons, List.foldl_cons]
    cases hstopped : real.stopped with
    | some cause =>
      have hdry : dry.stopped = some cause := h.stopped.trans hstopped
      have hreal : real.visit e old new range path = real := by
        simp [Progress.visit, hstopped]
      have hdry' : dry.visit e old new range path = dry := by
        simp [Progress.visit, hdry]
      rw [hreal, hdry']
      refine ih h (fun p hp => hpaths p (List.mem_cons_of_mem _ hp)) ?_
      intro fault hfault
      cases rest with
      | nil => simp [faults] at hfault
      | cons p more => simp [faults, hstopped] at hfault
    | none =>
      simp only [faults, hstopped, Option.isSome_none, Bool.false_eq_true, if_false] at hwrites
      refine ih (h.visit hset hsource (hpaths path List.mem_cons_self) old new range hstopped ?_)
        (fun p hp => hpaths p (List.mem_cons_of_mem _ hp))
        fun fault hfault => hwrites fault (List.mem_append_right _ hfault)
      intro fault hfault
      refine hwrites fault (List.mem_append_left _ ?_)
      rw [hfault]
      exact List.mem_singleton.mpr rfl

/-- A whole rename does the same in both stores. -/
theorem Rename.run_mirrors {e : Engine} {roots : List Path} {d : Disk} {files : List Path}
    {watched : Path → Prop} {real dry : Store}
    (h : real.Mirrors e.filter roots d files watched dry)
    (hlooks : Search.files e.filter roots d = .ok files)
    (hset : Store.Setting e.filter d files watched) (hsource : e.source.IgnoresDisk)
    (old new : String)
    (hwrites : ∀ fault ∈ faults e real old new (.project roots), fault.isRefusal = false) :
    Progress.Mirrors e.filter roots d files watched (run e real old new (.project roots))
      (run e dry old new (.project roots)) := by
  obtain ⟨found, hreal, hdry, hfound⟩ := h.candidates hlooks hset [old]
  unfold run
  simp only [candidates, hreal, hdry]
  cases hnames : Mapping.validateNames old new with
  | error fault => exact ⟨h, rfl, rfl⟩
  | ok =>
    have hstart : Progress.Mirrors e.filter roots d files watched
        { store := real, remarks := searchRemarks e old found (.project roots) }
        { store := dry, remarks := searchRemarks e old found (.project roots) } :=
      ⟨h, rfl, rfl⟩
    refine hstart.visits hset hsource old new none hfound fun fault hfault => hwrites fault ?_
    simp only [faults, candidates, hreal]
    exact hfault

end SymbolRename
