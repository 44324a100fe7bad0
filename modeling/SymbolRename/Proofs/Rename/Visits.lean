import SymbolRename.Proofs.Fallible
import SymbolRename.Proofs.PathSet
import SymbolRename.Proofs.Rewrite.Splice
import SymbolRename.Rename

/-!
# One file after the other

What a rename does when it looks at one more file, as four cases: the name is not there, the
file is rewritten, the file fails, or everything stops. Each says what becomes of the store
and of the outcome.
-/

namespace SymbolRename.Rename

/-- A file was rewritten: it holds text, the name was found in it, and the rewritten text
was written. -/
structure Rewrites (e : Engine) (s : Store) (path : Path) (old new : String)
    (range : Option LineRange) (t : Store) (changes : List Change) : Prop where
  intro ::
  exists_text : ∃ content found rewritten, readText s path = .ok content ∧
    e.source.occurrences s.disk path content old range = .ok found ∧ found ≠ [] ∧
    Rewrite.rewrite (bytes content) found old new = .ok (rewritten, changes) ∧
    s.write path rewritten = .ok t

/-- Renaming in one file leaves the store alone or rewrites the file, with changes. -/
theorem inFile_eq_ok {e : Engine} {s t : Store} {path : Path} {old new : String}
    {range : Option LineRange} {changes : List Change}
    (h : inFile e s path old new range = .ok (t, changes)) :
    (t = s ∧ changes = []) ∨ (changes ≠ [] ∧ Rewrites e s path old new range t changes) := by
  obtain ⟨⟨content, found⟩, hlocate, h⟩ := bind_eq_ok_iff.mp h
  obtain ⟨text, htext, hlocate⟩ := bind_eq_ok_iff.mp hlocate
  obtain ⟨occurrences, hfound, hpair⟩ := bind_eq_ok_iff.mp hlocate
  obtain ⟨rfl, rfl⟩ := Prod.mk.inj (Except.ok.inj hpair)
  by_cases hempty : occurrences.isEmpty = true
  · simp only [hempty, if_true] at h
    obtain ⟨rfl, rfl⟩ := Prod.mk.inj (Except.ok.inj h)
    exact .inl ⟨rfl, rfl⟩
  · simp only [hempty] at h
    obtain ⟨⟨rewritten, made⟩, hrewrite, h⟩ := bind_eq_ok_iff.mp h
    obtain ⟨store, hwrite, h⟩ := bind_eq_ok_iff.mp h
    obtain ⟨rfl, rfl⟩ := Prod.mk.inj (Except.ok.inj h)
    have hne : occurrences ≠ [] := fun hnil => hempty (List.isEmpty_iff.mpr hnil)
    have hrewrite := mapError_eq_ok_iff.mp hrewrite
    refine .inr ⟨?_, ⟨text, occurrences, rewritten, htext, mapError_eq_ok_iff.mp hfound, hne,
      hrewrite, mapError_eq_ok_iff.mp hwrite⟩⟩
    rw [Rewrite.changes_eq_of_rewrite hrewrite]
    exact fun hnil => hne (Rewrite.changesOf_eq_nil_iff.mp hnil)

/-- What looking at one more file makes of a rename under way. -/
inductive Progress.Visited (e : Engine) (old new : String) (range : Option LineRange)
    (p : Progress) (path : Path) : Progress → Prop
  | unchanged {q : Progress} (hfile : inFile e p.store path old new range = .ok (p.store, []))
      (hstore : q.store = p.store) (houtcome : q.outcome = p.outcome)
      (hstopped : q.stopped = none) : Visited e old new range p path q
  | changed {q : Progress} {changes : List Change}
      (hfile : inFile e p.store path old new range = .ok (q.store, changes))
      (hchanges : changes ≠ []) (hrewrites : Rewrites e p.store path old new range q.store changes)
      (houtcome : q.outcome = { p.outcome with
        changes := p.outcome.changes ++ changes
        filesTouched := PathSet.insert path p.outcome.filesTouched })
      (hstopped : q.stopped = none) : Visited e old new range p path q
  | failed {q : Progress} {fault : FileFault} {message : String}
      (hfile : inFile e p.store path old new range = .error fault)
      (hmessage : fault.message = .ok message) (hstore : q.store = p.store)
      (houtcome : q.outcome = { p.outcome with
        failures := p.outcome.failures ++ [⟨path, none, message⟩] })
      (hstopped : q.stopped = none) : Visited e old new range p path q
  | stopped {q : Progress} {fault : FileFault} {cause : Cause}
      (hfile : inFile e p.store path old new range = .error fault)
      (hmessage : fault.message = .error cause) (hstore : q.store = p.store)
      (houtcome : q.outcome = p.outcome) (hstopped : q.stopped = some cause) :
      Visited e old new range p path q

theorem Progress.visited (e : Engine) (old new : String) (range : Option LineRange) {p : Progress}
    (hp : p.stopped = none) (path : Path) :
    Visited e old new range p path (p.visit e old new range path) := by
  cases hfile : inFile e p.store path old new range with
  | ok result =>
    obtain ⟨t, changes⟩ := result
    rcases inFile_eq_ok hfile with ⟨rfl, rfl⟩ | ⟨hchanges, hrewrites⟩
    · refine .unchanged hfile ?_ ?_ ?_ <;> simp [visit, hp, hfile]
    · obtain ⟨change, rest, rfl⟩ := List.exists_cons_of_ne_nil hchanges
      have hstore : (p.visit e old new range path).store = t := by simp [visit, hp, hfile]
      refine .changed (hstore ▸ hfile) hchanges (hstore ▸ hrewrites) ?_ ?_ <;>
        simp [visit, note, hp, hfile]
  | error fault =>
    cases hmessage : fault.message with
    | ok message =>
      refine .failed hfile hmessage ?_ ?_ ?_ <;> simp [visit, note, hp, hfile, hmessage]
    | error cause => refine .stopped hfile hmessage ?_ ?_ ?_ <;> simp [visit, hp, hfile, hmessage]

/-- Nothing more happens once everything stopped. -/
theorem Progress.visit_of_stopped {e : Engine} {old new : String} {range : Option LineRange}
    {p : Progress} (hp : p.stopped.isSome = true) (path : Path) :
    p.visit e old new range path = p := by
  unfold visit
  rw [if_pos hp]

theorem Progress.foldl_visit_of_stopped {e : Engine} {old new : String} {range : Option LineRange}
    {p : Progress} (hp : p.stopped.isSome = true) (paths : List Path) :
    paths.foldl (visit e old new range) p = p := by
  induction paths with
  | nil => rfl
  | cons path rest ih =>
    rw [List.foldl_cons, visit_of_stopped hp]
    exact ih

/-- The stores in which a rename under way looks at the files that are left. -/
def Progress.visits (e : Engine) (old new : String) (range : Option LineRange) :
    Progress → List Path → List (Store × Path)
  | _, [] => []
  | p, path :: rest => (p.store, path) :: visits e old new range (p.visit e old new range path) rest

/-- The stores in which a rename looks at its files. -/
def visits (e : Engine) (s : Store) (old new : String) (scope : Scope) : List (Store × Path) :=
  match candidates e s old scope with
  | .error _ => []
  | .ok paths =>
    Progress.visits e old new scope.range?
      { store := s, remarks := searchRemarks e old paths scope } paths

/-- The stores in which a rename looks at the files that it found. -/
theorem visits_eq {e : Engine} {s : Store} {old : String} {scope : Scope} {paths : List Path}
    (h : candidates e s old scope = .ok paths) (new : String) : visits e s old new scope =
      Progress.visits e old new scope.range?
        { store := s, remarks := searchRemarks e old paths scope } paths := by
  unfold visits
  rw [h]

/-- A rename stops before it looks at a file, or it visits the files that it found in their
order. -/
theorem run_cases (e : Engine) (s : Store) (old new : String) (scope : Scope) :
    (∃ cause, run e s old new scope = { store := s, stopped := some cause }) ∨
      ∃ paths, candidates e s old scope = .ok paths ∧ run e s old new scope =
        paths.foldl (Progress.visit e old new scope.range?)
          { store := s, remarks := searchRemarks e old paths scope } := by
  unfold run
  cases Mapping.validateNames old new with
  | error fault => exact .inl ⟨_, rfl⟩
  | ok _ =>
    cases candidates e s old scope with
    | error cause => exact .inl ⟨cause, rfl⟩
    | ok paths => exact .inr ⟨paths, rfl, rfl⟩

/-! ### Rewritten files -/

/-- Renaming in this file writes it. -/
def rewrites (e : Engine) (s : Store) (path : Path) (old new : String)
    (range : Option LineRange) : Bool :=
  match inFile e s path old new range with
  | .ok (_, changes) => !changes.isEmpty
  | .error _ => false

/-- The files that a rename writes, in order. -/
def rewritten (e : Engine) (s : Store) (old new : String) (scope : Scope) : List Path :=
  ((visits e s old new scope).filter fun v => rewrites e v.1 v.2 old new scope.range?).map (·.2)

theorem Progress.filesTouched_visits {e : Engine} {old new : String} {range : Option LineRange}
    {p : Progress} {done : List Path} (hp : p.outcome.filesTouched.Lists done)
    (hrunning : p.stopped = none) {paths : List Path}
    (hstopped : (paths.foldl (visit e old new range) p).stopped = none) :
    (paths.foldl (visit e old new range) p).outcome.filesTouched.Lists
      (done ++ ((p.visits e old new range paths).filter fun v =>
        rewrites e v.1 v.2 old new range).map (·.2)) := by
  induction paths generalizing p done with
  | nil =>
    rw [Progress.visits, List.filter_nil, List.map_nil, List.append_nil]
    exact hp
  | cons path rest ih =>
    rw [List.foldl_cons] at hstopped ⊢
    rw [Progress.visits, List.filter_cons]
    cases visited e old new range hrunning path with
    | unchanged hfile _ houtcome hgoing =>
      have hnot : rewrites e p.store path old new range = false := by simp [rewrites, hfile]
      simp only [hnot, Bool.false_eq_true, if_false]
      exact ih (houtcome ▸ hp) hgoing hstopped
    | changed hfile hchanges _ houtcome hgoing =>
      have hwrites : rewrites e p.store path old new range = true := by
        simp [rewrites, hfile, hchanges]
      simp only [hwrites, if_true, List.map_cons]
      have hinsert : (p.visit e old new range path).outcome.filesTouched.Lists (done ++ [path]) := by
        rw [houtcome]
        exact hp.insert path
      rw [List.append_cons]
      exact ih hinsert hgoing hstopped
    | failed hfile _ _ houtcome hgoing =>
      have hnot : rewrites e p.store path old new range = false := by simp [rewrites, hfile]
      simp only [hnot, Bool.false_eq_true, if_false]
      refine ih ?_ hgoing hstopped
      rw [houtcome]
      exact hp
    | stopped _ _ _ _ hcause =>
      rw [foldl_visit_of_stopped (by rw [hcause]; rfl), hcause] at hstopped
      cases hstopped

/-- The files that a rename reports are those that it wrote. -/
theorem filesTouched_run {e : Engine} {s : Store} {old new : String} {scope : Scope}
    (h : (run e s old new scope).stopped = none) :
    (run e s old new scope).outcome.filesTouched.Lists (rewritten e s old new scope) := by
  unfold rewritten
  rcases run_cases e s old new scope with ⟨cause, hrun⟩ | ⟨paths, hpaths, hrun⟩
  · rw [hrun] at h
    cases h
  · rw [hrun] at h ⊢
    rw [visits_eq hpaths]
    have hnone : PathSet.Lists (Outcome.filesTouched {}) [] := PathSet.lists_nil
    exact Progress.filesTouched_visits
      (p := { store := s, remarks := searchRemarks e old paths scope }) hnone rfl h

end SymbolRename.Rename
