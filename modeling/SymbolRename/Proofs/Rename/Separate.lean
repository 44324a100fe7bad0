import SymbolRename.Proofs.Lexer.Lines
import SymbolRename.Proofs.Rename.Completion
import SymbolRename.Proofs.Rename.Mirror
import SymbolRename.Proofs.Store.Apart

/-!
# Files are renamed separately

A rename does in each of its files what a rename of this file on its own would do, whatever happens
to the others (`Rename.Progress.visits_separate`). In a file that does not contain the name it does
nothing (`Rename.alone_of_not_mentions`), so a search for the name leaves out no file to change.
-/

namespace SymbolRename

/-! ### Sets of paths -/

namespace PathSet

/-- A path behind all others comes to the end. -/
theorem insert_of_lt {p : Path} {s : PathSet} (h : ∀ q ∈ s, q.compare p = .lt) :
    insert p s = s ++ [p] := by
  induction s with
  | nil => rfl
  | cons q rest ih =>
    obtain ⟨hq, hrest⟩ := List.forall_mem_cons.mp h
    rw [insert, Std.OrientedCmp.gt_iff_lt.mpr hq]
    exact congrArg (q :: ·) (ih hrest)

/-- What holds of all spellings of a path or of none can be looked at before or after a path is
added. -/
theorem filter_insert {keep : Path → Bool} {p : Path} {s : PathSet} (hs : s.Sorted)
    (hkeep : ∀ q ∈ s, q.same p = true → keep q = keep p) :
    (insert p s).filter keep = if keep p then insert p (s.filter keep) else s.filter keep := by
  induction s with
  | nil => cases hp : keep p <;> simp [insert, hp]
  | cons q rest ih =>
    obtain ⟨hq, hrest⟩ := List.pairwise_cons.mp hs
    obtain ⟨hkq, hkrest⟩ := List.forall_mem_cons.mp hkeep
    have hmore := ih hrest hkrest
    rw [insert]
    cases hc : p.compare q with
    | lt =>
      have hbefore : ∀ r ∈ (q :: rest).filter keep, p.compare r = .lt := by
        intro r hr
        rcases List.mem_cons.mp (List.mem_filter.mp hr).1 with rfl | hr
        · exact hc
        · exact Std.TransCmp.lt_trans hc (hq r hr)
      dsimp only
      rw [List.filter_cons]
      split
      · cases hfilter : (q :: rest).filter keep with
        | nil => rfl
        | cons r more =>
          rw [insert, hbefore r (by rw [hfilter]; exact List.mem_cons_self)]
      · rfl
    | eq =>
      have hsame : q.same p = true := by
        have hsame := Path.compare_eq_iff.mp hc
        rw [Path.same, beq_iff_eq] at hsame ⊢
        exact hsame.symm
      dsimp only
      rw [List.filter_cons, hkq hsame]
      split
      · rw [insert, hc]
      · rfl
    | gt =>
      dsimp only
      rw [List.filter_cons, List.filter_cons, hmore]
      cases keep q <;> cases keep p <;> simp [insert, hc]

theorem filter_insertAll {keep : Path → Bool} {paths : List Path} {s : PathSet} (hs : s.Sorted)
    (hkeep : ∀ p ∈ paths ++ s, ∀ q ∈ paths ++ s, q.same p = true → keep q = keep p) :
    insertAll (paths.filter keep) (s.filter keep) = (insertAll paths s).filter keep := by
  induction paths generalizing s with
  | nil => rfl
  | cons p rest ih =>
    have hsub : ∀ q ∈ rest ++ insert p s, q ∈ p :: rest ++ s := by
      intro q hq
      rcases List.mem_append.mp hq with hq | hq
      · exact List.mem_append_left _ (List.mem_cons_of_mem p hq)
      · rcases mem_of_mem_insert hq with rfl | hq
        · exact List.mem_append_left _ List.mem_cons_self
        · exact List.mem_append_right _ hq
    have hrest := ih (hs.insert p) fun q hq r hr => hkeep q (hsub q hq) r (hsub r hr)
    have hinsert := filter_insert (p := p) hs fun q hq => hkeep p
      (List.mem_append_left _ List.mem_cons_self) q (List.mem_append_right _ hq)
    show _ = (insertAll rest (insert p s)).filter keep
    rw [← hrest, hinsert, List.filter_cons]
    split <;> rfl

/-- What holds of all spellings of a path or of none can be looked at before or after the paths are
put in order. -/
theorem filter_ofList {keep : Path → Bool} {paths : List Path}
    (hkeep : ∀ p ∈ paths, ∀ q ∈ paths, q.same p = true → keep q = keep p) :
    ofList (paths.filter keep) = (ofList paths).filter keep := by
  refine filter_insertAll (s := []) .nil fun p hp q hq => ?_
  rw [List.append_nil] at hp hq
  exact hkeep p hp q hq

end PathSet

/-! ### Outcomes in a row -/

/-- What both renames did, the second after the first. -/
def Outcome.append (o o' : Outcome) : Outcome where
  changes := o.changes ++ o'.changes
  filesTouched := PathSet.insertAll o'.filesTouched o.filesTouched
  failures := o.failures ++ o'.failures

/-- Paths that each add themselves or nothing are filtered. -/
theorem flatMap_eq_filter {results : Path → List Path} {paths : List Path}
    (hown : ∀ path ∈ paths, results path = [] ∨ results path = [path]) :
    paths.flatMap results = paths.filter fun path => !(results path).isEmpty := by
  induction paths with
  | nil => rfl
  | cons path rest ih =>
    obtain ⟨hfirst, hrest⟩ := List.forall_mem_cons.mp hown
    rw [List.flatMap_cons, List.filter_cons, ih hrest]
    rcases hfirst with hnone | hone
    · rw [hnone]
      rfl
    · rw [hone]
      rfl

/-- What renames of several files did, each of which touched its own file at most. -/
theorem Outcome.foldl_append {results : Path → Outcome}
    (hown : ∀ path, (results path).filesTouched = [] ∨ (results path).filesTouched = [path])
    {paths : List Path} (hsorted : PathSet.Sorted paths) {o : Outcome}
    (hbefore : ∀ q ∈ o.filesTouched, ∀ path ∈ paths, q.compare path = .lt) :
    paths.foldl (fun o path => o.append (results path)) o =
      ⟨o.changes ++ paths.flatMap fun path => (results path).changes,
        o.filesTouched ++ paths.flatMap fun path => (results path).filesTouched,
        o.failures ++ paths.flatMap fun path => (results path).failures⟩ := by
  induction paths generalizing o with
  | nil => simp
  | cons path rest ih =>
    obtain ⟨hfirst, hrest⟩ := List.pairwise_cons.mp hsorted
    have htouched : (o.append (results path)).filesTouched =
        o.filesTouched ++ (results path).filesTouched := by
      unfold append
      rcases hown path with hnone | hone
      · rw [hnone, List.append_nil]
        rfl
      · rw [hone]
        exact PathSet.insert_of_lt fun q hq => hbefore q hq path List.mem_cons_self
    rw [List.foldl_cons, ih hrest]
    · rw [htouched]
      simp only [append, List.flatMap_cons, List.append_assoc]
    · intro q hq r hr
      rw [htouched] at hq
      rcases List.mem_append.mp hq with hq | hq
      · exact hbefore q hq r (List.mem_cons_of_mem path hr)
      · rcases hown path with hnone | hone
        · rw [hnone] at hq
          exact absurd hq List.not_mem_nil
        · rw [hone] at hq
          obtain rfl := List.mem_singleton.mp hq
          exact hfirst r hr

namespace Rename

variable {e : Engine} {s t : Store} {old new : String} {range : Option LineRange} {path : Path}

/-! ### One file -/

/-- One file is renamed on its own. -/
def alone (e : Engine) (s : Store) (old new : String) (range : Option LineRange) (path : Path) :
    Progress :=
  Progress.visit e old new range { store := s } path

/-- With the same access to the file its rename fails alike or does the same. -/
theorem inFile_alike (h : s.Alike t path) (hsource : e.source.IgnoresDisk) (old new : String)
    (range : Option LineRange) :
    (∃ fault, inFile e s path old new range = .error fault ∧
      inFile e t path old new range = .error fault) ∨
    ∃ s' t' changes, inFile e s path old new range = .ok (s', changes) ∧
      inFile e t path old new range = .ok (t', changes) ∧ t'.read path = s'.read path := by
  have htext : readText t path = readText s path := by
    unfold readText
    rw [h.read]
  unfold inFile locate
  rw [htext]
  cases hread : readText s path with
  | error fault => exact .inl ⟨fault, rfl, rfl⟩
  | ok content =>
    simp only [bind, Except.bind, hsource.occurrences t.disk s.disk]
    cases e.source.occurrences s.disk path content old range with
    | error cause => exact .inl ⟨_, rfl, rfl⟩
    | ok found =>
      simp only [mapError_ok, pure, Except.pure]
      split
      · exact .inr ⟨s, t, [], rfl, rfl, h.read⟩
      · cases Rewrite.rewrite (bytes content) found old new with
        | error fault => exact .inl ⟨_, rfl, rfl⟩
        | ok result =>
          obtain ⟨rewritten, changes⟩ := result
          simp only [mapError_ok]
          rcases h.write rewritten with ⟨fault, hs, ht⟩ | ⟨s', t', hs, ht⟩
          · rw [hs, ht]
            exact .inl ⟨_, rfl, rfl⟩
          · obtain ⟨was, hwas, _⟩ := bind_eq_ok_iff.mp hread
            have hwas := mapError_eq_ok_iff.mp hwas
            rw [hs, ht]
            refine .inr ⟨s', t', changes, rfl, rfl, ?_⟩
            rw [Store.read_of_write_self hs hwas, Store.read_of_write_self ht (h.read.trans hwas)]

/-- A rename of one file touches this file at most, or fails in it at most. -/
theorem alone_cases (e : Engine) (s : Store) (old new : String) (range : Option LineRange)
    (path : Path) :
    ((alone e s old new range path).outcome.filesTouched = [] ∨
      (alone e s old new range path).outcome.filesTouched = [path]) ∧
    ((alone e s old new range path).outcome.failures = [] ∨
      ∃ message, (alone e s old new range path).outcome.failures = [⟨path, none, message⟩]) := by
  unfold alone
  cases Progress.visited e old new range (p := { store := s }) rfl path with
  | unchanged _ _ houtcome _ | stopped _ _ _ houtcome _ =>
    rw [houtcome]
    exact ⟨.inl rfl, .inl rfl⟩
  | changed _ _ _ houtcome _ =>
    rw [houtcome]
    exact ⟨.inr rfl, .inl rfl⟩
  | failed _ _ _ houtcome _ =>
    rw [houtcome]
    exact ⟨.inl rfl, .inr ⟨_, rfl⟩⟩

/-! ### One file after the other -/

/-- The second rename under way arises from the first when files are renamed separately, from a
store where they hold what they did at the beginning. -/
structure Progress.Separate (e : Engine) (s : Store) (old new : String) (range : Option LineRange)
    (paths : List Path) (p q : Progress) : Prop where
  running : q.stopped = none
  outcome : q.outcome =
    paths.foldl (fun o path => o.append (alone e s old new range path).outcome) p.outcome
  store : s.Continues q.store
  own : ∀ path ∈ paths, q.store.read path = (alone e s old new range path).store.read path
  others : ∀ path, (∀ r ∈ paths, ¬ s.Meets r path) → q.store.read path = p.store.read path

/-- In one more file a rename does what a rename of this file does. -/
theorem Progress.visit_separate {p : Progress} (hrunning : p.stopped = none)
    (hsource : e.source.IgnoresDisk) (hcontinues : s.Continues p.store)
    (hread : p.store.read path = s.read path) (hfree : s.overlay = none → s.disk.ScratchFree path)
    (hmild : (alone e s old new range path).stopped = none) :
    Separate e s old new range [path] p (p.visit e old new range path) := by
  have halike : s.Alike p.store path := hcontinues.alike hread
  have hnil : ∀ o : Outcome, o.append {} = o := by
    intro o
    simp [Outcome.append, PathSet.insertAll]
  unfold alone at hmild
  rcases inFile_alike halike hsource old new range with
    ⟨fault, hs, hp⟩ | ⟨s', t', changes, hs, hp, hafter⟩
  · cases hmessage : fault.message with
    | error cause =>
      simp [visit, hs, hmessage] at hmild
    | ok message =>
      refine ⟨?_, ?_, ?_, ?_, ?_⟩ <;>
        simp [alone, visit, note, hrunning, hs, hp, hmessage, Outcome.append, PathSet.insertAll,
          hcontinues, hread]
  · rcases inFile_eq_ok hs with ⟨rfl, rfl⟩ | ⟨hne, _⟩
    · refine ⟨?_, ?_, ?_, ?_, ?_⟩ <;>
        simp [alone, visit, hrunning, hs, hp, hnil, hcontinues, hread]
    · obtain ⟨change, rest, rfl⟩ := List.exists_cons_of_ne_nil hne
      rcases inFile_eq_ok hp with ⟨_, hnone⟩ | ⟨_, hrewrites⟩
      · cases hnone
      · obtain ⟨content, found, rewritten, _, _, _, _, hwrite⟩ := hrewrites.exists_text
        have hfree' : p.store.overlay = none → p.store.disk.ScratchFree path := fun hreal =>
          hcontinues.disk.scratchFree (hfree (hcontinues.overlay_eq_none_iff.mp hreal))
        have hnext := hcontinues.trans (Store.continues_of_write hwrite hfree')
        refine ⟨?_, ?_, ?_, ?_, ?_⟩
        · simp [visit, note, hrunning, hp]
        · simp [alone, visit, note, hrunning, hs, hp, Outcome.append, PathSet.insertAll,
            PathSet.insert]
        · simpa [visit, note, hrunning, hp] using hnext
        · simpa [alone, visit, note, hrunning, hs, hp] using hafter
        · intro other hapart
          have hmeets : ¬ p.store.Meets path other := fun hmeets =>
            hapart path List.mem_cons_self (hcontinues.meets_iff.mp hmeets)
          simpa [visit, note, hrunning, hp] using
            Store.read_of_write_of_not_meets hwrite hfree' hmeets

/-- In files that lie apart a rename does what the renames of these files do; the induction is on
the files that are left, which hold what they did at the beginning. -/
theorem Progress.visits_separate {p : Progress} (hrunning : p.stopped = none)
    (hsource : e.source.IgnoresDisk) (hcontinues : s.Continues p.store) {paths : List Path}
    (hread : ∀ path ∈ paths, p.store.read path = s.read path)
    (hfree : s.overlay = none → ∀ path ∈ paths, s.disk.ScratchFree path)
    (hapart : paths.Pairwise fun q path => ¬ s.Meets q path)
    (hmild : ∀ path ∈ paths, (alone e s old new range path).stopped = none) :
    Separate e s old new range paths p (paths.foldl (visit e old new range) p) := by
  induction paths generalizing p with
  | nil => exact ⟨hrunning, rfl, hcontinues, nofun, fun _ _ => rfl⟩
  | cons path rest ih =>
    obtain ⟨hfirst, hrest⟩ := List.pairwise_cons.mp hapart
    have hone := visit_separate hrunning hsource hcontinues (hread path List.mem_cons_self)
      (fun hreal => hfree hreal path List.mem_cons_self) (hmild path List.mem_cons_self)
    have hothers : ∀ r, ¬ s.Meets path r →
        (p.visit e old new range path).store.read r = p.store.read r := fun r hr =>
      hone.others r fun q hq => List.mem_singleton.mp hq ▸ hr
    have hmore := ih hone.running hone.store
      (fun r hr => (hothers r (hfirst r hr)).trans (hread r (List.mem_cons_of_mem path hr)))
      (fun hreal r hr => hfree hreal r (List.mem_cons_of_mem path hr)) hrest
      (fun r hr => hmild r (List.mem_cons_of_mem path hr))
    refine ⟨hmore.running, ?_, hmore.store, List.forall_mem_cons.mpr ⟨?_, hmore.own⟩, ?_⟩
    · rw [List.foldl_cons, hmore.outcome, hone.outcome]
      rfl
    · rw [List.foldl_cons, hmore.others path fun r hr hmeets => hfirst r hr hmeets.symm]
      exact hone.own path List.mem_cons_self
    · intro r hr
      obtain ⟨hpath, hrest⟩ := List.forall_mem_cons.mp hr
      rw [List.foldl_cons, hmore.others r hrest, hothers r hpath]

/-! ### The files of a search -/

/-- With the same access to the file its rename does the same. -/
theorem alone_alike (h : s.Alike t path) (hsource : e.source.IgnoresDisk) :
    (alone e t old new range path).outcome = (alone e s old new range path).outcome ∧
      (alone e t old new range path).store.read path =
        (alone e s old new range path).store.read path := by
  unfold alone
  rcases inFile_alike h hsource old new range with
    ⟨fault, hs, ht⟩ | ⟨s', t', changes, hs, ht, hafter⟩
  · cases hmessage : fault.message <;>
      simp [Progress.visit, Progress.note, hs, ht, hmessage, h.read]
  · cases changes <;> simp [Progress.visit, Progress.note, hs, ht, hafter, h.read]

/-- A rename of a file that is there is the rename of this file on its own. -/
theorem run_file (hproper : Mapping.IsProper ⟨old, new⟩) (hexists : s.exists path = true) :
    run e s old new (.file path) = alone e s old new none path := by
  have hpaths : candidates e s old (.file path) = .ok [path] := if_pos hexists
  unfold run
  rw [Mapping.validateNames_eq_ok_iff.mpr hproper, hpaths]
  rfl

/-- A file that does not hold the name is left alone. -/
theorem alone_of_not_mentions {content : Bytes} (hread : s.read path = .ok content)
    (hnot : Bytes.contains (bytes old) content = false) :
    (alone e s old new range path).store = s ∧
      (alone e s old new range path).outcome.changes = [] ∧
      (alone e s old new range path).outcome.filesTouched = [] ∧
      ((readText s path).isOk = true → (alone e s old new range path).outcome.failures = []) := by
  have htext : readText s path = (Utf8.decode? content).elim (.error .notText) .ok := by
    unfold readText
    rw [hread]
    rfl
  cases hdecode : Utf8.decode? content with
  | none =>
    rw [hdecode] at htext
    have hfile : inFile e s path old new range = .error .notText := by
      unfold inFile locate
      rw [htext]
      rfl
    refine ⟨?_, ?_, ?_, fun hok => ?_⟩
    · simp [alone, Progress.visit, Progress.note, hfile, FileFault.message]
    · simp [alone, Progress.visit, Progress.note, hfile, FileFault.message]
    · simp [alone, Progress.visit, Progress.note, hfile, FileFault.message]
    · rw [htext] at hok
      cases hok
  | some text =>
    rw [hdecode] at htext
    have hbytes := Utf8.bytes_of_decode? hdecode
    have hfile : inFile e s path old new range = .ok (s, []) := by
      unfold inFile locate Source.occurrences
      rw [htext]
      simp only [Option.elim_some, bind, Except.bind, hbytes, hnot, Bool.false_eq_true, if_false,
        mapError_ok, pure, Except.pure, List.isEmpty_nil, if_true]
    simp [alone, Progress.visit, hfile]

end Rename

end SymbolRename
