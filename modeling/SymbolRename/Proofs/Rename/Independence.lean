import SymbolRename.Proofs.Rename.Separate

/-!
# A project is renamed file by file

The rename of a project is made of the renames of its files: what is changed and touched, what fails
and what the files hold in the end is put together from runs for single files, whatever can be read,
written or located in which of them (`Rename.run_independent`). A search for the name before that
leaves out no file that has something to change.
-/

namespace SymbolRename

/-! ### The files of a search -/

/-- The file can be read and counts as text. -/
def Search.isSearchable (s : Store) (f : Filter) (path : Path) : Bool :=
  match s.read path with
  | .error _ => false
  | .ok content => binaryAsText f || !isBinary content

/-- The file can be read and contains the name. -/
def Store.mentions (s : Store) (name : String) (path : Path) : Bool :=
  match s.read path with
  | .error _ => false
  | .ok content => Bytes.contains (bytes name) content

/-- The files that a search goes through: those that it looks at and that count as text. -/
def Search.walked (s : Store) (f : Filter) (files : List Path) : PathSet :=
  PathSet.ofList (files.filter (isSearchable s f))

section

variable {s : Store} {f : Filter} {files : List Path} {path : Path} {name : String}

theorem Search.exists_read_of_isSearchable (h : isSearchable s f path = true) :
    ∃ content, s.read path = .ok content := by
  unfold isSearchable at h
  split at h
  · cases h
  · rename_i content hread
    exact ⟨content, hread⟩

theorem Search.exists_read_of_walked (h : path ∈ walked s f files) :
    ∃ content, s.read path = .ok content :=
  exists_read_of_isSearchable (List.mem_filter.mp (PathSet.mem_of_mem_ofList h)).2

theorem Store.mentions_eq {content : Bytes} (hread : s.read path = .ok content) :
    s.mentions name path = Bytes.contains (bytes name) content := by
  unfold mentions
  rw [hread]

/-- The candidates for a name are the files that the search goes through and that contain it. -/
theorem Search.candidates_eq_filter {roots : List Path} (h : Search.files f roots s.disk = .ok files)
    (hname : name ≠ "") :
    candidates s roots f [name] = .ok ((walked s f files).filter (s.mentions name)) := by
  have hneedles : ([name].filter (· != "")).map bytes = [bytes name] := by simp [hname]
  have hholds : ∀ path, holds s f [bytes name] path =
      (s.mentions name path && isSearchable s f path) := by
    intro path
    unfold holds isSearchable Store.mentions
    cases s.read path with
    | error fault => rfl
    | ok content =>
      dsimp only
      rw [List.any_cons, List.any_nil, Bool.or_false, Bool.and_comm]
  have hsame : ∀ p ∈ files.filter (isSearchable s f), ∀ q ∈ files.filter (isSearchable s f),
      q.same p = true → s.mentions name q = s.mentions name p := by
    intro p hp q hq hsame
    obtain ⟨content, hcontent⟩ := exists_read_of_isSearchable (List.mem_filter.mp hp).2
    obtain ⟨was, hwas⟩ := exists_read_of_isSearchable (List.mem_filter.mp hq).2
    rw [Store.mentions_eq hcontent, Store.mentions_eq hwas,
      Store.eq_of_read_of_same hsame hwas hcontent]
  rw [candidates_eq h, hneedles, walked, ← PathSet.filter_ofList hsame, List.filter_filter,
    List.filter_congr fun path _ => hholds path]
  rfl

end

/-! ### Lists of results -/

section

variable {α : Type} {results : Path → List α} {paths : List Path} {path : Path}

/-- What has no results may be left out. -/
theorem flatMap_filter_of_nil {keep : Path → Bool}
    (h : ∀ path ∈ paths, keep path = false → results path = []) :
    (paths.filter keep).flatMap results = paths.flatMap results := by
  induction paths with
  | nil => rfl
  | cons path rest ih =>
    obtain ⟨hfirst, hrest⟩ := List.forall_mem_cons.mp h
    rw [List.filter_cons, List.flatMap_cons, ← ih hrest]
    cases hkeep : keep path with
    | true => rfl
    | false =>
      rw [hfirst hkeep]
      rfl

/-- A path among results that are their own paths occurs as often as in its own result. -/
theorem count_flatMap {results : Path → List Path}
    (hown : ∀ path ∈ paths, results path = [] ∨ results path = [path]) (hnodup : paths.Nodup)
    (hpath : path ∈ paths) : (paths.flatMap results).count path = (results path).length := by
  rw [flatMap_eq_filter hown]
  rcases hown path hpath with hnone | hone
  · rw [hnone, List.length_nil, List.count_eq_zero]
    intro hmem
    have hkept := (List.mem_filter.mp hmem).2
    rw [hnone] at hkept
    cases hkept
  · rw [hone, List.length_singleton, List.count_filter (by rw [hone]; rfl)]
    exact List.count_eq_one_of_mem hnodup hpath

end

namespace Rename

/-! ### What becomes of a file -/

/-- A candidate is rewritten, fails or has no occurrence, and is reported accordingly. -/
inductive Fate (e : Engine) (s : Store) (old : String) (whole : Progress) (path : Path) : Prop
  | rewritten {content : String} {found : List Occurrence}
      (hfound : locate e s path old none = .ok (content, found)) (hne : found ≠ [])
      (htouched : whole.outcome.filesTouched.count path = 1)
      (hfailures : (whole.outcome.failures.map (·.path)).count path = 0) : Fate e s old whole path
  | failed (htouched : whole.outcome.filesTouched.count path = 0)
      (hfailures : (whole.outcome.failures.map (·.path)).count path = 1)
      (hkept : whole.store.read path = s.read path) : Fate e s old whole path
  | absent {content : String} (hfound : locate e s path old none = .ok (content, []))
      (htouched : whole.outcome.filesTouched.count path = 0)
      (hfailures : (whole.outcome.failures.map (·.path)).count path = 0)
      (hkept : whole.store.read path = s.read path) : Fate e s old whole path

/-- A rename is made of the renames of single files: the changes are those of the files in order,
the files touched are those that the single renames touch, the failures in files that are text are
those of the single renames, and each file ends as its own rename leaves it, which depends on the
access to this file alone. -/
structure IsMadeOf (e : Engine) (s : Store) (old new : String) (walked : List Path)
    (whole : Progress) : Prop where
  running : whole.stopped = none
  changes : whole.outcome.changes =
    walked.flatMap fun path => (run e s old new (.file path)).outcome.changes
  touched : whole.outcome.filesTouched =
    walked.flatMap fun path => (run e s old new (.file path)).outcome.filesTouched
  sorted : PathSet.Sorted whole.outcome.filesTouched
  failures : whole.outcome.failures.filter (fun f => (readText s f.path).isOk) =
    (walked.filter fun path => (readText s path).isOk).flatMap fun path =>
      (run e s old new (.file path)).outcome.failures
  contents : ∀ path ∈ walked,
    whole.store.read path = (run e s old new (.file path)).store.read path
  alike : ∀ path ∈ walked, ∀ t : Store, s.Alike t path →
    (run e t old new (.file path)).outcome = (run e s old new (.file path)).outcome ∧
      (run e t old new (.file path)).store.read path =
        (run e s old new (.file path)).store.read path
  fates : ∀ path ∈ walked, s.mentions old path = true → Fate e s old whole path

section

variable {e : Engine} {s : Store} {old new : String} {path : Path}

/-- A rename that changes nothing found nothing. -/
theorem exists_locate_of_inFile {t : Store} {range : Option LineRange}
    (h : inFile e s path old new range = .ok (t, [])) :
    ∃ content, locate e s path old range = .ok (content, []) := by
  obtain ⟨⟨content, found⟩, hlocate, h⟩ := bind_eq_ok_iff.mp h
  by_cases hempty : found.isEmpty = true
  · rw [List.isEmpty_iff.mp hempty] at hlocate
    exact ⟨content, hlocate⟩
  · simp only [hempty] at h
    obtain ⟨⟨rewritten, made⟩, hrewrite, h⟩ := bind_eq_ok_iff.mp h
    obtain ⟨_, _, h⟩ := bind_eq_ok_iff.mp h
    obtain rfl : made = [] := (Prod.mk.inj (Except.ok.inj h)).2
    have hchanges := Rewrite.changes_eq_of_rewrite (mapError_eq_ok_iff.mp hrewrite)
    exact absurd (List.isEmpty_iff.mpr (Rewrite.changesOf_eq_nil_iff.mp hchanges.symm)) hempty

/-- A file that is renamed on its own meets the fate that its outcome tells. -/
theorem fate_of_alone {whole : Progress} (hmild : (alone e s old new none path).stopped = none)
    (htouched : whole.outcome.filesTouched.count path =
      (alone e s old new none path).outcome.filesTouched.length)
    (hfailures : (whole.outcome.failures.map (·.path)).count path =
      (alone e s old new none path).outcome.failures.length)
    (hread : whole.store.read path = (alone e s old new none path).store.read path) :
    Fate e s old whole path := by
  unfold alone at hmild htouched hfailures hread
  cases Progress.visited e old new none (p := { store := s }) rfl path with
  | unchanged hfile hstore houtcome _ =>
    rw [houtcome] at htouched hfailures
    rw [hstore] at hread
    obtain ⟨content, hlocate⟩ := exists_locate_of_inFile hfile
    exact .absent hlocate htouched hfailures hread
  | changed _ _ hrewrites houtcome _ =>
    rw [houtcome] at htouched hfailures
    obtain ⟨content, found, rewritten, htext, hfound, hne, _⟩ := hrewrites.exists_text
    have hlocate : locate e s path old none = .ok (content, found) := by
      unfold locate
      rw [htext]
      simp only [bind, Except.bind]
      rw [hfound]
      rfl
    exact .rewritten hlocate hne htouched hfailures
  | failed _ _ hstore houtcome _ =>
    rw [houtcome] at htouched hfailures
    rw [hstore] at hread
    exact .failed htouched hfailures hread
  | stopped _ _ _ _ hcause =>
    rw [hcause] at hmild
    cases hmild

/-- The rename of a file that does not contain the name does nothing, unless it is no text. -/
theorem alone_of_mentions_eq_false (hread : ∃ content, s.read path = .ok content)
    (hnot : s.mentions old path = false) :
    (alone e s old new none path).store = s ∧
      (alone e s old new none path).outcome.changes = [] ∧
      (alone e s old new none path).outcome.filesTouched = [] ∧
      ((readText s path).isOk = true → (alone e s old new none path).outcome.failures = []) := by
  obtain ⟨content, hcontent⟩ := hread
  exact alone_of_not_mentions hcontent (Store.mentions_eq hcontent ▸ hnot)

/-- What a rename through sorted files reports when nothing was reported before. -/
theorem Progress.Separate.outcome_eq {paths : List Path} {p whole : Progress}
    (h : Progress.Separate e s old new none paths p whole) (houtcome : p.outcome = {})
    (hsorted : PathSet.Sorted paths) :
    whole.outcome =
      ⟨paths.flatMap fun path => (alone e s old new none path).outcome.changes,
        paths.flatMap fun path => (alone e s old new none path).outcome.filesTouched,
        paths.flatMap fun path => (alone e s old new none path).outcome.failures⟩ := by
  have hwhole := h.outcome
  rw [houtcome, Outcome.foldl_append (fun path => (alone_cases e s old new none path).1) hsorted
    fun q hq => absurd hq List.not_mem_nil] at hwhole
  exact hwhole

/-- A file of the search ends as its own rename leaves it, whether it contains the name or not. -/
theorem Progress.Separate.read_eq {walked : List Path} {p whole : Progress}
    (h : Progress.Separate e s old new none (walked.filter (s.mentions old)) p whole)
    (hstore : p.store = s) (hread : ∀ path ∈ walked, ∃ content, s.read path = .ok content)
    (hpath : path ∈ walked) :
    whole.store.read path = (alone e s old new none path).store.read path := by
  cases hmentions : s.mentions old path with
  | true => exact h.own path (List.mem_filter.mpr ⟨hpath, hmentions⟩)
  | false =>
    rw [(alone_of_mentions_eq_false (hread path hpath) hmentions).1, ← hstore]
    -- A file that contains the name is at another place, since its content is another.
    refine h.others path fun r hr hmeets => ?_
    obtain ⟨hr, hcontains⟩ := List.mem_filter.mp hr
    obtain ⟨was, hwas⟩ := hread r hr
    obtain ⟨content, hcontent⟩ := hread path hpath
    obtain rfl := Store.eq_of_read_of_meets hmeets hwas hcontent
    rw [Store.mentions_eq hwas, ← Store.mentions_eq hcontent, hmentions] at hcontains
    cases hcontains

/-- Failures of a file that is text are kept, and a file without the name has none of them. -/
theorem filter_failures_eq {walked : List Path}
    (hread : ∀ path ∈ walked, ∃ content, s.read path = .ok content) :
    ((walked.filter (s.mentions old)).flatMap fun path =>
        (alone e s old new none path).outcome.failures).filter
        (fun f => (readText s f.path).isOk) =
      (walked.filter fun path => (readText s path).isOk).flatMap fun path =>
        (alone e s old new none path).outcome.failures := by
  have hkept : ∀ path, ((alone e s old new none path).outcome.failures.filter fun f =>
      (readText s f.path).isOk) = if (readText s path).isOk then
        (alone e s old new none path).outcome.failures else [] := by
    intro path
    rcases (alone_cases e s old new none path).2 with hnone | ⟨message, hone⟩
    · rw [hnone]
      split <;> rfl
    · rw [hone, List.filter_singleton]
      cases (readText s path).isOk <;> rfl
  rw [List.filter_flatMap, List.flatMap_congr fun path _ => hkept path,
    flatMap_filter_of_nil fun path hpath hnot => ?_, ← flatMap_filter_of_nil fun path _ hnot => ?_]
  · refine List.flatMap_congr fun path hpath => ?_
    rw [if_pos (List.mem_filter.mp hpath).2]
  · exact if_neg (Bool.eq_false_iff.mp hnot)
  · split
    · rename_i htext
      exact (alone_of_mentions_eq_false (hread path hpath) hnot).2.2.2 htext
    · rfl

/-- Each file that a rename went through meets the fate that its own rename tells. -/
theorem Progress.Separate.fate {paths : List Path} {p whole : Progress}
    (h : Progress.Separate e s old new none paths p whole) (houtcome : p.outcome = {})
    (hsorted : PathSet.Sorted paths) (hpath : path ∈ paths)
    (hmild : (alone e s old new none path).stopped = none) : Fate e s old whole path := by
  have hnodup : paths.Nodup := hsorted.imp fun hlt heq => by
    rw [heq, Path.compare_eq_iff.mpr (Overlay.same_self _)] at hlt
    cases hlt
  have hwhole := h.outcome_eq houtcome hsorted
  refine fate_of_alone hmild ?_ ?_ (h.own path hpath)
  · rw [hwhole]
    exact count_flatMap (fun path _ => (alone_cases e s old new none path).1) hnodup hpath
  · rw [hwhole, List.map_flatMap, count_flatMap ?_ hnodup hpath, List.length_map]
    intro path _
    rcases (alone_cases e s old new none path).2 with hnone | ⟨message, hone⟩
    · exact .inl (by rw [hnone]; rfl)
    · exact .inr (by rw [hone]; rfl)

/-- What a rename that runs through the files of a search that contain the name does is made of the
renames of all files of the search. -/
theorem Progress.Separate.isMadeOf {walked : List Path} {p whole : Progress}
    (h : Progress.Separate e s old new none (walked.filter (s.mentions old)) p whole)
    (hstore : p.store = s) (houtcome : p.outcome = {}) (hsource : e.source.IgnoresDisk)
    (hproper : Mapping.IsProper ⟨old, new⟩) (hwalked : PathSet.Sorted walked)
    (hread : ∀ path ∈ walked, ∃ content, s.read path = .ok content)
    (hmild : ∀ path ∈ walked, (alone e s old new none path).stopped = none) :
    IsMadeOf e s old new walked whole := by
  have hsingle : ∀ path ∈ walked, run e s old new (.file path) = alone e s old new none path := by
    intro path hpath
    obtain ⟨content, hcontent⟩ := hread path hpath
    exact run_file hproper (Store.exists_of_read hcontent)
  have hidle := fun path hpath =>
    @alone_of_mentions_eq_false e s old new path (hread path hpath)
  have hsorted : PathSet.Sorted (walked.filter (s.mentions old)) := List.Pairwise.filter _ hwalked
  have hwhole := h.outcome_eq houtcome hsorted
  refine ⟨h.running, ?_, ?_, ?_, ?_, ?_, ?_, ?_⟩
  · rw [hwhole, flatMap_filter_of_nil fun path hpath hnot => (hidle path hpath hnot).2.1]
    exact List.flatMap_congr fun path hpath => by rw [hsingle path hpath]
  · rw [hwhole, flatMap_filter_of_nil fun path hpath hnot => (hidle path hpath hnot).2.2.1]
    exact List.flatMap_congr fun path hpath => by rw [hsingle path hpath]
  · rw [hwhole, flatMap_eq_filter fun path _ => (alone_cases e s old new none path).1]
    exact List.Pairwise.filter _ hsorted
  · rw [hwhole, filter_failures_eq hread]
    exact List.flatMap_congr fun path hpath => by rw [hsingle path (List.mem_filter.mp hpath).1]
  · intro path hpath
    rw [hsingle path hpath]
    exact h.read_eq hstore hread hpath
  · intro path hpath t halike
    obtain ⟨content, hcontent⟩ := hread path hpath
    rw [hsingle path hpath, run_file hproper (Store.exists_of_read (halike.read.trans hcontent))]
    exact alone_alike halike hsource
  · intro path hpath hmentions
    exact h.fate houtcome hsorted (List.mem_filter.mpr ⟨hpath, hmentions⟩) (hmild path hpath)

/-- For every store, whatever it refuses to read or write, every source that answers from the path,
the content and the name and stays in the lines, and two different identifiers: the candidates of a
rename are the files of the search that contain the name, and the rename is made of the renames of
all files of the search. A store that writes to the disk has each candidate under one spelling, with
nothing at the place of its scratch file. -/
theorem run_independent (hlines : e.source.StaysInLines) (hsource : e.source.IgnoresDisk)
    (hproper : Mapping.IsProper ⟨old, new⟩) {roots files : List Path}
    (hfiles : Search.files e.filter roots s.disk = .ok files)
    (happart : s.IsApart ((Search.walked s e.filter files).filter (s.mentions old)))
    (hfits : ∀ path ∈ Search.walked s e.filter files, s.Fits old path) :
    candidates e s old (.project roots) =
        .ok ((Search.walked s e.filter files).filter (s.mentions old)) ∧
      IsMadeOf e s old new (Search.walked s e.filter files) (run e s old new (.project roots)) := by
  have hold : old ≠ "" := by
    rintro rfl
    cases hproper.1
  have hpaths : candidates e s old (.project roots) =
      .ok ((Search.walked s e.filter files).filter (s.mentions old)) :=
    Search.candidates_eq_filter hfiles hold
  have hwalked : PathSet.Sorted (Search.walked s e.filter files) := PathSet.sorted_ofList _
  have hmild : ∀ path ∈ Search.walked s e.filter files,
      (alone e s old new none path).stopped = none := fun path hpath =>
    Progress.visit_stopped hlines hproper.1 new none rfl (hfits path hpath)
  have hseparate : ∀ remarks, Progress.Separate e s old new none
      ((Search.walked s e.filter files).filter (s.mentions old)) { store := s, remarks := remarks }
      (((Search.walked s e.filter files).filter (s.mentions old)).foldl
        (Progress.visit e old new none) { store := s, remarks := remarks }) := fun remarks =>
    Progress.visits_separate rfl hsource (.refl s) (fun _ _ => rfl) happart.free
      (happart.pairwise_not_meets (List.Pairwise.filter _ hwalked))
      (fun path hpath => hmild path (List.mem_filter.mp hpath).1)
  refine ⟨hpaths, ?_⟩
  unfold run
  rw [Mapping.validateNames_eq_ok_iff.mpr hproper, mapError_ok, hpaths]
  exact (hseparate _).isMadeOf rfl rfl hsource hproper hwalked
    (fun _ => Search.exists_read_of_walked) hmild

end

/-! ### Projects of some files -/

/-- A file that is rewritten, one that cannot be written, one that holds the name in a longer one only
and one that is no text; the first is given twice. -/
theorem run_independent_four_files :
    let e : Engine := { source := Source.lexical, filter := { level := 3 } }
    let s : Store :=
      { disk := { here := [], process := 7, nodes := [(["a.js"], .file (bytes "foo") 420),
          (["b.js"], .file (bytes "foo") 420), (["c.js"], .file (bytes "food") 420),
          (["d.js"], .file (0xff :: bytes "foo") 420)] }
        unwritable := [⟨"b.js"⟩] }
    let files : List Path := [⟨"d.js"⟩, ⟨"c.js"⟩, ⟨"a.js"⟩, ⟨"b.js"⟩, ⟨"a.js"⟩]
    Search.files e.filter files s.disk = .ok files ∧ Mapping.IsProper ⟨"foo", "bar"⟩ ∧
      s.IsApart ((Search.walked s e.filter files).filter (s.mentions "foo")) ∧
      (∀ path ∈ Search.walked s e.filter files, s.Fits "foo" path) ∧
      (run e s "foo" "bar" (.project files)).outcome.filesTouched = [⟨"a.js"⟩] ∧
      IsMadeOf e s "foo" "bar" (Search.walked s e.filter files)
        (run e s "foo" "bar" (.project files)) := by
  intro e s files
  have hfiles : Search.files e.filter files s.disk = .ok files := by decide +kernel
  have hproper : Mapping.IsProper ⟨"foo", "bar"⟩ := ⟨by decide, by decide, by decide⟩
  have happart : s.IsApart ((Search.walked s e.filter files).filter (s.mentions "foo")) := by
    decide +kernel
  have hfits : ∀ path ∈ Search.walked s e.filter files, s.Fits "foo" path := by decide +kernel
  exact ⟨hfiles, hproper, happart, hfits, by decide +kernel, (run_independent
    Source.lexical_staysInLines Source.lexical_ignoresDisk hproper hfiles happart hfits).2⟩

/-- A lexical rename of `foo` to `bar` in a project whose files have these contents. -/
def runIn (f : Filter) (nodes : List (Place × Node)) (scope : Scope) : Progress :=
  run { source := Source.lexical, filter := f }
    { disk := { here := [], process := 7, nodes := nodes } } "foo" "bar" scope

/-- A file that takes the place of the scratch file of another is lost, a file that is reached under
two spellings is rewritten once, and a root that is a file is renamed whatever the filter says. -/
theorem run_is_not_independent :
    ((runIn { level := 3 } [(["a.js"], .file (bytes "foo") 420),
          (["a.7.refactor.tmp"], .file (bytes "kept") 420)] (.project [⟨"."⟩])).store.read
        ⟨"./a.7.refactor.tmp"⟩ = .error .missing ∧
      (runIn { level := 3 } [(["a.js"], .file (bytes "foo") 420),
          (["a.7.refactor.tmp"], .file (bytes "kept") 420)] (.file ⟨"./a.7.refactor.tmp"⟩)).store.read
        ⟨"./a.7.refactor.tmp"⟩ = .ok (bytes "kept")) ∧
    ((runIn { level := 3 } [(["src"], .directory 493), (["src", "a.js"], .file (bytes "foo") 420)]
        (.project [⟨"src"⟩, ⟨"."⟩])).outcome.filesTouched = [⟨"./src/a.js"⟩] ∧
      (runIn { level := 3 } [(["src"], .directory 493), (["src", "a.js"], .file (bytes "foo") 420)]
        (.file ⟨"src/a.js"⟩)).outcome.filesTouched = [⟨"src/a.js"⟩]) ∧
    ((Search.globs? ["a.js"]).toOption.map (fun globs =>
        Search.admits { excludes := ["a.js"] } none globs [] ⟨"a.js"⟩) = some false ∧
      (runIn { excludes := ["a.js"] } [(["a.js"], .file (bytes "foo") 420)]
        (.project [⟨"a.js"⟩])).outcome.filesTouched = [⟨"a.js"⟩]) := by
  refine ⟨⟨?_, ?_⟩, ⟨?_, ?_⟩, ?_, ?_⟩ <;> decide +kernel

end Rename

end SymbolRename
