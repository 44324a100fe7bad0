import SymbolRename.Proofs.Lexer.Soundness
import SymbolRename.Proofs.Rename.Changes
import SymbolRename.Proofs.Rename.Separate
import SymbolRename.Proofs.Rewrite.Patch

/-!
# What is found is what is renamed

With the lexical source a search for a name and a rename of it in memory succeed together, name the
same places in the same order and fail in the same files (`Rename.find_agrees`). No rewrite rejects
what was located, and what is written to one file is not seen in the files that follow.
-/

namespace SymbolRename

/-- The second store keeps its writes in memory, takes all of them and holds what the first one
does; the files that there are stand on the disk. -/
structure Store.IsStagedIn (s t : Store) : Prop where
  disk : t.disk = s.disk
  overlay : t.overlay.isSome = true
  writable : t.unwritable = []
  read : ∀ path, t.read path = s.read path
  files : ∀ path, t.exists path = s.exists path
  onDisk : ∀ path, s.exists path = true → s.disk.isFile path = true

/-- A new overlay holds what is on the disk. -/
theorem Store.isStagedIn_new (d : Disk) (unreadable : List Path) :
    IsStagedIn { disk := d, unreadable := unreadable }
      { disk := d, overlay := some [], unreadable := unreadable } :=
  ⟨rfl, rfl, rfl, fun _ => rfl, fun _ => rfl, fun _ h => h⟩

/-- A file that can be read can be written in memory. -/
theorem Store.IsStagedIn.exists_write {s t : Store} (h : s.IsStagedIn t) {path : Path} {was : Bytes}
    (hwas : s.read path = .ok was) (content : Bytes) : ∃ u, t.write path content = .ok u := by
  obtain ⟨o, ho⟩ := Option.isSome_iff_exists.mp h.overlay
  have hfile := h.onDisk path (exists_of_read hwas)
  unfold write
  rw [h.writable, ho, h.disk, hfile]
  exact ⟨_, rfl⟩

/-- Stores over one disk that hold the same are searched alike. -/
theorem Search.candidates_congr {s t : Store} (hdisk : t.disk = s.disk)
    (hread : ∀ path, t.read path = s.read path) (roots : List Path) (f : Filter)
    (needles : List String) : candidates t roots f needles = candidates s roots f needles := by
  have hholds : ∀ needles, holds t f needles = holds s f needles := by
    intro needles
    funext path
    unfold holds
    rw [hread]
  unfold candidates searched
  simp only [hdisk, hholds]

namespace Rename

variable {e : Engine} {s t : Store} {name old new : String} {range : Option LineRange}
  {scope : Scope} {path : Path}

/-- The files of a rename come in order, each once. -/
theorem sorted_of_candidates {paths : List Path} (h : candidates e s name scope = .ok paths) :
    PathSet.Sorted paths := by
  have hone : ∀ {path : Path}, (if s.exists path then Except.ok [path] else
      .error (Cause.fileNotFound path)) = .ok paths → PathSet.Sorted paths := by
    intro path h
    split at h
    · obtain rfl := Except.ok.inj h
      exact List.pairwise_singleton _ _
    · cases h
  cases scope with
  | file path => exact hone h
  | lines path range => exact hone h
  | project roots =>
    change Search.candidates s roots e.filter [name] = .ok paths at h
    unfold Search.candidates at h
    dsimp only at h
    split at h
    · obtain rfl := Except.ok.inj h
      exact .nil
    · obtain ⟨includes, _, h⟩ := bind_eq_ok_iff.mp h
      obtain ⟨excludes, _, h⟩ := bind_eq_ok_iff.mp h
      obtain rfl := Except.ok.inj h
      exact PathSet.sorted_ofList _

/-! ### Finding in one file -/

/-- The occurrences that are found in a file. -/
def foundIn (e : Engine) (s : Store) (name : String) (range : Option LineRange) (path : Path) :
    List Occurrence :=
  match locate e s path name range with
  | .ok (_, found) => found
  | .error _ => []

/-- The failure to find anything in a file. -/
def failureIn (e : Engine) (s : Store) (name : String) (range : Option LineRange) (path : Path) :
    List FileFailure :=
  match locate e s path name range with
  | .ok _ => []
  | .error fault =>
    match fault.message with
    | .ok message => [⟨path, none, message⟩]
    | .error _ => []

/-- Where every fault has a message, finding goes through all files. -/
theorem exists_findings (hmild : ∀ path fault, locate e s path name range = .error fault →
    ∃ message, fault.message = .ok message) (f : Findings) (paths : List Path) :
    ∃ g, paths.foldlM (Findings.visit e s name range) f = .ok g ∧
      g.occurrences = f.occurrences ++ paths.flatMap (foundIn e s name range) ∧
      g.failures = f.failures ++ paths.flatMap (failureIn e s name range) := by
  induction paths generalizing f with
  | nil => exact ⟨f, rfl, by simp, by simp⟩
  | cons path rest ih =>
    obtain ⟨h, hvisit, hoccurrences, hfailures⟩ : ∃ h, Findings.visit e s name range f path = .ok h ∧
        h.occurrences = f.occurrences ++ foundIn e s name range path ∧
        h.failures = f.failures ++ failureIn e s name range path := by
      unfold Findings.visit foundIn failureIn
      cases hlocate : locate e s path name range with
      | ok result => exact ⟨_, rfl, rfl, by simp⟩
      | error fault =>
        obtain ⟨message, hmessage⟩ := hmild path fault hlocate
        simp only [hmessage]
        exact ⟨_, rfl, by simp, rfl⟩
    obtain ⟨g, hrest, hoccurrences', hfailures'⟩ := ih h
    refine ⟨g, ?_, ?_, ?_⟩
    · rw [List.foldlM_cons, hvisit]
      exact hrest
    · rw [hoccurrences', hoccurrences, List.flatMap_cons, List.append_assoc]
    · rw [hfailures', hfailures, List.flatMap_cons, List.append_assoc]

/-! ### Finding and renaming in one file -/

/-- The lexical source fails nowhere, so what fails in a file has a message. -/
theorem message_of_locate_lexical (hsource : e.source = Source.lexical) (path : Path)
    (fault : FileFault) (h : locate e s path name range = .error fault) :
    ∃ message, fault.message = .ok message := by
  unfold locate at h
  cases htext : readText s path with
  | error reason =>
    rw [htext] at h
    obtain rfl := Except.error.inj h
    exact message_of_readText htext
  | ok content =>
    obtain ⟨found, hfound⟩ : ∃ found,
        e.source.occurrences s.disk path content name range = .ok found := by
      rw [hsource]
      unfold Source.occurrences
      split <;> exact ⟨_, rfl⟩
    rw [htext] at h
    simp only [bind, Except.bind, hfound] at h
    cases h

/-- In one file the rename in memory changes what is found, and fails as finding does. -/
structure AgreesIn (e : Engine) (s : Store) (old : String) (range : Option LineRange) (path : Path)
    (p : Progress) : Prop where
  running : p.stopped = none
  places : p.outcome.changes.map (fun c => (c.location, c.role)) =
    (foundIn e s old range path).map fun o => (o.location, o.role)
  failures : p.outcome.failures = failureIn e s old range path
  touched : p.outcome.filesTouched = [] ∧ foundIn e s old range path = [] ∨
    p.outcome.filesTouched = [path] ∧ foundIn e s old range path ≠ []
  file : ∀ o ∈ foundIn e s old range path, o.location.file = path

/-- Where nothing can be found, nothing is renamed, and the failure is the same. -/
theorem AgreesIn.of_fault {fault : FileFault} {message : String}
    (hmessage : fault.message = .ok message) (hfound : locate e s path old range = .error fault)
    (hfile : inFile e t path old new range = .error fault) :
    AgreesIn e s old range path (alone e t old new range path) := by
  have hnone : foundIn e s old range path = [] := by simp [foundIn, hfound]
  refine ⟨?_, ?_, ?_, .inl ⟨?_, hnone⟩, ?_⟩ <;>
    simp [alone, Progress.visit, Progress.note, hfile, hmessage, hnone, failureIn, hfound]

/-- Where no use is found, the file is left as it is. -/
theorem AgreesIn.of_unused (hfound : foundIn e s old range path = [])
    (hfailure : failureIn e s old range path = [])
    (hfile : inFile e t path old new range = .ok (t, [])) :
    AgreesIn e s old range path (alone e t old new range path) := by
  refine ⟨?_, ?_, ?_, .inl ⟨?_, hfound⟩, ?_⟩ <;>
    simp [alone, Progress.visit, hfile, hfound, hfailure]

/-- Where uses are found, they are changed. -/
theorem AgreesIn.of_uses {u : Store} {changes : List Change}
    (hfound : foundIn e s old range path ≠ []) (hfailure : failureIn e s old range path = [])
    (hfile : inFile e t path old new range = .ok (u, changes))
    (hplaces : changes.map (fun c => (c.location, c.role)) =
      (foundIn e s old range path).map fun o => (o.location, o.role))
    (hhere : ∀ o ∈ foundIn e s old range path, o.location.file = path) :
    AgreesIn e s old range path (alone e t old new range path) := by
  obtain ⟨change, rest, rfl⟩ : ∃ change rest, changes = change :: rest := by
    refine List.exists_cons_of_ne_nil fun hnil => hfound ?_
    rw [hnil] at hplaces
    exact List.map_eq_nil_iff.mp hplaces.symm
  refine ⟨?_, ?_, ?_, .inr ⟨?_, hfound⟩, hhere⟩
  · simp [alone, Progress.visit, Progress.note, hfile]
  · simpa [alone, Progress.visit, Progress.note, hfile] using hplaces
  · simp [alone, Progress.visit, Progress.note, hfile, hfailure]
  · simp [alone, Progress.visit, Progress.note, hfile, PathSet.insert]

theorem alone_agrees (hsource : e.source = Source.lexical) (hstaged : s.IsStagedIn t)
    (hproper : Mapping.IsProper ⟨old, new⟩) (range : Option LineRange) (hfits : s.Fits old path) :
    AgreesIn e s old range path (alone e t old new range path) := by
  have hlocate : locate e t path old range = locate e s path old range := by
    unfold locate readText
    rw [hstaged.read, hstaged.disk]
  cases hfound : locate e s path old range with
  | error fault =>
    obtain ⟨message, hmessage⟩ := message_of_locate_lexical hsource path fault hfound
    have hfile : inFile e t path old new range = .error fault := by
      unfold inFile
      rw [hlocate, hfound]
      rfl
    exact .of_fault hmessage hfound hfile
  | ok result =>
    obtain ⟨content, found⟩ := result
    obtain ⟨text, htext, hoccurrences⟩ := bind_eq_ok_iff.mp hfound
    obtain ⟨uses, huses, hpair⟩ := bind_eq_ok_iff.mp hoccurrences
    obtain ⟨rfl, rfl⟩ := Prod.mk.inj (Except.ok.inj hpair)
    have huses := mapError_eq_ok_iff.mp huses
    rw [hsource] at huses
    have hfoundIn : foundIn e s old range path = uses := by simp [foundIn, hfound]
    have hfailureIn : failureIn e s old range path = [] := by simp [failureIn, hfound]
    by_cases hempty : uses = []
    · subst hempty
      have hfile : inFile e t path old new range = .ok (t, []) := by
        unfold inFile
        rw [hlocate, hfound]
        rfl
      exact .of_unused hfoundIn hfailureIn hfile
    · have hsize : (bytes text).length < Count.limit := by
        have hboth := hfits text (by rw [htext]; rfl)
        omega
      obtain ⟨uses', rewritten, changes, huses', hrewrite, _⟩ :=
        Rewrite.exists_rewrite_lexical path s.disk hsize hproper.1 new range
      obtain rfl := Except.ok.inj (huses.symm.trans huses')
      obtain ⟨u, hwrite⟩ := hstaged.exists_write (read_of_readText htext) rewritten
      have hfile : inFile e t path old new range = .ok (u, changes) := by
        unfold inFile
        rw [hlocate, hfound]
        simp only [bind, Except.bind, List.isEmpty_iff, hempty, if_false, hrewrite, mapError_ok, hwrite]
        rfl
      refine .of_uses (hfoundIn ▸ hempty) hfailureIn hfile ?_ (hfoundIn ▸ fun o ho => ?_)
      · rw [hfoundIn, Rewrite.changes_eq_of_rewrite hrewrite, Rewrite.map_place_changesOf]
      · exact Source.file_of_mem_lexical huses o ho

/-! ### Finding and renaming -/

/-- A rename changes the places that were found, in their order, in the files where they were found,
and fails in the files where finding fails. -/
structure Findings.Agrees (f : Findings) (o : Outcome) : Prop where
  places : o.changes.map (fun c => (c.location, c.role)) =
    f.occurrences.map fun use => (use.location, use.role)
  failures : o.failures = f.failures
  sorted : PathSet.Sorted o.filesTouched
  touched : ∀ path, path ∈ o.filesTouched ↔ ∃ use ∈ f.occurrences, use.location.file = path

/-- Where the rename agrees with finding in each file, so does the whole. -/
theorem agrees_of_agreesIn {results : Path → Progress} {paths : List Path}
    (hsorted : PathSet.Sorted paths)
    (hresults : ∀ path ∈ paths, AgreesIn e s old range path (results path)) {f : Findings}
    (hoccurrences : f.occurrences = paths.flatMap (foundIn e s old range))
    (hfailures : f.failures = paths.flatMap (failureIn e s old range)) :
    f.Agrees ⟨paths.flatMap fun path => (results path).outcome.changes,
      paths.flatMap fun path => (results path).outcome.filesTouched,
      paths.flatMap fun path => (results path).outcome.failures⟩ := by
  refine ⟨?_, ?_, ?_, fun path => ?_⟩
  · rw [hoccurrences, List.map_flatMap, List.map_flatMap]
    exact List.flatMap_congr fun path hpath => (hresults path hpath).places
  · rw [hfailures]
    exact List.flatMap_congr fun path hpath => (hresults path hpath).failures
  · show PathSet.Sorted (paths.flatMap fun path => (results path).outcome.filesTouched)
    rw [flatMap_eq_filter fun path hpath =>
      (hresults path hpath).touched.imp And.left And.left]
    exact List.Pairwise.filter _ hsorted
  · rw [hoccurrences]
    simp only [List.mem_flatMap]
    constructor
    · rintro ⟨q, hq, hmem⟩
      rcases (hresults q hq).touched with ⟨htouched, _⟩ | ⟨htouched, hne⟩
      · rw [htouched] at hmem
        exact absurd hmem List.not_mem_nil
      · rw [htouched, List.mem_singleton] at hmem
        obtain ⟨use, more, huses⟩ := List.exists_cons_of_ne_nil hne
        have huse : use ∈ foundIn e s old range q := by
          rw [huses]
          exact List.mem_cons_self
        exact ⟨use, ⟨q, hq, huse⟩, hmem ▸ (hresults q hq).file use huse⟩
    · rintro ⟨use, ⟨q, hq, huse⟩, rfl⟩
      rw [(hresults q hq).file use huse]
      refine ⟨q, hq, ?_⟩
      rcases (hresults q hq).touched with ⟨_, hnone⟩ | ⟨htouched, _⟩
      · rw [hnone] at huse
        exact absurd huse List.not_mem_nil
      · rw [htouched]
        exact List.mem_singleton.mpr rfl

/-- For every store whose files are on the disk, every filter and scope, and two different
identifiers: under the lexical source finding the old name succeeds exactly when renaming it does
in memory over the same contents, and then both name the same places with the same roles in the same
order, fail in the same files, and the files touched are those of the occurrences, in order. -/
theorem find_agrees (hsource : e.source = Source.lexical) (hstaged : s.IsStagedIn t)
    (hproper : Mapping.IsProper ⟨old, new⟩) (scope : Scope)
    (hfits : ∀ paths, candidates e s old scope = .ok paths → ∀ path ∈ paths, s.Fits old path) :
    ((∃ f, find e s old scope = .ok f) ↔ (run e t old new scope).stopped = none) ∧
      ∀ f, find e s old scope = .ok f → f.Agrees (run e t old new scope).outcome := by
  have hsame : candidates e t old scope = candidates e s old scope := by
    cases scope with
    | file path => simp only [candidates, hstaged.files]
    | lines path range => simp only [candidates, hstaged.files]
    | project roots => exact Search.candidates_congr hstaged.disk hstaged.read roots e.filter [old]
  have hname : isValidIdentifier old = true := hproper.1
  unfold find run
  rw [Mapping.validateNames_eq_ok_iff.mpr hproper, hname, hsame]
  simp only [Bool.not_true, Bool.false_eq_true, if_false, mapError_ok, bind, Except.bind]
  cases hpaths : candidates e s old scope with
  | error cause =>
    refine ⟨⟨?_, ?_⟩, ?_⟩
    · rintro ⟨f, hf⟩
      cases hf
    · intro hf
      cases hf
    · intro f hf
      cases hf
  | ok paths =>
    have hsorted := sorted_of_candidates hpaths
    have hreal : t.overlay ≠ none := Option.isSome_iff_ne_none.mp hstaged.overlay
    have happart : t.IsApart paths :=
      ⟨fun hnone => absurd hnone hreal, fun hnone => absurd hnone hreal⟩
    have hresults : ∀ path ∈ paths,
        AgreesIn e s old scope.range? path (alone e t old new scope.range? path) := fun path hpath =>
      alone_agrees hsource hstaged hproper scope.range? (hfits paths hpaths path hpath)
    have hignores : e.source.IgnoresDisk := by
      rw [hsource]
      exact Source.lexical_ignoresDisk
    have hseparate := Progress.visits_separate
      (p := { store := t, remarks := searchRemarks e old paths scope }) rfl hignores (.refl t)
      (fun _ _ => rfl) happart.free (happart.pairwise_not_meets hsorted)
      (fun path hpath => (hresults path hpath).running)
    obtain ⟨f, hfind, hoccurrences, hfailures⟩ := exists_findings
      (message_of_locate_lexical hsource) { remarks := searchRemarks e old paths scope } paths
    dsimp only
    rw [hfind]
    refine ⟨⟨fun _ => hseparate.running, fun _ => ⟨f, rfl⟩⟩, fun g hg => ?_⟩
    obtain rfl := Except.ok.inj hg
    rw [hseparate.outcome, Outcome.foldl_append
      (fun path => (alone_cases e t old new scope.range? path).1) hsorted
      fun q hq => absurd hq List.not_mem_nil]
    exact agrees_of_agreesIn hsorted hresults hoccurrences hfailures

/-- A file with two occurrences, one that is no text and one that cannot be read. -/
theorem find_agrees_three_files :
    let d : Disk := { here := [], process := 7, nodes := [(["a.js"], .file (bytes "foo(foo)") 420),
      (["b.js"], .file (0xff :: bytes "foo") 420), (["c.js"], .file (bytes "foo") 420)] }
    let e : Engine := { source := Source.lexical, filter := { level := 3 } }
    let s : Store := { disk := d, unreadable := [⟨"c.js"⟩] }
    let t : Store := { s with overlay := some [] }
    let scope : Scope := .project [⟨"c.js"⟩, ⟨"b.js"⟩, ⟨"a.js"⟩]
    s.IsStagedIn t ∧ Mapping.IsProper ⟨"foo", "bar"⟩ ∧
      candidates e s "foo" scope = .ok [⟨"a.js"⟩, ⟨"b.js"⟩] ∧
      (∀ path ∈ [(⟨"a.js"⟩ : Path), ⟨"b.js"⟩], s.Fits "foo" path) ∧
      ∃ f, find e s "foo" scope = .ok f ∧ f.occurrences.length = 2 ∧ f.failures.length = 1 ∧
        f.Agrees (run e t "foo" "bar" scope).outcome := by
  intro d e s t scope
  have hstaged : s.IsStagedIn t := Store.isStagedIn_new d [⟨"c.js"⟩]
  have hproper : Mapping.IsProper ⟨"foo", "bar"⟩ := ⟨by decide, by decide, by decide⟩
  have hpaths : candidates e s "foo" scope = .ok [⟨"a.js"⟩, ⟨"b.js"⟩] := by decide +kernel
  have hfits : ∀ path ∈ [(⟨"a.js"⟩ : Path), ⟨"b.js"⟩], s.Fits "foo" path := by decide +kernel
  obtain ⟨_, hagrees⟩ := find_agrees (e := e) rfl hstaged hproper scope fun paths h => by
    obtain rfl := Except.ok.inj (h.symm.trans hpaths)
    exact hfits
  have hcounts : (find e s "foo" scope).toOption.map (fun f =>
      (f.occurrences.length, f.failures.length)) = some (2, 1) := by decide +kernel
  obtain ⟨f, hf, hcounts⟩ := Option.map_eq_some_iff.mp hcounts
  have hfind := toOption_eq_some_iff.mp hf
  exact ⟨hstaged, hproper, hpaths, hfits, f, hfind, (Prod.mk.inj hcounts).1, (Prod.mk.inj hcounts).2,
    hagrees f hfind⟩

end Rename

end SymbolRename
