import SymbolRename.Proofs.Rename.Selection
import SymbolRename.Proofs.Rename.Visits
import SymbolRename.Proofs.Rewrite.Places
import SymbolRename.Proofs.Store.Mirror

/-!
# A rename that starts completes

The files of a rename are independent: whatever goes wrong in one of them becomes a failure
of the outcome, as long as the source reports columns inside their lines. So no content, no
source and no refused write ends a rename of two different identifiers before its last file.
-/

namespace SymbolRename

/-- A source whose captures lie in their lines, and whose failures concern one file each. -/
structure Source.StaysInLines (source : Source) : Prop where
  inLine : ∀ {d path content name captures}, source d path content name = .ok captures →
    ∀ c ∈ captures, c.location.InLine (bytes content)
  mild : ∀ {d path content name cause}, source d path content name = .error cause →
    cause ≠ .overflow ∧ cause ≠ .crossing

/-- The text of a file and a name together are small enough to count their bytes. -/
def Store.Fits (s : Store) (name : String) (path : Path) : Prop :=
  ∀ content ∈ (Rename.readText s path).toOption,
    (bytes content).length + (bytes name).length < Count.limit

instance (s : Store) (name : String) (path : Path) : Decidable (s.Fits name path) := by
  unfold Store.Fits
  infer_instance

/-! ### Renaming -/

/-- What a source answers about one file: it reports the name inside its lines, and its failures
concern this file. -/
structure Source.StaysInLinesAt (source : Source) (d : Disk) (path : Path) (content name : String) :
    Prop where
  within : ∀ {captures}, source d path content name = .ok captures →
    ∀ c ∈ captures, c.text = name → c.location.WithinLine (bytes content)
  mild : ∀ {cause}, source d path content name = .error cause →
    cause ≠ .overflow ∧ cause ≠ .crossing

/-- A source that stays in its lines does so in every file that can be counted. -/
theorem Source.StaysInLines.at {source : Source} (h : source.StaysInLines) (d : Disk) (path : Path)
    {content : String} (hfits : (bytes content).length + 1 < Count.limit) (name : String) :
    source.StaysInLinesAt d path content name :=
  ⟨fun hcaptures c hc _ => (h.inLine hcaptures c hc).within hfits, h.mild⟩

/-- The occurrences that are found in a file ascend and lie in their lines. -/
theorem Source.StaysInLinesAt.occurrences {source : Source} {d : Disk} {path : Path}
    {content name : String} (h : source.StaysInLinesAt d path content name)
    {range : Option LineRange} {found : List Occurrence}
    (hfound : source.occurrences d path content name range = .ok found) :
    found.Pairwise Occurrence.Before ∧ ∀ o ∈ found, o.location.WithinLine (bytes content) := by
  unfold Source.occurrences at hfound
  split at hfound
  · obtain ⟨captures, hcaptures, hfound⟩ := bind_eq_ok_iff.mp hfound
    obtain rfl := Except.ok.inj hfound
    refine ⟨Occurrence.select_ascends captures name range, fun o ho => ?_⟩
    obtain ⟨c, hc, rfl, _, htext, _⟩ := Occurrence.captured_of_mem_select ho
    exact h.within hcaptures c hc htext
  · obtain rfl := Except.ok.inj hfound
    exact ⟨.nil, fun o ho => absurd ho List.not_mem_nil⟩

/-- A file whose text cannot be had is told with a message. -/
theorem Rename.message_of_readText {s : Store} {path : Path} {fault : FileFault}
    (h : readText s path = .error fault) : ∃ message, fault.message = .ok message := by
  unfold readText at h
  cases hread : s.read path with
  | error cause =>
    rw [hread] at h
    obtain rfl := Except.error.inj h
    exact ⟨_, rfl⟩
  | ok content =>
    rw [hread] at h
    simp only [mapError_ok, bind, Except.bind] at h
    cases hdecode : Utf8.decode? content with
    | none =>
      rw [hdecode] at h
      obtain rfl := Except.error.inj h
      exact ⟨_, rfl⟩
    | some text =>
      rw [hdecode] at h
      cases h

/-- A source that stays in its lines fails with a message. -/
theorem Source.StaysInLinesAt.message {source : Source} {d : Disk} {path : Path}
    {content name : String} (h : source.StaysInLinesAt d path content name)
    {range : Option LineRange} {cause : Cause}
    (hfound : source.occurrences d path content name range = .error cause) :
    ∃ message, (Rename.FileFault.source cause).message = .ok message := by
  unfold Source.occurrences at hfound
  split at hfound
  · cases hcaptures : source d path content name with
    | ok captures =>
      rw [hcaptures] at hfound
      cases hfound
    | error reason =>
      rw [hcaptures] at hfound
      obtain rfl := Except.error.inj hfound
      obtain ⟨hoverflow, hcrossing⟩ := h.mild hcaptures
      cases reason with
      | overflow => exact absurd rfl hoverflow
      | crossing => exact absurd rfl hcrossing
      | input | fileNotFound | query | io => exact ⟨_, rfl⟩
  · cases hfound

/-- What goes wrong in one file has a message. -/
theorem Rename.inFile_mild {e : Engine} {s : Store} {path : Path} {old : String}
    (hold : isValidIdentifier old = true) (hfits : s.Fits old path)
    (hsource : ∀ content, readText s path = .ok content →
      e.source.StaysInLinesAt s.disk path content old)
    (new : String) (range : Option LineRange) {fault : FileFault}
    (h : inFile e s path old new range = .error fault) : ∃ message, fault.message = .ok message := by
  unfold inFile locate at h
  cases htext : readText s path with
  | error reason =>
    rw [htext] at h
    obtain rfl := Except.error.inj h
    exact message_of_readText htext
  | ok content =>
    have hsize := hfits content (by rw [htext]; rfl)
    have hstays := hsource content htext
    simp only [htext, bind, Except.bind] at h
    cases hfound : e.source.occurrences s.disk path content old range with
    | error cause =>
      rw [hfound] at h
      obtain rfl := Except.error.inj h
      exact hstays.message hfound
    | ok found =>
      obtain ⟨hascend, hwithin⟩ := hstays.occurrences hfound
      simp only [hfound, mapError_ok, pure, Except.pure] at h
      split at h
      · cases h
      · rcases Rewrite.rewrite_withinLine hold hsize hwithin hascend new with
          ⟨rewritten, changes, hrewrite, _⟩ | ⟨reason, hrewrite, hmild⟩
        · simp only [hrewrite, mapError_ok] at h
          cases hwrite : s.write path rewritten with
          | error reason =>
            rw [hwrite] at h
            obtain rfl := Except.error.inj h
            exact ⟨_, rfl⟩
          | ok t =>
            rw [hwrite] at h
            cases h
        · rw [hrewrite] at h
          obtain rfl := Except.error.inj h
          exact hmild

namespace Rename

/-- No single file ends a rename. -/
theorem Progress.visit_stopped {e : Engine} (hsource : e.source.StaysInLines) {old : String}
    (hold : isValidIdentifier old = true) (new : String) (range : Option LineRange) {p : Progress}
    (hp : p.stopped = none) {path : Path} (hfits : p.store.Fits old path) :
    (p.visit e old new range path).stopped = none := by
  cases visited e old new range hp path with
  | unchanged _ _ _ hstopped | changed _ _ _ _ hstopped | failed _ _ _ _ hstopped => exact hstopped
  | stopped hfile hcause =>
    have hstays : ∀ content, readText p.store path = .ok content →
        e.source.StaysInLinesAt p.store.disk path content old := by
      intro content hcontent
      have hsize := hfits content (by rw [hcontent]; rfl)
      have hpos := length_pos_of_isValidIdentifier hold
      exact hsource.at _ _ (by omega) old
    obtain ⟨message, hmessage⟩ := inFile_mild hold hfits hstays new range hfile
    rw [hmessage] at hcause
    cases hcause

/-- No file ends a rename; the induction is on the files that are left. -/
theorem Progress.visits_stopped {e : Engine} (hsource : e.source.StaysInLines) {old : String}
    (hold : isValidIdentifier old = true) (new : String) (range : Option LineRange) {p : Progress}
    (hp : p.stopped = none) {paths : List Path}
    (hfits : ∀ v ∈ p.visits e old new range paths, v.1.Fits old v.2) :
    (paths.foldl (visit e old new range) p).stopped = none := by
  induction paths generalizing p with
  | nil => exact hp
  | cons path rest ih =>
    rw [List.foldl_cons]
    refine ih (visit_stopped hsource hold new range hp ?_) fun v hv => ?_
    · exact hfits _ List.mem_cons_self
    · exact hfits v (List.mem_cons_of_mem _ hv)

/-- A rename of one identifier to another whose files are found completes. -/
theorem run_stopped {e : Engine} (hsource : e.source.StaysInLines) {s : Store} {old new : String}
    (hproper : Mapping.IsProper ⟨old, new⟩) {scope : Scope} {paths : List Path}
    (hpaths : candidates e s old scope = .ok paths)
    (hfits : ∀ v ∈ visits e s old new scope, v.1.Fits old v.2) :
    (run e s old new scope).stopped = none := by
  unfold run
  rw [Mapping.validateNames_eq_ok_iff.mpr hproper, mapError_ok, hpaths]
  rw [visits_eq hpaths] at hfits
  exact Progress.visits_stopped hsource hproper.1 new scope.range? rfl hfits

end Rename

end SymbolRename
