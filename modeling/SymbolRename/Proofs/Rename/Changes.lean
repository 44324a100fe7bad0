import SymbolRename.Proofs.Rename.Lexical
import SymbolRename.Proofs.Rename.Selection
import SymbolRename.Proofs.Rewrite.ChangedLines

/-!
# The changes that a rename reports

Every change of a rename comes from the visit of one file, where it was made. Under the lexical
source it shows its line before and after the name is replaced: `Rename.shows_of_mem_changes`.
-/

namespace SymbolRename

/-- The lexical source reports a file under its path. -/
theorem Source.file_of_mem_lexical {path : Path} {d : Disk} {text name : String}
    {range : Option LineRange} {found : List Occurrence}
    (h : lexical.occurrences d path text name range = .ok found) :
    ∀ o ∈ found, o.location.file = path := by
  intro o ho
  unfold occurrences at h
  split at h
  · obtain ⟨captures, hcaptures, h⟩ := bind_eq_ok_iff.mp h
    obtain rfl := Except.ok.inj h
    obtain rfl := Except.ok.inj hcaptures
    obtain ⟨c, hc, rfl, _⟩ := Occurrence.captured_of_mem_select ho
    obtain ⟨hit, _, rfl⟩ := List.mem_map.mp hc
    rfl
  · obtain rfl := Except.ok.inj h
    exact absurd ho List.not_mem_nil

/-- A text in which an identifier is replaced by another is a text. -/
theorem Path.isText_rename (path : Path) {old new : String} (hold : isValidIdentifier old = true)
    (hnew : isValidIdentifier new = true) (text : String) :
    Utf8.IsText (path.rename (bytes old) (bytes new) (bytes text)) := by
  have htext : Utf8.IsText ([] ++ Lexer.textOf (path.tokens (bytes text))) := by
    rw [path.textOf_tokens]
    exact ⟨text, rfl⟩
  exact Lexer.isText_map (Bytes.isWord_of_isValidIdentifier hold).1
    (lt_of_isValidIdentifier hold) (lt_of_isValidIdentifier hnew) htext

namespace Rename

variable {e : Engine} {old new : String} {range : Option LineRange}

/-- Each change was there before or is made by a visit; the induction is on the files that are
left. -/
theorem Progress.mem_changes_visits {p : Progress} {paths : List Path} {c : Change}
    (hc : c ∈ (paths.foldl (visit e old new range) p).outcome.changes) :
    c ∈ p.outcome.changes ∨ ∃ v ∈ p.visits e old new range paths, ∃ t changes,
      Rewrites e v.1 v.2 old new range t changes ∧ c ∈ changes := by
  induction paths generalizing p with
  | nil => exact .inl hc
  | cons path rest ih =>
    rw [List.foldl_cons] at hc
    rcases ih hc with hc | ⟨v, hv, hmade⟩
    · cases hstopped : p.stopped with
      | some cause =>
        rw [visit_of_stopped (by rw [hstopped]; rfl)] at hc
        exact .inl hc
      | none =>
        cases visited e old new range hstopped path with
        | unchanged _ _ houtcome | stopped _ _ _ houtcome =>
          rw [houtcome] at hc
          exact .inl hc
        | failed _ _ _ houtcome =>
          rw [houtcome] at hc
          exact .inl hc
        | changed _ _ hrewrites houtcome =>
          rw [houtcome] at hc
          refine (List.mem_append.mp hc).imp_right fun hc => ?_
          exact ⟨_, List.mem_cons_self, _, _, hrewrites, hc⟩
    · exact .inr ⟨v, List.mem_cons_of_mem _ hv, hmade⟩

/-- Each change of a rename is made by a visit. -/
theorem exists_rewrites_of_mem_changes {s : Store} {scope : Scope} {c : Change}
    (hc : c ∈ (run e s old new scope).outcome.changes) :
    ∃ v ∈ visits e s old new scope, ∃ t changes,
      Rewrites e v.1 v.2 old new scope.range? t changes ∧ c ∈ changes := by
  rcases run_cases e s old new scope with ⟨cause, hrun⟩ | ⟨paths, hpaths, hrun⟩
  · rw [hrun] at hc
    exact absurd hc List.not_mem_nil
  · rw [hrun] at hc
    rw [visits_eq hpaths]
    exact (Progress.mem_changes_visits
      (p := { store := s, remarks := searchRemarks e old paths scope }) hc).resolve_left
        List.not_mem_nil

/-- A change that a rename made under the lexical source in the file of a visit: it shows the line
before and after the name was replaced in the text of the file. -/
structure Shows (old new : String) (v : Store × Path) (text : String) (found : List Occurrence)
    (c : Change) : Prop where
  read : v.1.read v.2 = .ok (bytes text)
  occurrences : Source.lexical.occurrences v.1.disk v.2 text old none = .ok found
  file : c.location.file = v.2
  shows : c.Shows text found old new
  after : c.after = Rewrite.lineText (v.2.rename (bytes old) (bytes new) (bytes text))
    c.location.line

/-- The words of the line before the change are words of the text. -/
theorem Shows.mem_words_before {v : Store × Path} {text : String} {found : List Occurrence}
    {c : Change} (h : Shows old new v text found c) {w : Bytes}
    (hw : w ∈ Bytes.words (bytes c.before)) : w ∈ Bytes.words (bytes text) := by
  rw [h.shows.before] at hw
  exact Rewrite.words_lineText_subset ⟨text, rfl⟩ _ hw

/-- The words of the line after the change are words of the text, apart from the new name. -/
theorem Shows.mem_words_after {v : Store × Path} {text : String} {found : List Occurrence}
    {c : Change} (h : Shows old new v text found c) (hproper : Mapping.IsProper ⟨old, new⟩)
    {w : Bytes} (hw : w ∈ Bytes.words (bytes c.after)) :
    w ∈ Bytes.words (bytes text) ∨ w = bytes new := by
  rw [h.after] at hw
  exact Path.mem_words_of_mem_rename (Bytes.isWord_of_isValidIdentifier hproper.2.1)
    (Rewrite.words_lineText_subset (Path.isText_rename v.2 hproper.1 hproper.2.1 text) _ hw)

/-- Every change of a rename under the lexical source shows what the rename does to its line. -/
theorem shows_of_mem_changes (hsource : e.source = Source.lexical)
    (hproper : Mapping.IsProper ⟨old, new⟩) {s : Store} {roots : List Path} {c : Change}
    (hc : c ∈ (run e s old new (.project roots)).outcome.changes) :
    ∃ v ∈ visits e s old new (.project roots), ∃ text found, Shows old new v text found c := by
  obtain ⟨v, hv, t, changes, hrewrites, hc⟩ := exists_rewrites_of_mem_changes hc
  obtain ⟨text, found, rewritten, htext, hfound, _, hrewrite, _⟩ := hrewrites.exists_text
  rw [hsource] at hfound
  have hold : old ≠ "" := ne_empty_of_isValidIdentifier hproper.1
  obtain ⟨hshows, hafter⟩ :=
    Rewrite.shows_of_rewrite hproper.1 hproper.2.1 hfound hrewrite c hc
  rw [Rewrite.eq_rename_of_rewrite hold hfound hrewrite] at hafter
  obtain ⟨o, ho, hlocation⟩ := hshows.placed
  refine ⟨v, hv, text, found, read_of_readText htext, hfound, ?_, hshows, hafter⟩
  rw [← hlocation]
  exact Source.file_of_mem_lexical hfound o ho

end Rename

end SymbolRename
