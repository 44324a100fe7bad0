import SymbolRename.Proofs.Lexer.Lines
import SymbolRename.Proofs.Lexer.Offsets
import SymbolRename.Proofs.Rewrite.Places

/-!
# Lexical captures are sound for renaming

In every language the lexical source reports its captures in source order, and each of them that
is not excluded denotes a span of its line that holds the name as a whole identifier. So the
occurrences found with it are never rejected, whatever the range, and a rename in a range of lines
leaves the other lines alone: `Source.lexical_sound`.
-/

namespace SymbolRename

/-- The uses of a name in a file, as captures, read by offsets. -/
def Lexer.Offsets.captures? (path : Path) (content : Bytes) (name : String) :
    Option (List Capture) :=
  (hits? (Language.ofPath path).syntactics content (bytes name)).map fun hits =>
    hits.map fun h => ⟨h.kind, ⟨path, h.line, h.column⟩, name⟩

/-! ### Captures -/

section

variable {path : Path} {name : String}

theorem Lexer.positions_captures (path : Path) (content : Bytes) (name : String) :
    (captures path content name).map (fun c => (Occurrence.ofCapture c).position) =
      (hits (Language.ofPath path).syntactics content (bytes name)).map Hit.position := by
  simp [captures, Function.comp_def, Occurrence.ofCapture, Occurrence.position, Hit.position]

/-- The captures that are not excluded stand at the offsets of the words of code that are the
name. -/
theorem Lexer.standsApartAt_offsets_captures (path : Path) (hname : name ≠ "") (content : Bytes) :
    List.Forall₂ (Rewrite.StandsApartAt content (bytes name))
      (((captures path content name).filter (!·.kind.isExcluded)).map Occurrence.ofCapture)
      (Rewrite.offsets (bytes name) 0 (path.tokens content)) := by
  have hne : bytes name ≠ [] := fun hnil => hname (bytes_eq_nil_iff.mp hnil)
  have hhits := hitsFrom_hits (Language.regular_syntactics (Language.ofPath path)) content hne
  have hcut : Cut ([] : Bytes).reverse (path.tokens content) := path.cut_tokens content
  have hpositions : (((captures path content name).filter (!·.kind.isExcluded)).map
      Occurrence.ofCapture).map Occurrence.position =
        places (bytes name) 1 0 (path.tokens content) := by
    rw [Path.tokens, ← hhits.kept]
    simp [captures, List.filter_map, Function.comp_def, Occurrence.ofCapture, Occurrence.position,
      Hit.position]
  exact Rewrite.standsApartAt_offsets .nil hcut (path.textOf_tokens content).symm hpositions

/-- A capture that is not excluded stands as a whole word behind a front of the content, at the
offset of a word of code. -/
theorem Lexer.standsApartAt_captures (hname : name ≠ "") {content : Bytes} {c : Capture}
    (hc : c ∈ captures path content name) (hkind : c.kind.isExcluded = false) :
    ∃ offset, Rewrite.StandsApartAt content (bytes name) (Occurrence.ofCapture c) offset ∧
      offset ∈ Rewrite.offsets (bytes name) 0 (path.tokens content) := by
  have hall := standsApartAt_offsets_captures path hname content
  have hmem : Occurrence.ofCapture c ∈
      ((captures path content name).filter (!·.kind.isExcluded)).map Occurrence.ofCapture :=
    List.mem_map_of_mem (List.mem_filter.mpr ⟨hc, by simp [hkind]⟩)
  obtain ⟨i, hi, hget⟩ := List.mem_iff_getElem.mp hmem
  have hstands := hall.get hi (hall.length_eq ▸ hi)
  rw [List.get_eq_getElem, hget] at hstands
  exact ⟨_, hstands, List.get_mem _ _⟩

/-- An occurrence behind a front of the content stands in its line. -/
theorem Rewrite.StandsApartAt.standsAt {content old : Bytes} {o : Occurrence} {offset : Nat}
    (h : StandsApartAt content old o offset) : StandsAt content old o offset := by
  obtain ⟨front, rest, rfl, rfl, hends, hfront, hrest⟩ := h
  obtain ⟨hline, hstart⟩ := hends.lineStart (old ++ rest)
  have hcolumn := hends.column
  exact ⟨hline, ⟨_, hstart, by omega⟩, hends.column_le _, holds_word hfront hrest⟩

/-! ### Occurrences -/

/-- Occurrences found with the lexical source are rewritten, whatever the range. -/
theorem Rewrite.exists_rewrite_lexical (path : Path) (d : Disk) {content : String}
    (hsize : (bytes content).length < Count.limit) (hname : isValidIdentifier name = true)
    (new : String) (range : Option LineRange) :
    ∃ found rewritten changes,
      Source.lexical.occurrences d path content name range = .ok found ∧
      rewrite (bytes content) found name new = .ok (rewritten, changes) ∧
      Replaced (bytes name) (bytes new) [] (found.map Occurrence.position) (bytes content)
        rewritten ∧
      ∀ o ∈ found, range.all (·.contains o.location.line) = true := by
  have hne : name ≠ "" := by
    rintro rfl
    cases hname
  obtain ⟨found, hfound, hascend, hstands, hrange⟩ : ∃ found,
      Source.lexical.occurrences d path content name range = .ok found ∧
        found.Pairwise Occurrence.Before ∧
        (∀ o ∈ found, ∃ offset, StandsApartAt (bytes content) (bytes name) o offset) ∧
        ∀ o ∈ found, range.all (·.contains o.location.line) = true := by
    unfold Source.occurrences
    split
    · refine ⟨_, rfl, Occurrence.select_ascends _ _ _, fun o ho => ?_, fun o ho => ?_⟩
      · obtain ⟨c, hc, rfl, hkind, _⟩ := Occurrence.captured_of_mem_select ho
        obtain ⟨offset, hstands, _⟩ := Lexer.standsApartAt_captures hne hc hkind
        exact ⟨offset, hstands⟩
      · obtain ⟨_, _, _, _, _, hrange⟩ := Occurrence.captured_of_mem_select ho
        exact hrange
    · exact ⟨[], rfl, .nil, nofun, nofun⟩
  obtain ⟨offsets, hoffsets⟩ : ∃ offsets,
      List.Forall₂ (StandsApartAt (bytes content) (bytes name)) found offsets := by
    clear hfound hascend hrange
    induction found with
    | nil => exact ⟨[], .nil⟩
    | cons o rest ih =>
      obtain ⟨offset, hoffset⟩ := hstands o List.mem_cons_self
      obtain ⟨offsets, hrest⟩ := ih fun p hp => hstands p (List.mem_cons_of_mem o hp)
      exact ⟨offset :: offsets, .cons hoffset hrest⟩
  obtain ⟨rewritten, changes, hrewrite, hreplaced⟩ := exists_rewrite hname
    (hoffsets.imp fun _ _ => StandsApartAt.standsAt) (mapM_offsetOf hsize hoffsets) hascend new
  exact ⟨found, rewritten, changes, hfound, hrewrite, hreplaced, hrange⟩

/-- A rename in a range of lines leaves the store alone or rewrites the file, which keeps its
other lines. -/
theorem Rename.run_lines_lexical {e : Engine} (hsource : e.source = Source.lexical) {s : Store}
    {content : String} (hsize : (bytes content).length < Count.limit)
    (hread : s.read path = .ok (bytes content)) (hname : isValidIdentifier name = true)
    {new : String} (hnew : isValidIdentifier new = true) (range : LineRange) :
    (run e s name new (.lines path range)).store = s ∨ ∃ rewritten,
      s.write path rewritten = .ok (run e s name new (.lines path range)).store ∧
        Rewrite.AgreeOutside (some range) (bytes content) rewritten := by
  unfold run
  cases Mapping.validateNames name new with
  | error fault => exact .inl rfl
  | ok _ =>
    cases hpaths : candidates e s name (.lines path range) with
    | error cause => exact .inl rfl
    | ok paths =>
      obtain rfl : paths = [path] := by
        change (if s.exists path then Except.ok [path] else .error (Cause.fileNotFound path)) = _
          at hpaths
        split at hpaths
        · exact (Except.ok.inj hpaths).symm
        · cases hpaths
      simp only [mapError_ok, bind, Except.bind, List.foldl_cons, List.foldl_nil, Scope.range?]
      generalize hp : ({ store := s, remarks := searchRemarks e name [path] (.lines path range) } :
        Progress) = p
      obtain rfl : p.store = s := by rw [← hp]
      cases Progress.visited e name new (some range) (p := p) (by rw [← hp]) path with
      | unchanged _ hstore | failed _ _ hstore | stopped _ _ hstore => exact .inl hstore
      | changed _ _ hrewrites =>
        obtain ⟨text, found, rewritten, htext, hfound, _, hrewrite, hwrite⟩ :=
          hrewrites.exists_text
        obtain rfl : text = content := by
          unfold readText at htext
          rw [hread, mapError_ok] at htext
          simp only [bind, Except.bind, Utf8.decode?_bytes, Option.elim_some] at htext
          exact (Except.ok.inj htext).symm
        rw [hsource] at hfound
        obtain ⟨found', rewritten', _, hfound', hrewrite', hreplaced, hrange⟩ :=
          Rewrite.exists_rewrite_lexical path p.store.disk hsize hname new (some range)
        obtain rfl := Except.ok.inj (hfound.symm.trans hfound')
        obtain rfl := (Prod.mk.inj (Except.ok.inj (hrewrite.symm.trans hrewrite'))).1
        exact .inr ⟨rewritten, hwrite, hreplaced.agreeOutside
          (newline_not_mem_of_isValidIdentifier hname) (newline_not_mem_of_isValidIdentifier hnew)
          hrange⟩

/-- In every language, for every text and every name: the lexical source reads the file without
leaving it or cutting a character, its captures ascend, and each that is not excluded denotes a
span of its line that holds the name as a whole identifier. So its occurrences are rewritten,
whatever the range, and a rename changes lines of the range only. A text is always shorter than
what can be counted. -/
theorem Source.lexical_sound (path : Path) (content : String)
    (hsize : (bytes content).length < Count.limit) (hname : isValidIdentifier name = true) :
    Lexer.Offsets.captures? path (bytes content) name =
        some (Lexer.captures path (bytes content) name) ∧
      ((Lexer.captures path (bytes content) name).Pairwise fun c d =>
        Location.before (c.location.line, c.location.column) (d.location.line, d.location.column)
          = true) ∧
      (∀ c ∈ Lexer.captures path (bytes content) name, c.kind.isExcluded = false →
        c.location.Denotes (bytes content) (bytes name)) ∧
      (∀ (d : Disk) (range : Option LineRange) (new : String), isValidIdentifier new = true →
        ∃ found rewritten changes,
          Source.lexical.occurrences d path content name range = .ok found ∧
          Rewrite.rewrite (bytes content) found name new = .ok (rewritten, changes) ∧
          Rewrite.Replaced (bytes name) (bytes new) [] (found.map Occurrence.position)
            (bytes content) rewritten ∧
          Rewrite.AgreeOutside range (bytes content) rewritten) ∧
      (∀ (e : Engine) (s : Store) (range : LineRange) (new : String),
        isValidIdentifier new = true → e.source = Source.lexical →
        s.read path = .ok (bytes content) →
        (Rename.run e s name new (.lines path range)).store = s ∨ ∃ rewritten,
          s.write path rewritten = .ok (Rename.run e s name new (.lines path range)).store ∧
          Rewrite.AgreeOutside (some range) (bytes content) rewritten) := by
  have hne : name ≠ "" := by
    rintro rfl
    cases hname
  have hsyn := Language.regular_syntactics (Language.ofPath path)
  have hold := newline_not_mem_of_isValidIdentifier hname
  refine ⟨?_, ?_, fun c hc hkind => ?_, fun d range new hnew => ?_,
    fun e s range new hnew hsource hread =>
      Rename.run_lines_lexical hsource hsize hread hname hnew range⟩
  · unfold Lexer.Offsets.captures?
    rw [Lexer.Offsets.hits?_eq hsyn ⟨content, rfl⟩ (bytes name)]
    rfl
  · have hascend := (Lexer.hitsFrom_hits hsyn (bytes content)
      (fun hnil => hne (bytes_eq_nil_iff.mp hnil))).ascend
    rw [← Lexer.positions_captures, List.pairwise_map] at hascend
    exact hascend
  · obtain ⟨offset, hstands, _⟩ := Lexer.standsApartAt_captures hne hc hkind
    exact hstands.standsAt.denotes hold
  · obtain ⟨found, rewritten, changes, hfound, hrewrite, hreplaced, hrange⟩ :=
      Rewrite.exists_rewrite_lexical path d hsize hname new range
    exact ⟨found, rewritten, changes, hfound, hrewrite, hreplaced,
      hreplaced.agreeOutside hold (newline_not_mem_of_isValidIdentifier hnew) hrange⟩

end

/-- A Python file with characters of several bytes and embedded code, where the second line only
is renamed. -/
theorem Source.lexical_sound_python :
    let path : Path := ⟨"a.py"⟩
    let content := "é = f\"\x7bfoo\x7dé foo\"  # foo\nfoo = é + foo\n"
    (bytes content).length < Count.limit ∧ isValidIdentifier "foo" = true ∧
      Lexer.Offsets.captures? path (bytes content) "foo" =
        some [⟨.reference, ⟨path, 1, 8⟩, "foo"⟩, ⟨.stringLiteral, ⟨path, 1, 15⟩, "foo"⟩,
          ⟨.comment, ⟨path, 1, 23⟩, "foo"⟩, ⟨.reference, ⟨path, 2, 0⟩, "foo"⟩,
          ⟨.reference, ⟨path, 2, 11⟩, "foo"⟩] ∧
      ∃ found rewritten changes,
        Source.lexical.occurrences ⟨[], 0, []⟩ path content "foo" (some ⟨2, 2⟩) = .ok found ∧
        Rewrite.rewrite (bytes content) found "foo" "bar" = .ok (rewritten, changes) ∧
        Rewrite.lineBytes rewritten 1 = bytes "é = f\"\x7bfoo\x7dé foo\"  # foo" := by
  intro path content
  have hsize : (bytes content).length < Count.limit := by decide +kernel
  have hname : isValidIdentifier "foo" = true := by decide
  obtain ⟨hread, _, _, hrewrite, _⟩ := lexical_sound path content hsize hname
  obtain ⟨found, rewritten, changes, hfound, hrewritten, _, hagree⟩ :=
    hrewrite ⟨[], 0, []⟩ (some ⟨2, 2⟩) "bar" (by decide)
  refine ⟨hsize, hname, hread.trans ?_, found, rewritten, changes, hfound, hrewritten, ?_⟩
  · decide +kernel
  · rw [hagree.outside 1 (by decide) (by decide)]
    decide +kernel

end SymbolRename
