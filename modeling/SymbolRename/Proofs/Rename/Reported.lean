import SymbolRename.Proofs.Rename.Completion

/-!
# Renaming by whatever is reported

A rename in one file relies on the positions that a source reports. As long as their columns lie in
their lines, nothing that is reported stops the rename: the file stays as it is, or it is changed in
reported spans of the range only, and never in one that an excluded use claims
(`Rename.Progress.visit_keeps_to`). A column behind the end of its line stands in a later one, and
none of this holds (`Rename.Progress.visit_misplaced`).
-/

namespace SymbolRename.Rename

/-- The text was changed in spans that were reported for the name, on lines of the range, each in
its own line, and in none that an excluded use claims. -/
structure KeepsTo (captures : List Capture) (old new : String) (range : Option LineRange)
    (content rewritten : Bytes) : Prop where
  intro ::
  exists_found : ∃ found : List Occurrence,
    Rewrite.Replaced (bytes old) (bytes new) [] (found.map Occurrence.position) content rewritten ∧
    ∀ o ∈ found, o.location.Denotes content (bytes old) ∧
      range.all (·.contains o.location.line) = true ∧
      (∃ c ∈ captures, c.location = o.location ∧ c.text = old ∧ c.kind.isExcluded = false) ∧
      ∀ c ∈ captures, c.text = old → c.kind.isExcluded = true →
        (c.location.line, c.location.column) ≠ o.position
  agrees : Rewrite.AgreeOutside range content rewritten

section

variable {e : Engine} {old new : String} {range : Option LineRange} {path : Path}
  {content : String} {captures : List Capture}

/-- Selected occurrences in their lines are rewritten where they were reported. -/
theorem keepsTo_of_rewrite (hold : isValidIdentifier old = true)
    (hnew : isValidIdentifier new = true)
    (hsize : (bytes content).length + (bytes old).length < Count.limit)
    (hwithin : ∀ c ∈ captures, c.text = old → c.location.WithinLine (bytes content))
    {rewritten : Bytes} {changes : List Change}
    (h : Rewrite.rewrite (bytes content) (Occurrence.select captures old range) old new =
      .ok (rewritten, changes)) : KeepsTo captures old new range (bytes content) rewritten := by
  have hfound : ∀ o ∈ Occurrence.select captures old range,
      o.location.WithinLine (bytes content) := by
    intro o ho
    obtain ⟨c, hc, rfl, _, htext, _⟩ := Occurrence.captured_of_mem_select ho
    exact hwithin c hc htext
  rcases Rewrite.rewrite_withinLine hold hsize hfound (Occurrence.select_ascends _ _ _) new with
    ⟨rewritten', changes', hrewrite, hreplaced, hdenotes⟩ | ⟨fault, hfault, _⟩
  · obtain rfl := (Prod.mk.inj (Except.ok.inj (h.symm.trans hrewrite))).1
    constructor
    · refine ⟨_, hreplaced, fun o ho => ⟨hdenotes o ho, ?_⟩⟩
      obtain ⟨c, hc, rfl, hkind, htext, hrange⟩ := Occurrence.captured_of_mem_select ho
      exact ⟨hrange, ⟨c, hc, rfl, htext, hkind⟩, fun d hd hdtext hdkind =>
        Occurrence.unclaimed_of_mem_select ho hd hdkind hdtext⟩
    · apply hreplaced.agreeOutside (newline_not_mem_of_isValidIdentifier hold)
        (newline_not_mem_of_isValidIdentifier hnew)
      intro o ho
      obtain ⟨_, _, _, _, _, hrange⟩ := Occurrence.captured_of_mem_select ho
      exact hrange
  · rw [hfault] at h
    cases h

/-- Whatever a source reports for a file, as long as the columns lie in their lines: renaming in
the file goes on to the next one, and the store is as it was or the file was written with changes in
reported spans only. Contents and names are always small enough to be counted together. -/
theorem Progress.visit_keeps_to {p : Progress} (hp : p.stopped = none)
    (hread : p.store.read path = .ok (bytes content))
    (hcaptures : e.source p.store.disk path content old = .ok captures)
    (hwithin : ∀ c ∈ captures, c.text = old → c.location.WithinLine (bytes content))
    (hsize : (bytes content).length + (bytes old).length < Count.limit)
    (hold : isValidIdentifier old = true) (hnew : isValidIdentifier new = true)
    (range : Option LineRange) :
    (p.visit e old new range path).stopped = none ∧
      ((p.visit e old new range path).store = p.store ∨ ∃ rewritten,
        p.store.write path rewritten = .ok (p.visit e old new range path).store ∧
        KeepsTo captures old new range (bytes content) rewritten) := by
  have htext : readText p.store path = .ok content := by
    unfold readText
    rw [hread, mapError_ok]
    simp only [bind, Except.bind, Utf8.decode?_bytes, Option.elim_some]
  have hstays : ∀ text, readText p.store path = .ok text →
      e.source.StaysInLinesAt p.store.disk path text old := by
    intro text hother
    obtain rfl := Except.ok.inj (htext.symm.trans hother)
    constructor
    · intro found hfound
      obtain rfl := Except.ok.inj (hcaptures.symm.trans hfound)
      exact hwithin
    · intro cause hcause
      rw [hcaptures] at hcause
      cases hcause
  have hfits : p.store.Fits old path := by
    intro text hother
    rw [htext] at hother
    obtain rfl := Option.some.inj hother
    exact hsize
  cases Progress.visited e old new range hp path with
  | unchanged _ hstore _ hstopped | failed _ _ hstore _ hstopped =>
    exact ⟨hstopped, .inl hstore⟩
  | stopped hfile hcause =>
    obtain ⟨message, hmessage⟩ := inFile_mild hold hfits hstays new range hfile
    rw [hmessage] at hcause
    cases hcause
  | changed _ _ hrewrites _ hstopped =>
    obtain ⟨text, found, rewritten, hother, hfound, hne, hrewrite, hwrite⟩ :=
      hrewrites.exists_text
    obtain rfl := Except.ok.inj (htext.symm.trans hother)
    obtain rfl : found = Occurrence.select captures old range := by
      unfold Source.occurrences at hfound
      split at hfound
      · rw [hcaptures] at hfound
        exact (Except.ok.inj hfound).symm
      · exact absurd (Except.ok.inj hfound).symm hne
    exact ⟨hstopped, .inr ⟨rewritten, hwrite,
      keepsTo_of_rewrite hold hnew hsize hwithin hrewrite⟩⟩

end

/-- A rename whose source always gives the same answer. -/
def answering (captures : List Capture) : Engine :=
  { source := fun _ _ _ _ => .ok captures, filter := {} }

/-- A rename that begins, with one file of two lines. -/
def twoLines : Progress :=
  { store := { disk := ⟨[], 7, [(["a.rs"], .file (bytes "x\na\n") 420)]⟩ } }

/-- A use and a comment that are reported where they stand. -/
theorem Progress.visit_keeps_to_two_lines :
    let captures : List Capture :=
      [⟨.reference, ⟨⟨"a.rs"⟩, 2, 0⟩, "a"⟩, ⟨.comment, ⟨⟨"a.rs"⟩, 1, 0⟩, "a"⟩]
    let p := twoLines.visit (answering captures) "a" "b" (some ⟨2, 2⟩) ⟨"a.rs"⟩
    p.stopped = none ∧ p.store.read ⟨"a.rs"⟩ = .ok (bytes "x\nb\n") ∧
      ∃ rewritten, twoLines.store.write ⟨"a.rs"⟩ rewritten = .ok p.store ∧
        KeepsTo captures "a" "b" (some ⟨2, 2⟩) (bytes "x\na\n") rewritten := by
  intro captures p
  have hafter : p.store.read ⟨"a.rs"⟩ = .ok (bytes "x\nb\n") := by decide +kernel
  have hbefore : twoLines.store.read ⟨"a.rs"⟩ = .ok (bytes "x\na\n") := by decide +kernel
  obtain ⟨hstopped, hsame | hchanged⟩ := visit_keeps_to (e := answering captures) (p := twoLines)
    rfl hbefore rfl (by decide +kernel) (by decide +kernel) (by decide : isValidIdentifier "a" = true)
    (by decide : isValidIdentifier "b" = true) (some ⟨2, 2⟩)
  · have hread : p.store.read ⟨"a.rs"⟩ = twoLines.store.read ⟨"a.rs"⟩ :=
      congrArg (fun s => Store.read s ⟨"a.rs"⟩) hsame
    rw [hafter, hbefore] at hread
    exact absurd hread (by decide)
  · exact ⟨hstopped, hafter, hchanged⟩

/-- Where columns lie behind the ends of their lines, a line out of the range is changed, and so is
the position of an excluded use; two positions of one span stop everything, and so does a number
that is too large. -/
theorem Progress.visit_misplaced :
    ((twoLines.visit (answering [⟨.reference, ⟨⟨"a.rs"⟩, 1, 2⟩, "a"⟩]) "a" "b" (some ⟨1, 1⟩)
        ⟨"a.rs"⟩).store.read ⟨"a.rs"⟩ = .ok (bytes "x\nb\n") ∧
      ¬ Rewrite.AgreeOutside (some ⟨1, 1⟩) (bytes "x\na\n") (bytes "x\nb\n")) ∧
    (twoLines.visit (answering [⟨.reference, ⟨⟨"a.rs"⟩, 1, 2⟩, "a"⟩,
        ⟨.comment, ⟨⟨"a.rs"⟩, 2, 0⟩, "a"⟩]) "a" "b" none ⟨"a.rs"⟩).store.read ⟨"a.rs"⟩ =
      .ok (bytes "x\nb\n") ∧
    (twoLines.visit (answering [⟨.reference, ⟨⟨"a.rs"⟩, 1, 2⟩, "a"⟩,
        ⟨.reference, ⟨⟨"a.rs"⟩, 2, 0⟩, "a"⟩]) "a" "b" none ⟨"a.rs"⟩).stopped =
      some .crossing ∧
    (twoLines.visit (answering [⟨.reference, ⟨⟨"a.rs"⟩, 2, Count.limit - 1⟩, "a"⟩]) "a" "b" none
        ⟨"a.rs"⟩).stopped = some .overflow := by
  refine ⟨⟨by decide +kernel, fun h => ?_⟩, by decide +kernel, by decide +kernel,
    by decide +kernel⟩
  exact absurd (h.outside 2 (by decide) (by decide)) (by decide)

end SymbolRename.Rename
