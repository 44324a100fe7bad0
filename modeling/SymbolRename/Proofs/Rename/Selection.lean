import SymbolRename.Proofs.Lexer.Hits

/-!
# Selected occurrences

What `Occurrence.select` makes of any captures: the occurrences ascend, each of them is a capture
that is not excluded, in the range, and no excluded capture claims its position.
-/

namespace SymbolRename.Occurrence

theorem mem_insert {o p : Occurrence} {found : List Occurrence}
    (h : p ∈ insert o found) : p = o ∨ p ∈ found := by
  induction found with
  | nil => exact .inl (List.mem_singleton.mp h)
  | cons q rest ih =>
    rw [insert] at h
    split at h
    · exact List.mem_cons.mp h
    · split at h
      · rcases List.mem_cons.mp h with rfl | h
        · split
          · exact .inr List.mem_cons_self
          · exact .inl rfl
        · exact .inr (List.mem_cons_of_mem q h)
      · rcases List.mem_cons.mp h with rfl | h
        · exact .inr List.mem_cons_self
        · exact (ih h).imp_right (List.mem_cons_of_mem q)

/-- The position of an occurrence is before that of another. -/
def Before (o p : Occurrence) : Prop :=
  Location.before o.position p.position = true

/-- An inserted occurrence takes its place among occurrences that ascend. -/
theorem insert_ascends {o : Occurrence} {found : List Occurrence}
    (h : found.Pairwise Before) : (insert o found).Pairwise Before := by
  induction found with
  | nil => exact List.pairwise_singleton _ _
  | cons p rest ih =>
    obtain ⟨hfirst, hrest⟩ := List.pairwise_cons.mp h
    rw [insert]
    split
    · rename_i hbefore
      refine List.pairwise_cons.mpr ⟨fun q hq => ?_, h⟩
      rcases List.mem_cons.mp hq with rfl | hq
      · exact hbefore
      · have hpq := Location.before_iff.mp (hfirst q hq)
        have hop := Location.before_iff.mp hbefore
        exact Location.before_iff.mpr (by omega)
    · rename_i hnot
      split
      · rename_i hsame
        refine List.pairwise_cons.mpr ⟨fun q hq => ?_, hrest⟩
        have hposition : (if specificity o.kind ≤ specificity p.kind then p else o).position =
            p.position := by
          split
          · rfl
          · exact hsame.symm
        unfold Before
        rw [hposition]
        exact hfirst q hq
      · rename_i hother
        refine List.pairwise_cons.mpr ⟨fun q hq => ?_, ih hrest⟩
        rcases mem_insert hq with rfl | hq
        · -- Neither before nor at the same position, so behind.
          have hnot := mt Location.before_iff.mpr hnot
          have hother := mt Prod.ext_iff.mpr hother
          exact Location.before_iff.mpr (by omega)
        · exact hfirst q hq

theorem foldl_insert_ascends {captures : List Capture} {found : List Occurrence}
    (h : found.Pairwise Before) :
    (captures.foldl (fun found c => insert (ofCapture c) found) found).Pairwise Before := by
  induction captures generalizing found with
  | nil => exact h
  | cons c rest ih => exact ih (insert_ascends h)

theorem mem_foldl_insert {o : Occurrence} {captures : List Capture} {found : List Occurrence}
    (h : o ∈ captures.foldl (fun found c => insert (ofCapture c) found) found) :
    o ∈ found ∨ ∃ c ∈ captures, o = ofCapture c := by
  induction captures generalizing found with
  | nil => exact .inl h
  | cons c rest ih =>
    rcases ih h with h | ⟨d, hd, rfl⟩
    · rcases mem_insert h with rfl | h
      · exact .inr ⟨c, List.mem_cons_self, rfl⟩
      · exact .inl h
    · exact .inr ⟨d, List.mem_cons_of_mem c hd, rfl⟩

variable {captures : List Capture} {name : String} {range : Option LineRange} {o : Occurrence}

theorem isRelevant_iff {c : Capture} :
    isRelevant name range c = true ↔
      c.text = name ∧ range.all (·.contains c.location.line) = true := by
  simp [isRelevant]

/-- Selected occurrences ascend. -/
theorem select_ascends (captures : List Capture) (name : String) (range : Option LineRange) :
    (select captures name range).Pairwise Before :=
  (foldl_insert_ascends .nil).sublist List.filter_sublist

/-- A selected occurrence was captured under its name, in the range, and not as an excluded
use. -/
theorem captured_of_mem_select (h : o ∈ select captures name range) :
    ∃ c ∈ captures, o = ofCapture c ∧ c.kind.isExcluded = false ∧ c.text = name ∧
      range.all (·.contains o.location.line) = true := by
  rcases mem_foldl_insert (List.mem_filter.mp h).1 with hnil | ⟨c, hc, rfl⟩
  · exact absurd hnil List.not_mem_nil
  · obtain ⟨hrelevant, hkind⟩ := List.mem_filter.mp hc
    obtain ⟨hc, hrelevant⟩ := List.mem_filter.mp hrelevant
    obtain ⟨htext, hrange⟩ := isRelevant_iff.mp hrelevant
    exact ⟨c, hc, rfl, by simpa using hkind, htext, hrange⟩

/-- No excluded capture of the name claims the position of a selected occurrence. One outside
the range stands on another line. -/
theorem unclaimed_of_mem_select (h : o ∈ select captures name range) {c : Capture}
    (hc : c ∈ captures) (hkind : c.kind.isExcluded = true) (htext : c.text = name) :
    (ofCapture c).position ≠ o.position := by
  intro hposition
  obtain ⟨_, _, _, _, _, hrange⟩ := captured_of_mem_select h
  have hline : c.location.line = o.location.line := (Prod.mk.inj hposition).1
  have hclaimed := (List.mem_filter.mp h).2
  simp only [Bool.not_eq_true', List.contains_eq_mem, decide_eq_false_iff_not] at hclaimed
  refine hclaimed (List.mem_map.mpr ⟨c, List.mem_filter.mpr ⟨List.mem_filter.mpr ⟨hc, ?_⟩, hkind⟩,
    hposition⟩)
  exact isRelevant_iff.mpr ⟨htext, hline ▸ hrange⟩

end SymbolRename.Occurrence
