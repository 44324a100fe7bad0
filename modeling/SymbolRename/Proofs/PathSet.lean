import SymbolRename.Change
import Mathlib.Data.List.Dedup

/-!
# Lists of paths without repetitions

A path set holds the paths it was made of, each once however it is spelled. It is sorted:
paths are compared by their components, and that order is transitive.
-/

namespace SymbolRename

theorem Component.compare_eq_iff {a b : Component} : a.compare b = .eq ↔ a = b := by
  cases a <;> cases b <;> simp [Component.compare, rank]

theorem Path.compareComponents_eq_iff {as bs : List Component} :
    compareComponents as bs = .eq ↔ as = bs := by
  induction as generalizing bs with
  | nil => cases bs <;> simp [compareComponents]
  | cons a as ih =>
    cases bs with
    | nil => simp [compareComponents]
    | cons b bs => simp [compareComponents, Ordering.then_eq_eq, Component.compare_eq_iff, ih]

/-- Two paths are listed at one position exactly when they are spellings of one path. -/
theorem Path.compare_eq_iff {p q : Path} : p.compare q = .eq ↔ p.same q = true := by
  rw [Path.compare, compareComponents_eq_iff, Path.same, beq_iff_eq]

/-- The text of a name; other components have none. -/
def Component.text : Component → String
  | name s => s
  | _ => ""

theorem Component.compare_eq_lex :
    Component.compare = compareLex (compareOn rank) (compareOn text) := by
  funext a b
  cases a <;> cases b <;> rfl

instance : Std.TransCmp Component.compare := by
  rw [Component.compare_eq_lex]
  infer_instance

theorem Path.compareComponents_eq_lex : compareComponents = List.compareLex Component.compare := by
  funext as bs
  induction as generalizing bs with
  | nil => cases bs <;> rfl
  | cons a as ih =>
    cases bs with
    | nil => rfl
    | cons b bs =>
      rw [compareComponents, ih, List.compareLex_cons_cons]

theorem Path.compare_eq_lex (p q : Path) :
    p.compare q = List.compareLex Component.compare p.components q.components := by
  rw [Path.compare, compareComponents_eq_lex]

instance : Std.TransCmp Path.compare where
  eq_swap {p q} := by
    rw [Path.compare_eq_lex, Path.compare_eq_lex]
    exact Std.OrientedCmp.eq_swap
  isLE_trans {p q r} := by
    rw [Path.compare_eq_lex, Path.compare_eq_lex, Path.compare_eq_lex]
    exact Std.TransCmp.isLE_trans

/-! ### What is in a set -/

/-- Nothing but the added path comes into a set. -/
theorem PathSet.mem_of_mem_insert {s : PathSet} {p q : Path} (h : q ∈ s.insert p) :
    q = p ∨ q ∈ s := by
  induction s with
  | nil => exact .inl (List.mem_singleton.mp h)
  | cons r rest ih =>
    rw [insert] at h
    cases hc : p.compare r with
    | lt =>
      rw [hc] at h
      exact List.mem_cons.mp h
    | eq =>
      rw [hc] at h
      exact .inr h
    | gt =>
      rw [hc] at h
      rcases List.mem_cons.mp h with rfl | h
      · exact .inr List.mem_cons_self
      · exact (ih h).imp_right (List.mem_cons_of_mem r)

theorem PathSet.mem_of_mem_insertAll {paths : List Path} {s : PathSet} {q : Path}
    (h : q ∈ insertAll paths s) : q ∈ paths ∨ q ∈ s := by
  induction paths generalizing s with
  | nil => exact .inr h
  | cons p rest ih =>
    rcases ih h with h | h
    · exact .inl (List.mem_cons_of_mem p h)
    · rcases mem_of_mem_insert h with rfl | h
      · exact .inl List.mem_cons_self
      · exact .inr h

/-- A path set holds only paths that it was made of. -/
theorem PathSet.mem_of_mem_ofList {paths : List Path} {q : Path} (h : q ∈ ofList paths) :
    q ∈ paths := by
  rcases mem_of_mem_insertAll h with h | h
  · exact h
  · exact absurd h List.not_mem_nil

/-! ### Each path once -/

/-- The paths of a sorted list ascend. -/
def PathSet.Sorted (s : PathSet) : Prop := s.Pairwise fun p q => p.compare q = .lt

theorem PathSet.Sorted.insert {s : PathSet} (h : s.Sorted) (p : Path) :
    (PathSet.insert p s).Sorted := by
  induction s with
  | nil => exact List.pairwise_singleton _ _
  | cons q rest ih =>
    have hrest := List.pairwise_cons.mp h
    rw [PathSet.insert]
    cases hc : p.compare q with
    | lt =>
      refine List.pairwise_cons.mpr ⟨fun r hr => ?_, h⟩
      rcases List.mem_cons.mp hr with rfl | hr
      · exact hc
      · exact Std.TransCmp.lt_trans hc (hrest.1 r hr)
    | eq => exact h
    | gt =>
      refine List.pairwise_cons.mpr ⟨fun r hr => ?_, ih hrest.2⟩
      rcases mem_of_mem_insert hr with rfl | hr
      · exact Std.OrientedCmp.gt_iff_lt.mp hc
      · exact hrest.1 r hr

theorem PathSet.sorted_ofList (paths : List Path) : (ofList paths).Sorted := by
  suffices h : ∀ s : PathSet, s.Sorted → (insertAll paths s).Sorted from h [] .nil
  induction paths with
  | nil => exact fun s hs => hs
  | cons p rest ih => exact fun s hs => ih _ (hs.insert p)

theorem PathSet.nodup_ofList (paths : List Path) : (ofList paths).Nodup :=
  (sorted_ofList paths).imp fun hlt heq => by
    rw [heq, Path.compare_eq_iff.mpr (by simp [Path.same])] at hlt
    cases hlt

/-- The added path is in the set, in some spelling. -/
theorem PathSet.exists_same_insert (p : Path) (s : PathSet) :
    ∃ q ∈ insert p s, q.same p = true := by
  induction s with
  | nil => exact ⟨p, List.mem_singleton.mpr rfl, by simp [Path.same]⟩
  | cons q rest ih =>
    rw [insert]
    cases hc : p.compare q with
    | lt => exact ⟨p, List.mem_cons_self, by simp [Path.same]⟩
    | eq =>
      have hsame := Path.compare_eq_iff.mp hc
      rw [Path.same, beq_iff_eq] at hsame
      exact ⟨q, List.mem_cons_self, by rw [Path.same, beq_iff_eq, hsame]⟩
    | gt =>
      obtain ⟨r, hr, hsame⟩ := ih
      exact ⟨r, List.mem_cons_of_mem q hr, hsame⟩

theorem PathSet.subset_insert (p : Path) (s : PathSet) : s ⊆ insert p s := by
  induction s with
  | nil => exact List.nil_subset _
  | cons q rest ih =>
    rw [insert]
    cases p.compare q with
    | lt => exact List.subset_cons_self _ _
    | eq => exact List.Subset.refl _
    | gt => exact List.cons_subset_cons q ih

theorem PathSet.subset_insertAll (paths : List Path) (s : PathSet) : s ⊆ insertAll paths s := by
  induction paths generalizing s with
  | nil => exact List.Subset.refl s
  | cons p rest ih => exact List.Subset.trans (subset_insert p s) (ih _)

/-- Every added path is in the set, in some spelling. -/
theorem PathSet.exists_same_insertAll {paths : List Path} {p : Path} (h : p ∈ paths)
    (s : PathSet) : ∃ q ∈ insertAll paths s, q.same p = true := by
  induction paths generalizing s with
  | nil => exact absurd h List.not_mem_nil
  | cons r rest ih =>
    rcases List.mem_cons.mp h with rfl | h
    · obtain ⟨q, hq, hsame⟩ := exists_same_insert p s
      exact ⟨q, subset_insertAll rest _ hq, hsame⟩
    · exact ih h _

/-- Every path of the list is in its set, in some spelling. -/
theorem PathSet.exists_same_ofList {paths : List Path} {p : Path} (h : p ∈ paths) :
    ∃ q ∈ ofList paths, q.same p = true :=
  exists_same_insertAll h []

/-! ### Listing paths -/

theorem PathSet.Sorted.insertAll {s : PathSet} (h : s.Sorted) (paths : List Path) :
    (PathSet.insertAll paths s).Sorted := by
  induction paths generalizing s with
  | nil => exact h
  | cons p rest ih => exact ih (h.insert p)

/-- A set lists some paths: it is sorted, holds no others, and each of them in some spelling. -/
structure PathSet.Lists (s : PathSet) (paths : List Path) : Prop where
  sorted : s.Sorted
  only : s ⊆ paths
  all : ∀ p ∈ paths, ∃ q ∈ s, q.same p = true

theorem PathSet.lists_nil : Lists [] [] :=
  ⟨.nil, List.nil_subset _, fun _ hp => absurd hp List.not_mem_nil⟩

theorem PathSet.Lists.insert {s : PathSet} {paths : List Path} (h : s.Lists paths) (p : Path) :
    (PathSet.insert p s).Lists (paths ++ [p]) := by
  refine ⟨h.sorted.insert p, fun q hq => ?_, fun q hq => ?_⟩
  · rcases mem_of_mem_insert hq with rfl | hq
    · exact List.mem_append_right _ (List.mem_singleton.mpr rfl)
    · exact List.mem_append_left _ (h.only hq)
  · rcases List.mem_append.mp hq with hq | hq
    · obtain ⟨r, hr, hsame⟩ := h.all q hq
      exact ⟨r, subset_insert p s hr, hsame⟩
    · obtain rfl := List.mem_singleton.mp hq
      exact exists_same_insert q s

theorem PathSet.Lists.insertAll {s t : PathSet} {paths more : List Path} (h : s.Lists paths)
    (h' : t.Lists more) : (PathSet.insertAll t s).Lists (paths ++ more) := by
  refine ⟨h.sorted.insertAll t, fun q hq => ?_, fun q hq => ?_⟩
  · rcases mem_of_mem_insertAll hq with hq | hq
    · exact List.mem_append_right _ (h'.only hq)
    · exact List.mem_append_left _ (h.only hq)
  · rcases List.mem_append.mp hq with hq | hq
    · obtain ⟨r, hr, hsame⟩ := h.all q hq
      exact ⟨r, subset_insertAll t s hr, hsame⟩
    · obtain ⟨r, hr, hsame⟩ := h'.all q hq
      obtain ⟨u, hu, hsame'⟩ := exists_same_insertAll hr s
      refine ⟨u, hu, ?_⟩
      rw [Path.same, beq_iff_eq] at hsame hsame' ⊢
      exact hsame'.trans hsame

end SymbolRename
