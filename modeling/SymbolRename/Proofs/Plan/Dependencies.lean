import SymbolRename.Plan
import Mathlib.Data.List.Nodup

/-!
# Dependencies of a mapping set

The candidates of a mapping are the other mappings whose old name is its new name, and
its dependency is the first of them. In a set without ambiguities there is at most one,
so the dependency says everything about who could pick up a written name.
-/

namespace SymbolRename

/-- The candidates of a mapping are exactly the other mappings that take its new name. -/
theorem Plan.mem_candidates_iff {mappings : List Mapping} {i j : Nat} :
    j ∈ candidates mappings i ↔
      j ≠ i ∧ ∃ m n, mappings[i]? = some m ∧ mappings[j]? = some n ∧ n.old = m.new := by
  unfold candidates
  cases hi : mappings[i]? with
  | none => simp
  | some m =>
    cases hj : mappings[j]? with
    | none => simp [hj]
    | some n =>
      obtain ⟨hlt, rfl⟩ := List.getElem?_eq_some_iff.mp hj
      simp [hlt]

theorem Plan.candidates_nodup (mappings : List Mapping) (i : Nat) :
    (candidates mappings i).Nodup := by
  unfold candidates
  split
  · exact List.nodup_nil
  · exact List.nodup_range.filter _

/-- What a mapping depends on is the first of its candidates. -/
theorem Plan.next?_dependencies (mappings : List Mapping) (i : Nat) :
    next? (dependencies mappings) i = (candidates mappings i).head? := by
  by_cases hi : i < mappings.length
  · simp [next?, dependencies, hi]
  · simp [next?, dependencies, candidates, hi]

@[simp] theorem Plan.length_dependencies (mappings : List Mapping) :
    (dependencies mappings).length = mappings.length := by
  simp [dependencies]

/-- Dependencies stay inside the mapping set. -/
theorem Plan.next?_lt {mappings : List Mapping} {i j : Nat}
    (h : next? (dependencies mappings) i = some j) : j < mappings.length := by
  rw [next?_dependencies] at h
  obtain ⟨_, _, n, _, hj, _⟩ := mem_candidates_iff.mp (List.mem_of_head? h)
  exact (List.getElem?_eq_some_iff.mp hj).1

/-- Without ambiguities no mapping has two candidates. -/
theorem Plan.candidates_length_le_one {mappings : List Mapping}
    (h : ambiguitiesOf mappings = []) (i : Nat) : (candidates mappings i).length ≤ 1 := by
  by_cases hi : i < mappings.length
  · have hnone := List.filterMap_eq_nil_iff.mp h i (List.mem_range.mpr hi)
    match hc : candidates mappings i with
    | [] => simp
    | [j] => simp
    | j :: k :: more => simp [hc] at hnone
  · have hnone : mappings[i]? = none := List.getElem?_eq_none (Nat.le_of_not_lt hi)
    simp [candidates, hnone]

/-- Without ambiguities every candidate is the dependency. -/
theorem Plan.next?_eq_some_of_mem {mappings : List Mapping} {i j : Nat}
    (h : ambiguitiesOf mappings = []) (hj : j ∈ candidates mappings i) :
    next? (dependencies mappings) i = some j := by
  have hlen := candidates_length_le_one h i
  rw [next?_dependencies]
  match hc : candidates mappings i with
  | [] => simp [hc] at hj
  | [k] =>
    have hjk : j = k := by simpa [hc] using hj
    simp [hjk]
  | k :: l :: more => simp [hc] at hlen

/-- Without ambiguities a name that some mapping writes is taken by one other mapping
at most. -/
theorem Plan.eq_of_mem_candidates {mappings : List Mapping} {i j k : Nat}
    (h : ambiguitiesOf mappings = []) (hj : j ∈ candidates mappings i)
    (hk : k ∈ candidates mappings i) : j = k := by
  have hj := next?_eq_some_of_mem h hj
  rw [next?_eq_some_of_mem h hk] at hj
  exact (Option.some.inj hj).symm

/-- Distinct old names leave no ambiguity. -/
theorem Plan.ambiguitiesOf_eq_nil_of_nodup {mappings : List Mapping}
    (h : (mappings.map (·.old)).Nodup) : ambiguitiesOf mappings = [] := by
  apply List.filterMap_eq_nil_iff.mpr
  intro i _
  have hunique : ∀ j ∈ candidates mappings i, ∀ k ∈ candidates mappings i, j = k := by
    intro j hj k hk
    obtain ⟨_, m, n, hi, hj, hjm⟩ := mem_candidates_iff.mp hj
    obtain ⟨_, m', n', hi', hk, hkm⟩ := mem_candidates_iff.mp hk
    rw [hi] at hi'
    obtain rfl := Option.some.inj hi'
    have hsame : (mappings.map (·.old))[j]? = (mappings.map (·.old))[k]? := by
      simp [hj, hk, hjm, hkm]
    have hlt : j < (mappings.map (·.old)).length := by
      rw [List.length_map]
      exact (List.getElem?_eq_some_iff.mp hj).1
    exact (List.getElem?_inj hlt h).mp hsame
  have hnodup := candidates_nodup mappings i
  match hc : candidates mappings i with
  | [] => rfl
  | [j] => rfl
  | j :: k :: more =>
    rw [hc] at hnodup hunique
    have hjk : j = k := hunique j (by simp) k (by simp)
    simp [hjk] at hnodup

end SymbolRename
