import SymbolRename.Plan
import SymbolRename.Proofs.Text.Utf8
import Mathlib.Data.List.Nodup

/-!
# Temporary names are fresh

The candidates for a temporary name are numbered and all different, so among one more
than there are names in use the search meets a free one. The names of a cycle join
the used ones as they are found; they differ from each other and from all names before.
-/

namespace SymbolRename

/-- The candidates of one base are all different. -/
theorem Plan.tempCandidate_injective {base : String} {a b : Nat}
    (h : tempCandidate base a = tempCandidate base b) : a = b := by
  have htext : ∀ n : Nat, (s!"{base}_{n}" : String).toList =
      base.toList ++ '_' :: Nat.toDigits 10 n := by
    intro n
    simp [ToString.toString, Nat.repr]
  unfold tempCandidate at h
  split at h <;> split at h
  · omega
  · have hlist := congrArg String.toList h
    rw [htext] at hlist
    have hlength := congrArg List.length hlist
    simp at hlength
  · have hlist := congrArg String.toList h
    rw [htext] at hlist
    have hlength := congrArg List.length hlist
    simp at hlength
  · have hlist := congrArg String.toList h
    rw [htext, htext] at hlist
    have hdigits := (List.cons.inj (List.append_cancel_left hlist)).2
    have hvalue := congrArg (Nat.ofDigitChars 10 · 0) hdigits
    simpa [Nat.ofDigitChars_ten_toDigits] using hvalue

/-- The search stops at a candidate, and passes over names in use only. -/
theorem Plan.exists_firstFree (inUse : String → Bool) (base : String) (fuel attempt : Nat) :
    ∃ found, firstFree inUse base fuel attempt = tempCandidate base found ∧
      (inUse (tempCandidate base found) = false ∨
        ∀ passed, attempt ≤ passed → passed < attempt + fuel →
          inUse (tempCandidate base passed) = true) := by
  induction fuel generalizing attempt with
  | zero => exact ⟨attempt, rfl, .inr fun passed h h' => by omega⟩
  | succ fuel ih =>
    cases hused : inUse (tempCandidate base attempt) with
    | false => exact ⟨attempt, by simp [firstFree, hused], .inl hused⟩
    | true =>
      obtain ⟨found, hfound, hfree⟩ := ih (attempt + 1)
      refine ⟨found, by simp [firstFree, hused, hfound], hfree.imp_right fun hall => ?_⟩
      intro passed hfrom hto
      rcases Nat.eq_or_lt_of_le hfrom with rfl | hlt
      · exact hused
      · exact hall passed hlt (by omega)

/-- A temporary name is not in use: not all candidates can be. -/
theorem Plan.tempName_not_mem (hash : String) (used : List String) (mapping : Nat) :
    tempName hash used mapping ∉ used := by
  obtain ⟨found, hfound, hfree⟩ := exists_firstFree used.contains
    s!"{tempMark}{String.ofList (hash.toList.take 8)}_{mapping}" (used.length + 1) 0
  rw [tempName, hfound]
  rcases hfree with hfree | hall
  · simpa using hfree
  · exfalso
    let tried := (List.range (used.length + 1)).map
      (tempCandidate s!"{tempMark}{String.ofList (hash.toList.take 8)}_{mapping}")
    have hnodup : tried.Nodup :=
      List.Nodup.map (fun _ _ h => tempCandidate_injective h) List.nodup_range
    have hsub : tried ⊆ used := by
      intro name hname
      obtain ⟨passed, hpassed, rfl⟩ := List.mem_map.mp hname
      have hlt := List.mem_range.mp hpassed
      exact List.contains_iff_mem.mp (hall passed (Nat.zero_le _) (by omega))
    have hle := hnodup.length_le_of_subset hsub
    simp [tried] at hle

@[simp] theorem Plan.length_allocate (hash : String) (used : List String) (members : List Nat) :
    (allocate hash used members).length = members.length := by
  induction members generalizing used with
  | nil => rfl
  | cons m rest ih => simp [allocate, ih]

/-- Allocated names are new. -/
theorem Plan.not_mem_of_mem_allocate {hash : String} {used : List String} {members : List Nat}
    {name : String} (h : name ∈ allocate hash used members) : name ∉ used := by
  induction members generalizing used with
  | nil => simp [allocate] at h
  | cons m rest ih =>
    rcases List.mem_cons.mp h with rfl | h
    · exact tempName_not_mem hash used m
    · exact fun hmem => ih h (List.mem_cons_of_mem _ hmem)

/-- Allocated names are all different. -/
theorem Plan.allocate_nodup (hash : String) (used : List String) (members : List Nat) :
    (allocate hash used members).Nodup := by
  induction members generalizing used with
  | nil => exact List.nodup_nil
  | cons m rest ih =>
    refine List.nodup_cons.mpr ⟨fun hmem => ?_, ih _⟩
    exact not_mem_of_mem_allocate hmem List.mem_cons_self

end SymbolRename
