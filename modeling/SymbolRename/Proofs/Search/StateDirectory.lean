import SymbolRename.Proofs.Disk.Routes
import SymbolRename.Proofs.Disk.Scratch
import SymbolRename.Proofs.Search.Outside

/-!
# The directory of the program's own files

A search whose roots come through nothing in the state directory of a project stays out of it:
what is walked there is passed over, and every other path that is walked comes through none of
its places (`Search.apart_stateDirectory`).
-/

namespace SymbolRename

/-- The places in the state directory of a project. -/
def Place.inState (project : Place) : Place → Bool :=
  fun p => (project ++ [Search.stateDirectory]).isPrefixOf p

namespace Place

variable {project : Place} {p : Place}

theorem inState_iff : inState project p = true ↔ project ++ [Search.stateDirectory] <+: p :=
  List.isPrefixOf_iff_prefix

theorem inState_nil (project : Place) : inState project [] = false := by
  refine Bool.eq_false_iff.mpr fun h => ?_
  have hnil := List.prefix_nil.mp (inState_iff.mp h)
  simp at hnil

/-- One enters the state directory by its name only. -/
theorem inState_append (hp : inState project p = false) {s : String}
    (hs : s ≠ Search.stateDirectory) : inState project (p ++ [s]) = false := by
  refine Bool.eq_false_iff.mpr fun h => ?_
  rcases List.prefix_concat_iff.mp (inState_iff.mp h) with hsame | hprefix
  · exact hs (List.cons.inj (List.append_inj' hsame rfl).2).1.symm
  · rw [inState_iff.mpr hprefix] at hp
    cases hp

theorem inState_of_prefix {q : Place} (hp : inState project p = false) (h : q <+: p) :
    inState project q = false := by
  refine Bool.eq_false_iff.mpr fun hq => ?_
  rw [inState_iff.mpr ((inState_iff.mp hq).trans h)] at hp
  cases hp

/-- Components without the name of the state directory lead through none of its places. -/
theorem inState_of_mem_leads {here : Place} (hhere : inState project here = false)
    (hp : inState project p = false) {cs : List Component}
    (hcs : .name Search.stateDirectory ∉ cs) {q : Place} (hq : q ∈ Component.leads here p cs) :
    inState project q = false := by
  induction cs generalizing p with
  | nil =>
    rw [List.mem_singleton.mp hq]
    exact hp
  | cons c rest ih =>
    obtain ⟨hc, hrest⟩ := not_or.mp (mt List.mem_cons.mpr hcs)
    rcases List.mem_cons.mp hq with rfl | hq
    · exact hp
    · refine ih ?_ hrest hq
      cases c with
      | root => exact inState_nil project
      | here => exact hhere
      | up => exact inState_of_prefix hp (List.dropLast_prefix p)
      | name s => exact inState_append hp fun hs => hc (hs ▸ rfl)

end Place

namespace Search

variable {project : Place} {d : Disk} {path : Path}

/-- A scratch file is outside of the state directory when its file is. -/
theorem clears_of_avoids (h : d.Avoids project.inState path) : d.Clears project.inState path := by
  obtain ⟨extension, hscratch, hextension, hlong⟩ : ∃ extension : String,
      d.scratch path = Disk.withExtension path extension ∧ '/' ∉ extension.toList ∧
        12 ≤ extension.length := by
    have hslash := Disk.slash_not_mem_scratchEnding d.process
    have hlength := Disk.length_scratchEnding d.process
    rw [Disk.scratchEnding_eq] at hslash hlength
    rw [List.length_cons, String.length_toList] at hlength
    exact ⟨_, rfl, fun hmem => hslash (List.mem_cons_of_mem '.' hmem), by omega⟩
  refine ⟨h, .withoutSlash ?_⟩
  rw [hscratch]
  cases hname : path.fileName? with
  | none =>
    have hsame : Disk.withExtension path extension = path := by
      unfold Disk.withExtension
      rw [hname]
    rw [hsame]
    exact h
  | some name =>
    obtain ⟨init, last, silent, stem, hsegments, hscratch, habsolute⟩ :=
      Disk.segments_withExtension hname hextension
    have hlength : 12 ≤ (stem ++ "." ++ extension).length := by
      rw [String.length_append]
      omega
    generalize stem ++ "." ++ extension = scratch at hscratch hlength
    have hstep := Path.stepOf?_of_length (s := scratch) (by omega)
    have hstate : scratch ≠ stateDirectory := by
      rintro rfl
      exact absurd hlength (by decide)
    unfold Disk.Avoids Disk.route at h ⊢
    rw [habsolute, hscratch]
    rw [hsegments] at h
    generalize (if path.isAbsolute then [] else d.here) = start at h ⊢
    intro q hq
    -- The way of the scratch file is that of the file up to the last step.
    have hway : ∀ r ∈ Component.leads d.here start (init.filterMap Path.stepOf?),
        project.inState r = false := by
      intro r hr
      refine h r ((Place.mem_through_iff d.here).mpr ?_)
      rw [List.filterMap_append]
      exact Component.mem_leads_append.mpr (.inl hr)
    rw [Place.mem_through_iff d.here, List.filterMap_append, List.filterMap_cons, hstep,
      List.filterMap_nil] at hq
    rcases Component.mem_leads_append.mp hq with hq | hq
    · exact hway q hq
    · have hend := hway _ (Component.foldl_mem_leads d.here start _)
      rcases List.mem_cons.mp hq with rfl | hq
      · exact hend
      · rw [List.mem_singleton.mp hq]
        exact Place.inState_append hend hstate

/-- A path that is not seen to lie in the state directory stays out of it, as the roots do. -/
theorem avoids_of_relativeTo (hstart : path.isAbsolute = true ∨ project.inState d.here = false)
    {directories : List Path}
    (hdirectories : ∀ directory ∈ directories, d.Avoids project.inState directory)
    (h : inStateDirectory (relativeTo directories path) = false) :
    d.Avoids project.inState path := by
  have hname : Path.stepOf? stateDirectory = some (.name stateDirectory) := by decide
  have hnot : .name stateDirectory ∉ (relativeTo directories path).components := by
    intro hmem
    unfold inStateDirectory at h
    rw [List.contains_iff_mem.mpr hmem] at h
    cases h
  have houtside : ∀ {d : Disk}, project.inState d.here = false →
      (∀ directory ∈ directories, d.Avoids project.inState directory) →
        d.Avoids project.inState path := by
    intro d hhere hdirectories
    rw [Disk.avoids_iff_leads hhere]
    unfold relativeTo at hnot
    cases hbase : directories.findSome? fun root => path.below? root with
    | none =>
      rw [hbase] at hnot
      exact fun q hq => Place.inState_of_mem_leads hhere hhere hnot hq
    | some rest =>
      rw [hbase] at hnot
      obtain ⟨base, hmem, hrest⟩ := List.exists_of_findSome?_eq_some hbase
      obtain ⟨cs, hcs, hnames⟩ := Path.components_of_below? hrest
      have hway := (Disk.avoids_iff_leads hhere).mp (hdirectories base hmem)
      rw [hcs]
      intro q hq
      rcases Component.mem_leads_append.mp hq with hq | hq
      · exact hway q hq
      · refine Place.inState_of_mem_leads hhere (hway _ (Component.foldl_mem_leads _ _ _)) ?_ hq
        intro hstate
        exact hnot (Path.name_mem_components_iff.mpr ⟨hnames _ hname hstate, hname⟩)
  by_cases hhere : project.inState d.here = false
  · exact houtside hhere hdirectories
  · -- Then all paths in question are absolute, and do not depend on the current directory.
    have hroute : ∀ other : Path, other.isAbsolute = true →
        ({ d with here := [] } : Disk).route other = d.route other := by
      intro other hother
      unfold Disk.route
      rw [hother]
      rfl
    have habsolute := hstart.resolve_right hhere
    have hmoved := houtside (d := { d with here := [] }) (Place.inState_nil project) ?_
    · unfold Disk.Avoids at hmoved ⊢
      rwa [hroute path habsolute] at hmoved
    · intro directory hdirectory
      have havoids := hdirectories directory hdirectory
      unfold Disk.Avoids at havoids ⊢
      rwa [hroute directory (Disk.isAbsolute_of_avoids havoids hhere)]

/-- What is named below a root is outside of the state directory if the way to it is. -/
theorem inState_target_append (hproject : ∀ name ∈ project, Path.IsName name) {root : Path}
    (hroot : project.inState (d.target root) = false) {below : Place}
    (h : d.Avoids project.inState (root.join ⟨"/".intercalate below⟩)) :
    project.inState (d.target root ++ below) = false := by
  refine Bool.eq_false_iff.mpr fun hstate => ?_
  -- The state directory would be entered on the way, after some names of the project.
  obtain ⟨behind, hbehind⟩ := Place.inState_iff.mp hstate
  rcases List.append_eq_append_iff.mp hbehind.symm with ⟨names, htarget, rfl⟩ | ⟨_, htarget, _⟩
  · have hne : names ≠ [] := by
      rintro rfl
      rw [List.append_nil] at htarget
      rw [← htarget, Place.inState_iff.mpr (List.prefix_refl _)] at hroot
      cases hroot
    have hnames : ∀ name ∈ names, Path.IsName name := by
      intro name hname
      have hmem : name ∈ project ++ [stateDirectory] := htarget ▸ List.mem_append_right _ hname
      rcases List.mem_append.mp hmem with hmem | hmem
      · exact hproject name hmem
      · rw [List.mem_singleton.mp hmem]
        decide
    have hway := h _ (Disk.mem_route_names hne hnames)
    rw [← htarget, Place.inState_iff.mpr (List.prefix_refl _)] at hway
    cases hway
  · rw [htarget, Place.inState_iff.mpr (List.prefix_append _ _)] at hroot
    cases hroot

/-- Searches stay out of the state directory when their roots come through nothing in it. -/
theorem apart_stateDirectory (level : Nat) {roots : List Path}
    (hproject : ∀ name ∈ project, Path.IsName name)
    (hroots : ∀ root ∈ roots, d.Avoids project.inState root) :
    Apart level roots project.inState d := by
  constructor
  · intro p q hp
    exact Place.inState_iff.mpr ((Place.inState_iff.mp hp).trans (List.prefix_append p q))
  · intro directory hdirectory
    have hname : ∀ name, name ≠ stateDirectory → project.inState (directory ++ [name]) = false :=
      fun name hne => Place.inState_append hdirectory hne
    refine ⟨?_, hname _ (by decide), ?_⟩
    · intro names hnames name hname'
      apply hname
      rintro rfl
      revert hnames hname'
      unfold Ignore.fileGroups
      split <;> decide +revert
    · have hrules : directory ++ Ignore.repositoryRules =
          directory ++ [Ignore.repositoryName] ++ ["info"] ++ ["exclude"] := by
        rw [List.append_assoc, List.append_assoc]
        rfl
      rw [hrules]
      apply Place.inState_append _ (by decide)
      apply Place.inState_append _ (by decide)
      exact hname _ (by decide)
  · exact fun root hroot => clears_of_avoids (hroots root hroot)
  · intro root hroot directories hdirectories below
    by_cases hstate : inStateDirectory
        (relativeTo directories (root.join ⟨"/".intercalate below⟩)) = true
    · exact .inl hstate
    · have hstart : (root.join ⟨"/".intercalate below⟩).isAbsolute = true ∨
          project.inState d.here = false := by
        by_cases hhere : project.inState d.here = false
        · exact .inr hhere
        · exact .inl (Path.isAbsolute_join_left (Disk.isAbsolute_of_avoids (hroots root hroot) hhere) _)
      have havoids := avoids_of_relativeTo hstart
        (fun directory hdirectory => hroots directory (hdirectories hdirectory))
        (Bool.eq_false_iff.mpr hstate)
      refine .inr ⟨?_, clears_of_avoids havoids⟩
      exact inState_target_append hproject (hroots root hroot _ (d.target_mem_route root)) havoids

end Search

end SymbolRename
