import SymbolRename.Proofs.Disk.Keeping
import SymbolRename.Proofs.Rename.Effect
import SymbolRename.Proofs.Rename.Outside

/-!
# The paths that a search lists

A search whose roots are direct paths lists direct paths, so that no file is listed under two
spellings.
-/

namespace SymbolRename

/-- The path of a place: absolute and without detours. -/
def Path.IsDirect (path : Path) : Prop := ∃ p : Place, p.IsNamed ∧ path = p.toPath

theorem Path.IsDirect.isAbsolute {path : Path} (h : path.IsDirect) : path.isAbsolute = true := by
  obtain ⟨p, _, rfl⟩ := h
  exact Place.isAbsolute_toPath p

/-- A direct path is the one of the place where it leads. -/
theorem Path.IsDirect.eq_toPath {path : Path} (h : path.IsDirect) (d : Disk) :
    path = (d.target path).toPath := by
  obtain ⟨p, hp, rfl⟩ := h
  rw [Place.target_toPath d hp]

/-- Names below a place lead to the place that they make with it. -/
theorem Place.join_names {p q : Place} (hp : p.IsNamed) (hq : q.IsNamed) (hne : q ≠ []) :
    p.toPath.join ⟨"/".intercalate q⟩ = toPath (p ++ q) := by
  have hrelative := @Path.isAbsolute_intercalate q [] hne hq
  rw [List.append_nil] at hrelative
  unfold Path.join
  rw [hrelative, if_neg Bool.false_ne_true]
  by_cases hroot : p = []
  · subst hroot
    simp [toPath]
  · have hbare := isBare_toPath hp hroot
    rw [if_neg (not_or.mpr ⟨hbare.text, hbare.last⟩)]
    unfold toPath
    rw [String.intercalate_append_of_ne_nil hroot hne]
    simp [String.append_assoc]

/-- No name leads nowhere else. -/
theorem Place.target_join_empty (d : Disk) {p : Place} (hp : p.IsNamed) :
    d.target (p.toPath.join ⟨""⟩) = p := by
  by_cases hroot : p = []
  · subst hroot
    rfl
  · have hbare := isBare_toPath hp hroot
    have hjoin : p.toPath.join ⟨""⟩ = ⟨p.toPath.text ++ "/" ++ ""⟩ := by
      unfold Path.join
      rw [if_neg (by decide), if_neg (not_or.mpr ⟨hbare.text, hbare.last⟩)]
    have hsegments : (p.toPath.join ⟨""⟩).segments = p.toPath.segments ++ [""] := by
      rw [hjoin]
      unfold Path.segments
      rw [String.toList_append, String.toList_append, List.append_assoc]
      show (Path.segmentsOf (p.toPath.text.toList ++ '/' :: [])).map String.ofList = _
      rw [Path.segmentsOf_append, List.map_append]
      rfl
    have habsolute : (p.toPath.join ⟨""⟩).isAbsolute = true := Path.isAbsolute_join_left (isAbsolute_toPath p) _
    have htarget := target_toPath d hp
    unfold Disk.target at htarget ⊢
    rw [isAbsolute_toPath] at htarget
    rw [habsolute, hsegments, List.foldl_append, htarget]
    rfl

/-- Something stands where a node is listed. -/
theorem Disk.isSome_nodeAt?_of_mem {d : Disk} {p : Place} {n : Node} (h : (p, n) ∈ d.nodes) :
    (d.nodeAt? p).isSome = true := by
  unfold nodeAt?
  split
  · rfl
  · exact List.lookup_isSome_iff.mpr ⟨(p, n), h, beq_self_eq_true p⟩

namespace Search

variable {own : Place → Bool} {s : Store} {f : Filter} {roots : List Path}

/-- A root is direct, or leads nowhere. -/
def IsStart (d : Disk) (root : Path) : Prop :=
  root.IsDirect ∨ ∀ p n, d.open? root ≠ .ok (p, n)

/-- What is found can be read. -/
theorem exists_open?_of_holds (hreal : s.overlay = none) {needles : List Bytes} {path : Path}
    (h : holds s f needles path = true) :
    ∃ p content mode, s.disk.open? path = .ok (p, .file content mode) := by
  unfold holds at h
  cases hread : s.read path with
  | error fault =>
    rw [hread] at h
    cases h
  | ok content =>
    obtain ⟨p, mode, hopen⟩ := Store.exists_open?_of_read (by rw [hreal, Option.bind_none]) hread
    exact ⟨p, content, mode, hopen⟩

/-- What is walked below a direct root is direct, if it can be read. -/
theorem isDirect_of_walk (h : Apart f.level roots own s.disk)
    (hnamed : ∀ p, own p = false → (s.disk.nodeAt? p).isSome = true → p.IsNamed) {root path : Path}
    (hroot : root ∈ roots) (hdirect : root.IsDirect) (hwalk : path ∈ Ignore.walk s.disk f.level root)
    {directories : List Path} (hsub : directories ⊆ roots)
    (hstate : inStateDirectory (relativeTo directories path) = false)
    (hread : ∃ p content mode, s.disk.open? path = .ok (p, .file content mode)) :
    path.IsDirect := by
  obtain ⟨q, hq, rfl⟩ := hdirect
  unfold Ignore.walk at hwalk
  split at hwalk
  · rename_i p mode hopen
    obtain rfl := (Disk.eq_target_of_open? hopen).trans (Place.target_toPath _ hq)
    obtain ⟨below, hbelow, rfl⟩ := List.mem_map.mp hwalk
    obtain ⟨⟨r, n⟩, hr, hreached⟩ := List.mem_filterMap.mp hbelow
    have hplace : r = p ++ below := by
      cases n with
      | directory _ => cases hreached
      | file _ _ =>
        dsimp only at hreached
        split at hreached
        · rename_i hbase
          obtain ⟨rest, rfl⟩ := List.isPrefixOf_iff_prefix.mp (Bool.and_eq_true_iff.mp hbase).1
          rw [List.drop_left] at hreached
          rw [Option.some.inj hreached]
        · cases hreached
    have hown : own (p ++ below) = false := by
      have hwalked := h.walked _ hroot _ hsub below
      rw [hstate, Place.target_toPath _ hq] at hwalked
      exact (hwalked.resolve_left Bool.false_ne_true).1
    have hall := hnamed _ hown (hplace ▸ Disk.isSome_nodeAt?_of_mem hr)
    by_cases hnone : below = []
    · -- Then the path leads to the root itself, which is no file.
      subst hnone
      obtain ⟨r, content, mode', hfile⟩ := hread
      have hnode := Disk.nodeAt?_of_open? hfile
      have hempty : "/".intercalate ([] : List String) = "" := rfl
      rw [Disk.eq_target_of_open? hfile, hempty, Place.target_join_empty _ hq,
        Disk.nodeAt?_of_open? hopen] at hnode
      cases hnode
    · exact ⟨p ++ below, hall,
        Place.join_names hq (fun name hname => hall name (List.mem_append_right _ hname)) hnone⟩
  · exact absurd hwalk List.not_mem_nil

/-- What a search finds are direct paths of files. -/
theorem isDirect_of_candidates (h : Apart f.level roots own s.disk) (hne : roots ≠ [])
    (hreal : s.overlay = none) (hroots : ∀ root ∈ roots, IsStart s.disk root)
    (hnamed : ∀ p, own p = false → (s.disk.nodeAt? p).isSome = true → p.IsNamed)
    {needles : List String} {files : List Path} (hfiles : candidates s roots f needles = .ok files)
    {path : Path} (hpath : path ∈ files) :
    path.IsDirect ∧ ∃ p content mode, s.disk.open? path = .ok (p, .file content mode) := by
  have hempty : roots.isEmpty = false := List.isEmpty_eq_false_iff.mpr hne
  have hsub : roots.filter (not ∘ s.disk.isFile) ⊆ roots := List.filter_subset_self _
  unfold candidates at hfiles
  dsimp only at hfiles
  split at hfiles
  · obtain rfl := Except.ok.inj hfiles
    exact absurd hpath List.not_mem_nil
  · obtain ⟨includes, _, hfiles⟩ := bind_eq_ok_iff.mp hfiles
    obtain ⟨excludes, _, hfiles⟩ := bind_eq_ok_iff.mp hfiles
    obtain rfl := Except.ok.inj hfiles
    obtain ⟨hsearched, hholds⟩ := List.mem_filter.mp (PathSet.mem_of_mem_ofList hpath)
    have hread := exists_open?_of_holds hreal hholds
    refine ⟨?_, hread⟩
    unfold searched at hsearched
    simp only [List.partition_eq_filter_filter, hempty, Bool.false_eq_true, if_false] at hsearched
    rcases List.mem_append.mp hsearched with hfile | hwalked
    · obtain ⟨p, content, mode, hopen⟩ := hread
      exact (hroots path (List.mem_filter.mp hfile).1).resolve_right fun hnot => hnot _ _ hopen
    · obtain ⟨hmem, hadmits⟩ := List.mem_filter.mp hwalked
      obtain ⟨root, hroot, hwalk⟩ := List.mem_flatMap.mp hmem
      have hdirect : root.IsDirect := by
        refine (hroots root (hsub hroot)).resolve_right fun hnot => ?_
        unfold Ignore.walk at hwalk
        split at hwalk
        · rename_i hopen
          exact hnot _ _ hopen
        · exact absurd hwalk List.not_mem_nil
      exact isDirect_of_walk h hnamed (hsub hroot) hdirect hwalk hsub
        (admits_inStateDirectory hadmits) hread

end Search

end SymbolRename
