import SymbolRename.Language
import SymbolRename.Proofs.Disk.Outside
import SymbolRename.Proofs.Disk.Rewritten

/-!
# Spellings of one file

Paths with the same components lead to the same place. On a disk whose entries all stand in
directories a path that leads to a file ends with the name of the file, so all spellings of one
file select one language; replacing the content of a file leaves the disk such a tree.
-/

namespace SymbolRename

/-! ### The place of a path -/

/-- Where one component leads from a place, when the current directory is known. -/
def Component.lead (here : Place) (p : Place) : Component → Place
  | .root => []
  | .here => here
  | .up => p.dropLast
  | .name s => p ++ [s]

/-- Segments lead where their steps do. -/
theorem Place.foldl_step (here p : Place) (segments : List String) :
    segments.foldl step p = (segments.filterMap Path.stepOf?).foldl (Component.lead here) p := by
  induction segments generalizing p with
  | nil => rfl
  | cons segment rest ih =>
    rw [List.foldl_cons, ih, List.filterMap_cons, step, Path.stepOf?]
    split
    · rfl
    · split <;> rfl

/-- An absolute path begins with a slash, so its first segment is empty and not its only one. -/
theorem Path.isAbsolute_eq_true_iff {path : Path} :
    path.isAbsolute = true ↔ ∃ segment rest, path.segments = "" :: segment :: rest := by
  unfold isAbsolute segments
  cases htext : path.text.toList with
  | nil => simp [segmentsOf]
  | cons c rest =>
    by_cases hc : c = '/'
    · subst hc
      obtain ⟨segment, more, hmore⟩ := List.exists_cons_of_ne_nil (segmentsOf_ne_nil rest)
      simp [segmentsOf, hmore]
    · refine iff_of_false (by simpa using hc) ?_
      rintro ⟨segment, more, hmore⟩
      unfold segmentsOf at hmore
      split at hmore
      · cases ‹_ = _›
      · exact hc (List.cons.inj ‹_›).1
      · split at hmore <;> simp at hmore

/-- The components of a path are its steps, behind a head that depends on its first segment. -/
theorem Path.exists_components (path : Path) :
    path.isAbsolute = true ∧ path.components = .root :: path.segments.filterMap stepOf? ∨
      path.isAbsolute = false ∧ (path.components = path.segments.filterMap stepOf? ∨
        path.components = .here :: path.segments.filterMap stepOf?) := by
  by_cases habsolute : path.isAbsolute = true
  · obtain ⟨segment, rest, hsegments⟩ := isAbsolute_eq_true_iff.mp habsolute
    refine .inl ⟨habsolute, ?_⟩
    unfold components
    rw [hsegments]
    rfl
  · refine .inr ⟨Bool.eq_false_iff.mpr habsolute, ?_⟩
    have hhead : ∀ segment rest, path.segments ≠ "" :: segment :: rest := fun segment rest h =>
      habsolute (isAbsolute_eq_true_iff.mpr ⟨segment, rest, h⟩)
    unfold components
    split
    · rename_i hnil
      exact absurd hnil path.segments_ne_nil
    · rename_i hempty
      rw [hempty]
      exact .inl rfl
    · rename_i rest hempty hrest
      cases rest with
      | nil => exact absurd rfl hempty
      | cons segment rest => exact absurd hrest (hhead segment rest)
    · rename_i rest hdot
      rw [hdot]
      exact .inr rfl
    · exact .inl rfl

/-- Where a path leads is a matter of its components. -/
theorem Disk.target_eq (d : Disk) (path : Path) :
    d.target path = path.components.foldl (Component.lead d.here) d.here := by
  unfold target
  rcases path.exists_components with ⟨habsolute, hroot⟩ | ⟨hrelative, hplain | hhere⟩
  · rw [habsolute, if_pos rfl, hroot, List.foldl_cons]
    exact Place.foldl_step d.here [] path.segments
  · rw [hrelative, if_neg Bool.false_ne_true, hplain]
    exact Place.foldl_step d.here d.here path.segments
  · rw [hrelative, if_neg Bool.false_ne_true, hhere, List.foldl_cons]
    exact Place.foldl_step d.here d.here path.segments

theorem Disk.target_eq_of_same {d : Disk} {path other : Path} (h : path.same other = true) :
    d.target path = d.target other := by
  rw [target_eq, target_eq, beq_iff_eq.mp h]

/-! ### Trees -/

/-- The node is a directory. -/
def Node.isDirectory : Node → Bool
  | .file _ _ => false
  | .directory _ => true

/-- Every entry stands in a directory. -/
def Disk.IsTree (d : Disk) : Prop :=
  ∀ entry ∈ d.nodes, (d.nodeAt? entry.1.dropLast).any Node.isDirectory = true

instance (d : Disk) : Decidable d.IsTree := by
  unfold Disk.IsTree
  infer_instance

/-- What has an entry below it is a directory. -/
theorem Disk.IsTree.isDirectory {d : Disk} (h : d.IsTree) {p : Place} {name : String} {n : Node}
    (hn : d.nodeAt? (p ++ [name]) = some n) : (d.nodeAt? p).any Node.isDirectory = true := by
  have hne : p ++ [name] ≠ [] := by simp
  rw [nodeAt?, if_neg hne] at hn
  obtain ⟨before, after, hnodes, _⟩ := List.lookup_eq_some_iff.mp hn
  have hdir := h (p ++ [name], n) (hnodes ▸ List.mem_append_right _ List.mem_cons_self)
  rwa [List.dropLast_concat] at hdir

/-! ### Names of files -/

/-- The last component of a path is what its last segment means. -/
theorem Path.getLast?_components {path : Path} {init : List String} {last : String} {c : Component}
    (h : path.segments = init ++ [last]) (hlast : stepOf? last = some c) :
    path.components.getLast? = some c := by
  have hfilter : ∀ xs : List String, ((xs ++ [last]).filterMap stepOf?).getLast? = some c := by
    intro xs
    simp [List.filterMap_append, hlast]
  have hempty : last ≠ "" := by
    rintro rfl
    simp [stepOf?] at hlast
  have hdot : last ≠ "." := by
    rintro rfl
    simp [stepOf?] at hlast
  have hhead : ∀ (x : Component) (xs : List String),
      (x :: (xs ++ [last]).filterMap stepOf?).getLast? = some c := by
    intro x xs
    rw [List.getLast?_cons, hfilter xs]
    rfl
  unfold components
  rw [h]
  cases init with
  | nil =>
    split
    · rename_i hnil
      cases hnil
    · rename_i hone
      exact absurd (List.cons.inj hone).1 hempty
    · rename_i hone
      exact absurd (List.cons.inj hone).1 hempty
    · rename_i hone
      exact absurd (List.cons.inj hone).1 hdot
    · exact hfilter []
  | cons x xs =>
    split
    · rename_i hnil
      cases hnil
    · rename_i hone
      simp at hone
    · rename_i hone
      obtain ⟨_, rfl⟩ := List.cons.inj hone
      exact hhead _ xs
    · rename_i hone
      obtain ⟨_, rfl⟩ := List.cons.inj hone
      exact hhead _ xs
    · exact hfilter (x :: xs)

/-- A step to a file is one by its name. -/
theorem Disk.IsTree.follow_eq {d : Disk} (h : d.IsTree) {p q : Place} {segment : String}
    (hfollow : d.follow p segment = .ok q) (hfile : (d.nodeAt? q).any Node.isDirectory = false) :
    Path.stepOf? segment = some (.name segment) ∧ q = p ++ [segment] := by
  have hnot : ∀ {r : Place}, (d.nodeAt? r).any Node.isDirectory = true → q ≠ r := by
    rintro r hr rfl
    rw [hfile] at hr
    cases hr
  unfold follow at hfollow
  split at hfollow
  · cases hfollow
  · cases hfollow
  · rename_i hp
    have hdir : (d.nodeAt? p).any Node.isDirectory = true := by
      rw [hp]
      rfl
    split at hfollow
    · exact absurd (Except.ok.inj hfollow).symm (hnot hdir)
    rename_i hplain
    split at hfollow
    · -- The directory above a directory is one.
      refine absurd (Except.ok.inj hfollow).symm (hnot ?_)
      rcases List.eq_nil_or_concat p with rfl | ⟨parent, name, rfl⟩
      · rfl
      · rw [List.concat_eq_append] at hp ⊢
        rw [List.dropLast_concat]
        exact h.isDirectory hp
    rename_i hup
    split at hfollow
    · cases hfollow
    · refine ⟨?_, (Except.ok.inj hfollow).symm⟩
      rw [Path.stepOf?, if_neg hplain, if_neg hup]

/-- A path that leads to a file ends with its name. -/
theorem Disk.IsTree.fileName?_eq {d : Disk} (h : d.IsTree) {path : Path} {p : Place} {content : Bytes}
    {mode : Nat} (hopen : d.open? path = .ok (p, .file content mode)) :
    path.fileName? = p.getLast? := by
  have hfile : (d.nodeAt? p).any Node.isDirectory = false := by
    rw [nodeAt?_of_open? hopen]
    rfl
  obtain ⟨init, last, hsegments⟩ : ∃ init last, path.segments = init ++ [last] :=
    ⟨_, _, (List.dropLast_append_getLast path.segments_ne_nil).symm⟩
  have hlocate := (open?_eq_ok_iff.mp hopen).1
  unfold locate at hlocate
  split at hlocate
  · cases hlocate
  split at hlocate
  · cases hlocate
  split at hlocate
  · cases hlocate
  rw [hsegments, List.foldlM_append] at hlocate
  obtain ⟨parent, _, hlast⟩ := bind_eq_ok_iff.mp hlocate
  obtain ⟨q, hfollow, hq⟩ := bind_eq_ok_iff.mp hlast
  obtain rfl := Except.ok.inj hq
  obtain ⟨hstep, rfl⟩ := h.follow_eq hfollow hfile
  rw [Path.fileName?, Path.getLast?_components hsegments hstep, List.getLast?_concat]

/-- Paths that lead to one file select one language. -/
theorem Disk.IsTree.ofPath_eq {d : Disk} (h : d.IsTree) {path other : Path} {p : Place}
    {content : Bytes} {mode : Nat} (hpath : d.open? path = .ok (p, .file content mode))
    (hother : d.open? other = .ok (p, .file content mode)) :
    Language.ofPath path = Language.ofPath other := by
  unfold Language.ofPath Path.extension?
  rw [h.fileName?_eq hpath, h.fileName?_eq hother]

/-! ### Writing -/

theorem Disk.mem_putNode {p : Place} {n : Node} {nodes : List (Place × Node)} {entry : Place × Node}
    (h : entry ∈ putNode p n nodes) : entry = (p, n) ∨ entry ∈ nodes := by
  induction nodes with
  | nil => exact .inl (List.mem_singleton.mp h)
  | cons first rest ih =>
    unfold putNode at h
    split at h
    · exact (List.mem_cons.mp h).imp_right (List.mem_cons_of_mem _)
    · rcases List.mem_cons.mp h with rfl | h
      · exact .inr List.mem_cons_self
      · exact (ih h).imp_right (List.mem_cons_of_mem _)

/-- Replacing a file leaves a tree. -/
theorem Disk.IsTree.replace {d e : Disk} (h : d.IsTree) {path : Path} {content : Bytes}
    (hreplace : d.replace path content = .ok e) : e.IsTree := by
  obtain ⟨p, q, old, mode, hreplaces⟩ := exists_replaces hreplace
  -- No directory is changed.
  have hkept : ∀ {r : Place}, (d.nodeAt? r).any Node.isDirectory = true →
      (e.nodeAt? r).any Node.isDirectory = true := by
    intro r hr
    obtain ⟨n, hn, hdirectory⟩ := (Option.any_eq_true _ _).mp hr
    cases n with
    | file c m => cases hdirectory
    | directory m =>
      rw [hreplaces.directory_iff.mpr hn]
      rfl
  intro entry hentry
  rw [hreplaces.result] at hentry
  rcases mem_putNode hentry with rfl | hentry
  · have hat := nodeAt?_of_open? hreplaces.opened
    have hp : p ≠ [] := by
      rintro rfl
      simp [Disk.nodeAt?] at hat
    obtain ⟨parent, name, rfl⟩ : ∃ parent name, p = parent ++ [name] :=
      ⟨_, _, (List.dropLast_append_getLast hp).symm⟩
    refine hkept ?_
    rw [List.dropLast_concat]
    exact h.isDirectory hat
  · exact hkept (h entry (List.mem_filter.mp hentry).1)

end SymbolRename
