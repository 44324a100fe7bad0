import SymbolRename.Proofs.Disk.Outside
import SymbolRename.Search
import Mathlib.Data.List.Basic

/-!
# Searches beside the files of a hook

When an owner's places are never searched and hold no ignore files for what is searched, a
search looks at the same files on two disks that agree outside of these places, and comes
through none of them.
-/

namespace SymbolRename

/-- The searches below some roots stay apart from the places of an owner. -/
structure Search.Apart (level : Nat) (roots : List Path) (own : Place → Bool) (d : Disk) :
    Prop where
  /-- What is below a place of the owner is the owner's. -/
  below : ∀ p q, own p = true → own (p ++ q) = true
  /-- Rules in a directory that is not the owner's are not the owner's. -/
  rules : ∀ directory, own directory = false →
    (∀ names ∈ Ignore.fileGroups level, ∀ name ∈ names, own (directory ++ [name]) = false) ∧
      own (directory ++ [Ignore.repositoryName]) = false ∧
      own (directory ++ Ignore.repositoryRules) = false
  starts : ∀ root ∈ roots, d.Clears own root
  /-- A path below a root is passed over, or stays clear of the owner's places. -/
  walked : ∀ root ∈ roots, ∀ directories ⊆ roots, ∀ below : Place,
    inStateDirectory (relativeTo directories (root.join ⟨"/".intercalate below⟩)) = true ∨
      own (d.target root ++ below) = false ∧ d.Clears own (root.join ⟨"/".intercalate below⟩)

/-- Whether searches stay apart is a question of the view on the disk. -/
theorem Search.Apart.congr {level : Nat} {roots : List Path} {own : Place → Bool} {d e : Disk}
    (h : Apart level roots own d) (hview : d.SameView e) : Apart level roots own e := by
  refine ⟨h.below, h.rules, fun root hroot => hview.clears (h.starts root hroot), ?_⟩
  intro root hroot directories hdirectories below
  refine (h.walked root hroot directories hdirectories below).imp_right fun hwalked => ?_
  refine ⟨?_, hview.clears hwalked.2⟩
  simpa only [Disk.target, hview.here] using hwalked.1

/-- A search finds the same with functions that agree on the list. -/
theorem findSome?_congr {α β : Type} {f g : α → Option β} {l : List α}
    (h : ∀ a ∈ l, f a = g a) : l.findSome? f = l.findSome? g := by
  induction l with
  | nil => rfl
  | cons a rest ih =>
    rw [List.findSome?_cons, List.findSome?_cons, h a List.mem_cons_self,
      ih fun b hb => h b (List.mem_cons_of_mem a hb)]

/-- A search finds the same with conditions that agree on the list. -/
theorem find?_congr {α : Type} {p q : α → Bool} {l : List α} (h : ∀ a ∈ l, p a = q a) :
    l.find? p = l.find? q := by
  induction l with
  | nil => rfl
  | cons a rest ih =>
    rw [List.find?_cons, List.find?_cons, h a List.mem_cons_self,
      ih fun b hb => h b (List.mem_cons_of_mem a hb)]

section Walks

variable {level : Nat} {roots : List Path} {own : Place → Bool} {d e : Disk}

/-- The directories above a place that is not the owner's are not the owner's. -/
theorem Search.Apart.above (h : Apart level roots own d) {p : Place} (hp : own p = false)
    {directory rest : Place} (hmem : (directory, rest) ∈ Ignore.above p) :
    own directory = false := by
  obtain ⟨i, _, hi⟩ := List.mem_map.mp hmem
  obtain ⟨rfl, rfl⟩ := Prod.mk.inj hi
  refine Bool.eq_false_iff.mpr fun hown => ?_
  have hbelow := h.below (p.take i) (p.drop i) hown
  rw [List.take_append_drop, hp] at hbelow
  cases hbelow

theorem Ignore.groupVerdict?_outside (hsame : d.SameOutside own e)
    (h : Search.Apart level roots own d) {p : Place} (hp : own p = false) {names : List String}
    (hnames : names ∈ fileGroups level) (isDirectory : Bool) :
    groupVerdict? e names p isDirectory = groupVerdict? d names p isDirectory := by
  unfold groupVerdict?
  refine findSome?_congr fun ⟨directory, rest⟩ hentry => ?_
  have hown := h.above hp hentry
  have hrules : groupRules e directory names = groupRules d directory names := by
    refine List.flatMap_congr fun name hname => ?_
    rw [hsame.nodeAt?_eq ((h.rules directory hown).1 names hnames name hname)]
  simp only [hrules]

theorem Ignore.repositoryVerdict?_outside (hsame : d.SameOutside own e)
    (h : Search.Apart level roots own d) {p : Place} (hp : own p = false) (isDirectory : Bool) :
    repositoryVerdict? e p isDirectory = repositoryVerdict? d p isDirectory := by
  have hfind : (Ignore.above p).find? (fun entry =>
        (e.nodeAt? (entry.1 ++ [repositoryName])).isSome) =
      (Ignore.above p).find? fun entry => (d.nodeAt? (entry.1 ++ [repositoryName])).isSome := by
    refine find?_congr fun entry hentry => ?_
    rw [hsame.nodeAt?_eq (h.rules entry.1 (h.above hp hentry)).2.1]
  unfold repositoryVerdict?
  rw [hfind]
  cases hfound : (Ignore.above p).find? fun entry =>
      (d.nodeAt? (entry.1 ++ [repositoryName])).isSome with
  | none => rfl
  | some entry =>
    have hown := h.above hp (List.mem_of_find?_eq_some hfound)
    simp only [Option.bind_eq_bind, Option.bind_some, hsame.nodeAt?_eq (h.rules entry.1 hown).2.2]

/-- The verdict about an entry that is not the owner's is the same. -/
theorem Ignore.skips_outside (hsame : d.SameOutside own e) (h : Search.Apart level roots own d)
    {p : Place} (hp : own p = false) (isDirectory : Bool) :
    skips e level p isDirectory = skips d level p isDirectory := by
  have hgroups : (fileGroups level).findSome? (fun names => groupVerdict? e names p isDirectory) =
      (fileGroups level).findSome? fun names => groupVerdict? d names p isDirectory :=
    findSome?_congr fun names hnames => groupVerdict?_outside hsame h hp hnames isDirectory
  unfold skips entryVerdict?
  rw [hgroups, repositoryVerdict?_outside hsame h hp]

theorem Ignore.isReached_outside (hsame : d.SameOutside own e)
    (h : Search.Apart level roots own d) {root below : Place} (hp : own (root ++ below) = false) :
    isReached e level root below = isReached d level root below := by
  unfold isReached
  refine List.all_congr rfl fun i => ?_
  have hown : own (root ++ below.take (i + 1)) = false := by
    refine Bool.eq_false_iff.mpr fun hown => ?_
    have hbelow := h.below _ (below.drop (i + 1)) hown
    rw [List.append_assoc, List.take_append_drop, hp] at hbelow
    cases hbelow
  rw [skips_outside hsame h hown]

/-- What a walk from a directory lists for one entry of the disk, if that passes a test. -/
def Ignore.listed? (d : Disk) (level : Nat) (root : Path) (p : Place) (keeps : Path → Bool)
    (entry : Place × Node) : Option Path :=
  match entry.2 with
  | .directory _ => none
  | .file _ _ =>
    let path := root.join ⟨"/".intercalate (entry.1.drop p.length)⟩
    if p.isPrefixOf entry.1 ∧ isReached d level p (entry.1.drop p.length) ∧ keeps path then
      some path
    else none

theorem Ignore.map_reached_filter (d : Disk) (level : Nat) (root : Path) (p : Place)
    (keeps : Path → Bool) :
    ((reached d level p).map fun below => root.join ⟨"/".intercalate below⟩).filter keeps =
      d.nodes.filterMap (listed? d level root p keeps) := by
  unfold reached
  rw [List.map_filterMap, List.filter_filterMap]
  refine List.filterMap_congr fun entry _ => ?_
  obtain ⟨q, node⟩ := entry
  cases node with
  | directory _ => rfl
  | file _ _ =>
    by_cases hreached : (p.isPrefixOf q && isReached d level p (q.drop p.length)) = true
    · obtain ⟨hbase, hwalked⟩ := Bool.and_eq_true_iff.mp hreached
      by_cases hkeeps : keeps (root.join ⟨"/".intercalate (q.drop p.length)⟩) = true
      · simp [listed?, hbase, hwalked, hkeeps, Option.filter]
      · simp [listed?, hbase, hwalked, hkeeps, Option.filter]
    · have hnot : ¬ (p.isPrefixOf q = true ∧ isReached d level p (q.drop p.length) = true ∧
          keeps (root.join ⟨"/".intercalate (q.drop p.length)⟩) = true) :=
        fun hall => hreached (Bool.and_eq_true_iff.mpr ⟨hall.1, hall.2.1⟩)
      simp only [listed?, if_neg hnot, if_neg hreached]
      rfl

/-- The owner's entries are never listed when what lies in a state directory is not. -/
theorem Ignore.listed?_of_own (h : Search.Apart level roots own d) (d' : Disk) {root : Path}
    (hroot : root ∈ roots) {directories : List Path} (hdirectories : directories ⊆ roots)
    {keeps : Path → Bool} (hkeeps : ∀ path, keeps path = true →
      Search.inStateDirectory (Search.relativeTo directories path) = false)
    {entry : Place × Node} (hown : own entry.1 = true) :
    listed? d' level root (d.target root) keeps entry = none := by
  obtain ⟨q, node⟩ := entry
  cases node with
  | directory _ => rfl
  | file _ _ =>
    refine if_neg fun ⟨hbase, _, hkept⟩ => ?_
    obtain ⟨below, rfl⟩ := List.isPrefixOf_iff_prefix.mp hbase
    rw [List.drop_left] at hkept
    rcases h.walked root hroot directories hdirectories below with hstate | ⟨hnot, _⟩
    · rw [hkeeps _ hkept] at hstate
      cases hstate
    · rw [hown] at hnot
      cases hnot

/-- A walk lists the same files, apart from those that lie in a state directory. -/
theorem Ignore.walk_filter_outside (hsame : d.SameOutside own e)
    (h : Search.Apart level roots own d) {root : Path} (hroot : root ∈ roots)
    {directories : List Path} (hdirectories : directories ⊆ roots) {keeps : Path → Bool}
    (hkeeps : ∀ path, keeps path = true →
      Search.inStateDirectory (Search.relativeTo directories path) = false) :
    (walk e level root).filter keeps = (walk d level root).filter keeps := by
  unfold walk
  rw [hsame.open?_eq (h.starts root hroot).route]
  cases hopen : d.open? root with
  | error fault => rfl
  | ok found =>
    obtain ⟨p, n⟩ := found
    cases n with
    | file content mode => rfl
    | directory mode =>
      obtain rfl := Disk.eq_target_of_open? hopen
      have houtside : ∀ d' : Disk, d'.nodes.filterMap
            (listed? d' level root (d.target root) keeps) =
          (d'.nodes.filter fun entry => !own entry.1).filterMap
            (listed? d' level root (d.target root) keeps) := by
        intro d'
        rw [List.filterMap_filter]
        refine List.filterMap_congr fun entry _ => ?_
        cases hown : own entry.1 with
        | false => rfl
        | true => exact listed?_of_own h d' hroot hdirectories hkeeps hown
      simp only [map_reached_filter]
      rw [houtside e, houtside d, hsame.nodes]
      refine List.filterMap_congr fun entry hentry => ?_
      have hown : own entry.1 = false := by
        simpa using (List.mem_filter.mp hentry).2
      obtain ⟨q, node⟩ := entry
      unfold listed?
      cases node with
      | directory _ => rfl
      | file _ _ =>
        by_cases hbase : (d.target root).isPrefixOf q = true
        · obtain ⟨below, rfl⟩ := List.isPrefixOf_iff_prefix.mp hbase
          simp only [List.drop_left, isReached_outside hsame h hown]
        · simp only [hbase, Bool.false_eq_true, false_and, if_false]

end Walks

namespace Search

variable {f : Filter} {roots : List Path} {own : Place → Bool} {d : Disk}

theorem admits_inStateDirectory {includes excludes : Option (List Glob)}
    {directories : List Path} {path : Path}
    (h : admits f includes excludes directories path = true) :
    inStateDirectory (relativeTo directories path) = false := by
  unfold admits at h
  simp only [Bool.and_eq_true, Bool.not_eq_true'] at h
  exact h.1.1.1

/-- A search looks at the same files. -/
theorem searched_outside {s t : Store} (hsame : s.disk.SameOutside own t.disk)
    (h : Apart f.level roots own s.disk) (hroots : roots ≠ [])
    (includes excludes : Option (List Glob)) :
    searched t roots f includes excludes = searched s roots f includes excludes := by
  have hfiles : roots.filter t.disk.isFile = roots.filter s.disk.isFile :=
    List.filter_congr fun root hroot => hsame.isFile_eq (h.starts root hroot).route
  have hdirectories : roots.filter (not ∘ t.disk.isFile) = roots.filter (not ∘ s.disk.isFile) := by
    refine List.filter_congr fun root hroot => ?_
    simp only [Function.comp_apply, hsame.isFile_eq (h.starts root hroot).route]
  have hsub : roots.filter (not ∘ s.disk.isFile) ⊆ roots := List.filter_subset_self _
  have hempty : roots.isEmpty = false := List.isEmpty_eq_false_iff.mpr hroots
  unfold searched
  simp only [List.partition_eq_filter_filter, hfiles, hdirectories, hempty, Bool.false_eq_true,
    if_false, List.filter_flatMap]
  congr 1
  refine List.flatMap_congr fun root hroot => ?_
  exact Ignore.walk_filter_outside hsame h (hsub hroot) hsub fun path => admits_inStateDirectory

/-- What a search looks at is clear of the owner's places. -/
theorem clears_of_searched {s : Store} (h : Apart f.level roots own s.disk) (hroots : roots ≠ [])
    {includes excludes : Option (List Glob)} {path : Path}
    (hpath : path ∈ searched s roots f includes excludes) : s.disk.Clears own path := by
  have hempty : roots.isEmpty = false := List.isEmpty_eq_false_iff.mpr hroots
  have hsub : roots.filter (not ∘ s.disk.isFile) ⊆ roots := List.filter_subset_self _
  unfold searched at hpath
  simp only [List.partition_eq_filter_filter, hempty, Bool.false_eq_true, if_false] at hpath
  rcases List.mem_append.mp hpath with hfile | hwalked
  · exact h.starts path (List.mem_filter.mp hfile).1
  · obtain ⟨hmem, hadmits⟩ := List.mem_filter.mp hwalked
    obtain ⟨root, hroot, hmem⟩ := List.mem_flatMap.mp hmem
    unfold Ignore.walk at hmem
    split at hmem
    · obtain ⟨below, _, rfl⟩ := List.mem_map.mp hmem
      rcases h.walked root (hsub hroot) _ hsub below with hstate | ⟨_, hclears⟩
      · rw [admits_inStateDirectory hadmits] at hstate
        cases hstate
      · exact hclears
    · exact absurd hmem List.not_mem_nil

end Search

end SymbolRename
