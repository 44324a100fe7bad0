import SymbolRename.Proofs.Disk.Rewritten
import SymbolRename.Search

/-!
# Searches while contents change

Which files a search looks at depends on the tree and on the ignore files, but on no
other content. Rewriting files that are no ignore files leaves it as it is.
-/

namespace SymbolRename

/-- A place whose content is read as ignore rules at a level. -/
def Ignore.IsRules (level : Nat) (p : Place) : Prop :=
  (∃ names ∈ fileGroups level, ∃ name ∈ names, p.getLast? = some name) ∨
    (heedsRepositories level = true ∧ repositoryRules <:+ p)

instance (level : Nat) (p : Place) : Decidable (Ignore.IsRules level p) := by
  unfold Ignore.IsRules
  infer_instance

theorem Ignore.groupRules_rewritten {changed : Place → Prop} {d e : Disk}
    (h : d.Rewritten changed e) {directory : Place} {names : List String}
    (hkept : ∀ name ∈ names, ¬ changed (directory ++ [name])) :
    groupRules e directory names = groupRules d directory names := by
  unfold groupRules
  refine List.flatMap_congr fun name hname => ?_
  rcases h.nodeAt? (directory ++ [name]) with ⟨hd, he⟩ | ⟨n, m, hd, he, _, hsame⟩
  · rw [hd, he]
  · rw [hd, he, hsame (hkept name hname)]

theorem Ignore.groupVerdict?_rewritten {changed : Place → Prop} {d e : Disk}
    (h : d.Rewritten changed e) {names : List String}
    (hkept : ∀ directory, ∀ name ∈ names, ¬ changed (directory ++ [name])) (p : Place)
    (isDirectory : Bool) :
    groupVerdict? e names p isDirectory = groupVerdict? d names p isDirectory := by
  unfold groupVerdict?
  simp only [groupRules_rewritten h (hkept _)]

theorem Ignore.repositoryVerdict?_rewritten {changed : Place → Prop} {d e : Disk}
    (h : d.Rewritten changed e) (hkept : ∀ directory, ¬ changed (directory ++ repositoryRules))
    (p : Place) (isDirectory : Bool) :
    repositoryVerdict? e p isDirectory = repositoryVerdict? d p isDirectory := by
  have hsome : ∀ q, (e.nodeAt? q).isSome = (d.nodeAt? q).isSome := by
    intro q
    rcases h.nodeAt? q with ⟨hd, he⟩ | ⟨n, m, hd, he, _⟩
    · rw [hd, he]
    · rw [hd, he]
      rfl
  have hrules : ∀ directory,
      e.nodeAt? (directory ++ repositoryRules) = d.nodeAt? (directory ++ repositoryRules) := by
    intro directory
    rcases h.nodeAt? (directory ++ repositoryRules) with ⟨hd, he⟩ | ⟨n, m, hd, he, _, hsame⟩
    · rw [hd, he]
    · rw [hd, he, hsame (hkept directory)]
  unfold repositoryVerdict?
  simp only [hsome, hrules]

/-- The verdict about an entry stays. -/
theorem Ignore.skips_rewritten {changed : Place → Prop} {d e : Disk} {level : Nat}
    (h : d.Rewritten changed e) (hkept : ∀ p, IsRules level p → ¬ changed p) (p : Place)
    (isDirectory : Bool) : skips e level p isDirectory = skips d level p isDirectory := by
  have hgroups : ∀ names ∈ fileGroups level,
      groupVerdict? e names p isDirectory = groupVerdict? d names p isDirectory := by
    intro names hnames
    refine groupVerdict?_rewritten h (fun directory name hname => hkept _ ?_) p isDirectory
    exact .inl ⟨names, hnames, name, hname, List.getLast?_concat⟩
  have hfind : (fileGroups level).findSome? (fun names => groupVerdict? e names p isDirectory) =
      (fileGroups level).findSome? (fun names => groupVerdict? d names p isDirectory) := by
    generalize fileGroups level = groups at hgroups
    induction groups with
    | nil => rfl
    | cons names rest ih =>
      rw [List.findSome?_cons, List.findSome?_cons, hgroups names List.mem_cons_self,
        ih fun other hother => hgroups other (List.mem_cons_of_mem _ hother)]
  have hrepository : (if heedsRepositories level then repositoryVerdict? e p isDirectory else none) =
      (if heedsRepositories level then repositoryVerdict? d p isDirectory else none) := by
    split
    · rename_i hheeds
      exact repositoryVerdict?_rewritten h
        (fun directory => hkept _ (.inr ⟨hheeds, List.suffix_append _ _⟩)) p isDirectory
    · rfl
  unfold skips entryVerdict?
  rw [hfind, hrepository]

theorem Ignore.isReached_rewritten {changed : Place → Prop} {d e : Disk} {level : Nat}
    (h : d.Rewritten changed e) (hkept : ∀ p, IsRules level p → ¬ changed p) (root below : Place) :
    isReached e level root below = isReached d level root below := by
  unfold isReached
  simp only [skips_rewritten h hkept]

/-- The same files are reached below a root. -/
theorem Ignore.reached_rewritten {changed : Place → Prop} {d e : Disk} {level : Nat}
    (h : d.Rewritten changed e) (hkept : ∀ p, IsRules level p → ¬ changed p) (root : Place) :
    reached e level root = reached d level root := by
  unfold reached
  simp only [isReached_rewritten h hkept]
  have hnodes := h.nodes
  generalize d.nodes = as at hnodes
  generalize e.nodes = bs at hnodes
  induction hnodes with
  | nil => rfl
  | @cons a b as bs hab _ ih =>
    obtain ⟨q, n⟩ := a
    obtain ⟨q', m⟩ := b
    obtain ⟨hq, hkind, _⟩ := hab
    obtain rfl : q = q' := hq
    cases hkind <;> simp only [List.filterMap_cons, ih]

theorem Ignore.walk_rewritten {changed : Place → Prop} {d e : Disk} {level : Nat}
    (h : d.Rewritten changed e) (hkept : ∀ p, IsRules level p → ¬ changed p) (root : Path) :
    walk e level root = walk d level root := by
  unfold walk
  rcases h.open? root with ⟨fault, hd, he⟩ | ⟨p, n, m, hd, he, hkind, _⟩
  · rw [hd, he]
  · rw [hd, he]
    cases hkind with
    | file => rfl
    | directory => simp only [reached_rewritten h hkept]

/-- A search looks at the same files after files that are no ignore files were rewritten. -/
theorem Search.searched_rewritten {changed : Place → Prop} {s t : Store} {f : Filter}
    (h : s.disk.Rewritten changed t.disk) (hkept : ∀ p, Ignore.IsRules f.level p → ¬ changed p)
    (roots : List Path) (includes excludes : Option (List Glob)) :
    searched t roots f includes excludes = searched s roots f includes excludes := by
  have hfile : t.disk.isFile = s.disk.isFile := funext h.isFile_eq
  have hwalk : Ignore.walk t.disk f.level = Ignore.walk s.disk f.level :=
    funext (Ignore.walk_rewritten h hkept)
  unfold searched
  rw [hfile, hwalk]

end SymbolRename
