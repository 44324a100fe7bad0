import SymbolRename.Proofs.Disk.Routes
import SymbolRename.Proofs.Store.Mirror

/-!
# The order of the roots

A walked file is judged by the path under which it is seen from the first of the roots above it,
whichever root it was found under. So the order of the roots decides nothing exactly when the filter
says the same of a file from all roots above it (`Search.candidates_order_iff`). That is so when no
root is in another one, and when no pattern is given and no root leads into the state directory. It
is not so for a pattern that one of two roots sees and the other does not
(`Search.candidates_depend_on_order`).
-/

namespace SymbolRename

theorem Path.same_iff {p q : Path} : p.same q = true ↔ p.components = q.components := beq_iff_eq

/-! ### Sets of the same paths -/

theorem PathSet.mem_components_ofList {paths : List Path} {cs : List Component} :
    cs ∈ (ofList paths).map Path.components ↔ cs ∈ paths.map Path.components := by
  constructor
  · intro h
    obtain ⟨p, hp, rfl⟩ := List.mem_map.mp h
    exact List.mem_map_of_mem (mem_of_mem_ofList hp)
  · intro h
    obtain ⟨p, hp, rfl⟩ := List.mem_map.mp h
    obtain ⟨q, hq, hsame⟩ := exists_same_ofList hp
    exact List.mem_map.mpr ⟨q, hq, Path.same_iff.mp hsame⟩

/-- A set ascends, so it is known by its members, up to their spelling. -/
theorem PathSet.components_ofList_eq_iff {paths others : List Path} :
    (ofList paths).map Path.components = (ofList others).map Path.components ↔
      ∀ cs, cs ∈ paths.map Path.components ↔ cs ∈ others.map Path.components := by
  have hascends : ∀ ps : List Path, ((ofList ps).map Path.components).Pairwise
      fun a b => Path.compareComponents a b = .lt := fun ps =>
    List.pairwise_map.mpr (sorted_ofList ps)
  have hnodup : ∀ ps : List Path, ((ofList ps).map Path.components).Nodup := fun ps =>
    (hascends ps).imp fun hlt heq => by
      rw [Path.compareComponents_eq_iff.mpr heq] at hlt
      cases hlt
  constructor
  · intro h cs
    rw [← mem_components_ofList, h, mem_components_ofList]
  · intro h
    have hperm := (List.perm_ext_iff_of_nodup (hnodup paths) (hnodup others)).mpr fun cs => by
      rw [mem_components_ofList, h, mem_components_ofList]
    refine hperm.eq_of_pairwise (fun a b _ _ hlt hgt => ?_) (hascends paths) (hascends others)
    rw [Path.compareComponents_eq_lex] at hlt hgt
    have hswap := Std.OrientedCmp.gt_of_lt hlt
    rw [hgt] at hswap
    cases hswap

/-- What is seen from a base has no names that are not in the path. -/
theorem Path.name_mem_of_below? {path base rest : Path} (h : path.below? base = some rest)
    {s : String} (hs : .name s ∈ rest.components) : .name s ∈ path.components := by
  rcases eq_or_exists_of_below? h with rfl | ⟨segments, hsub, rfl⟩
  · exact hs
  obtain ⟨hmem, hstep⟩ := name_mem_components_iff.mp hs
  have hsub' := List.Subset.trans (trimSegments_subset segments) hsub
  refine name_mem_components_iff.mpr ⟨?_, hstep⟩
  by_cases hnil : trimSegments segments = []
  · rw [hnil] at hmem
    rw [List.mem_singleton.mp hmem] at hstep
    cases hstep
  · rw [segments_ofSegments hnil fun t ht => slash_not_mem_segment (hsub' ht)] at hmem
    exact hsub' hmem

namespace Search

/-! ### What is seen from a root -/

/-- A path is seen from the roots whose components it begins with. -/
theorem below?_isSome_iff {path root : Path} :
    (path.below? root).isSome = true ↔ root.components <+: path.components := by
  unfold Path.below?
  dsimp only
  split
  · rename_i hprefix
    refine iff_of_true ?_ (List.isPrefixOf_iff_prefix.mp hprefix)
    repeat' split
    all_goals rfl
  · rename_i hprefix
    exact iff_of_false (by simp) fun h => hprefix (List.isPrefixOf_iff_prefix.mpr h)

theorem below?_isSome_of_same {path other root : Path} (h : other.same path = true) :
    (other.below? root).isSome = (path.below? root).isSome := by
  rw [Bool.eq_iff_iff, below?_isSome_iff, below?_isSome_iff, Path.same_iff.mp h]

/-- A path that no root is above is taken as it is; otherwise all its spellings are seen from one
root, the first above them. -/
theorem relativeTo_cases (roots : List Path) (path : Path) :
    (∀ root ∈ roots, path.below? root = none) ∨ ∃ root ∈ roots, ∀ other : Path,
      other.same path = true → ∃ view, other.below? root = some view ∧ relativeTo roots other = view := by
  cases hfirst : roots.findSome? fun root => path.below? root with
  | none => exact .inl (List.findSome?_eq_none_iff.mp hfirst)
  | some view =>
    obtain ⟨before, root, after, rfl, hview, hbefore⟩ := List.findSome?_eq_some_iff.mp hfirst
    refine .inr ⟨root, by simp, fun other hsame => ?_⟩
    obtain ⟨mine, hmine⟩ := Option.isSome_iff_exists.mp
      ((below?_isSome_of_same hsame).trans (Option.isSome_of_eq_some hview))
    refine ⟨mine, hmine, ?_⟩
    have hnone : ∀ x ∈ before, other.below? x = none := fun x hx => by
      have hsome := @below?_isSome_of_same path other x hsame
      rw [hbefore x hx] at hsome
      exact Option.isNone_iff_eq_none.mp (by simpa using hsome)
    have hfound := List.findSome?_eq_some_iff.mpr ⟨before, root, after, rfl, hmine, hnone⟩
    unfold relativeTo
    rw [hfound]
    rfl

theorem relativeTo_of_none {roots : List Path} {path : Path}
    (h : ∀ root ∈ roots, path.below? root = none) : relativeTo roots path = path := by
  unfold relativeTo
  rw [List.findSome?_eq_none_iff.mpr h]
  rfl

/-- The filter lets the path pass when it is seen as `view`. -/
def passes (f : Filter) (includes excludes : Option (List Glob)) (view path : Path) : Bool :=
  !inStateDirectory view && extensionAllowed f path &&
    includes.all (anyAccepts · view.text) && !excludes.any (anyAccepts · view.text)

/-- The roots that are files. -/
def fileRoots (s : Store) (roots : List Path) : List Path := roots.filter s.disk.isFile

/-- The roots that are walked. -/
def directoryRoots (s : Store) (roots : List Path) : List Path :=
  roots.filter fun root => !s.disk.isFile root

/-- The files that are listed below the roots. -/
def entries (s : Store) (f : Filter) (roots : List Path) : List Path :=
  (if roots.isEmpty then [⟨"."⟩] else directoryRoots s roots).flatMap (Ignore.walk s.disk f.level)

section

variable {s : Store} {f : Filter} {roots others : List Path} {needles : List Bytes}
  {includes excludes : Option (List Glob)}

theorem searched_eq : searched s roots f includes excludes = fileRoots s roots ++
    (entries s f roots).filter fun path =>
      passes f includes excludes (relativeTo (directoryRoots s roots) path) path := by
  unfold searched
  rw [List.partition_eq_filter_filter]
  rfl

theorem perm_entries (h : others.Perm roots) : (entries s f others).Perm (entries s f roots) := by
  unfold entries directoryRoots
  rw [h.isEmpty_eq]
  split
  · exact .refl _
  · exact (h.filter _).flatMap_right _

/-- The file is listed, holds a needle and passes the filter as it is seen from the root. -/
structure FoundFrom (s : Store) (f : Filter) (roots : List Path) (needles : List Bytes)
    (includes excludes : Option (List Glob)) (root path : Path) : Prop where
  listed : path ∈ entries s f roots
  holds : holds s f needles path = true
  seen : ∃ view, path.below? root = some view ∧ passes f includes excludes view path = true

/-- The bytes of the needles that are searched for; an empty one is not. -/
abbrev marks (needles : List String) : List Bytes := (needles.filter (· != "")).map bytes

/-- A file that is found from one root above it is found from every other one, in some spelling, or
is a root itself. -/
def SeenAlike (s : Store) (roots : List Path) (f : Filter) (needles : List String) : Prop :=
  ∀ includes excludes, globs? f.includes = .ok includes → globs? f.excludes = .ok excludes →
    ∀ root ∈ directoryRoots s roots, ∀ path,
      FoundFrom s f roots (marks needles) includes excludes root path →
      ∀ other ∈ directoryRoots s roots, (path.below? other).isSome = true →
        ∃ twin : Path, twin.same path = true ∧
          (FoundFrom s f roots (marks needles) includes excludes other twin ∨
            twin ∈ fileRoots s roots ∧ holds s f (marks needles) twin = true)

/-- What a search finds is told by the components of its paths. -/
theorem mem_components_searched {cs : List Component} :
    cs ∈ ((searched s roots f includes excludes).filter (holds s f needles)).map Path.components ↔
      (∃ path ∈ fileRoots s roots, holds s f needles path = true ∧ path.components = cs) ∨
      ∃ path ∈ entries s f roots, holds s f needles path = true ∧ path.components = cs ∧
        passes f includes excludes (relativeTo (directoryRoots s roots) path) path = true := by
  rw [searched_eq]
  simp only [List.mem_map, List.mem_filter, List.mem_append]
  constructor
  · rintro ⟨path, ⟨hfile | ⟨hlisted, hpasses⟩, hholds⟩, hcs⟩
    · exact .inl ⟨path, hfile, hholds, hcs⟩
    · exact .inr ⟨path, hlisted, hholds, hcs, hpasses⟩
  · rintro (⟨path, hfile, hholds, hcs⟩ | ⟨path, hlisted, hholds, hcs, hpasses⟩)
    · exact ⟨path, ⟨.inl hfile, hholds⟩, hcs⟩
    · exact ⟨path, ⟨.inr ⟨hlisted, hpasses⟩, hholds⟩, hcs⟩

/-- The components of the paths that a search lists: paths with the same components are equal, however
they are spelled. -/
def foundComponents (s : Store) (roots : List Path) (f : Filter) (needles : List String) :
    Except Cause (List (List Component)) :=
  (candidates s roots f needles).map (·.map Path.components)

end

section

variable {s : Store} {f : Filter} {roots first second : List Path} {needles : List String}

/-- What is found in one order of the roots is found in any other one, if files are seen alike. -/
theorem SeenAlike.mem_components (h : SeenAlike s roots f needles) (hfirst : first.Perm roots)
    (hsecond : second.Perm roots) {includes excludes : Option (List Glob)}
    (hin : globs? f.includes = .ok includes) (hex : globs? f.excludes = .ok excludes)
    {cs : List Component}
    (hcs : cs ∈ ((searched s first f includes excludes).filter
      (holds s f (marks needles))).map Path.components) :
    cs ∈ ((searched s second f includes excludes).filter
      (holds s f (marks needles))).map Path.components := by
  have hperm := hfirst.trans hsecond.symm
  have hdirectories : ∀ {order : List Path}, order.Perm roots → ∀ {root : Path},
      root ∈ directoryRoots s order ↔ root ∈ directoryRoots s roots := fun horder =>
    (horder.filter _).mem_iff
  rw [mem_components_searched] at hcs ⊢
  rcases hcs with ⟨path, hfile, hholds, rfl⟩ | ⟨path, hlisted, hholds, rfl, hpasses⟩
  · exact .inl ⟨path, (hperm.filter _).mem_iff.mp hfile, hholds, rfl⟩
  have hentry := (perm_entries hperm).mem_iff.mp hlisted
  rcases relativeTo_cases (directoryRoots s second) path with hnone | ⟨other, hother, hseen⟩
  · -- No root is above the path, so it is taken as it is in both orders.
    have hnone' : ∀ root ∈ directoryRoots s first, path.below? root = none := fun root hroot =>
      hnone root ((hperm.filter _).mem_iff.mp hroot)
    rw [relativeTo_of_none hnone'] at hpasses
    exact .inr ⟨path, hentry, hholds, rfl, by rwa [relativeTo_of_none hnone]⟩
  obtain ⟨view, hview, -⟩ := hseen path (Path.same_iff.mpr rfl)
  rcases relativeTo_cases (directoryRoots s first) path with hnone | ⟨root, hroot, hfrom⟩
  · rw [hnone other ((hperm.filter _).mem_iff.mpr hother)] at hview
    cases hview
  obtain ⟨seen, hsome, heq⟩ := hfrom path (Path.same_iff.mpr rfl)
  have hfound : FoundFrom s f roots (marks needles) includes excludes root path :=
    ⟨(perm_entries hfirst).mem_iff.mp hlisted, hholds, seen, hsome, heq ▸ hpasses⟩
  obtain ⟨twin, hsame, htwin | ⟨hfile, hholds'⟩⟩ := h includes excludes hin hex root
    ((hdirectories hfirst).mp hroot) path hfound other ((hdirectories hsecond).mp hother)
    (Option.isSome_of_eq_some hview)
  · obtain ⟨view', hview', hpasses'⟩ := htwin.seen
    obtain ⟨view'', hview'', hrelative⟩ := hseen twin hsame
    obtain rfl := Option.some.inj (hview'.symm.trans hview'')
    exact .inr ⟨twin, (perm_entries hsecond).mem_iff.mpr htwin.listed, htwin.holds,
      Path.same_iff.mp hsame, hrelative ▸ hpasses'⟩
  · exact .inl ⟨twin, (hsecond.filter _).mem_iff.mpr hfile, hholds', Path.same_iff.mp hsame⟩

theorem foundComponents_of_globs {includes excludes : Option (List Glob)}
    (hin : globs? f.includes = .ok includes) (hex : globs? f.excludes = .ok excludes)
    (hneedles : (marks needles).isEmpty = false) :
    foundComponents s roots f needles = .ok ((PathSet.ofList
      ((searched s roots f includes excludes).filter
        (holds s f (marks needles)))).map Path.components) := by
  have hfiles : files f roots s.disk = .ok (searched s roots f includes excludes) :=
    files_eq_ok_iff.mpr ⟨includes, excludes, hin, hex, rfl⟩
  unfold foundComponents
  rw [candidates_eq hfiles, hneedles]
  rfl

/-- When files are seen alike, all orders of the roots give the same files. -/
theorem SeenAlike.foundComponents_eq (h : SeenAlike s roots f needles) (hfirst : first.Perm roots)
    (hsecond : second.Perm roots) :
    foundComponents s first f needles = foundComponents s second f needles := by
  cases hneedles : (marks needles).isEmpty with
  | true =>
    unfold foundComponents candidates
    simp only [hneedles, if_true]
  | false =>
    cases hin : globs? f.includes with
    | error fault =>
      unfold foundComponents candidates
      simp only [hneedles, hin]
      rfl
    | ok includes =>
      cases hex : globs? f.excludes with
      | error fault =>
        unfold foundComponents candidates
        simp only [hneedles, hin, hex]
        rfl
      | ok excludes =>
        rw [foundComponents_of_globs hin hex hneedles, foundComponents_of_globs hin hex hneedles,
          PathSet.components_ofList_eq_iff.mpr fun cs =>
            ⟨h.mem_components hfirst hsecond hin hex, h.mem_components hsecond hfirst hin hex⟩]

theorem relativeTo_cons {root path view : Path} (rest : List Path)
    (h : path.below? root = some view) : relativeTo (root :: rest) path = view := by
  unfold relativeTo
  rw [List.findSome?_cons, h]
  rfl

/-- A root that is walked can come first. -/
theorem exists_order {root : Path} (h : root ∈ directoryRoots s roots) :
    ∃ order : List Path, order.Perm roots ∧ ∃ rest, directoryRoots s order = root :: rest := by
  obtain ⟨hmem, hdirectory⟩ := List.mem_filter.mp h
  exact ⟨root :: roots.erase root, (List.perm_cons_erase hmem).symm, _,
    List.filter_cons_of_pos hdirectory⟩

/-- When all orders of the roots give the same files, files are seen alike: each root can come
first. -/
theorem seenAlike_of_foundComponents (h : ∀ first second : List Path, first.Perm roots →
    second.Perm roots → foundComponents s first f needles = foundComponents s second f needles) :
    SeenAlike s roots f needles := by
  intro includes excludes hin hex root hroot path hfound other hother habove
  have hneedles : (marks needles).isEmpty = false := by
    refine Bool.eq_false_iff.mpr fun hempty => ?_
    have hholds := hfound.holds
    rw [List.isEmpty_iff.mp hempty] at hholds
    unfold holds at hholds
    split at hholds
    · cases hholds
    · simp at hholds
  -- The two orders that put one of the two roots first give the same files.
  obtain ⟨first, hfirst, behind, hbehind⟩ := exists_order hroot
  obtain ⟨second, hsecond, others, hothers⟩ := exists_order hother
  have hsame := h first second hfirst hsecond
  rw [foundComponents_of_globs hin hex hneedles, foundComponents_of_globs hin hex hneedles] at hsame
  have hmem := PathSet.components_ofList_eq_iff.mp (Except.ok.inj hsame) path.components
  obtain ⟨view, hview, hpasses⟩ := hfound.seen
  have hthere := hmem.mp (mem_components_searched.mpr (.inr ⟨path,
    (perm_entries hfirst).mem_iff.mpr hfound.listed, hfound.holds, rfl,
    by rwa [hbehind, relativeTo_cons behind hview]⟩))
  rcases mem_components_searched.mp hthere with ⟨twin, hfile, hholds, heq⟩ |
      ⟨twin, hlisted, hholds, heq, hpasses'⟩
  · exact ⟨twin, Path.same_iff.mpr heq, .inr ⟨(hsecond.filter _).mem_iff.mp hfile, hholds⟩⟩
  · have hsametwin := Path.same_iff.mpr heq
    obtain ⟨view', hview'⟩ := Option.isSome_iff_exists.mp
      ((below?_isSome_of_same hsametwin).trans habove)
    rw [hothers, relativeTo_cons others hview'] at hpasses'
    exact ⟨twin, hsametwin, .inl ⟨(perm_entries hsecond).mem_iff.mp hlisted, hholds,
      view', hview', hpasses'⟩⟩

/-! ### Roots that see files alike -/

/-- The spelling of a root does not change what is seen from it. -/
theorem below?_congr {path root other : Path} (h : root.components = other.components) :
    path.below? root = path.below? other := by
  unfold Path.below?
  rw [h]

/-- Files are seen alike when no walked root is in another one. -/
theorem seenAlike_of_apart (h : ∀ root ∈ directoryRoots s roots, ∀ other ∈ directoryRoots s roots,
    root.components <+: other.components → root.components = other.components) :
    SeenAlike s roots f needles := by
  intro includes excludes _ _ root hroot path hfound other hother habove
  obtain ⟨view, hview, hpasses⟩ := hfound.seen
  have hroot' := below?_isSome_iff.mp (Option.isSome_of_eq_some hview)
  have hsame : root.components = other.components := by
    rcases List.prefix_or_prefix_of_prefix hroot' (below?_isSome_iff.mp habove) with hin | hin
    · exact h root hroot other hother hin
    · exact (h other hother root hroot hin).symm
  exact ⟨path, Path.same_iff.mpr rfl, .inl
    ⟨hfound.listed, hfound.holds, view, below?_congr hsame ▸ hview, hpasses⟩⟩

/-- A root outside of the state directory sees a path there exactly when it is there. -/
theorem inStateDirectory_of_below? {path root view : Path}
    (hroot : .name stateDirectory ∉ root.components) (h : path.below? root = some view) :
    inStateDirectory view = inStateDirectory path := by
  have hstep : Path.stepOf? stateDirectory = some (.name stateDirectory) := by decide
  obtain ⟨cs, hcs, hnames⟩ := Path.components_of_below? h
  unfold inStateDirectory
  rw [Bool.eq_iff_iff, List.contains_iff_mem, List.contains_iff_mem]
  refine ⟨Path.name_mem_of_below? h, fun hmem => ?_⟩
  rw [hcs] at hmem
  exact Path.name_mem_components_iff.mpr
    ⟨hnames _ hstep ((List.mem_append.mp hmem).resolve_left hroot), hstep⟩

/-- Files are seen alike when no patterns are given and no walked root leads into the state
directory. -/
theorem seenAlike_of_no_patterns (hin : f.includes = []) (hex : f.excludes = [])
    (hroots : ∀ root ∈ directoryRoots s roots, .name stateDirectory ∉ root.components) :
    SeenAlike s roots f needles := by
  intro includes excludes hincludes hexcludes root hroot path hfound other hother habove
  rw [hin] at hincludes
  rw [hex] at hexcludes
  obtain rfl := Except.ok.inj hincludes
  obtain rfl := Except.ok.inj hexcludes
  obtain ⟨view, hview, hpasses⟩ := hfound.seen
  obtain ⟨view', hview'⟩ := Option.isSome_iff_exists.mp habove
  refine ⟨path, Path.same_iff.mpr rfl, .inl ⟨hfound.listed, hfound.holds, view', hview', ?_⟩⟩
  unfold passes at hpasses ⊢
  rwa [inStateDirectory_of_below? (hroots other hother) hview',
    ← inStateDirectory_of_below? (hroots root hroot) hview]

/-- The order of the roots decides nothing exactly when the filter says the same of every file from
all roots above it: so when no walked root is in another one, and when there are no patterns and no
walked root leads into the state directory. -/
theorem candidates_order_iff (s : Store) (roots : List Path) (f : Filter) (needles : List String) :
    ((∀ first second : List Path, first.Perm roots → second.Perm roots →
      foundComponents s first f needles = foundComponents s second f needles) ↔
        SeenAlike s roots f needles) ∧
    ((∀ root ∈ directoryRoots s roots, ∀ other ∈ directoryRoots s roots,
      root.components <+: other.components → root.components = other.components) →
        SeenAlike s roots f needles) ∧
    (f.includes = [] → f.excludes = [] →
      (∀ root ∈ directoryRoots s roots, .name stateDirectory ∉ root.components) →
        SeenAlike s roots f needles) :=
  ⟨⟨seenAlike_of_foundComponents, fun h _ _ => h.foundComponents_eq⟩, seenAlike_of_apart,
    seenAlike_of_no_patterns⟩

/-- A project with one file, in a directory below another one. -/
def nestedStore : Store where
  disk := { here := [], process := 7, nodes := [
    (["src"], .directory 493), (["src", "sub"], .directory 493),
    (["src", "sub", "a.rs"], .file (bytes "foo\n") 420)] }

/-- Without patterns, a root in another one may come first or last. -/
theorem candidates_order_nested :
    foundComponents nestedStore [⟨"src"⟩, ⟨"src/sub"⟩] {} ["foo"] =
      foundComponents nestedStore [⟨"src/sub"⟩, ⟨"src"⟩] {} ["foo"] := by
  obtain ⟨hiff, -, hplain⟩ := candidates_order_iff nestedStore [⟨"src"⟩, ⟨"src/sub"⟩] {} ["foo"]
  exact hiff.mpr (hplain rfl rfl (by decide +kernel)) _ _ (.refl _) (.swap ..)

/-- The walked file is passed over when it is seen from `src`, and found when it is seen from
`src/sub`. -/
theorem candidates_depend_on_order :
    candidates nestedStore [⟨"src"⟩, ⟨"src/sub"⟩] { excludes := ["sub"] } ["foo"] = .ok [] ∧
    candidates nestedStore [⟨"src/sub"⟩, ⟨"src"⟩] { excludes := ["sub"] } ["foo"] =
      .ok [⟨"src/sub/a.rs"⟩] := by
  decide +kernel

end

end Search

end SymbolRename
