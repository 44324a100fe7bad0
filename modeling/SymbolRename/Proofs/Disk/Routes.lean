import SymbolRename.Proofs.Disk.Names
import SymbolRename.Proofs.Disk.Spelling
import Mathlib.Data.List.TakeWhile

/-!
# The way of a path

The places that a path comes through are a matter of its components: a path below a base comes
through the places of the base first, and a scratch file lies where its file does.
-/

namespace SymbolRename

/-! ### Steps -/

/-- The places that components lead through from a place on. -/
def Component.leads (here p : Place) : List Component → List Place
  | [] => [p]
  | c :: rest => p :: leads here (c.lead here p) rest

theorem Component.mem_leads_self (here p : Place) (cs : List Component) : p ∈ leads here p cs := by
  cases cs with
  | nil => exact List.mem_singleton.mpr rfl
  | cons c rest => exact List.mem_cons_self

theorem Component.mem_leads_append {here p q : Place} {cs ds : List Component} :
    q ∈ leads here p (cs ++ ds) ↔
      q ∈ leads here p cs ∨ q ∈ leads here (cs.foldl (lead here) p) ds := by
  induction cs generalizing p with
  | nil =>
    rw [List.nil_append, leads, List.foldl_nil, List.mem_singleton, iff_or_self]
    rintro rfl
    exact mem_leads_self here q ds
  | cons c rest ih =>
    rw [List.cons_append, leads, leads, List.mem_cons, List.mem_cons, ih, or_assoc,
      List.foldl_cons]

theorem Component.foldl_mem_leads (here p : Place) (cs : List Component) :
    cs.foldl (lead here) p ∈ leads here p cs := by
  induction cs generalizing p with
  | nil => exact List.mem_singleton.mpr rfl
  | cons c rest ih => exact List.mem_cons_of_mem p (ih _)

/-- Segments lead through the places that their steps do. -/
theorem Place.mem_through_iff (here : Place) {p q : Place} {segments : List String} :
    q ∈ p.through segments ↔ q ∈ Component.leads here p (segments.filterMap Path.stepOf?) := by
  induction segments generalizing p with
  | nil => exact Iff.rfl
  | cons segment rest ih =>
    rw [through, List.mem_cons, ih (p := p.step segment), List.filterMap_cons]
    unfold Path.stepOf? step
    by_cases hsilent : segment = "" ∨ segment = "."
    · rw [if_pos hsilent, if_pos hsilent]
      refine or_iff_right_of_imp ?_
      rintro rfl
      exact Component.mem_leads_self here q _
    · rw [if_neg hsilent, if_neg hsilent]
      by_cases hup : segment = ".."
      · rw [if_pos hup, if_pos hup, Component.leads, List.mem_cons]
        rfl
      · rw [if_neg hup, if_neg hup, Component.leads, List.mem_cons]
        rfl

theorem Path.eq_of_stepOf? {segment s : String} (h : stepOf? segment = some (.name s)) :
    segment = s := by
  unfold stepOf? at h
  split at h
  · cases h
  · split at h
    · cases h
    · cases h
      rfl

/-- The names among the components of a path are those among its segments. -/
theorem Path.name_mem_components_iff {path : Path} {s : String} :
    .name s ∈ path.components ↔ s ∈ path.segments ∧ stepOf? s = some (.name s) := by
  have hsteps : .name s ∈ path.segments.filterMap stepOf? ↔
      s ∈ path.segments ∧ stepOf? s = some (.name s) := by
    rw [List.mem_filterMap]
    constructor
    · rintro ⟨segment, hsegment, hstep⟩
      obtain rfl := eq_of_stepOf? hstep
      exact ⟨hsegment, hstep⟩
    · exact fun ⟨hsegment, hstep⟩ => ⟨s, hsegment, hstep⟩
  rcases path.exists_components with ⟨_, hcs⟩ | ⟨_, hcs | hcs⟩
  · rw [hcs, List.mem_cons, hsteps]
    simp
  · rw [hcs, hsteps]
  · rw [hcs, List.mem_cons, hsteps]
    simp

/-- A path stays out of the places of an owner when its components do, as long as the current
directory does. -/
theorem Disk.avoids_iff_leads {own : Place → Bool} {d : Disk} {path : Path}
    (hhere : own d.here = false) :
    d.Avoids own path ↔ ∀ q ∈ Component.leads d.here d.here path.components, own q = false := by
  unfold Avoids route
  simp only [Place.mem_through_iff d.here]
  rcases path.exists_components with ⟨habsolute, hcs⟩ | ⟨habsolute, hcs | hcs⟩
  · rw [if_pos habsolute, hcs, Component.leads, List.forall_mem_cons]
    exact (and_iff_right hhere).symm
  · rw [habsolute, if_neg Bool.false_ne_true, hcs]
  · rw [habsolute, if_neg Bool.false_ne_true, hcs, Component.leads, List.forall_mem_cons]
    exact (and_iff_right hhere).symm

/-- A path that does not come through the current directory is absolute. -/
theorem Disk.isAbsolute_of_avoids {own : Place → Bool} {d : Disk} {path : Path}
    (h : d.Avoids own path) (hhere : ¬ own d.here = false) : path.isAbsolute = true := by
  by_contra hrelative
  have hstart : d.here ∈ d.route path := by
    unfold route
    rw [if_neg hrelative, Place.mem_through_iff d.here]
    exact Component.mem_leads_self _ _ _
  exact hhere (h _ hstart)

/-! ### Segments joined again -/

namespace Path

/-- A segment is a part of the text without slashes. -/
theorem subset_of_mem_segmentsOf {cs segment : List Char} (h : segment ∈ segmentsOf cs) :
    segment ⊆ cs ∧ '/' ∉ segment := by
  induction cs generalizing segment with
  | nil =>
    rw [List.mem_singleton.mp h]
    exact ⟨List.nil_subset _, List.not_mem_nil⟩
  | cons c rest ih =>
    by_cases hc : c = '/'
    · subst hc
      rw [segmentsOf] at h
      rcases List.mem_cons.mp h with rfl | h
      · exact ⟨List.nil_subset _, List.not_mem_nil⟩
      · exact ⟨List.subset_cons_of_subset _ (ih h).1, (ih h).2⟩
    · obtain ⟨first, more, hrest⟩ := List.exists_cons_of_ne_nil (segmentsOf_ne_nil rest)
      rw [segmentsOf_cons hc hrest] at h
      rw [hrest] at ih
      rcases List.mem_cons.mp h with rfl | h
      · obtain ⟨hsub, hslash⟩ := ih List.mem_cons_self
        refine ⟨List.cons_subset_cons c hsub, fun hmem => ?_⟩
        rcases List.mem_cons.mp hmem with heq | hmem
        · exact hc heq.symm
        · exact hslash hmem
      · obtain ⟨hsub, hslash⟩ := ih (List.mem_cons_of_mem first h)
        exact ⟨List.subset_cons_of_subset c hsub, hslash⟩

theorem slash_not_mem_segment {path : Path} {s : String} (hs : s ∈ path.segments) :
    '/' ∉ s.toList := by
  obtain ⟨segment, hsegment, rfl⟩ := List.mem_map.mp hs
  rw [String.toList_ofList]
  exact (subset_of_mem_segmentsOf hsegment).2

/-- A segment that is joined before others is the first of the path. -/
theorem segments_ofSegments_cons {s : String} (hs : '/' ∉ s.toList) {rest : List String}
    (hne : rest ≠ []) : (ofSegments (s :: rest)).segments = s :: (ofSegments rest).segments := by
  unfold ofSegments Path.segments
  rw [String.toList_intercalate, String.toList_intercalate, List.map_cons,
    List.intercalate_cons_of_ne_nil (by simpa using hne)]
  have hmark : "/".toList = ['/'] := rfl
  rw [hmark, List.append_assoc, List.singleton_append, segmentsOf_append,
    segmentsOf_of_not_mem hs, List.singleton_append, List.map_cons, String.ofList_toList]

/-- Segments that are joined by slashes are those of the path. -/
theorem segments_ofSegments {segments : List String} (hne : segments ≠ [])
    (hslash : ∀ s ∈ segments, '/' ∉ s.toList) : (ofSegments segments).segments = segments := by
  induction segments with
  | nil => exact absurd rfl hne
  | cons s rest ih =>
    have hs := hslash s List.mem_cons_self
    by_cases hrest : rest = []
    · rw [hrest]
      unfold ofSegments Path.segments
      rw [String.intercalate_singleton, segmentsOf_of_not_mem hs, List.map_singleton,
        String.ofList_toList]
    · rw [segments_ofSegments_cons hs hrest,
        ih hrest fun x hx => hslash x (List.mem_cons_of_mem s hx)]

/-- Whatever is joined behind segments, they come first. -/
theorem exists_segments_ofSegments {segments : List String} (hne : segments ≠ [])
    (hslash : ∀ s ∈ segments, '/' ∉ s.toList) (rest : List String) :
    ∃ more, (ofSegments (segments ++ rest)).segments = segments ++ more := by
  induction segments with
  | nil => exact absurd rfl hne
  | cons s tail ih =>
    have hs := hslash s List.mem_cons_self
    by_cases htail : tail = []
    · subst htail
      by_cases hrest : rest = []
      · subst hrest
        exact ⟨[], segments_ofSegments hne hslash⟩
      · exact ⟨(ofSegments rest).segments, segments_ofSegments_cons hs hrest⟩
    · obtain ⟨more, hmore⟩ := ih htail fun x hx => hslash x (List.mem_cons_of_mem s hx)
      refine ⟨more, ?_⟩
      rw [List.cons_append, segments_ofSegments_cons hs (by simp [htail]), hmore]
      rfl

/-- Dropping segments at the front drops what satisfies a condition, and no more. -/
theorem mem_dropWhile {isSilent : String → Bool} {segments : List String} {s : String}
    (hs : isSilent s = false) (h : s ∈ segments) : s ∈ segments.dropWhile isSilent := by
  rw [← List.takeWhile_append_dropWhile (p := isSilent) (l := segments)] at h
  rcases List.mem_append.mp h with h | h
  · rw [List.mem_takeWhile_imp h] at hs
    cases hs
  · exact h

/-- Only meaningless segments are trimmed. -/
theorem mem_trimSegments {segments : List String} {s : String} (hs : (stepOf? s).isNone = false)
    (h : s ∈ segments) : s ∈ trimSegments segments := by
  unfold trimSegments
  exact List.mem_reverse.mpr (mem_dropWhile hs (List.mem_reverse.mpr (mem_dropWhile hs h)))

theorem trimSegments_subset (segments : List String) : trimSegments segments ⊆ segments := by
  unfold trimSegments
  intro s hs
  have hback := (List.dropWhile_sublist _).subset (List.mem_reverse.mp hs)
  exact (List.dropWhile_sublist _).subset (List.mem_reverse.mp hback)

/-- What is left of segments has the steps that are left. -/
theorem filterMap_dropSegments (count : Nat) (segments : List String) :
    (dropSegments count segments).filterMap stepOf? =
      (segments.filterMap stepOf?).drop count := by
  induction segments generalizing count with
  | nil => cases count <;> rfl
  | cons s rest ih =>
    cases count with
    | zero => rfl
    | succ count =>
      rw [dropSegments, List.filterMap_cons]
      cases hs : stepOf? s with
      | none =>
        rw [Option.isSome_none, if_neg Bool.false_ne_true]
        exact ih (count + 1)
      | some c =>
        rw [Option.isSome_some, if_pos rfl]
        exact ih count

theorem dropSegments_subset (count : Nat) (segments : List String) :
    dropSegments count segments ⊆ segments := by
  induction segments generalizing count with
  | nil => cases count <;> exact List.Subset.refl _
  | cons s rest ih =>
    cases count with
    | zero => exact List.Subset.refl _
    | succ count =>
      rw [dropSegments]
      split <;> exact List.subset_cons_of_subset s (ih _)

/-- A name among segments is one of the path that they make without the meaningless ones. -/
theorem mem_segments_of_trimmed {segments : List String} {s : String}
    (hs : stepOf? s = some (.name s)) (h : s ∈ segments) (hslash : ∀ t ∈ segments, '/' ∉ t.toList) :
    s ∈ (ofSegments (trimSegments segments)).segments := by
  have hmem := mem_trimSegments (by rw [hs]; rfl) h
  rw [segments_ofSegments (List.ne_nil_of_mem hmem)]
  · exact hmem
  · exact fun t ht => hslash t (trimSegments_subset segments ht)

/-- Without a head for the root or the current directory, all components are steps. -/
theorem filterMap_segments {path : Path}
    (h : ∀ c ∈ path.components.head?, c ≠ .root ∧ c ≠ .here) :
    path.segments.filterMap stepOf? = path.components := by
  rcases path.exists_components with ⟨_, hcs⟩ | ⟨_, hcs | hcs⟩
  · rw [hcs] at h
    exact absurd rfl (h .root rfl).1
  · exact hcs.symm
  · rw [hcs] at h
    exact absurd rfl (h .here rfl).2

/-- Such a head stands for the first segment. -/
theorem filterMap_drop_head {path : Path} {c : Component} {cs : List Component}
    (h : path.components = c :: cs) (hc : c = .root ∨ c = .here) :
    (path.segments.drop 1).filterMap stepOf? = cs := by
  have hstep : ∀ segment, stepOf? segment ≠ some c := by
    intro segment hsegment
    unfold stepOf? at hsegment
    split at hsegment
    · cases hsegment
    · split at hsegment
      · obtain rfl := Option.some.inj hsegment
        exact hc.elim nofun nofun
      · obtain rfl := Option.some.inj hsegment
        exact hc.elim nofun nofun
  unfold components at h
  split at h
  · cases h
  · cases h
  · rename_i hsegments
    rw [hsegments]
    exact (List.cons.inj h).2
  · rename_i hsegments
    rw [hsegments]
    exact (List.cons.inj h).2
  · have hmem : c ∈ path.segments.filterMap stepOf? := h ▸ List.mem_cons_self
    obtain ⟨segment, _, hsegment⟩ := List.mem_filterMap.mp hmem
    exact absurd hsegment (hstep segment)

/-- What lies below a base is the path itself, or made of some of its segments. -/
theorem eq_or_exists_of_below? {path base rest : Path} (h : path.below? base = some rest) :
    rest = path ∨ ∃ segments ⊆ path.segments, rest = ofSegments (trimSegments segments) := by
  unfold below? at h
  dsimp only at h
  split at h
  · split at h
    · split at h
      · exact .inl (Option.some.inj h).symm
      · exact .inl (Option.some.inj h).symm
      · exact .inr ⟨_, List.Subset.refl _, (Option.some.inj h).symm⟩
    · exact .inr ⟨_, List.Subset.trans (dropSegments_subset _ _) (List.drop_subset _ _),
        (Option.some.inj h).symm⟩
  · cases h

/-- What lies below a base has the components behind those of the base. -/
theorem components_of_below? {path base rest : Path} (h : path.below? base = some rest) :
    ∃ cs, path.components = base.components ++ cs ∧
      ∀ s, stepOf? s = some (.name s) → .name s ∈ cs → s ∈ rest.segments := by
  unfold below? at h
  dsimp only at h
  split at h
  · rename_i hprefix
    obtain ⟨cs, hcs⟩ := List.isPrefixOf_iff_prefix.mp hprefix
    refine ⟨cs, hcs.symm, fun s hs hmem => ?_⟩
    have hslash : ∀ t ∈ path.segments, '/' ∉ t.toList := fun t ht => slash_not_mem_segment ht
    split at h
    · rename_i hempty
      rw [List.isEmpty_iff.mp hempty, List.nil_append] at hcs
      rw [hcs] at hmem
      have hsegment := (name_mem_components_iff.mp hmem).1
      split at h
      · obtain rfl := Option.some.inj h
        exact hsegment
      · obtain rfl := Option.some.inj h
        exact hsegment
      · obtain rfl := Option.some.inj h
        exact mem_segments_of_trimmed hs hsegment hslash
    · rename_i hempty
      obtain ⟨c, tail, htail⟩ := List.exists_cons_of_ne_nil (mt List.isEmpty_iff.mpr hempty)
      rw [htail] at h hcs
      -- What is dropped are the segments of the base and silent ones.
      have hdropped : ∀ (segments : List String) (count : Nat), segments ⊆ path.segments →
          (segments.filterMap stepOf?).drop count = cs →
          s ∈ (ofSegments (trimSegments (dropSegments count segments))).segments := by
        intro segments count hsub hsteps
        apply mem_segments_of_trimmed hs
        · rw [← hsteps, ← filterMap_dropSegments] at hmem
          obtain ⟨t, ht, hstep⟩ := List.mem_filterMap.mp hmem
          rwa [← eq_of_stepOf? hstep]
        · exact fun t ht => hslash t (hsub (dropSegments_subset count segments ht))
      cases c with
      | root =>
        obtain rfl := Option.some.inj h
        apply hdropped (path.segments.drop 1) _ (List.drop_subset 1 _)
        rw [filterMap_drop_head hcs.symm (.inl rfl)]
        exact List.drop_left
      | here =>
        obtain rfl := Option.some.inj h
        apply hdropped (path.segments.drop 1) _ (List.drop_subset 1 _)
        rw [filterMap_drop_head hcs.symm (.inr rfl)]
        exact List.drop_left
      | up | name =>
        obtain rfl := Option.some.inj h
        apply hdropped (path.segments.drop 0) _ (List.drop_subset 0 _)
        rw [List.drop_zero, filterMap_segments (by rw [← hcs]; simp), ← hcs]
        exact List.drop_left
  · cases h

/-- The name of a file is a component of its path. -/
theorem mem_components_of_fileName? {path : Path} {name : String}
    (h : path.fileName? = some name) : .name name ∈ path.components := by
  unfold fileName? at h
  split at h
  · rename_i s hlast
    rw [← Option.some.inj h]
    exact List.mem_of_getLast? hlast
  · cases h

/-- A path to a file is made of the segments before its name, the name and meaningless ones. -/
theorem exists_segments_of_fileName? {path : Path} {name : String}
    (h : path.fileName? = some name) :
    ∃ init last silent, path.segments = init ++ last :: silent ∧ (stepOf? last).isNone = false ∧
      ((path.segments.reverse.dropWhile fun s => (stepOf? s).isNone).drop 1).reverse = init := by
  obtain ⟨hsegment, hstep⟩ := name_mem_components_iff.mp (mem_components_of_fileName? h)
  have hsolid : (stepOf? name).isNone = false := by simp only [hstep]; rfl
  have hmem : name ∈ path.segments.reverse.dropWhile fun s => (stepOf? s).isNone :=
    mem_dropWhile hsolid (List.mem_reverse.mpr hsegment)
  have hsplit := List.takeWhile_append_dropWhile (p := fun s => (stepOf? s).isNone)
    (l := path.segments.reverse)
  have hhead := List.head?_dropWhile_not (fun s => (stepOf? s).isNone) path.segments.reverse
  obtain ⟨last, before, hdropped⟩ := List.exists_cons_of_ne_nil (List.ne_nil_of_mem hmem)
  rw [hdropped] at hhead hsplit ⊢
  generalize path.segments.reverse.takeWhile _ = silent at hsplit
  refine ⟨before.reverse, last, silent.reverse, ?_, hhead, rfl⟩
  have hsegments := congrArg List.reverse hsplit
  rw [List.reverse_reverse] at hsegments
  rw [← hsegments]
  simp

end Path

/-- Where a path goes at first is decided by its first segments. -/
theorem Path.isAbsolute_congr {path other : Path} {init : List String} {last last' : String}
    {more : List String} (h : path.segments = init ++ last :: more)
    (h' : other.segments = init ++ [last']) (hlast : last ≠ "") (hlast' : last' ≠ "") :
    other.isAbsolute = path.isAbsolute := by
  rw [Bool.eq_iff_iff, isAbsolute_eq_true_iff, isAbsolute_eq_true_iff, h, h']
  cases init with
  | nil =>
    constructor
    · rintro ⟨_, _, hsegments⟩
      exact absurd (List.cons.inj hsegments).1 hlast'
    · rintro ⟨_, _, hsegments⟩
      exact absurd (List.cons.inj hsegments).1 hlast
  | cons first rest =>
    have hhead : ∀ {l : List String}, l ≠ [] →
        ((∃ segment more, first :: l = "" :: segment :: more) ↔ first = "") := by
      intro l hl
      obtain ⟨segment, more, rfl⟩ := List.exists_cons_of_ne_nil hl
      simp
    rw [List.cons_append, List.cons_append, hhead (by simp), hhead (by simp)]

/-- With another extension a path goes the same way up to its name. -/
theorem Disk.segments_withExtension {path : Path} {name extension : String}
    (h : path.fileName? = some name) (hextension : '/' ∉ extension.toList) :
    ∃ init last silent stem, path.segments = init ++ last :: silent ∧
      (withExtension path extension).segments = init ++ [stem ++ "." ++ extension] ∧
        (withExtension path extension).isAbsolute = path.isAbsolute := by
  obtain ⟨init, last, silent, hsegments, hlast, hinit⟩ := Path.exists_segments_of_fileName? h
  have hname : '/' ∉ name.toList := by
    have hmem := Path.mem_components_of_fileName? h
    exact Path.slash_not_mem_segment (Path.name_mem_components_iff.mp hmem).1
  obtain ⟨stem, hstem, hwith⟩ : ∃ stem : String, '/' ∉ stem.toList ∧
      withExtension path extension = Path.ofSegments (init ++ [stem ++ "." ++ extension]) := by
    unfold withExtension
    rw [h]
    dsimp only
    rw [hinit]
    refine ⟨_, ?_, rfl⟩
    split
    · rw [String.toList_ofList]
      exact fun hslash => hname (List.mem_of_mem_take hslash)
    · exact hname
  have hnew : (withExtension path extension).segments = init ++ [stem ++ "." ++ extension] := by
    rw [hwith, Path.segments_ofSegments (by simp)]
    intro s hs
    rcases List.mem_append.mp hs with hs | hs
    · have hmem : s ∈ path.segments := hsegments ▸ List.mem_append_left _ hs
      exact Path.slash_not_mem_segment hmem
    · rw [List.mem_singleton.mp hs]
      simp [hstem, hextension]
  refine ⟨init, last, silent, stem, hsegments, hnew, ?_⟩
  apply Path.isAbsolute_congr hsegments hnew
  · rintro rfl
    cases hlast
  · intro hempty
    exact absurd (congrArg String.length hempty) (by simp)

/-! ### Longer paths -/

theorem Place.mem_through_left {p q : Place} {xs : List String} (ys : List String)
    (h : q ∈ p.through xs) : q ∈ p.through (xs ++ ys) := by
  induction xs generalizing p with
  | nil =>
    rw [List.mem_singleton.mp h]
    cases ys with
    | nil => exact List.mem_singleton.mpr rfl
    | cons y rest => exact List.mem_cons_self
  | cons x rest ih =>
    rcases List.mem_cons.mp h with rfl | h
    · exact List.mem_cons_self
    · exact List.mem_cons_of_mem p (ih h)

/-- Without the slashes at its end a path comes through nothing else. -/
theorem Disk.Avoids.withoutSlash {own : Place → Bool} {d : Disk} {path : Path}
    (h : d.Avoids own path) : d.Avoids own (withoutSlash path) := by
  unfold Disk.withoutSlash
  dsimp only
  split
  · exact h
  · rename_i hne
    obtain ⟨slashes, htext, hslashes⟩ : ∃ slashes, path.text.toList =
        Text.dropTrailing (· == '/') path.text.toList ++ slashes ∧ ∀ c ∈ slashes, c = '/' := by
      refine ⟨(path.text.toList.reverse.takeWhile (· == '/')).reverse, ?_, fun c hc => ?_⟩
      · unfold Text.dropTrailing
        rw [← List.reverse_append, List.takeWhile_append_dropWhile, List.reverse_reverse]
      · have hslash := List.mem_takeWhile_imp (List.mem_reverse.mp hc)
        exact beq_iff_eq.mp hslash
    generalize Text.dropTrailing (· == '/') path.text.toList = bare at hne htext ⊢
    obtain ⟨more, hmore⟩ : ∃ more, Path.segmentsOf path.text.toList =
        Path.segmentsOf bare ++ more := by
      rw [htext]
      cases slashes with
      | nil => exact ⟨[], by simp⟩
      | cons c rest =>
        obtain rfl := hslashes c List.mem_cons_self
        exact ⟨_, Path.segmentsOf_append bare rest⟩
    have hbare : bare ≠ [] := by
      rintro rfl
      exact hne rfl
    intro q hq
    apply h q
    unfold route Path.segments Path.isAbsolute at hq ⊢
    rw [hmore, List.map_append, htext, List.head?_append_of_ne_nil _ hbare]
    rw [String.toList_ofList] at hq
    exact Place.mem_through_left _ hq

theorem Place.mem_through_append {p q : Place} {xs ys : List String}
    (h : q ∈ (xs.foldl step p).through ys) : q ∈ p.through (xs ++ ys) := by
  induction xs generalizing p with
  | nil => exact h
  | cons x rest ih => exact List.mem_cons_of_mem p (ih h)

/-- What is joined to an absolute path is absolute. -/
theorem Path.isAbsolute_join_left {base : Path} (h : base.isAbsolute = true) (path : Path) :
    (base.join path).isAbsolute = true := by
  have hne : base.text.toList ≠ [] := by
    intro hnil
    unfold isAbsolute at h
    rw [hnil] at h
    cases h
  unfold isAbsolute at h
  unfold join
  split
  · assumption
  · split
    · unfold isAbsolute
      rwa [String.toList_append, List.head?_append_of_ne_nil _ hne]
    · unfold isAbsolute
      rwa [String.toList_append, String.toList_append, List.append_assoc,
        List.head?_append_of_ne_nil _ hne]

/-- A relative path that is joined to a base is followed from where the base leads. -/
theorem Disk.mem_route_join {d : Disk} {base path : Path} (h : path.isAbsolute = false) {q : Place}
    (hq : q ∈ (d.target base).through path.segments) : q ∈ d.route (base.join path) := by
  have hjoined : ∀ (before : List Char) (joined : Path),
      joined.text.toList = before ++ '/' :: path.text.toList → joined.isAbsolute = base.isAbsolute →
      d.target base = ((Path.segmentsOf before).map String.ofList).foldl Place.step
        (if base.isAbsolute then [] else d.here) → q ∈ d.route joined := by
    intro before joined htext habsolute htarget
    unfold route Path.segments
    rw [htext, habsolute, Path.segmentsOf_append, List.map_append]
    rw [htarget] at hq
    exact Place.mem_through_append hq
  unfold Path.join
  rw [h, if_neg Bool.false_ne_true]
  split
  · rename_i hend
    rcases hend with hempty | hslash
    · have hpath : (⟨base.text ++ path.text⟩ : Path) = path := by rw [hempty, String.empty_append]
      have htarget : d.target base = d.here := by
        unfold target Path.segments Path.isAbsolute
        rw [hempty]
        rfl
      rw [hpath]
      unfold route
      rwa [h, if_neg Bool.false_ne_true, ← htarget]
    · obtain ⟨before, hbefore⟩ := List.getLast?_eq_some_iff.mp hslash
      apply hjoined before
      · simp [hbefore]
      · unfold Path.isAbsolute
        simp [hbefore]
      · unfold target Path.segments
        rw [hbefore, Path.segmentsOf_append, List.map_append, List.foldl_append]
        rfl
  · rename_i hend
    apply hjoined base.text.toList
    · simp
    · unfold Path.isAbsolute
      cases htext : base.text.toList with
      | nil =>
        exact absurd (.inl (String.toList_eq_nil_iff.mp htext)) hend
      | cons c rest => simp [htext]
    · rfl

theorem Place.foldl_step_names {names : List String} (h : ∀ name ∈ names, Path.IsName name)
    (p : Place) : names.foldl step p = p ++ names := by
  induction names generalizing p with
  | nil => rw [List.foldl_nil, List.append_nil]
  | cons name rest ih =>
    rw [List.foldl_cons, step_eq_append (h name List.mem_cons_self).step,
      ih fun other hother => h other (List.mem_cons_of_mem name hother), List.append_assoc]
    rfl

/-- Names that are joined by slashes make a relative path. -/
theorem Path.isAbsolute_intercalate {names rest : List String} (hne : names ≠ [])
    (h : ∀ name ∈ names, Path.IsName name) :
    (⟨"/".intercalate (names ++ rest)⟩ : Path).isAbsolute = false := by
  obtain ⟨more, hmore⟩ := exists_segments_ofSegments hne (fun name hname => (h name hname).slash)
    rest
  unfold ofSegments at hmore
  refine Bool.eq_false_iff.mpr fun habsolute => ?_
  obtain ⟨segment, tail, hsegments⟩ := isAbsolute_eq_true_iff.mp habsolute
  obtain ⟨first, others, rfl⟩ := List.exists_cons_of_ne_nil hne
  rw [hmore, List.cons_append] at hsegments
  exact (h first List.mem_cons_self).ne_empty (List.cons.inj hsegments).1

/-- Names that are joined to a base are entries below the place where it leads. -/
theorem Disk.mem_route_names {d : Disk} {base : Path} {names rest : List String} (hne : names ≠ [])
    (h : ∀ name ∈ names, Path.IsName name) :
    d.target base ++ names ∈ d.route (base.join ⟨"/".intercalate (names ++ rest)⟩) := by
  obtain ⟨more, hmore⟩ := Path.exists_segments_ofSegments hne (fun name hname => (h name hname).slash)
    rest
  unfold Path.ofSegments at hmore
  apply mem_route_join
  · exact Path.isAbsolute_intercalate hne h
  · rw [hmore]
    apply Place.mem_through_left
    rw [← Place.foldl_step_names h]
    exact Place.target_mem_through _ names

end SymbolRename
