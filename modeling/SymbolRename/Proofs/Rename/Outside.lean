import SymbolRename.Proofs.PathSet
import SymbolRename.Proofs.Rename.Visits
import SymbolRename.Proofs.Search.Outside

/-!
# Renames beside the files of a hook

A rename does not notice what an owner keeps at places that are not searched: from stores
that agree outside of these places it makes stores that agree there, with the same outcome
(`Rename.run_outside`).
-/

namespace SymbolRename

/-- The stores give the same access to what is outside of the places of an owner. -/
structure Store.SameOutside (own : Place → Bool) (s t : Store) : Prop where
  disk : s.disk.SameOutside own t.disk
  overlay : t.overlay = s.overlay
  unreadable : t.unreadable = s.unreadable
  unwritable : t.unwritable = s.unwritable

/-- The answers of a source do not depend on the places of an owner. -/
def Source.IgnoresPlaces (own : Place → Bool) (source : Source) : Prop :=
  ∀ {d e : Disk}, d.SameOutside own e → ∀ path content name,
    source e path content name = source d path content name

/-- The stores are ways of access of one kind: both real or both in memory, from one place
and with the same paths refused. -/
structure Store.SameAccess (s t : Store) : Prop where
  view : s.disk.SameView t.disk
  overlay : t.overlay.isSome = s.overlay.isSome
  unreadable : t.unreadable = s.unreadable
  unwritable : t.unwritable = s.unwritable

theorem Store.SameAccess.refl (s : Store) : s.SameAccess s := ⟨⟨rfl, rfl⟩, rfl, rfl, rfl⟩

theorem Store.SameAccess.trans {s t u : Store} (h : s.SameAccess t) (h' : t.SameAccess u) :
    s.SameAccess u :=
  ⟨⟨h'.view.here.trans h.view.here, h'.view.process.trans h.view.process⟩,
    h'.overlay.trans h.overlay, h'.unreadable.trans h.unreadable,
    h'.unwritable.trans h.unwritable⟩

theorem Store.write_sameAccess {s t : Store} {path : Path} {content : Bytes}
    (h : s.write path content = .ok t) : s.SameAccess t := by
  cases hover : s.overlay with
  | some o =>
    obtain ⟨_, rfl⟩ := eq_keep_of_write hover h
    exact ⟨⟨rfl, rfl⟩, by rw [hover]; rfl, rfl, rfl⟩
  | none =>
    obtain ⟨d, hd, rfl⟩ := exists_replace_of_write hover h
    exact ⟨Disk.replace_sameView hd, rfl, rfl, rfl⟩

namespace Store.SameOutside

variable {own : Place → Bool} {s t : Store}

theorem refl (own : Place → Bool) (s : Store) : SameOutside own s s :=
  ⟨.refl own s.disk, rfl, rfl, rfl⟩

theorem trans {u : Store} (h : SameOutside own s t) (h' : SameOutside own t u) :
    SameOutside own s u :=
  ⟨h.disk.trans h'.disk, h'.overlay.trans h.overlay, h'.unreadable.trans h.unreadable,
    h'.unwritable.trans h.unwritable⟩

theorem readDisk_eq {d e : Disk} (h : d.SameOutside own e) {path : Path}
    (hpath : d.Clears own path) : Store.readDisk e path = Store.readDisk d path := by
  rw [Store.readDisk_eq, Store.readDisk_eq, h.open?_eq hpath.route]

/-- A path that is clear of the owner's places holds the same. -/
theorem read_eq (h : SameOutside own s t) {path : Path} (hpath : s.disk.Clears own path) :
    t.read path = s.read path := by
  simp only [Store.read, h.unreadable, h.overlay, readDisk_eq h.disk hpath]

/-- Writing such a path in both stores fails alike, or keeps them alike. -/
theorem write (h : SameOutside own s t) {path : Path} (hpath : s.disk.Clears own path)
    (content : Bytes) :
    (∃ fault, s.write path content = .error fault ∧ t.write path content = .error fault) ∨
      ∃ s' t', s.write path content = .ok s' ∧ t.write path content = .ok t' ∧
        SameOutside own s' t' := by
  unfold Store.write
  rw [h.unwritable, h.overlay, h.disk.isFile_eq hpath.route]
  by_cases hrefused : s.unwritable.any (·.same path) = true
  · rw [if_pos hrefused, if_pos hrefused]
    exact .inl ⟨_, rfl, rfl⟩
  · rw [if_neg hrefused, if_neg hrefused]
    cases hover : s.overlay with
    | some o =>
      cases s.disk.isFile path with
      | false => exact .inl ⟨_, rfl, rfl⟩
      | true => exact .inr ⟨_, _, rfl, rfl, h.disk, rfl, h.unreadable, rfl⟩
    | none =>
      rcases h.disk.replace hpath content with ⟨fault, hs, ht⟩ | ⟨d, e, hs, ht, hsame⟩
      · rw [hs, ht]
        exact .inl ⟨fault, rfl, rfl⟩
      · rw [hs, ht]
        exact .inr ⟨_, _, rfl, rfl, hsame, rfl, h.unreadable, rfl⟩

/-- A search finds the same files. -/
theorem candidates_eq (h : SameOutside own s t) {f : Filter} {roots : List Path}
    (hroots : roots ≠ []) (hsearch : Search.Apart f.level roots own s.disk)
    (needles : List String) :
    Search.candidates t roots f needles = Search.candidates s roots f needles := by
  have hholds : ∀ includes excludes, ∀ path ∈ Search.searched s roots f includes excludes,
      ∀ needles, Search.holds t f needles path = Search.holds s f needles path := by
    intro includes excludes path hpath needles
    simp only [Search.holds, h.read_eq (Search.clears_of_searched hsearch hroots hpath)]
  unfold Search.candidates
  simp only [Search.searched_outside h.disk hsearch hroots]
  split
  · rfl
  · cases (Search.globs? f.includes).mapError Cause.input with
    | error cause => rfl
    | ok includes =>
      cases (Search.globs? f.excludes).mapError Cause.input with
      | error cause => rfl
      | ok excludes =>
        simp only [bind, Except.bind]
        rw [List.filter_congr fun path hpath => hholds includes excludes path hpath _]

end Store.SameOutside

/-- The candidates of a search are clear of the owner's places. -/
theorem Search.clears_of_candidates {own : Place → Bool} {s : Store} {f : Filter}
    {roots : List Path} (h : Apart f.level roots own s.disk) (hroots : roots ≠ [])
    {needles : List String} {paths : List Path}
    (hpaths : candidates s roots f needles = .ok paths) :
    ∀ path ∈ paths, s.disk.Clears own path := by
  intro path hpath
  unfold candidates at hpaths
  dsimp only at hpaths
  split at hpaths
  · obtain rfl := Except.ok.inj hpaths
    exact absurd hpath List.not_mem_nil
  · obtain ⟨includes, _, hpaths⟩ := bind_eq_ok_iff.mp hpaths
    obtain ⟨excludes, _, hpaths⟩ := bind_eq_ok_iff.mp hpaths
    obtain rfl := Except.ok.inj hpaths
    have hmem := List.mem_filter.mp (PathSet.mem_of_mem_ofList hpath)
    exact clears_of_searched h hroots hmem.1

namespace Rename

variable {own : Place → Bool} {e : Engine} {s t : Store}

theorem readText_outside (h : s.SameOutside own t) {path : Path}
    (hpath : s.disk.Clears own path) : readText t path = readText s path := by
  unfold readText
  rw [h.read_eq hpath]

theorem locate_outside (h : s.SameOutside own t) (hsource : e.source.IgnoresPlaces own)
    {path : Path} (hpath : s.disk.Clears own path) (name : String) (range : Option LineRange) :
    locate e t path name range = locate e s path name range := by
  unfold locate Source.occurrences
  simp only [readText_outside h hpath, hsource h.disk]

/-- Renaming in one file fails alike in both stores, or keeps them alike. -/
theorem inFile_outside (h : s.SameOutside own t) (hsource : e.source.IgnoresPlaces own)
    {path : Path} (hpath : s.disk.Clears own path) (old new : String)
    (range : Option LineRange) :
    (∃ fault, inFile e s path old new range = .error fault ∧
        inFile e t path old new range = .error fault) ∨
      ∃ s' t' changes, inFile e s path old new range = .ok (s', changes) ∧
        inFile e t path old new range = .ok (t', changes) ∧ s'.SameOutside own t' := by
  unfold inFile
  rw [locate_outside h hsource hpath]
  cases locate e s path old range with
  | error fault => exact .inl ⟨fault, rfl, rfl⟩
  | ok found =>
    obtain ⟨content, occurrences⟩ := found
    simp only [bind, Except.bind]
    by_cases hempty : occurrences.isEmpty = true
    · rw [if_pos hempty, if_pos hempty]
      exact .inr ⟨s, t, [], rfl, rfl, h⟩
    · rw [if_neg hempty, if_neg hempty]
      cases Rewrite.rewrite (bytes content) occurrences old new with
      | error fault => exact .inl ⟨.span fault, rfl, rfl⟩
      | ok result =>
        simp only [mapError_ok]
        rcases h.write hpath result.1 with ⟨fault, hs, ht⟩ | ⟨s', t', hs, ht, hsame⟩
        · rw [hs, ht]
          exact .inl ⟨.unwritable fault, rfl, rfl⟩
        · rw [hs, ht]
          exact .inr ⟨s', t', result.2, rfl, rfl, hsame⟩

theorem inFile_sameAccess {path : Path} {old new : String} {range : Option LineRange} {s' : Store}
    {changes : List Change} (h : inFile e s path old new range = .ok (s', changes)) :
    s.SameAccess s' := by
  rcases inFile_eq_ok h with ⟨rfl, _⟩ | ⟨_, hrewrites⟩
  · exact .refl s'
  · obtain ⟨_, _, _, _, _, _, _, hwrite⟩ := hrewrites
    exact Store.write_sameAccess hwrite

/-- Two renames under way that have done the same outside of the owner's places. -/
structure Progress.SameOutside (own : Place → Bool) (p q : Progress) : Prop where
  store : p.store.SameOutside own q.store
  outcome : q.outcome = p.outcome
  stopped : q.stopped = p.stopped

/-- One more file keeps the renames alike. -/
theorem Progress.SameOutside.visit {p q : Progress} (h : SameOutside own p q)
    (hsource : e.source.IgnoresPlaces own) {path : Path} (hpath : p.store.disk.Clears own path)
    (old new : String) (range : Option LineRange) :
    SameOutside own (p.visit e old new range path) (q.visit e old new range path) ∧
      p.store.SameAccess (p.visit e old new range path).store := by
  by_cases hstopped : p.stopped.isSome = true
  · rw [visit_of_stopped hstopped, visit_of_stopped (h.stopped ▸ hstopped)]
    exact ⟨h, .refl p.store⟩
  · have hgoing := Option.not_isSome_iff_eq_none.mp hstopped
    have hgoing' : q.stopped = none := h.stopped.trans hgoing
    unfold Progress.visit
    simp only [hgoing, hgoing', Option.isSome_none, Bool.false_eq_true, if_false]
    rcases inFile_outside h.store hsource hpath old new range with
      ⟨fault, hs, ht⟩ | ⟨s', t', changes, hs, ht, hsame⟩
    · rw [hs, ht]
      cases hmessage : fault.message with
      | error cause =>
        simp only [hmessage]
        exact ⟨⟨h.store, h.outcome, rfl⟩, .refl p.store⟩
      | ok message =>
        simp only [hmessage]
        refine ⟨⟨h.store, ?_, rfl⟩, .refl p.store⟩
        simp only [note, h.outcome]
    · have haccess := inFile_sameAccess hs
      rw [hs, ht]
      cases changes with
      | nil => exact ⟨⟨h.store, h.outcome, rfl⟩, .refl p.store⟩
      | cons change rest =>
        refine ⟨⟨hsame, ?_, rfl⟩, haccess⟩
        simp only [note, h.outcome]

theorem Progress.SameOutside.visits {p q : Progress} (h : SameOutside own p q)
    (hsource : e.source.IgnoresPlaces own) {paths : List Path}
    (hpaths : ∀ path ∈ paths, p.store.disk.Clears own path) (old new : String)
    (range : Option LineRange) :
    SameOutside own (paths.foldl (Progress.visit e old new range) p)
        (paths.foldl (Progress.visit e old new range) q) ∧
      p.store.SameAccess (paths.foldl (Progress.visit e old new range) p).store := by
  induction paths generalizing p q with
  | nil => exact ⟨h, .refl p.store⟩
  | cons path rest ih =>
    obtain ⟨hvisit, haccess⟩ := h.visit hsource (hpaths path List.mem_cons_self) old new range
    obtain ⟨hrest, haccess'⟩ := ih hvisit fun other hother =>
      haccess.view.clears (hpaths other (List.mem_cons_of_mem path hother))
    exact ⟨hrest, haccess.trans haccess'⟩

/-- A rename does the same in both stores, and keeps them alike. -/
theorem run_outside (h : s.SameOutside own t) (hsource : e.source.IgnoresPlaces own)
    {roots : List Path} (hroots : roots ≠ [])
    (hsearch : Search.Apart e.filter.level roots own s.disk) (old new : String) :
    Progress.SameOutside own (run e s old new (.project roots)) (run e t old new (.project roots)) ∧
      s.SameAccess (run e s old new (.project roots)).store := by
  have hcandidates : candidates e t old (.project roots) = candidates e s old (.project roots) :=
    h.candidates_eq hroots hsearch [old]
  unfold run
  rw [hcandidates]
  cases Mapping.validateNames old new with
  | error fault => exact ⟨⟨h, rfl, rfl⟩, .refl s⟩
  | ok _ =>
    cases hpaths : candidates e s old (.project roots) with
    | error cause => exact ⟨⟨h, rfl, rfl⟩, .refl s⟩
    | ok paths =>
      have hclears := Search.clears_of_candidates hsearch hroots hpaths
      have hstart : Progress.SameOutside own
          { store := s, remarks := searchRemarks e old paths (.project roots) }
          { store := t, remarks := searchRemarks e old paths (.project roots) } := ⟨h, rfl, rfl⟩
      exact hstart.visits hsource hclears old new none

end Rename

end SymbolRename
