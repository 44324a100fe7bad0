import SymbolRename.Proofs.Disk.Spelling
import SymbolRename.Proofs.Rename.Effect
import SymbolRename.Proofs.Rewrite.Renaming

/-!
# Lexical renames on a disk

A rename that the lexical source guides makes of the content of a file the renamed one,
whatever the spelling under which the file is visited.
-/

namespace SymbolRename

/-- A store that writes to its disk, which is a tree. -/
structure Store.IsReal (s : Store) : Prop where
  plain : s.overlay = none
  tree : s.disk.IsTree

theorem Store.IsReal.write {s t : Store} (h : s.IsReal) {path : Path} {content : Bytes}
    (hwrite : s.write path content = .ok t) : t.IsReal := by
  obtain ⟨d, hreplace, rfl⟩ := exists_replace_of_write h.plain hwrite
  exact ⟨h.plain, h.tree.replace hreplace⟩

/-- The store writes to an overlay, or to a disk that is a tree. -/
def Store.IsSteady (s : Store) : Prop := s.overlay = none → s.disk.IsTree

theorem Store.IsSteady.write {s t : Store} (h : s.IsSteady) {path : Path} {content : Bytes}
    (hwrite : s.write path content = .ok t) : t.IsSteady := by
  cases hover : s.overlay with
  | none =>
    have hreal : s.IsReal := ⟨hover, h hover⟩
    exact fun _ => (hreal.write hwrite).tree
  | some o =>
    obtain ⟨_, rfl⟩ := eq_keep_of_write hover hwrite
    exact fun hnone => absurd hnone (Option.some_ne_none _)

/-- What is read stands on the disk. -/
theorem Store.IsReal.open?_of_read {s : Store} (h : s.IsReal) {path : Path} {content : Bytes}
    (hread : s.read path = .ok content) :
    ∃ p mode, s.disk.open? path = .ok (p, .file content mode) :=
  Store.exists_open?_of_read (by rw [h.plain, Option.bind_none]) hread

/-- Spellings of one file lead to the same. -/
theorem Store.IsReal.open?_eq_of_aliases {s : Store} (h : s.IsReal) {q path : Path}
    (halias : s.Aliases q path) {was c : Bytes} (hwas : s.read q = .ok was)
    (hc : s.read path = .ok c) :
    ∃ p mode, s.disk.open? q = .ok (p, .file was mode) ∧
      s.disk.open? path = .ok (p, .file was mode) := by
  obtain ⟨p, mode, hq⟩ := h.open?_of_read hwas
  obtain ⟨p', mode', hpath⟩ := h.open?_of_read hc
  have hplace : p' = p := by
    rcases halias with hsame | ⟨_, hplaces⟩
    · rw [Disk.eq_target_of_open? hpath, Disk.eq_target_of_open? hq, Disk.target_eq_of_same hsame]
    · rw [Disk.place?_eq_some_iff.mpr ⟨_, hq⟩, Disk.place?_eq_some_iff.mpr ⟨_, hpath⟩] at hplaces
      exact (Option.some.inj hplaces).symm
  subst hplace
  have hnode := (Disk.nodeAt?_of_open? hq).symm.trans (Disk.nodeAt?_of_open? hpath)
  rw [← Option.some.inj hnode] at hpath
  exact ⟨p', mode, hq, hpath⟩

/-- A file that was written under one spelling has the new content under every other. -/
theorem Store.IsReal.eq_of_write {s t : Store} (h : s.IsReal) {q path : Path} {content : Bytes}
    (hwrite : s.write q content = .ok t) (halias : s.Aliases q path) {was c c' : Bytes}
    (hwas : s.read q = .ok was) (hc : s.read path = .ok c) (hc' : t.read path = .ok c') :
    c' = content := by
  obtain ⟨p, mode, hq, hpath⟩ := h.open?_eq_of_aliases halias hwas hc
  obtain ⟨p', mode', hafter⟩ := (h.write hwrite).open?_of_read hc'
  obtain ⟨d, hreplace, rfl⟩ := exists_replace_of_write h.plain hwrite
  obtain ⟨r, old, mode'', hr, hhere, hnode⟩ := Disk.nodeAt?_of_replace hreplace
  have hplace : p' = r := by
    rw [(Prod.mk.inj (Except.ok.inj (hr.symm.trans hq))).1, Disk.eq_target_of_open? hpath,
      Disk.eq_target_of_open? hafter, Disk.target_congr hhere]
  have hfile := (Disk.nodeAt?_of_open? hafter).symm.trans (hplace ▸ hnode)
  exact (Node.file.inj (Option.some.inj hfile)).1

/-- Under two spellings of its path a file has one content. -/
theorem Store.eq_of_read_of_same {s : Store} {q path : Path} (hsame : q.same path = true)
    {was c : Bytes} (hwas : s.read q = .ok was) (hc : s.read path = .ok c) : c = was := by
  have hkept : s.overlay.bind (·.content? q) = s.overlay.bind (·.content? path) := by
    unfold Overlay.content? Path.same
    rw [beq_iff_eq.mp hsame]
  cases hover : s.overlay.bind (·.content? path) with
  | some content =>
    unfold read at hwas hc
    rw [hover] at hc
    rw [hkept, hover] at hwas
    split at hc
    · cases hc
    · split at hwas
      · cases hwas
      · exact (Except.ok.inj hc).symm.trans (Except.ok.inj hwas)
  | none =>
    obtain ⟨p, mode, hpath⟩ := exists_open?_of_read hover hc
    obtain ⟨p', mode', hq⟩ := exists_open?_of_read (hkept.trans hover) hwas
    have hplace : p' = p := by
      rw [Disk.eq_target_of_open? hpath, Disk.eq_target_of_open? hq, Disk.target_eq_of_same hsame]
    have hnode := (Disk.nodeAt?_of_open? hpath).symm.trans (hplace ▸ Disk.nodeAt?_of_open? hq)
    exact (Node.file.inj (Option.some.inj hnode)).1

namespace Rename

variable {e : Engine} {old new : String}

theorem read_of_readText {s : Store} {path : Path} {text : String}
    (h : readText s path = .ok text) : s.read path = .ok (bytes text) := by
  obtain ⟨was, hwas, hdecode⟩ := bind_eq_ok_iff.mp h
  cases hwhole : Utf8.decode? was with
  | none =>
    rw [hwhole] at hdecode
    cases hdecode
  | some t =>
    rw [hwhole] at hdecode
    obtain rfl := Except.ok.inj hdecode
    rw [mapError_eq_ok_iff.mp hwas, Utf8.bytes_of_decode? hwhole]

/-- The lexical source leaves a file or has its words of code replaced. -/
theorem inFile_lexical (hsource : e.source = Source.lexical) (hold : old ≠ "") {s t : Store}
    {path : Path} {changes : List Change} (h : inFile e s path old new none = .ok (t, changes)) :
    ∃ was, s.read path = .ok was ∧
      (t = s ∧ path.rename (bytes old) (bytes new) was = was ∨
        s.write path (path.rename (bytes old) (bytes new) was) = .ok t) := by
  obtain ⟨⟨content, found⟩, hlocate, h⟩ := bind_eq_ok_iff.mp h
  obtain ⟨text, htext, hlocate⟩ := bind_eq_ok_iff.mp hlocate
  obtain ⟨occurrences, hfound, hpair⟩ := bind_eq_ok_iff.mp hlocate
  obtain ⟨rfl, rfl⟩ := Prod.mk.inj (Except.ok.inj hpair)
  have hfound := mapError_eq_ok_iff.mp hfound
  rw [hsource] at hfound
  refine ⟨bytes text, read_of_readText htext, ?_⟩
  by_cases hempty : occurrences.isEmpty = true
  · simp only [hempty, if_true] at h
    obtain ⟨rfl, _⟩ := Prod.mk.inj (Except.ok.inj h)
    obtain ⟨found', hfound', _, hcount⟩ := Rewrite.standsApartAt_lexical path s.disk text hold
    obtain rfl := Except.ok.inj (hfound.symm.trans hfound')
    refine .inl ⟨rfl, path.rename_eq_self _ (List.count_eq_zero.mp ?_)⟩
    rw [← hcount, List.isEmpty_iff.mp hempty]
    rfl
  · simp only [hempty] at h
    obtain ⟨⟨rewritten, made⟩, hrewrite, h⟩ := bind_eq_ok_iff.mp h
    obtain ⟨store, hwrite, h⟩ := bind_eq_ok_iff.mp h
    obtain ⟨rfl, _⟩ := Prod.mk.inj (Except.ok.inj h)
    rw [← Rewrite.eq_rename_of_rewrite hold hfound (mapError_eq_ok_iff.mp hrewrite)]
    exact .inr (mapError_eq_ok_iff.mp hwrite)

/-- Under whatever spelling a file is visited, its words of code are replaced. -/
theorem acts_lexical (hsource : e.source = Source.lexical) (hold : old ≠ "") {s : Store}
    (hreal : s.IsReal) (q path : Path) :
    Acts e old new none path (path.Renames (bytes old) (bytes new)) (s, q) := by
  intro t changes c c' hfile halias hc hc'
  obtain ⟨was, hwas, hresult⟩ := inFile_lexical hsource hold hfile
  obtain ⟨p, mode, hq, hpath⟩ := hreal.open?_eq_of_aliases halias hwas hc
  have hlanguage := hreal.tree.ofPath_eq hq hpath
  have hrename : ∀ content, q.rename (bytes old) (bytes new) content =
      path.rename (bytes old) (bytes new) content := by
    intro content
    unfold Path.rename Path.tokens
    rw [hlanguage]
  obtain rfl : c = was := by
    obtain ⟨_, _, hopen⟩ := hreal.open?_of_read hc
    exact (Node.file.inj (Prod.mk.inj (Except.ok.inj (hopen.symm.trans hpath))).2).1
  rw [Path.Renames, ← hrename]
  rcases hresult with ⟨rfl, hkept⟩ | hwrite
  · rw [hkept]
    exact Except.ok.inj (hc'.symm.trans hc)
  · exact hreal.eq_of_write hwrite halias hwas hc hc'

/-- In an overlay only the visits under spellings of a path replace the words of code of its
file. -/
theorem actsOrSpares_lexical (hsource : e.source = Source.lexical) (hold : old ≠ "") {s : Store}
    (h : s.IsSteady) (q path : Path) :
    ActsOrSpares e old new none path (path.Renames (bytes old) (bytes new)) (s, q) := by
  cases hover : s.overlay with
  | none =>
    have hreal : s.IsReal := ⟨hover, h hover⟩
    exact (acts_lexical hsource hold hreal q path).orSpares
  | some o =>
    have hdry : s.overlay.isSome = true := by
      rw [hover]
      rfl
    constructor
    · intro t changes c c' hfile _ hc hc'
      obtain ⟨was, hwas, ⟨rfl, _⟩ | hwrite⟩ := inFile_lexical hsource hold hfile
      · exact .inl (Except.ok.inj (hc'.symm.trans hc))
      · have hafter := Except.ok.inj (hc'.symm.trans (Store.read_of_write_overlay hdry hwrite hc))
        by_cases hsame : q.same path = true
        · have hlanguage : Language.ofPath q = Language.ofPath path := by
            unfold Language.ofPath Path.extension? Path.fileName?
            rw [beq_iff_eq.mp hsame]
          rw [if_pos hsame, ← Store.eq_of_read_of_same hsame hwas hc] at hafter
          unfold Path.rename Path.tokens at hafter
          rw [hlanguage] at hafter
          exact .inr hafter
        · rw [if_neg hsame] at hafter
          exact .inl hafter
    · rintro rfl t changes c c' hfile _ hc hc'
      obtain ⟨was, hwas, hresult⟩ := inFile_lexical hsource hold hfile
      obtain rfl := Except.ok.inj (hc.symm.trans hwas)
      rcases hresult with ⟨rfl, hkept⟩ | hwrite
      · rw [Path.Renames, hkept]
        exact Except.ok.inj (hc'.symm.trans hc)
      · have hafter := Except.ok.inj (hc'.symm.trans (Store.read_of_write_overlay hdry hwrite hc))
        rwa [if_pos (Overlay.same_self q)] at hafter

/-! ### Whole renames -/

/-- A rename looks at its files in steady stores and leaves one. -/
theorem Progress.visits_isSteady {range : Option LineRange} {p : Progress} (hp : p.store.IsSteady)
    (paths : List Path) :
    (∀ v ∈ p.visits e old new range paths, v.1.IsSteady) ∧
      (paths.foldl (Progress.visit e old new range) p).store.IsSteady := by
  induction paths generalizing p with
  | nil => exact ⟨fun v hv => absurd hv List.not_mem_nil, hp⟩
  | cons path rest ih =>
    have hnext : (p.visit e old new range path).store.IsSteady := by
      cases hstopped : p.stopped with
      | some cause =>
        rw [visit_of_stopped (by rw [hstopped]; rfl)]
        exact hp
      | none =>
        cases visited e old new range hstopped path with
        | unchanged _ hstore | failed _ _ hstore | stopped _ _ hstore => exact hstore ▸ hp
        | changed _ _ hrewrites =>
          obtain ⟨_, _, _, _, _, _, _, hwrite⟩ := hrewrites.exists_text
          exact hp.write hwrite
    obtain ⟨hvisits, hlast⟩ := ih hnext
    exact ⟨List.forall_mem_cons.mpr ⟨hp, hvisits⟩, hlast⟩

theorem run_isSteady {s : Store} (h : s.IsSteady) (scope : Scope) :
    (∀ v ∈ visits e s old new scope, v.1.IsSteady) ∧ (run e s old new scope).store.IsSteady := by
  unfold visits run
  cases hpaths : candidates e s old scope with
  | error cause =>
    refine ⟨fun v hv => absurd hv List.not_mem_nil, ?_⟩
    cases Mapping.validateNames old new <;> exact h
  | ok paths =>
    obtain ⟨hvisits, hlast⟩ := @Progress.visits_isSteady e old new scope.range?
      { store := s, remarks := searchRemarks e old paths scope } h paths
    refine ⟨hvisits, ?_⟩
    cases Mapping.validateNames old new with
    | error fault => exact h
    | ok _ => exact hlast

end Rename

end SymbolRename
