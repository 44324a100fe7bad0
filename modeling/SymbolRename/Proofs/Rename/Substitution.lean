import SymbolRename.Proofs.Lexer.Substitution
import SymbolRename.Proofs.Rewrite.Splice
import SymbolRename.Proofs.Store.Mirror
import Mathlib.Algebra.BigOperators.Group.Finset.Basic

/-!
# A rename replaces the words of code

Through an overlay the searched files have contents that one rename takes to those with the
old name replaced wherever it is a word of code; all other files stay. The files that the
search passes over do not hold the name, so nothing is missed, and each candidate is visited
once.
-/

namespace SymbolRename

/-- The words of code in a file of this path. -/
def Path.codeWords (path : Path) (content : Bytes) : List Bytes :=
  Lexer.codeWords (Language.ofPath path).syntactics content

/-- The content of a file of this path with all its words of code replaced at once. -/
def Path.substitute (path : Path) (f : Bytes → Bytes) (content : Bytes) : Bytes :=
  Lexer.substitute (Language.ofPath path).syntactics f content

/-- A content that is not too large, and not passed over as binary data. -/
structure Search.Reaches (f : Filter) (content : Bytes) : Prop where
  size : content.length < Count.limit
  searched : binaryAsText f = true ∨ isBinary content = false

/-- A content that a rename can work with: a text of a language whose words stand apart that
the search reaches. -/
structure Rename.Legible (f : Filter) (path : Path) (content : Bytes) : Prop
    extends Search.Reaches f content where
  plain : (Language.ofPath path).IsPlain = true
  text : Utf8.IsText content

/-- Through the overlay of a store over the disk `d` the files have the contents of a view,
and every other file has what is on the disk. -/
structure Store.Views (d : Disk) (files : List Path) (view : Path → Bytes) (s : Store) :
    Prop where
  base : s.disk = d
  readable : s.unreadable = []
  writable : s.unwritable = []
  overlay : s.overlay.isSome = true
  reads : ∀ path ∈ files, s.read path = .ok (view path)
  others : ∀ path, d.SpelledOnce files path → path ∉ files → s.read path = readDisk d path

theorem Store.Views.congr {d : Disk} {files : List Path} {view view' : Path → Bytes} {s : Store}
    (h : Views d files view s) (heq : ∀ path ∈ files, view path = view' path) :
    Views d files view' s :=
  ⟨h.base, h.readable, h.writable, h.overlay,
    fun path hpath => (h.reads path hpath).trans (congrArg _ (heq path hpath)), h.others⟩

/-- Another path does not show what was written. -/
theorem Store.read_keep_of_not_same {s : Store} (hreadable : s.unreadable = []) {o : Overlay}
    (ho : s.overlay = some o) {path other : Path} (hother : path.same other = false)
    (content : Bytes) :
    Store.read { s with overlay := some (o.keep path content) } other = s.read other := by
  unfold Store.read
  simp only [hreadable, ho, Option.bind_some, Overlay.content?_keep_of_not_same hother]

theorem Store.read_keep_self {s : Store} (hreadable : s.unreadable = []) (o : Overlay)
    (path : Path) (content : Bytes) :
    Store.read { s with overlay := some (o.keep path content) } path = .ok content := by
  unfold Store.read
  simp only [hreadable, List.any_nil, Bool.false_eq_true, if_false, Option.bind_some,
    Overlay.content?_keep_self]

/-- Writing a file changes the view of this file. -/
theorem Store.Views.write {d : Disk} {files : List Path} {view : Path → Bytes} {s : Store}
    (h : Views d files view s) (hspelled : ∀ path ∈ files, d.SpelledOnce files path) {path : Path}
    (hpath : path ∈ files) (hfile : d.isFile path = true) (content : Bytes) :
    ∃ t, s.write path content = .ok t ∧ Views d files (Function.update view path content) t := by
  obtain ⟨o, ho⟩ := Option.isSome_iff_exists.mp h.overlay
  have hdiffer : ∀ other, d.SpelledOnce files other → other ≠ path → path.same other = false := by
    intro other hother hne
    refine Bool.eq_false_iff.mpr fun hsame => hne (hother path hpath (.inl ?_))
    rw [Path.same, beq_iff_eq] at hsame ⊢
    exact hsame.symm
  refine ⟨{ s with overlay := some (o.keep path content) }, ?_,
    ⟨h.base, h.readable, h.writable, rfl, fun other hother => ?_, fun other hother hnot => ?_⟩⟩
  · unfold Store.write
    simp only [h.writable, ho, h.base, hfile, List.any_nil, Bool.false_eq_true, if_false, if_true]
  · by_cases hsame : other = path
    · subst hsame
      rw [read_keep_self h.readable, Function.update_self]
    · rw [read_keep_of_not_same h.readable ho (hdiffer other (hspelled other hother) hsame),
        Function.update_of_ne hsame, h.reads other hother]
  · have hne : other ≠ path := fun heq => hnot (heq ▸ hpath)
    rw [read_keep_of_not_same h.readable ho (hdiffer other hother hne), h.others other hother hnot]

/-! ### One file -/

theorem isIdentifierRest_lt {b : UInt8} (h : isIdentifierRest b = true) : b < 0x80 := by
  simp only [isIdentifierRest, isIdentifierStart, Bytes.isLetter, Bytes.isDigit, Bool.or_eq_true,
    Bool.and_eq_true, decide_eq_true_eq, beq_iff_eq, UInt8.le_iff_toNat_le] at h
  rw [UInt8.lt_iff_toNat_lt]
  rcases h with (((⟨_, h⟩ | ⟨_, h⟩) | h) | h) | ⟨_, h⟩
  · exact Nat.lt_of_le_of_lt h (by decide)
  · exact Nat.lt_of_le_of_lt h (by decide)
  · rw [h]
    decide
  · rw [h]
    decide
  · exact Nat.lt_of_le_of_lt h (by decide)

/-- A valid identifier is ASCII. -/
theorem lt_of_isValidIdentifier {name : String} (h : isValidIdentifier name = true) :
    ∀ b ∈ bytes name, b < 0x80 := by
  unfold isValidIdentifier at h
  cases hb : bytes name with
  | nil => simp
  | cons c rest =>
    rw [hb] at h
    simp only [isIdentifierBytes, Bool.and_eq_true, List.all_eq_true] at h
    intro x hx
    rcases List.mem_cons.mp hx with rfl | hx
    · exact isIdentifierRest_lt (by simp [isIdentifierRest, h.1])
    · exact isIdentifierRest_lt (h.2 x hx)

theorem ne_empty_of_isValidIdentifier {name : String} (h : isValidIdentifier name = true) :
    name ≠ "" := by
  rintro rfl
  simp [isValidIdentifier, isIdentifierBytes] at h

/-- What a rename makes of the content of a file. -/
def Rename.renamed (old new : String) (path : Path) (content : Bytes) : Bytes :=
  path.substitute (Bytes.replaceWord (bytes old) (bytes new)) content

/-- How often a name is a word of code in the content of a file. -/
def Rename.uses (name : String) (path : Path) (content : Bytes) : Nat :=
  (path.codeWords content).count (bytes name)

/-- A content that does not use the old name stays. -/
theorem Rename.renamed_eq_self {old : String} {path : Path} {content : Bytes}
    (h : uses old path content = 0) (new : String) : renamed old new path content = content := by
  refine Lexer.substitute_eq_self fun w hw => ?_
  have hne : w ≠ bytes old := by
    rintro rfl
    exact List.count_eq_zero.mp h hw
  rw [Bytes.replaceWord, if_neg hne]

/-- One file is renamed in: its content becomes the renamed one, with a change for each use. -/
theorem Store.Views.inFile {e : Engine} (hsource : e.source = Source.lexical) {d : Disk}
    {files : List Path} {view : Path → Bytes} {s : Store} (h : Views d files view s)
    (hspelled : ∀ path ∈ files, d.SpelledOnce files path) {path : Path} (hpath : path ∈ files)
    (hfile : d.isFile path = true) {old new : String} (hnames : Mapping.IsProper ⟨old, new⟩)
    (hlegible : Rename.Legible e.filter path (view path)) :
    ∃ t changes, Rename.inFile e s path old new none = .ok (t, changes) ∧
      changes.length = Rename.uses old path (view path) ∧
      Views d files (Function.update view path (Rename.renamed old new path (view path))) t := by
  obtain ⟨content, hcontent⟩ := hlegible.text
  have hold := ne_empty_of_isValidIdentifier hnames.1
  have hsyn := Language.plain_syntactics hlegible.plain
  obtain ⟨found, changes, hfound, hrewrite, hlength, hchanges⟩ :=
    Rewrite.rewrite_lexical path s.disk content (hcontent ▸ hlegible.size) hold new
  have hrenamed : path.rename (bytes old) (bytes new) (bytes content) =
      Rename.renamed old new path (view path) := by
    rw [hcontent]
    exact (Lexer.substitute_eq hsyn _ _).symm
  have hread : Rename.readText s path = .ok content := by
    unfold Rename.readText
    rw [h.reads path hpath, hcontent]
    simp [bind, Except.bind]
  have hlocate : Rename.locate e s path old none = .ok (content, found) := by
    unfold Rename.locate
    rw [hread, hsource]
    simp only [bind, Except.bind, hfound]
    rfl
  have huses : found.length = Rename.uses old path (view path) := by
    rw [hlength, hcontent, Rename.uses, Path.codeWords, Lexer.codeWords_eq hsyn]
    rfl
  unfold Rename.inFile
  rw [hlocate]
  simp only [bind, Except.bind]
  by_cases hempty : found.isEmpty = true
  · have hzero : Rename.uses old path (view path) = 0 := by
      rw [← huses, List.isEmpty_iff.mp hempty]
      rfl
    refine ⟨s, [], by simp only [hempty, if_true]; rfl, hzero.symm, ?_⟩
    rw [Rename.renamed_eq_self hzero, Function.update_eq_self]
    exact h
  · obtain ⟨t, hwrite, hviews⟩ := h.write hspelled hpath hfile
      (Rename.renamed old new path (view path))
    refine ⟨t, changes, ?_, hchanges.trans huses, hviews⟩
    rw [← hrenamed] at hwrite
    simp only [hempty, hrewrite, mapError_ok, hwrite, Bool.false_eq_true, if_false]
    rfl

/-! ### All files -/

/-- A rename under way that has changed so many places and met no failure, with the contents
that the files have by now. -/
structure Rename.Progress.Views (d : Disk) (files : List Path) (view : Path → Bytes)
    (count : Nat) (p : Progress) : Prop where
  store : p.store.Views d files view
  changes : p.outcome.changes.length = count
  failures : p.outcome.failures = []
  stopped : p.stopped = none

theorem Rename.Progress.Views.visit {e : Engine} (hsource : e.source = Source.lexical) {d : Disk}
    {files : List Path} {view : Path → Bytes} {count : Nat} {p : Progress}
    (h : Views d files view count p) (hspelled : ∀ path ∈ files, d.SpelledOnce files path)
    {path : Path} (hpath : path ∈ files) (hfile : d.isFile path = true) {old new : String}
    (hnames : Mapping.IsProper ⟨old, new⟩) (hlegible : Legible e.filter path (view path)) :
    Views d files (Function.update view path (renamed old new path (view path)))
      (count + uses old path (view path)) (p.visit e old new none path) := by
  obtain ⟨t, changes, hinFile, hlength, hviews⟩ :=
    h.store.inFile hsource hspelled hpath hfile hnames hlegible
  unfold Progress.visit
  simp only [h.stopped, Option.isSome_none, Bool.false_eq_true, if_false, hinFile]
  cases changes with
  | nil =>
    have hzero : uses old path (view path) = 0 := hlength.symm
    rw [renamed_eq_self hzero, Function.update_eq_self, hzero]
    exact ⟨h.store, h.changes, h.failures, rfl⟩
  | cons change rest =>
    rw [← hlength, ← h.changes]
    exact ⟨hviews, List.length_append, h.failures, rfl⟩

/-- Visiting files once each renames in these; the induction is on the files that are left. -/
theorem Rename.Progress.Views.visits {e : Engine} (hsource : e.source = Source.lexical) {d : Disk}
    {files : List Path} {view : Path → Bytes} {count : Nat} {p : Progress}
    (h : Views d files view count p) (hspelled : ∀ path ∈ files, d.SpelledOnce files path)
    (hfiles : ∀ path ∈ files, d.isFile path = true) {old new : String}
    (hnames : Mapping.IsProper ⟨old, new⟩)
    {paths : List Path} (hlegible : ∀ path ∈ paths, Legible e.filter path (view path))
    (hpaths : ∀ path ∈ paths, path ∈ files) (hnodup : paths.Nodup) :
    Views d files
      (fun path => if path ∈ paths then renamed old new path (view path) else view path)
      (count + ∑ path ∈ paths.toFinset, uses old path (view path))
      (paths.foldl (Progress.visit e old new none) p) := by
  induction paths generalizing view count p with
  | nil => simpa using h
  | cons path rest ih =>
    have hpath := hpaths path List.mem_cons_self
    obtain ⟨hnot, hnodup⟩ := List.nodup_cons.mp hnodup
    have hvisit := h.visit hsource hspelled hpath (hfiles path hpath) hnames
      (hlegible path List.mem_cons_self)
    -- The files that are left have the contents they had before the visit.
    have hkept : ∀ other ∈ rest, Function.update view path (renamed old new path (view path)) other =
        view other := by
      intro other hother
      have hne : other ≠ path := by
        rintro rfl
        exact hnot hother
      rw [Function.update_of_ne hne]
    have hrest := ih hvisit (fun other hother => ?_) (fun other hother =>
      hpaths other (List.mem_cons_of_mem path hother)) hnodup
    · have hsum : ∑ other ∈ rest.toFinset,
          uses old other (Function.update view path (renamed old new path (view path)) other) =
          ∑ other ∈ rest.toFinset, uses old other (view other) :=
        Finset.sum_congr rfl fun other hother => by rw [hkept other (List.mem_toFinset.mp hother)]
      rw [List.foldl_cons, List.toFinset_cons, Finset.sum_insert (by simpa using hnot), ← hsum,
        ← Nat.add_assoc]
      refine ⟨hrest.store.congr fun other hother => ?_, hrest.changes, hrest.failures,
        hrest.stopped⟩
      by_cases hmem : other ∈ rest
      · rw [if_pos hmem, if_pos (List.mem_cons_of_mem path hmem), hkept other hmem]
      · by_cases hsame : other = path
        · subst hsame
          rw [if_neg hmem, if_pos List.mem_cons_self, Function.update_self]
        · rw [if_neg hmem, if_neg (by simp [hsame, hmem]), Function.update_of_ne hsame]
    · rw [hkept other hother]
      exact hlegible other (List.mem_cons_of_mem path hother)

/-- A legible file is found when it uses the name. -/
theorem Store.Views.holds_iff {d : Disk} {files : List Path} {view : Path → Bytes} {s : Store}
    (h : Views d files view s) {f : Filter} {path : Path} (hpath : path ∈ files)
    (hlegible : Rename.Legible f path (view path)) (name : String) :
    Search.holds s f [bytes name] path = Bytes.contains (bytes name) (view path) := by
  unfold Search.holds
  rw [h.reads path hpath]
  rcases hlegible.searched with hsearched | hsearched <;> simp [hsearched]

/-- A whole rename: every file becomes the renamed one, with as many changes as there are
uses, and no file fails. -/
theorem Store.Views.run {e : Engine} (hsource : e.source = Source.lexical) {d : Disk}
    {files : List Path} {view : Path → Bytes} {s : Store} (h : Views d files view s)
    (hspelled : ∀ path ∈ files, d.SpelledOnce files path)
    (hfiles : ∀ path ∈ files, d.isFile path = true) {old new : String}
    (hnames : Mapping.IsProper ⟨old, new⟩) {roots : List Path}
    (hlooks : Search.files e.filter roots d = .ok files)
    (hlegible : ∀ path ∈ files, Rename.Legible e.filter path (view path)) :
    (Rename.run e s old new (.project roots)).Views d files
      (fun path => Rename.renamed old new path (view path))
      (∑ path ∈ files.toFinset, Rename.uses old path (view path)) := by
  have hname := ne_empty_of_isValidIdentifier hnames.1
  have hlooks' : Search.files e.filter roots s.disk = .ok files := by
    rw [h.base]
    exact hlooks
  have hneedles : ([old].filter (· != "")).map bytes = [bytes old] := by
    simp [hname]
  have hcandidates : Rename.candidates e s old (.project roots) =
      .ok (PathSet.ofList (files.filter (Search.holds s e.filter [bytes old]))) := by
    show Search.candidates s roots e.filter [old] = _
    rw [Search.candidates_eq hlooks', hneedles]
    rfl
  set found := PathSet.ofList (files.filter (Search.holds s e.filter [bytes old])) with hfound
  have hsub : ∀ path ∈ found, path ∈ files := fun path hpath =>
    (List.mem_filter.mp (PathSet.mem_of_mem_ofList hpath)).1
  -- A file that is not among the candidates does not use the name.
  have hmissed : ∀ path ∈ files, path ∉ found → Rename.uses old path (view path) = 0 := by
    intro path hpath hnot
    refine List.count_eq_zero.mpr fun huse => hnot ?_
    have hholds : Search.holds s e.filter [bytes old] path = true := by
      rw [h.holds_iff hpath (hlegible path hpath)]
      exact Lexer.contains_of_mem_codeWords
        (Language.plain_syntactics (hlegible path hpath).plain) huse
    obtain ⟨q, hq, hsame⟩ := PathSet.exists_same_ofList (List.mem_filter.mpr ⟨hpath, hholds⟩)
    rw [← hspelled q (hsub q hq) path hpath (.inl hsame)]
    exact hq
  have hvisits := Rename.Progress.Views.visits hsource (p :=
      { store := s, remarks := Rename.searchRemarks e old found (.project roots) })
    ⟨h, rfl, rfl, rfl⟩ hspelled hfiles hnames (fun path hpath => hlegible path (hsub path hpath))
    hsub (PathSet.nodup_ofList _)
  have hsum : ∑ path ∈ files.toFinset, Rename.uses old path (view path) =
      ∑ path ∈ found.toFinset, Rename.uses old path (view path) := by
    refine (Finset.sum_subset (fun path hpath => ?_) fun path hpath hnot => ?_).symm
    · exact List.mem_toFinset.mpr (hsub path (List.mem_toFinset.mp hpath))
    · exact hmissed path (List.mem_toFinset.mp hpath) fun hmem => hnot (List.mem_toFinset.mpr hmem)
  unfold Rename.run
  rw [Mapping.validateNames_eq_ok_iff.mpr hnames, hcandidates, hsum]
  refine ⟨hvisits.store.congr fun path hpath => ?_, ?_, hvisits.failures, hvisits.stopped⟩
  · by_cases hmem : path ∈ found
    · rw [if_pos hmem]
    · rw [if_neg hmem, Rename.renamed_eq_self (hmissed path hpath hmem)]
  · rw [← Nat.zero_add (∑ path ∈ found.toFinset, _)]
    exact hvisits.changes

end SymbolRename
