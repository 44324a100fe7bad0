import SymbolRename.Proofs.PathSet
import SymbolRename.Proofs.Search.Rewritten
import SymbolRename.Rename

/-!
# An overlay mirrors a disk

A store that writes to the disk and a store that keeps its writes in memory stay alike:
through the overlay every watched path shows what the written disk holds, and both look
at the same files. `Store.Mirrors.write` is the step, for one file that is written.
-/

namespace SymbolRename

/-- Seen through an overlay on `d`, a path shows what it leads to on `e`. -/
def Overlay.Shows (o : Overlay) (d e : Disk) (path : Path) : Prop :=
  match o.content? path with
  | none => e.open? path = d.open? path
  | some content => ∃ p old mode, d.open? path = .ok (p, .file old mode) ∧
      e.open? path = .ok (p, .file content mode)

/-- The path and each of the files agree when they are spelled alike or lead to one place. -/
def Disk.SpelledOnce (d : Disk) (files : List Path) (path : Path) : Prop :=
  ∀ file ∈ files, (path.same file = true ∨
    (d.place? path).isSome = true ∧ d.place? path = d.place? file) → path = file

instance (d : Disk) (files : List Path) (path : Path) : Decidable (d.SpelledOnce files path) := by
  unfold Disk.SpelledOnce
  infer_instance

/-- What a search looks at on a disk, for whatever name. -/
def Search.files (f : Filter) (roots : List Path) (d : Disk) : Except InputFault (List Path) := do
  let includes ← globs? f.includes
  let excludes ← globs? f.excludes
  return searched { disk := d } roots f includes excludes

/-- What stays the same about the files that are looked at: each is spelled one way, none
is an ignore file, and they are watched. -/
structure Store.Setting (f : Filter) (d : Disk) (files : List Path) (watched : Path → Prop) :
    Prop where
  watches : ∀ path ∈ files, watched path
  spelled : ∀ path, watched path → d.SpelledOnce files path
  plain : ∀ path ∈ files, ∀ p ∈ d.place? path, ¬ Ignore.IsRules f.level p

/-- A store over a disk, and one that keeps the same writes over the disk `d`. -/
structure Store.Mirrors (f : Filter) (roots : List Path) (d : Disk) (files : List Path)
    (watched : Path → Prop) (real dry : Store) : Prop where
  plain : real.overlay = none
  readable : real.unreadable = []
  base : dry.disk = d
  dryReadable : dry.unreadable = []
  dryWritable : dry.unwritable = []
  shows : ∃ o, dry.overlay = some o ∧ ∀ path, watched path → o.Shows d real.disk path
  looks : Search.files f roots real.disk = .ok files
  free : ∀ path ∈ files, real.disk.ScratchFree path

/-- Both stores are the same before anything is written. -/
theorem Store.Mirrors.start {f : Filter} {roots : List Path} {d : Disk} {files : List Path}
    (watched : Path → Prop) (hlooks : Search.files f roots d = .ok files)
    (hfree : ∀ path ∈ files, d.ScratchFree path) :
    Mirrors f roots d files watched { disk := d } { disk := d, overlay := some [] } :=
  ⟨rfl, rfl, rfl, rfl, rfl, ⟨[], rfl, fun _ _ => rfl⟩, hlooks, hfree⟩

/-- The store that writes to the disk reads the disk. -/
theorem Store.Mirrors.read_disk {f : Filter} {roots : List Path} {d : Disk} {files : List Path}
    {watched : Path → Prop} {real dry : Store} (h : Mirrors f roots d files watched real dry)
    {path : Path} : real.read path = readDisk real.disk path := by
  unfold Store.read
  rw [h.readable, h.plain]
  rfl

/-- Both stores read the same. -/
theorem Store.Mirrors.read {f : Filter} {roots : List Path} {d : Disk} {files : List Path}
    {watched : Path → Prop} {real dry : Store} (h : Mirrors f roots d files watched real dry)
    {path : Path} (hpath : watched path) : dry.read path = real.read path := by
  obtain ⟨o, ho, hshows⟩ := h.shows
  have hshow := hshows path hpath
  unfold Overlay.Shows at hshow
  unfold Store.read
  rw [h.readable, h.dryReadable, ho, h.plain, h.base]
  simp only [List.any_nil, Bool.false_eq_true, if_false, Option.bind_none, Option.bind_some]
  cases hc : o.content? path with
  | none =>
    rw [hc] at hshow
    simp only [readDisk_eq, hshow]
  | some content =>
    rw [hc] at hshow
    obtain ⟨p, old, mode, _, hreal⟩ := hshow
    simp only [readDisk_eq, hreal]

theorem Search.files_eq_ok_iff {f : Filter} {roots : List Path} {d : Disk} {files : List Path} :
    Search.files f roots d = .ok files ↔ ∃ includes excludes, globs? f.includes = .ok includes ∧
      globs? f.excludes = .ok excludes ∧ searched { disk := d } roots f includes excludes = files := by
  unfold Search.files
  simp only [bind_eq_ok_iff]
  constructor
  · rintro ⟨includes, hin, excludes, hex, h⟩
    exact ⟨includes, excludes, hin, hex, Except.ok.inj h⟩
  · rintro ⟨includes, excludes, hin, hex, rfl⟩
    exact ⟨includes, hin, excludes, hex, rfl⟩

/-- A search that finds candidates looks at files, whatever its roots are. -/
theorem Search.exists_files_of_candidates {f : Filter} {roots : List Path} {s : Store}
    {needles : List String} {found : List Path} (h : candidates s roots f needles = .ok found)
    (hneedle : ((needles.filter (· != "")).map bytes).isEmpty = false) (roots' : List Path)
    (d : Disk) : ∃ files, Search.files f roots' d = .ok files := by
  unfold candidates at h
  simp only [hneedle, Bool.false_eq_true, if_false] at h
  obtain ⟨includes, hin, h⟩ := bind_eq_ok_iff.mp h
  obtain ⟨excludes, hex, _⟩ := bind_eq_ok_iff.mp h
  exact ⟨_, files_eq_ok_iff.mpr
    ⟨includes, excludes, mapError_eq_ok_iff.mp hin, mapError_eq_ok_iff.mp hex, rfl⟩⟩

/-- The candidates of a search are the files looked at that hold a needle. -/
theorem Search.candidates_eq {f : Filter} {roots : List Path} {s : Store} {files : List Path}
    (h : Search.files f roots s.disk = .ok files) (needles : List String) :
    candidates s roots f needles = .ok
      (if ((needles.filter (· != "")).map bytes).isEmpty then []
      else PathSet.ofList (files.filter (holds s f ((needles.filter (· != "")).map bytes)))) := by
  obtain ⟨includes, excludes, hin, hex, hfiles⟩ := files_eq_ok_iff.mp h
  have hsearched : searched s roots f includes excludes = files := hfiles
  unfold candidates
  simp only [hin, hex, mapError_ok]
  split
  · rfl
  · rw [← hsearched]
    rfl

/-- A search for a name finds the file if it holds the name. -/
def Search.Finds (s : Store) (roots : List Path) (f : Filter) (path : Path) (name : String) :
    Prop :=
  ∀ found, candidates s roots f [name] = .ok found → ∀ content, s.read path = .ok content →
    Bytes.contains (bytes name) content = true → path ∈ found

/-- A search finds the files it looks at that are spelled one way and count as text. -/
theorem Search.finds_of_files {f : Filter} {roots : List Path} {s : Store} {files : List Path}
    (h : Search.files f roots s.disk = .ok files) {path : Path} (hpath : path ∈ files)
    (honce : ∀ q ∈ files, q.same path = true → q = path)
    (htext : ∀ content, s.read path = .ok content →
      binaryAsText f = true ∨ isBinary content = false) {name : String} (hname : name ≠ "") :
    Finds s roots f path name := by
  intro found hfound content hread hcontains
  have hneedles : ([name].filter (· != "")).map bytes = [bytes name] := by simp [hname]
  have hcandidates := candidates_eq h [name]
  rw [hneedles] at hcandidates
  obtain rfl := Except.ok.inj (hcandidates.symm.trans hfound)
  have hholds : holds s f [bytes name] path = true := by
    unfold holds
    rw [hread]
    rcases htext content hread with hsearched | hsearched <;> simp [hsearched, hcontains]
  obtain ⟨q, hq, hsame⟩ := PathSet.exists_same_ofList (List.mem_filter.mpr ⟨hpath, hholds⟩)
  obtain rfl := honce q (List.mem_filter.mp (PathSet.mem_of_mem_ofList hq)).1 hsame
  exact hq

/-- Both stores find the same candidates, which are among the files looked at. -/
theorem Store.Mirrors.candidates {f : Filter} {roots : List Path} {d : Disk} {files : List Path}
    {watched : Path → Prop} {real dry : Store} (h : Mirrors f roots d files watched real dry)
    (hlooks : Search.files f roots d = .ok files) (hset : Setting f d files watched)
    (needles : List String) :
    ∃ found, Search.candidates real roots f needles = .ok found ∧
      Search.candidates dry roots f needles = .ok found ∧ ∀ path ∈ found, path ∈ files := by
  have hdry : Search.files f roots dry.disk = .ok files := by
    rw [h.base]
    exact hlooks
  have hholds : files.filter (Search.holds dry f ((needles.filter (· != "")).map bytes)) =
      files.filter (Search.holds real f ((needles.filter (· != "")).map bytes)) := by
    refine List.filter_congr fun path hpath => ?_
    unfold Search.holds
    rw [h.read (hset.watches path hpath)]
  refine ⟨_, Search.candidates_eq h.looks needles, ?_, fun path hpath => ?_⟩
  · rw [Search.candidates_eq hdry needles, hholds]
  · split at hpath
    · exact absurd hpath List.not_mem_nil
    · exact (List.mem_filter.mp (PathSet.mem_of_mem_ofList hpath)).1

/-- A file that the overlay shows is on the disk below it. -/
theorem Overlay.Shows.open?_file {o : Overlay} {d e : Disk} {path : Path} (h : o.Shows d e path)
    {p : Place} {content : Bytes} {mode : Nat} (hopen : e.open? path = .ok (p, .file content mode)) :
    ∃ old, d.open? path = .ok (p, .file old mode) := by
  unfold Shows at h
  split at h
  · exact ⟨content, h.symm.trans hopen⟩
  · obtain ⟨q, old, mode', hd, he⟩ := h
    obtain ⟨rfl, hfile⟩ := Prod.mk.inj (Except.ok.inj (he.symm.trans hopen))
    obtain ⟨_, rfl⟩ := Node.file.inj hfile
    exact ⟨old, hd⟩

/-- The overlay shows what a path leads to at the same place. -/
theorem Overlay.Shows.place {o : Overlay} {d e : Disk} {path : Path} (h : o.Shows d e path)
    {p : Place} {n : Node} (hopen : e.open? path = .ok (p, n)) :
    ∃ m, d.open? path = .ok (p, m) := by
  unfold Shows at h
  split at h
  · exact ⟨n, h.symm.trans hopen⟩
  · obtain ⟨q, old, mode, hd, he⟩ := h
    obtain ⟨rfl, _⟩ := Prod.mk.inj (Except.ok.inj (he.symm.trans hopen))
    exact ⟨_, hd⟩

/-- Writing one of the files to the disk and keeping it in the overlay shows the same. -/
theorem Overlay.Shows.keep {o : Overlay} {d e e' : Disk} {path file : Path} {files : List Path}
    {p : Place} {content : Bytes} {mode : Nat} (h : o.Shows d e path)
    (hspelled : d.SpelledOnce files path) (hfile : file ∈ files)
    (hopen : ∃ old, d.open? file = .ok (p, .file old mode))
    (hrewritten : e.Rewritten (· = p) e') (hat : e'.nodeAt? p = some (.file content mode))
    (hreal : ∃ old, e.open? file = .ok (p, .file old mode)) :
    (o.keep file content).Shows d e' path := by
  obtain ⟨old, hold⟩ := hopen
  obtain ⟨was, hwas⟩ := hreal
  by_cases hsame : path = file
  · subst hsame
    unfold Shows
    rw [content?_keep_self]
    rcases hrewritten.open? path with ⟨fault, he, _⟩ | ⟨q, n, m, he, he', _⟩
    · rw [hwas] at he
      cases he
    · obtain ⟨rfl, _⟩ := Prod.mk.inj (Except.ok.inj (hwas.symm.trans he))
      obtain rfl := Option.some.inj ((Disk.nodeAt?_of_open? he').symm.trans hat)
      exact ⟨p, old, mode, hold, he'⟩
  · have hdiffer : file.same path = false := by
      refine Bool.eq_false_iff.mpr fun hspell => hsame (hspelled file hfile (.inl ?_))
      rw [Path.same, beq_iff_eq] at hspell ⊢
      exact hspell.symm
    -- The path leads elsewhere, so what it leads to was not touched.
    have hother : e'.open? path = e.open? path := by
      rcases hrewritten.open? path with ⟨fault, he, he'⟩ | ⟨q, n, m, he, he', _, hkept⟩
      · rw [he, he']
      · have hne : q ≠ p := by
          rintro rfl
          have hmine := Disk.place?_eq_some_iff.mpr (h.place he)
          have hits := Disk.place?_eq_some_iff.mpr ⟨_, hold⟩
          refine hsame (hspelled file hfile (.inr ⟨?_, hmine.trans hits.symm⟩))
          rw [hmine]
          rfl
        rw [he, he', hkept hne]
    unfold Shows at h ⊢
    rw [content?_keep_of_not_same hdiffer, hother]
    exact h

/-- One file that is written: when the disk takes it, so does the overlay, and both stay
alike. -/
theorem Store.Mirrors.write {f : Filter} {roots : List Path} {d : Disk} {files : List Path}
    {watched : Path → Prop} {real dry real' : Store}
    (h : Mirrors f roots d files watched real dry) (hset : Setting f d files watched)
    {path : Path} (hpath : path ∈ files) {content : Bytes}
    (hwrite : real.write path content = .ok real') :
    ∃ dry', dry.write path content = .ok dry' ∧ Mirrors f roots d files watched real' dry' := by
  obtain ⟨e, hreplace, rfl⟩ := Store.exists_replace_of_write h.plain hwrite
  obtain ⟨p, old, mode, hopen, hrewritten, hat⟩ :=
    Disk.rewritten_of_replace hreplace (h.free path hpath)
  obtain ⟨o, ho, hshows⟩ := h.shows
  have hwatched := hset.watches path hpath
  obtain ⟨first, hfirst⟩ := (hshows path hwatched).open?_file hopen
  have hisFile : d.isFile path = true := Disk.isFile_iff.mpr ⟨_, _, _, hfirst⟩
  refine ⟨{ dry with overlay := some (o.keep path content) }, ?_, ?_⟩
  · unfold Store.write
    rw [h.dryWritable, ho, h.base]
    simp only [List.any_nil, Bool.false_eq_true, if_false, hisFile, if_true]
  · refine ⟨h.plain, h.readable, h.base, h.dryReadable, h.dryWritable, ⟨_, rfl, ?_⟩, ?_, ?_⟩
    · intro other hother
      exact (hshows other hother).keep (hset.spelled other hother) hpath ⟨first, hfirst⟩
        hrewritten hat ⟨old, hopen⟩
    · obtain ⟨includes, excludes, hin, hex, hfiles⟩ := Search.files_eq_ok_iff.mp h.looks
      refine Search.files_eq_ok_iff.mpr ⟨includes, excludes, hin, hex, ?_⟩
      rw [← hfiles]
      refine Search.searched_rewritten hrewritten (fun q hq heq => ?_) _ _ _
      exact hset.plain path hpath p (Disk.place?_eq_some_iff.mpr ⟨_, hfirst⟩) (heq ▸ hq)
    · exact fun other hother => hrewritten.scratchFree (h.free other hother)

end SymbolRename
