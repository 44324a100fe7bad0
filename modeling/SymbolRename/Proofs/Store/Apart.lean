import SymbolRename.Proofs.Rename.Lexical
import SymbolRename.Proofs.Rename.Outside
import SymbolRename.Proofs.Store.Mirror

/-!
# Files apart from each other

Writes to a store change contents and nothing else: which writes are taken afterwards, and which
paths lead to one file, stays as it was (`Store.Continues`). So a file that lies apart from those
that were written is as accessible as before, with the same content (`Store.Continues.alike`).
-/

namespace SymbolRename

/-! ### Disks after some writes -/

namespace Disk.Rewritten

variable {changed changed' : Place → Prop} {d e f : Disk}

theorem mono (h : d.Rewritten changed e) (hsub : ∀ p, changed p → changed' p) :
    d.Rewritten changed' e :=
  ⟨h.here, h.process, h.nodes.imp fun _ _ hab =>
    ⟨hab.place, hab.kind, fun hnot => hab.kept fun hp => hnot (hsub _ hp)⟩⟩

theorem trans (h : d.Rewritten changed e) (h' : e.Rewritten changed f) : d.Rewritten changed f := by
  refine ⟨h'.here.trans h.here, h'.process.trans h.process, ?_⟩
  have hnodes := h.nodes
  have hnodes' := h'.nodes
  generalize d.nodes = xs at hnodes
  generalize e.nodes = ys at hnodes hnodes'
  generalize f.nodes = zs at hnodes'
  induction hnodes generalizing zs with
  | nil =>
    cases hnodes'
    exact .nil
  | cons hxy _ ih =>
    cases hnodes' with
    | cons hyz hrest =>
      refine .cons ⟨hxy.place.trans hyz.place, hxy.kind.trans hyz.kind, fun hnot => ?_⟩ (ih _ hrest)
      exact (hxy.kept hnot).trans (hyz.kept (hxy.place ▸ hnot))

/-- A place can be written, or is refused for the same reason. -/
theorem locateForWrite (h : d.Rewritten changed e) (path : Path) :
    (∃ fault, d.locateForWrite path = .error fault ∧ e.locateForWrite path = .error fault) ∨
      ∃ found found', d.locateForWrite path = .ok found ∧ e.locateForWrite path = .ok found' := by
  simp only [Disk.locateForWrite, h.locate_eq, bind, Except.bind]
  cases d.locate (withoutSlash path) with
  | error fault => exact .inl ⟨fault, rfl, rfl⟩
  | ok p =>
    dsimp only
    rcases h.nodeAt? p with ⟨hd, he⟩ | ⟨n, m, hd, he, hkind, _⟩
    · rw [hd, he]
      dsimp only
      split
      · exact .inr ⟨_, _, rfl, rfl⟩
      · exact .inl ⟨_, rfl, rfl⟩
    · rw [hd, he]
      cases hkind with
      | directory mode => exact .inl ⟨_, rfl, rfl⟩
      | file content content' mode mode' =>
        dsimp only
        split
        · exact .inr ⟨_, _, rfl, rfl⟩
        · exact .inl ⟨_, rfl, rfl⟩

/-- A file can be replaced, or this is refused for the same reason. -/
theorem replace (h : d.Rewritten changed e) (path : Path) (content : Bytes) :
    (∃ fault, d.replace path content = .error fault ∧ e.replace path content = .error fault) ∨
      ∃ d' e', d.replace path content = .ok d' ∧ e.replace path content = .ok e' := by
  have hscratch : e.scratch path = d.scratch path := by rw [scratch, scratch, h.process]
  simp only [Disk.replace, hscratch, bind, Except.bind]
  rcases h.open? path with ⟨fault, hd, he⟩ | ⟨p, n, m, hd, he, hkind, _⟩
  · rw [hd, he]
    exact .inl ⟨fault, rfl, rfl⟩
  · rw [hd, he]
    rcases h.locateForWrite (d.scratch path) with ⟨fault, hd, he⟩ | ⟨found, found', hd, he⟩
    · rw [hd, he]
      exact .inl ⟨fault, rfl, rfl⟩
    · rw [hd, he]
      cases hkind with
      | directory mode => exact .inl ⟨_, rfl, rfl⟩
      | file old old' mode mode' => exact .inr ⟨_, _, rfl, rfl⟩

/-- Every path leads to the same place, if anywhere. -/
theorem place?_eq (h : d.Rewritten changed e) (path : Path) : e.place? path = d.place? path := by
  unfold place?
  rcases h.open? path with ⟨fault, hd, he⟩ | ⟨p, n, m, hd, he, _⟩
  · rw [hd, he]
  · rw [hd, he]
    rfl

end Disk.Rewritten

/-- A file that was replaced is found with its new content. -/
theorem Disk.exists_open?_of_replace {d e : Disk} {path : Path} {content : Bytes}
    (h : d.replace path content = .ok e) :
    ∃ p mode, e.open? path = .ok (p, .file content mode) := by
  obtain ⟨p, q, old, mode, hreplaces⟩ := exists_replaces h
  obtain ⟨hlocate, _⟩ := open?_eq_ok_iff.mp hreplaces.opened
  have hhere : e.here = d.here := by
    rw [hreplaces.result]
    rfl
  refine ⟨p, mode, open?_eq_ok_iff.mpr ⟨?_, by rw [hreplaces.nodeAt?_eq, if_pos rfl]⟩⟩
  -- The directories on the way are still there.
  exact locate_of_directories (d := e) (e := d) hhere.symm
    (fun _ _ hr => hreplaces.directory_iff.mpr hr) hlocate

/-! ### Stores after some writes -/

/-- The second store arises from the first by writes: only contents are different. -/
structure Store.Continues (s t : Store) : Prop where
  disk : s.disk.Rewritten (fun _ => True) t.disk
  overlay : t.overlay.isSome = s.overlay.isSome
  unreadable : t.unreadable = s.unreadable
  unwritable : t.unwritable = s.unwritable

/-- Both stores give the same access to a path: the same is read, and writes are taken by both or
refused by both, for the same reason. -/
structure Store.Alike (s t : Store) (path : Path) : Prop where
  read : t.read path = s.read path
  write : ∀ content,
    (∃ fault, s.write path content = .error fault ∧ t.write path content = .error fault) ∨
      ∃ s' t', s.write path content = .ok s' ∧ t.write path content = .ok t'

/-- What is written under the first path is read under the second. -/
def Store.Meets (s : Store) (q path : Path) : Prop :=
  q.same path = true ∨ s.overlay = none ∧ (s.disk.place? q).isSome = true ∧
    s.disk.place? q = s.disk.place? path

instance (s : Store) (q path : Path) : Decidable (s.Meets q path) := by
  unfold Store.Meets
  exact instDecidableOr

/-- Where the store writes to its disk, each of the files is spelled one way and nothing stands
where its scratch file would be written. -/
structure Store.IsApart (s : Store) (files : List Path) : Prop where
  spelled : s.overlay = none → ∀ path ∈ files, s.disk.SpelledOnce files path
  free : s.overlay = none → ∀ path ∈ files, s.disk.ScratchFree path

instance (s : Store) (files : List Path) : Decidable (s.IsApart files) :=
  decidable_of_iff (s.overlay = none →
      (∀ path ∈ files, s.disk.SpelledOnce files path) ∧ ∀ path ∈ files, s.disk.ScratchFree path)
    ⟨fun h => ⟨fun hreal => (h hreal).1, fun hreal => (h hreal).2⟩,
      fun h hreal => ⟨h.spelled hreal, h.free hreal⟩⟩

namespace Store

variable {s t u : Store} {q path : Path} {content : Bytes} {files : List Path}

theorem Meets.symm (h : s.Meets q path) : s.Meets path q := by
  rcases h with hsame | ⟨hreal, hsome, hplaces⟩
  · refine .inl ?_
    rw [Path.same, beq_iff_eq] at hsame ⊢
    exact hsame.symm
  · exact .inr ⟨hreal, hplaces ▸ hsome, hplaces.symm⟩

theorem Continues.refl (s : Store) : s.Continues s := ⟨.refl _ _, rfl, rfl, rfl⟩

theorem Continues.trans (h : s.Continues t) (h' : t.Continues u) : s.Continues u :=
  ⟨h.disk.trans h'.disk, h'.overlay.trans h.overlay, h'.unreadable.trans h.unreadable,
    h'.unwritable.trans h.unwritable⟩

theorem Continues.overlay_eq_none_iff (h : s.Continues t) : t.overlay = none ↔ s.overlay = none := by
  rw [← Option.not_isSome_iff_eq_none, ← Option.not_isSome_iff_eq_none, h.overlay]

theorem Continues.meets_iff (h : s.Continues t) : t.Meets q path ↔ s.Meets q path := by
  unfold Meets
  rw [h.overlay_eq_none_iff, h.disk.place?_eq, h.disk.place?_eq]

/-- A path with the content that it had is as accessible as it was. -/
theorem Continues.alike (h : s.Continues t) (hread : t.read path = s.read path) :
    s.Alike t path := by
  refine ⟨hread, fun content => ?_⟩
  unfold write
  rw [h.unwritable]
  split
  · exact .inl ⟨_, rfl, rfl⟩
  · cases hs : s.overlay with
    | none =>
      rw [h.overlay_eq_none_iff.mpr hs]
      dsimp only
      rcases h.disk.replace path content with ⟨fault, hd, he⟩ | ⟨d, e, hd, he⟩
      · rw [hd, he]
        exact .inl ⟨fault, rfl, rfl⟩
      · rw [hd, he]
        exact .inr ⟨_, _, rfl, rfl⟩
    | some o =>
      obtain ⟨o', ho'⟩ := Option.isSome_iff_exists.mp (h.overlay.trans (by rw [hs]; rfl))
      rw [ho', h.disk.isFile_eq]
      dsimp only
      split
      · exact .inr ⟨_, _, rfl, rfl⟩
      · exact .inl ⟨_, rfl, rfl⟩

/-- What a path leads to on the disk is read, if it can be read. -/
theorem read_eq_of_plain (hreal : s.overlay = none) (path : Path) : s.read path =
    if s.unreadable.any (·.same path) then .error (.refused "read") else readDisk s.disk path := by
  unfold read
  rw [hreal]
  rfl

/-- What is read is there. -/
theorem exists_of_read (h : s.read path = .ok content) : s.exists path = true := by
  unfold read at h
  unfold «exists»
  split at h
  · cases h
  · split at h
    · rename_i hkept
      rw [hkept]
      rfl
    · obtain ⟨p, mode, hopen⟩ := readDisk_eq_open?.mp h
      rw [Disk.isFile_iff.mpr ⟨p, content, mode, hopen⟩, Bool.or_true]

/-- A write changes contents and nothing else. -/
theorem continues_of_write (hwrite : s.write q content = .ok t)
    (hfree : s.overlay = none → s.disk.ScratchFree q) : s.Continues t := by
  have haccess := write_sameAccess hwrite
  refine ⟨?_, haccess.overlay, haccess.unreadable, haccess.unwritable⟩
  cases hs : s.overlay with
  | none =>
    obtain ⟨d, hreplace, rfl⟩ := exists_replace_of_write hs hwrite
    obtain ⟨_, _, _, _, hrewritten, _⟩ := Disk.rewritten_of_replace hreplace (hfree hs)
    exact hrewritten.mono fun _ _ => trivial
  | some o =>
    rw [disk_write_of_overlay (by rw [hs]; rfl) hwrite]
    exact .refl _ _

/-- What was written is not read elsewhere. -/
theorem read_of_write_of_not_meets (hwrite : s.write q content = .ok t)
    (hfree : s.overlay = none → s.disk.ScratchFree q) (hmeets : ¬ s.Meets q path) :
    t.read path = s.read path := by
  have hcontinues := continues_of_write hwrite hfree
  obtain ⟨hsame, hplaces⟩ := not_or.mp hmeets
  cases hs : s.overlay with
  | none =>
    obtain ⟨d, hreplace, rfl⟩ := exists_replace_of_write hs hwrite
    obtain ⟨p, old, mode, hopen, hrewritten, _⟩ := Disk.rewritten_of_replace hreplace (hfree hs)
    rw [read_eq_of_plain (s := s) hs, read_eq_of_plain (hcontinues.overlay_eq_none_iff.mpr hs),
      readDisk_eq, readDisk_eq]
    dsimp only
    rcases hrewritten.open? path with ⟨fault, hd, he⟩ | ⟨r, n, m, hd, he, _, hkept⟩
    · rw [hd, he]
    · have hne : r ≠ p := by
        rintro rfl
        refine hplaces ⟨hs, ?_⟩
        rw [Disk.place?_eq_some_iff.mpr ⟨_, hopen⟩, Disk.place?_eq_some_iff.mpr ⟨_, hd⟩]
        exact ⟨rfl, rfl⟩
      rw [hd, he, hkept hne]
  | some o =>
    obtain ⟨_, rfl⟩ := eq_keep_of_write hs hwrite
    unfold read
    simp only [hs, Option.bind_some,
      Overlay.content?_keep_of_not_same (Bool.eq_false_iff.mpr hsame)]

/-- What was written is read. -/
theorem read_of_write_self {was : Bytes} (hwrite : s.write q content = .ok t)
    (hwas : s.read q = .ok was) : t.read q = .ok content := by
  cases hs : s.overlay with
  | some o =>
    have hread := read_of_write_overlay (by rw [hs]; rfl) hwrite hwas
    rwa [if_pos (Overlay.same_self q)] at hread
  | none =>
    have hrefused : s.unreadable.any (·.same q) = false := by
      refine Bool.eq_false_iff.mpr fun hrefused => ?_
      rw [read_eq_of_plain hs, if_pos hrefused] at hwas
      cases hwas
    obtain ⟨d, hreplace, rfl⟩ := exists_replace_of_write hs hwrite
    rw [read_eq_of_plain (s := { s with disk := d }) hs]
    dsimp only
    rw [hrefused, if_neg Bool.false_ne_true]
    exact readDisk_eq_open?.mpr (Disk.exists_open?_of_replace hreplace)

/-- Files of which each is spelled one way meet in themselves only. -/
theorem IsApart.eq_of_meets (h : s.IsApart files) (hreal : s.overlay = none) (hq : q ∈ files)
    (hpath : path ∈ files) (hmeets : s.Meets q path) : q = path :=
  h.spelled hreal q hq path hpath (hmeets.imp_right And.right)

/-- The paths of a set meet in themselves only, where each of its files is spelled one way. -/
theorem IsApart.pairwise_not_meets (h : s.IsApart files) (hsorted : PathSet.Sorted files) :
    files.Pairwise fun q path => ¬ s.Meets q path := by
  have hsame : ∀ {q path : Path}, q.compare path = .lt → q.same path = false := by
    intro q path hlt
    refine Bool.eq_false_iff.mpr fun hsame => ?_
    rw [Path.compare_eq_iff.mpr hsame] at hlt
    cases hlt
  refine hsorted.imp_of_mem fun {q path} hq hpath hlt hmeets => ?_
  rcases hmeets with heq | hplaces
  · rw [hsame hlt] at heq
    cases heq
  · obtain rfl := h.eq_of_meets hplaces.1 hq hpath (.inr hplaces)
    rw [Path.compare_eq_iff.mpr (Overlay.same_self q)] at hlt
    cases hlt

/-- What was read under two paths that meet is one content. -/
theorem eq_of_read_of_meets {was c : Bytes} (hmeets : s.Meets q path) (hwas : s.read q = .ok was)
    (hc : s.read path = .ok c) : c = was := by
  rcases hmeets with hsame | ⟨hreal, _, hplaces⟩
  · exact eq_of_read_of_same hsame hwas hc
  · have hnone : ∀ path, s.overlay.bind (·.content? path) = none := fun path => by
      rw [hreal, Option.bind_none]
    obtain ⟨p, mode, hq⟩ := exists_open?_of_read (hnone q) hwas
    obtain ⟨r, mode', hpath⟩ := exists_open?_of_read (hnone path) hc
    rw [Disk.place?_eq_some_iff.mpr ⟨_, hq⟩, Disk.place?_eq_some_iff.mpr ⟨_, hpath⟩] at hplaces
    obtain rfl := Option.some.inj hplaces
    have hnode := (Disk.nodeAt?_of_open? hpath).symm.trans (Disk.nodeAt?_of_open? hq)
    exact (Node.file.inj (Option.some.inj hnode)).1

end Store

end SymbolRename
