import SymbolRename.Proofs.Disk.Scratch
import SymbolRename.Proofs.Disk.Spelling
import SymbolRename.Snapshot

/-!
# What a snapshot covers

Entries cover what has changed on a disk when each changed file has one, and the first entry of
each file names a copy of what the file was before. Putting such entries back gives every file
outside of the snapshot what it held: `Snapshot.Covers.restores`.
-/

namespace SymbolRename

theorem Path.same_symm {p q : Path} (h : p.same q = true) : q.same p = true :=
  beq_iff_eq.mpr (beq_iff_eq.mp h).symm

theorem Path.same_trans {p q r : Path} (h : p.same q = true) (h' : q.same r = true) :
    p.same r = true :=
  beq_iff_eq.mpr ((beq_iff_eq.mp h).trans (beq_iff_eq.mp h'))

namespace Snapshot

/-! ### First entries -/

theorem mem_of_mem_go {met : List Path} {entries : List SnapshotEntry} {x : SnapshotEntry}
    (h : x ∈ firstEntries.go met entries) :
    x ∈ entries ∧ ∀ m ∈ met, m.same x.original = false := by
  induction entries generalizing met with
  | nil => cases h
  | cons e rest ih =>
    rw [firstEntries.go] at h
    split at h
    · obtain ⟨hmem, hnew⟩ := ih h
      exact ⟨List.mem_cons_of_mem e hmem, hnew⟩
    · rename_i hnot
      rcases List.mem_cons.mp h with rfl | h
      · refine ⟨List.mem_cons_self, fun m hm => Bool.eq_false_iff.mpr fun hsame => hnot ?_⟩
        exact List.any_eq_true.mpr ⟨m, hm, hsame⟩
      · obtain ⟨hmem, hnew⟩ := ih h
        exact ⟨List.mem_cons_of_mem e hmem, fun m hm => hnew m (List.mem_cons_of_mem _ hm)⟩

/-- Further entries are first only for files that have had none. -/
theorem mem_go_append {met : List Path} {entries new : List SnapshotEntry} {x : SnapshotEntry}
    (h : x ∈ firstEntries.go met (entries ++ new)) :
    x ∈ firstEntries.go met entries ∨
      x ∈ new ∧ ∀ y ∈ entries, y.original.same x.original = false := by
  induction entries generalizing met with
  | nil => exact .inr ⟨(mem_of_mem_go h).1, fun y hy => absurd hy List.not_mem_nil⟩
  | cons e rest ih =>
    rw [List.cons_append, firstEntries.go] at h
    rw [firstEntries.go]
    split at h
    · rename_i hmet
      rw [if_pos hmet]
      refine (ih h).imp_right fun ⟨hnew, hrest⟩ => ⟨hnew, List.forall_mem_cons.mpr ⟨?_, hrest⟩⟩
      -- The entry is one for a file that was met, and such files are passed over.
      obtain ⟨m, hm, hsame⟩ := List.any_eq_true.mp hmet
      refine Bool.eq_false_iff.mpr fun hsame' => ?_
      have hnot := (mem_of_mem_go h).2 m hm
      rw [Path.same_trans hsame hsame'] at hnot
      cases hnot
    · rename_i hnot
      rw [if_neg hnot]
      rcases List.mem_cons.mp h with rfl | h
      · exact .inl List.mem_cons_self
      · refine (ih h).imp (List.mem_cons_of_mem e) fun ⟨hnew, hrest⟩ => ⟨hnew, ?_⟩
        exact List.forall_mem_cons.mpr ⟨(mem_of_mem_go h).2 e.original List.mem_cons_self, hrest⟩

theorem mem_firstEntries_append {entries new : List SnapshotEntry} {x : SnapshotEntry}
    (h : x ∈ firstEntries (entries ++ new)) :
    x ∈ firstEntries entries ∨ x ∈ new ∧ ∀ y ∈ entries, y.original.same x.original = false :=
  mem_go_append h

theorem mem_of_mem_firstEntries {entries : List SnapshotEntry} {x : SnapshotEntry}
    (h : x ∈ firstEntries entries) : x ∈ entries := (mem_of_mem_go h).1

/-- Each file with an entry has a first one. -/
theorem exists_mem_firstEntries {entries : List SnapshotEntry} {x : SnapshotEntry}
    (h : x ∈ entries) : ∃ y ∈ firstEntries entries, y.original.same x.original = true := by
  have hgo : ∀ (entries : List SnapshotEntry) (met : List Path), x ∈ entries →
      (∃ m ∈ met, m.same x.original = true) ∨
        ∃ y ∈ firstEntries.go met entries, y.original.same x.original = true := by
    intro entries
    induction entries with
    | nil => exact fun met hx => absurd hx List.not_mem_nil
    | cons e rest ih =>
      intro met hx
      rw [firstEntries.go]
      split
      · rename_i hmet
        rcases List.mem_cons.mp hx with rfl | hx
        · exact .inl (List.any_eq_true.mp hmet)
        · exact ih met hx
      · rcases List.mem_cons.mp hx with rfl | hx
        · exact .inr ⟨x, List.mem_cons_self, Overlay.same_self _⟩
        · rcases ih (e.original :: met) hx with ⟨m, hm, hsame⟩ | ⟨y, hy, hsame⟩
          · rcases List.mem_cons.mp hm with rfl | hm
            · exact .inr ⟨e, List.mem_cons_self, hsame⟩
            · exact .inl ⟨m, hm, hsame⟩
          · exact .inr ⟨y, List.mem_cons_of_mem e hy, hsame⟩
  rcases hgo entries [] h with ⟨m, hm, _⟩ | hfirst
  · cases hm
  · exact hfirst

/-! ### Coverage -/

/-- Entries cover what is different on a disk, outside of the places of an owner, from an earlier
one. -/
structure Covers (own : Place → Bool) (d e : Disk) (entries : List SnapshotEntry) : Prop where
  here : e.here = d.here
  /-- A file that has changed has an entry. -/
  kept : ∀ p n, d.nodeAt? p = some n → own p = false → e.nodeAt? p = some n ∨
    ∃ content content' mode, n = .file content mode ∧
      e.nodeAt? p = some (.file content' mode) ∧ ∃ x ∈ entries, d.target x.original = p
  /-- What was saved is a file of the project, and still there. -/
  originals : ∀ x ∈ entries, d.Avoids own x.original ∧ e.isFile x.original = true
  /-- The first copy of a file is its earlier content. -/
  saved : ∀ x ∈ firstEntries entries, own (d.target x.backup) = true ∧
    ∀ content mode, d.nodeAt? (d.target x.original) = some (.file content mode) →
      ∃ mode', e.nodeAt? (d.target x.backup) = some (.file content mode')

/-- The entries name files of the project, and the first copy of each is its earlier content. -/
structure Holds (own : Place → Bool) (d e : Disk) (entries : List SnapshotEntry) : Prop where
  here : e.here = d.here
  originals : ∀ x ∈ entries, d.Avoids own x.original ∧ e.isFile x.original = true
  saved : ∀ x ∈ firstEntries entries, own (d.target x.backup) = true ∧
    ∀ content mode, d.nodeAt? (d.target x.original) = some (.file content mode) →
      ∃ mode', e.nodeAt? (d.target x.backup) = some (.file content mode')

theorem Covers.holds {own : Place → Bool} {d e : Disk} {entries : List SnapshotEntry}
    (h : Covers own d e entries) : Holds own d e entries := ⟨h.here, h.originals, h.saved⟩

/-! ### Putting back -/

/-- A file that is put back gets the content of its copy. -/
theorem Restored.putBack_eq_ok {r : Restored} {x : SnapshotEntry}
    (h : (r.putBack x).fault = none) :
    r.fault = none ∧ ∃ content, r.disk.read x.backup = .ok content ∧
      (if r.disk.isFile x.original then r.disk.replace x.original content
        else r.disk.write x.original content) = .ok (r.putBack x).disk := by
  unfold putBack at h ⊢
  by_cases hfault : r.fault.isSome = true
  · rw [if_pos hfault] at h
    rw [h] at hfault
    cases hfault
  · rw [if_neg hfault] at h ⊢
    refine ⟨Option.not_isSome_iff_eq_none.mp hfault, ?_⟩
    cases hread : r.disk.read x.backup with
    | error fault =>
      rw [hread] at h
      cases h
    | ok content =>
      rw [hread] at h
      refine ⟨content, rfl, ?_⟩
      simp only [bind, Except.bind] at h ⊢
      split at h
      · cases h
      · rename_i written hwritten
        rw [hwritten]

/-- Nothing goes wrong before something has gone wrong. -/
theorem Restored.fault_of_foldl {r : Restored} {entries : List SnapshotEntry}
    (h : (entries.foldl putBack r).fault = none) : r.fault = none := by
  induction entries generalizing r with
  | nil => exact h
  | cons x rest ih => exact (putBack_eq_ok (ih h)).1

/-- Some entries have been put back: their files hold what they held on the earlier disk. -/
structure PutBack (d e : Disk) (entries : List SnapshotEntry) (r : Restored) : Prop where
  rewrites : e.RewritesOnly (fun p => ∃ x ∈ entries, d.target x.original = p) r.disk
  back : ∀ x ∈ entries, ∀ content mode,
    d.nodeAt? (d.target x.original) = some (.file content mode) →
      ∃ mode', r.disk.nodeAt? (d.target x.original) = some (.file content mode')

variable {own : Place → Bool} {d e : Disk} {entries : List SnapshotEntry}

/-- One more entry is put back. -/
theorem Holds.putBack (h : Holds own d e entries) (hclear : e.ScratchClear own)
    (hpaths : ∀ x ∈ entries, e.Clears own x.original) {done : List SnapshotEntry} {r : Restored}
    (hr : PutBack d e done r) (hdone : ∀ x ∈ done, x ∈ entries) {x : SnapshotEntry}
    (hx : x ∈ firstEntries entries) (hfault : (r.putBack x).fault = none) :
    PutBack d e (done ++ [x]) (r.putBack x) := by
  have hmem := mem_of_mem_firstEntries hx
  obtain ⟨_, content, hread, hwrite⟩ := Restored.putBack_eq_ok hfault
  have htarget : ∀ path, r.disk.target path = d.target path := fun path =>
    (hr.rewrites.target_eq path).trans (Disk.target_congr h.here path)
  have hfile : r.disk.isFile x.original = true := by
    rw [hr.rewrites.isFile_eq]
    exact (h.originals x hmem).2
  rw [if_pos hfile] at hwrite
  obtain ⟨hrewrites, mode, hnode⟩ := Disk.rewritesOnly_of_replace hwrite
    (hr.rewrites.scratchClear hclear) (hr.rewrites.view.clears (hpaths x hmem))
  rw [htarget] at hrewrites hnode
  -- The copy belongs to the owner, whose places are not rewritten.
  obtain ⟨q, mode', hopen⟩ := Disk.read_eq_ok_iff.mp hread
  have hcopy := Disk.nodeAt?_of_open? hopen
  rw [Disk.eq_target_of_open? hopen, htarget] at hcopy
  obtain ⟨hown, hsaved⟩ := h.saved x hx
  have hsame : r.disk.nodeAt? (d.target x.backup) = e.nodeAt? (d.target x.backup) := by
    rcases hr.rewrites.nodes (d.target x.backup) with hsame | ⟨⟨y, hy, hplace⟩, _⟩
    · exact hsame
    · have havoids := (h.originals y (hdone y hy)).1 _ (d.target_mem_route y.original)
      rw [hplace, hown] at havoids
      cases havoids
  refine ⟨(hr.rewrites.mono ?_).trans (hrewrites.mono ?_), ?_⟩
  · rintro p ⟨y, hy, rfl⟩
    exact ⟨y, List.mem_append_left _ hy, rfl⟩
  · rintro p rfl
    exact ⟨x, by simp, rfl⟩
  · intro y hy was mode'' hwas
    by_cases hplace : d.target y.original = d.target x.original
    · rw [hplace] at hwas ⊢
      obtain ⟨_, hbackup⟩ := hsaved was mode'' hwas
      rw [hsame, hbackup] at hcopy
      cases hcopy
      exact ⟨mode, hnode⟩
    · have hy' : y ∈ done := by
        rcases List.mem_append.mp hy with hy | hy
        · exact hy
        · rw [List.mem_singleton.mp hy] at hplace
          exact absurd rfl hplace
      obtain ⟨mode', hback⟩ := hr.back y hy' was mode'' hwas
      refine ⟨mode', ?_⟩
      rcases hrewrites.nodes (d.target y.original) with hkept | ⟨hmay, _⟩
      · rw [hkept, hback]
      · exact absurd hmay hplace

/-- All entries are put back. -/
theorem Holds.putBack_restore (h : Holds own d e entries) (hclear : e.ScratchClear own)
    (hpaths : ∀ x ∈ entries, e.Clears own x.original) {directory : Path}
    (hfault : (restore e ⟨directory, entries⟩).fault = none) :
    PutBack d e (firstEntries entries) (restore e ⟨directory, entries⟩) := by
  have hfold : ∀ (rest done : List SnapshotEntry) (r : Restored),
      firstEntries entries = done ++ rest → PutBack d e done r →
      (rest.foldl Restored.putBack r).fault = none →
      PutBack d e (done ++ rest) (rest.foldl Restored.putBack r) := by
    intro rest
    induction rest with
    | nil =>
      intro done r _ hr _
      rwa [List.append_nil]
    | cons x rest ih =>
      intro done r hall hr hnone
      rw [List.foldl_cons] at hnone ⊢
      have hx : x ∈ firstEntries entries := by simp [hall]
      have hdone : ∀ y ∈ done, y ∈ entries := fun y hy =>
        mem_of_mem_firstEntries (by simp [hall, hy])
      have hone := h.putBack hclear hpaths hr hdone hx (Restored.fault_of_foldl hnone)
      rw [List.append_cons]
      exact ih (done ++ [x]) _ (by simp [hall]) hone hnone
  have hall := hfold (firstEntries entries) [] { disk := e } rfl
    ⟨.refl _ _, fun x hx => absurd hx List.not_mem_nil⟩ hfault
  rwa [List.nil_append] at hall

/-- A file that was put back holds what it held, whatever it held in between. -/
theorem PutBack.nodeAt?_eq {r : Restored} (h : PutBack d e entries r) {p : Place}
    {content content' : Bytes} {mode : Nat} (hp : d.nodeAt? p = some (.file content mode))
    (he : e.nodeAt? p = some (.file content' mode))
    (hentry : ∃ x ∈ entries, d.target x.original = p) :
    r.disk.nodeAt? p = some (.file content mode) := by
  obtain ⟨x, hx, rfl⟩ := hentry
  obtain ⟨mode', hnode⟩ := h.back x hx content mode hp
  have hkind := h.rewrites.nodes (d.target x.original)
  rw [hnode, he] at hkind
  rcases hkind with hsame | ⟨_, _, _, _, hwas, hnow⟩
  · cases hsame
    exact hnode
  · cases hwas
    cases hnow
    exact hnode

/-- Putting covering entries back gives every file outside of the owner's places what it held. -/
theorem Covers.restores (h : Covers own d e entries) (hclear : e.ScratchClear own)
    (hpaths : ∀ x ∈ entries, e.Clears own x.original) {directory : Path}
    (hfault : (restore e ⟨directory, entries⟩).fault = none) {p : Place} {n : Node}
    (hp : d.nodeAt? p = some n) (hown : own p = false) :
    (restore e ⟨directory, entries⟩).disk.nodeAt? p = some n := by
  have hall := h.holds.putBack_restore hclear hpaths hfault
  rcases h.kept p n hp hown with hsame | ⟨content, content', mode, rfl, he, x, hx, hplace⟩
  · rcases hall.rewrites.nodes p with hkept | ⟨hmay, content, content', mode, he, _⟩
    · exact hkept.trans hsame
    · obtain rfl := Option.some.inj (hsame.symm.trans he)
      exact hall.nodeAt?_eq hp he hmay
  · obtain ⟨y, hy, hsame⟩ := exists_mem_firstEntries hx
    exact hall.nodeAt?_eq hp he ⟨y, hy, (Disk.target_eq_of_same hsame).trans hplace⟩

end Snapshot

end SymbolRename
