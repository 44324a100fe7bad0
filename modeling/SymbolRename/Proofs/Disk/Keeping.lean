import SymbolRename.Proofs.Disk.Places
import SymbolRename.Proofs.Snapshot.Saving

/-!
# What a command keeps of a disk

A command that works on a project rewrites files outside of the places of an owner, and puts and
drops nodes at places of the owner. So directories stay, no file appears or vanishes outside, and
what the command may not touch is as it was: `Disk.Keeps`. Paths that could be followed before can
be followed afterwards.
-/

namespace SymbolRename

/-- Only some places were touched: where the owner has none, files were rewritten there. No
directory was removed. -/
structure Disk.Keeps (own : Place → Bool) (may : Place → Prop) (d e : Disk) : Prop where
  here : e.here = d.here
  nodes : ∀ p, ¬ may p → e.nodeAt? p = d.nodeAt? p
  directories : ∀ p mode, d.nodeAt? p = some (.directory mode) →
    e.nodeAt? p = some (.directory mode)
  outside : ∀ p, own p = false → e.nodeAt? p = d.nodeAt? p ∨ ∃ was now mode,
    d.nodeAt? p = some (.file was mode) ∧ e.nodeAt? p = some (.file now mode)

namespace Disk.Keeps

variable {own : Place → Bool} {may : Place → Prop} {d e f : Disk} {p : Place} {path : Path}

/-- The same nodes are seen from the same directory, by whatever process. -/
theorem of_nodes (hhere : e.here = d.here) (h : ∀ p, e.nodeAt? p = d.nodeAt? p) :
    Keeps own may d e :=
  ⟨hhere, fun p _ => h p, fun p _ hp => (h p).trans hp, fun p _ => .inl (h p)⟩

theorem refl (own : Place → Bool) (may : Place → Prop) (d : Disk) : Keeps own may d d :=
  of_nodes rfl fun _ => rfl

theorem trans (h : Keeps own may d e) (h' : Keeps own may e f) : Keeps own may d f := by
  refine ⟨h'.here.trans h.here, fun p hp => (h'.nodes p hp).trans (h.nodes p hp),
    fun p mode hp => h'.directories p mode (h.directories p mode hp), fun p hp => ?_⟩
  rcases h'.outside p hp with hsame | ⟨was, now, mode, he, hf⟩
  · rw [hsame]
    exact h.outside p hp
  · rcases h.outside p hp with hsame | ⟨first, _, mode', hd, he'⟩
    · exact .inr ⟨was, now, mode, hsame.symm.trans he, hf⟩
    · rw [he'] at he
      cases he
      exact .inr ⟨first, now, mode, hd, hf⟩

theorem mono {may' : Place → Prop} (h : Keeps own may d e) (hmay : ∀ p, may p → may' p) :
    Keeps own may' d e :=
  ⟨h.here, fun p hnot => h.nodes p fun hp => hnot (hmay p hp), h.directories, h.outside⟩

/-! ### Changes that keep the rest -/

/-- A change at one place of the owner, where no directory stands. -/
theorem of_place (hown : own p = true) (hmay : may p)
    (hp : ∀ mode, d.nodeAt? p ≠ some (.directory mode)) (hhere : e.here = d.here)
    (hnodes : ∀ q, q ≠ p → e.nodeAt? q = d.nodeAt? q) : Keeps own may d e := by
  refine ⟨hhere, fun q hnot => hnodes q ?_, fun q mode hq => ?_, fun q hq => .inl (hnodes q ?_)⟩
  · rintro rfl
    exact hnot hmay
  · rw [hnodes q, hq]
    rintro rfl
    exact hp mode hq
  · rintro rfl
    rw [hown] at hq
    cases hq

/-- A node is put where no directory of the owner stands. -/
theorem put (hown : own p = true) (hmay : may p)
    (hp : ∀ mode, d.nodeAt? p ≠ some (.directory mode)) (n : Node) : Keeps own may d (d.put p n) :=
  of_place hown hmay hp rfl fun _ hq => (nodeAt?_put (ne_nil_of_nodeAt? hp)).trans (if_neg hq)

/-- One node is put, and everything belongs to the owner. -/
theorem put_at (hp : ∀ mode, d.nodeAt? p ≠ some (.directory mode)) (n : Node) :
    Keeps (fun _ => true) (· = p) d (d.put p n) :=
  @put _ (· = p) _ _ rfl rfl hp n

/-- What stands at a place of the owner is removed, if it is no directory. -/
theorem drop (hown : own p = true) (hmay : may p)
    (hp : ∀ mode, d.nodeAt? p ≠ some (.directory mode)) : Keeps own may d (d.drop p) :=
  of_place hown hmay hp rfl fun _ hq => (nodeAt?_drop (ne_nil_of_nodeAt? hp)).trans (if_neg hq)

/-- Files outside of the owner's places are rewritten. -/
theorem of_rewritesOnly {rewritten : Place → Prop} (h : d.RewritesOnly rewritten e)
    (hmay : ∀ p, rewritten p → may p) : Keeps own may d e := by
  refine ⟨h.view.here, fun p hnot => ?_, fun p mode hp => h.directory_iff.mpr hp, fun p _ => ?_⟩
  · rcases h.nodes p with hsame | ⟨hp, _⟩
    · exact hsame
    · exact absurd (hmay p hp) hnot
  · exact (h.nodes p).imp_right And.right

/-- Nodes are put at places of the owner. -/
theorem of_putsOnly (h : d.PutsOnly own may e) : Keeps own may d e :=
  ⟨h.outside.here, h.nodes, h.directories, fun _ hp => .inl (h.outside.nodeAt?_eq hp)⟩

/-- Nodes are put where nothing stood, and everything belongs to the owner. -/
theorem of_grows (h : Grows d e) : Keeps (fun _ => true) (fun p => d.nodeAt? p = none) d e := by
  refine ⟨h.here, fun p hp => ?_, fun p mode => h.nodes p _, nofun⟩
  obtain ⟨n, hn⟩ := Option.ne_none_iff_exists'.mp hp
  rw [hn]
  exact h.nodes p n hn

/-- Directories of the owner are made. -/
theorem of_makeDirectories (hp : p.IsNamed) (h : d.makeDirectories p.toPath = .ok e)
    (hmissing : ∀ q, q <+: p → d.nodeAt? q = none → own q = true ∧ may q) : Keeps own may d e := by
  have hgrows := grows_of_makeDirectories h
  have hnodes := nodeAt?_of_makeDirectories hp h
  refine ⟨hgrows.here, fun q hnot => ?_, fun q mode => hgrows.nodes q _, fun q hq => .inl ?_⟩
  · rcases hnodes q with hsame | ⟨hwithin, hnone⟩
    · exact hsame
    · exact absurd (hmissing q hwithin hnone).2 hnot
  · rcases hnodes q with hsame | ⟨hwithin, hnone⟩
    · exact hsame
    · rw [(hmissing q hwithin hnone).1] at hq
      cases hq

/-! ### What can still be done -/

/-- A path that could be followed leads to the same place. -/
theorem locate (h : Keeps own may d e) (hlocate : d.locate path = .ok p) : e.locate path = .ok p :=
  locate_of_directories h.here.symm h.directories hlocate

theorem target_eq (h : Keeps own may d e) (path : Path) : e.target path = d.target path :=
  target_congr h.here path

/-- A path that comes through no place of the owner leads to the same place, or nowhere. -/
theorem locate_eq (h : Keeps own may d e) (hpath : d.Avoids own path) :
    e.locate path = d.locate path := by
  have hfold : ∀ (segments : List String) (p : Place), (∀ q ∈ p.through segments, own q = false) →
      segments.foldlM e.follow p = segments.foldlM d.follow p := by
    intro segments
    induction segments with
    | nil => exact fun _ _ => rfl
    | cons segment rest ih =>
      intro p havoids
      have hfollow : e.follow p segment = d.follow p segment := by
        rcases h.outside p (havoids p List.mem_cons_self) with hsame | ⟨was, now, mode, hd, he⟩
        · simp only [follow, hsame]
        · simp only [follow, hd, he]
      rw [List.foldlM_cons, List.foldlM_cons, hfollow]
      cases hnext : d.follow p segment with
      | error fault => rfl
      | ok q =>
        obtain rfl := eq_step_of_follow hnext
        exact ih _ fun r hr => havoids r (List.mem_cons_of_mem p hr)
  unfold Disk.locate
  rw [h.here, hfold _ _ hpath]

/-- What it leads to was there before. -/
theorem exists_open? {n : Node} (h : Keeps own may d e) (hpath : d.Avoids own path)
    (hopen : e.open? path = .ok (p, n)) : ∃ m, d.open? path = .ok (p, m) := by
  obtain ⟨hlocate, hnode⟩ := open?_eq_ok_iff.mp hopen
  rw [h.locate_eq hpath] at hlocate
  have hown : own p = false := eq_target_of_locate hlocate ▸ hpath _ (d.target_mem_route path)
  rcases h.outside p hown with hsame | ⟨was, now, mode, hd, _⟩
  · exact ⟨n, open?_eq_ok_iff.mpr ⟨hlocate, hsame.symm.trans hnode⟩⟩
  · exact ⟨_, open?_eq_ok_iff.mpr ⟨hlocate, hd⟩⟩

theorem open?_of_nodeAt? {n m : Node} (h : Keeps own may d e) (hopen : d.open? path = .ok (p, n))
    (hnode : e.nodeAt? p = some m) : e.open? path = .ok (p, m) :=
  open?_eq_ok_iff.mpr ⟨h.locate (open?_eq_ok_iff.mp hopen).1, hnode⟩

theorem open?_directory {mode : Nat} (h : Keeps own may d e)
    (hopen : d.open? path = .ok (p, .directory mode)) : e.open? path = .ok (p, .directory mode) :=
  h.open?_of_nodeAt? hopen (h.directories p mode (nodeAt?_of_open? hopen))

/-- Whoever touches only what the owner has leaves the rest as it is. -/
theorem nodeAt?_eq (h : Keeps own may d e) (hmay : ∀ p, may p → own p = true)
    (hp : own p = false) : e.nodeAt? p = d.nodeAt? p := by
  refine h.nodes p fun hp' => ?_
  rw [hmay p hp'] at hp
  cases hp

/-- A file outside of the owner's places is still one, with the same mode. -/
theorem exists_file {content : Bytes} {mode : Nat} (h : Keeps own may d e) (hp : own p = false)
    (hfile : d.nodeAt? p = some (.file content mode)) :
    ∃ now, e.nodeAt? p = some (.file now mode) := by
  rcases h.outside p hp with hsame | ⟨was, now, mode', hd, he⟩
  · exact ⟨content, hsame.trans hfile⟩
  · rw [hfile] at hd
    cases hd
    exact ⟨now, he⟩

/-- Outside of the owner's places something stands where something stood. -/
theorem isSome_nodeAt? (h : Keeps own may d e) (hp : own p = false) :
    (e.nodeAt? p).isSome = (d.nodeAt? p).isSome := by
  rcases h.outside p hp with hsame | ⟨was, now, mode, hd, he⟩
  · rw [hsame]
  · rw [hd, he]
    rfl

theorem isFile (h : Keeps own may d e) (hp : own (d.target path) = false)
    (hfile : d.isFile path = true) : e.isFile path = true := by
  obtain ⟨p, content, mode, hopen⟩ := isFile_iff.mp hfile
  obtain ⟨now, hnow⟩ := h.exists_file (eq_target_of_open? hopen ▸ hp) (nodeAt?_of_open? hopen)
  exact isFile_iff.mpr ⟨p, now, mode, h.open?_of_nodeAt? hopen hnow⟩

theorem scratchClear (h : Keeps own may d e) (hprocess : e.process = d.process)
    (hclear : d.ScratchClear own) : e.ScratchClear own := by
  intro p n hn hown name hname
  rw [hprocess]
  have hsome : (d.nodeAt? p).isSome = true := by
    rw [← h.isSome_nodeAt? hown, hn]
    rfl
  obtain ⟨m, hm⟩ := Option.isSome_iff_exists.mp hsome
  exact hclear p m hm hown name hname

/-- Where a file could be written outside of the owner's places, one can still be. -/
theorem locateForWrite {found : Option Node} (h : Keeps own may d e)
    (hp : own (d.target (withoutSlash path)) = false)
    (hwrite : d.locateForWrite path = .ok (p, found)) :
    ∃ found, e.locateForWrite path = .ok (p, found) := by
  obtain ⟨hlocate, hfound, hdirectory, hbare⟩ := locateForWrite_eq_ok hwrite
  have hplace := eq_target_of_locate hlocate
  rw [← hplace] at hp
  rw [hbare] at hlocate
  refine ⟨e.nodeAt? p, locateForWrite_of_locate hbare (h.locate hlocate) fun mode hmode => ?_⟩
  rcases h.outside p hp with hsame | ⟨was, now, mode', _, he⟩
  · exact hdirectory mode (by rw [← hfound, ← hsame, hmode])
  · rw [he] at hmode
    cases hmode

end Disk.Keeps

/-- A file that was written holds what was written, and can be written over. -/
theorem Disk.readText_of_write {d e : Disk} {path : Path} {text : String}
    (h : d.write path (bytes text) = .ok e) :
    e.readText path = .ok text ∧ ∀ other, ∃ f, e.write path other = .ok f := by
  obtain ⟨⟨p, found⟩, hwhere, hput⟩ := bind_eq_ok_iff.mp h
  obtain ⟨hlocate, hfound, hdirectory, hbare⟩ := locateForWrite_eq_ok hwhere
  obtain rfl := Except.ok.inj hput
  subst hfound
  rw [hbare] at hlocate
  generalize ((d.nodeAt? p).map Node.mode).getD Node.fileMode = mode
  have hkeeps := Keeps.put_at hdirectory (.file (bytes text) mode)
  have hnode : (d.put p (.file (bytes text) mode)).nodeAt? p = some (.file (bytes text) mode) := by
    rw [nodeAt?_put (ne_nil_of_nodeAt? hdirectory), if_pos rfl]
  constructor
  · unfold readText
    rw [read_eq_ok_iff.mpr ⟨p, _, open?_eq_ok_iff.mpr ⟨hkeeps.locate hlocate, hnode⟩⟩]
    simp [bind, Except.bind, pure, Except.pure]
  · intro other
    have hagain := locateForWrite_of_locate hbare (hkeeps.locate hlocate) (by
      rw [hnode]
      exact fun _ => nofun)
    unfold write
    rw [hagain]
    exact ⟨_, rfl⟩

end SymbolRename
