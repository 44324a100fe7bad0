import SymbolRename.Proofs.Disk.Names
import SymbolRename.Proofs.Rename.Outside
import SymbolRename.Proofs.Text.Decimal

/-!
# Rewriting files in place

A file is replaced by way of a scratch file beside it, whose name ends with the number of the
process. On a disk without files of such names, replacing a file changes its content and nothing
else, and so does a rename to the files that it looks at: `Rename.run_rewritesOnly`.
-/

namespace SymbolRename

/-- The same nodes stand at the same places, but some files hold other bytes. -/
structure Disk.RewritesOnly (may : Place → Prop) (d e : Disk) : Prop where
  view : d.SameView e
  nodes : ∀ p, e.nodeAt? p = d.nodeAt? p ∨ may p ∧ ∃ content content' mode,
    d.nodeAt? p = some (.file content mode) ∧ e.nodeAt? p = some (.file content' mode)

namespace Disk.RewritesOnly

variable {may : Place → Prop} {d e f : Disk}

theorem refl (may : Place → Prop) (d : Disk) : RewritesOnly may d d :=
  ⟨⟨rfl, rfl⟩, fun _ => .inl rfl⟩

theorem trans (h : RewritesOnly may d e) (h' : RewritesOnly may e f) : RewritesOnly may d f := by
  refine ⟨⟨h'.view.here.trans h.view.here, h'.view.process.trans h.view.process⟩, fun p => ?_⟩
  rcases h'.nodes p with hsame' | ⟨hmay, content, content', mode, he, hf⟩
  · rw [hsame']
    exact h.nodes p
  · rcases h.nodes p with hsame | ⟨_, was, content'', mode', hd, he'⟩
    · exact .inr ⟨hmay, content, content', mode, hsame.symm.trans he, hf⟩
    · rw [he'] at he
      cases he
      exact .inr ⟨hmay, was, content', mode, hd, hf⟩

theorem mono {may' : Place → Prop} (h : RewritesOnly may d e) (hmay : ∀ p, may p → may' p) :
    RewritesOnly may' d e :=
  ⟨h.view, fun p => (h.nodes p).imp_right fun ⟨hp, hfile⟩ => ⟨hmay p hp, hfile⟩⟩

/-- Directories stay, and no new ones appear. -/
theorem directory_iff (h : RewritesOnly may d e) {p : Place} {mode : Nat} :
    e.nodeAt? p = some (.directory mode) ↔ d.nodeAt? p = some (.directory mode) := by
  rcases h.nodes p with hsame | ⟨_, content, content', mode', hd, he⟩
  · rw [hsame]
  · rw [hd, he]
    simp

/-- What stands at one end stands at the other. -/
theorem isSome_nodeAt? (h : RewritesOnly may d e) (p : Place) :
    (e.nodeAt? p).isSome = (d.nodeAt? p).isSome := by
  rcases h.nodes p with hsame | ⟨_, content, content', mode', hd, he⟩
  · rw [hsame]
  · rw [hd, he]
    rfl

theorem target_eq (h : RewritesOnly may d e) (path : Path) : e.target path = d.target path :=
  target_congr h.view.here path

theorem follow_eq (h : RewritesOnly may d e) : e.follow = d.follow := by
  funext p segment
  rcases h.nodes p with hsame | ⟨_, content, content', mode, hd, he⟩
  · simp only [follow, hsame]
  · simp only [follow, hd, he]

/-- Every path names the same place. -/
theorem locate_eq (h : RewritesOnly may d e) (path : Path) : e.locate path = d.locate path := by
  simp only [locate, h.follow_eq, h.view.here]

/-- Every path leads to the same if the place that it names is kept. -/
theorem open?_eq (h : RewritesOnly may d e) {path : Path} (hpath : ¬ may (d.target path)) :
    e.open? path = d.open? path := by
  unfold Disk.open?
  rw [h.locate_eq]
  cases hp : d.locate path with
  | error fault => rfl
  | ok p =>
    obtain rfl := eq_target_of_locate hp
    rcases h.nodes (d.target path) with hsame | ⟨hmay, _⟩
    · simp only [bind, Except.bind, hsame]
    · exact absurd hmay hpath

theorem isFile_eq (h : RewritesOnly may d e) (path : Path) : e.isFile path = d.isFile path := by
  unfold isFile Disk.open?
  rw [h.locate_eq]
  cases hp : d.locate path with
  | error fault => rfl
  | ok p =>
    rcases h.nodes p with hsame | ⟨_, content, content', mode, hd, he⟩
    · simp only [bind, Except.bind, hsame]
    · simp only [bind, Except.bind, hd, he]

end Disk.RewritesOnly

/-! ### Scratch files -/

/-- What follows the stem in the name of a scratch file of a process. -/
def Disk.scratchEnding (process : Nat) : List Char := s!".{process}.refactor.tmp".toList

/-- Outside of the places of an owner nothing has the name of a scratch file. -/
def Disk.ScratchClear (own : Place → Bool) (d : Disk) : Prop :=
  ∀ p n, d.nodeAt? p = some n → own p = false → ∀ name ∈ p.getLast?,
    ¬ scratchEnding d.process <:+ name.toList

/-- Whether it has is seen in the list of nodes. -/
theorem Disk.scratchClear_of_nodes {own : Place → Bool} {d : Disk}
    (h : ∀ entry ∈ d.nodes, own entry.1 = false → ∀ name ∈ entry.1.getLast?,
      ¬ scratchEnding d.process <:+ name.toList) : d.ScratchClear own := by
  intro p n hn hown name hname
  unfold nodeAt? at hn
  split at hn
  · rename_i hroot
    subst hroot
    cases hname
  · obtain ⟨before, after, hnodes, _⟩ := List.lookup_eq_some_iff.mp hn
    exact h (p, n) (hnodes ▸ List.mem_append_right _ List.mem_cons_self) hown name hname

theorem Disk.RewritesOnly.scratchClear {may : Place → Prop} {own : Place → Bool} {d e : Disk}
    (h : RewritesOnly may d e) (hclear : d.ScratchClear own) : e.ScratchClear own := by
  intro p n hn hown name hname
  rw [h.view.process]
  have hsome : (d.nodeAt? p).isSome = true := by
    rw [← h.isSome_nodeAt? p, hn]
    rfl
  obtain ⟨m, hm⟩ := Option.isSome_iff_exists.mp hsome
  exact hclear p m hm hown name hname

/-- A text joined from parts ends with the last of them. -/
theorem suffix_intercalate (mark last : String) (parts : List String) :
    last.toList <:+ (mark.intercalate (parts ++ [last])).toList := by
  rw [String.toList_intercalate, List.map_append]
  induction parts with
  | nil => simp
  | cons part rest ih =>
    rw [List.map_cons, List.cons_append, List.intercalate_cons_of_ne_nil (by simp)]
    exact ih.trans (List.suffix_append _ _)

theorem Disk.scratchEnding_eq (process : Nat) :
    scratchEnding process = '.' :: s!"{process}.refactor.tmp".toList := by
  unfold scratchEnding
  simp only [String.toList_append, List.append_assoc]
  rfl

theorem Disk.slash_not_mem_scratchEnding (process : Nat) : '/' ∉ scratchEnding process := by
  have hdigits : '/' ∉ Nat.toDigits 10 process := fun h =>
    absurd (Count.isDigit_of_mem_toDigits h) (by decide)
  simp [scratchEnding, ToString.toString, Nat.repr, hdigits]

theorem Disk.length_scratchEnding (process : Nat) : 13 ≤ (scratchEnding process).length := by
  simp [scratchEnding, ToString.toString, Nat.repr]

/-- Segments that end like the name of a scratch file lead to a place with such a name. -/
theorem Disk.target_of_scratchEnding {d : Disk} {path : Path} {process : Nat}
    (h : scratchEnding process <:+ path.text.toList) :
    ∃ parent name, d.target path = parent ++ [name] ∧ scratchEnding process <:+ name.toList := by
  obtain ⟨before, htext⟩ := h
  obtain ⟨init, last, hsegments⟩ :=
    Path.exists_segmentsOf_append before (slash_not_mem_scratchEnding process)
  have hlength := length_scratchEnding process
  have hlong : 2 < (String.ofList (last ++ scratchEnding process)).length := by
    rw [String.length_ofList, List.length_append]
    omega
  have htarget : ∃ parent : Place, d.target path =
      parent.step (String.ofList (last ++ scratchEnding process)) := by
    unfold target Path.segments
    rw [← htext, hsegments, List.map_append, List.foldl_append]
    exact ⟨_, rfl⟩
  obtain ⟨parent, htarget⟩ := htarget
  refine ⟨parent, String.ofList (last ++ scratchEnding process), ?_, ?_⟩
  · rw [htarget, Place.step_eq_append (Path.stepOf?_of_length hlong)]
  · rw [String.toList_ofList]
    exact List.suffix_append _ _

/-- The scratch file of a path has the name of one, unless the path has no name itself. -/
theorem Disk.target_scratch (d : Disk) (path : Path) :
    d.scratch path = path ∨ ∃ parent name, d.target (d.scratch path) = parent ++ [name] ∧
      scratchEnding d.process <:+ name.toList := by
  unfold scratch withExtension
  cases path.fileName? with
  | none => exact .inl rfl
  | some name =>
    refine .inr (target_of_scratchEnding ?_)
    refine List.IsSuffix.trans ?_ (suffix_intercalate _ _ _)
    rw [String.toList_append, String.toList_append, scratchEnding_eq, List.append_assoc]
    exact List.suffix_append _ _

variable {own : Place → Bool} {d e : Disk} {path : Path}

/-- Replacing a file on a disk without scratch files rewrites it. -/
theorem Disk.rewritesOnly_of_replace {content : Bytes} (h : d.replace path content = .ok e)
    (hclear : d.ScratchClear own) (hpath : d.Clears own path) :
    RewritesOnly (· = d.target path) d e ∧
      ∃ mode, e.nodeAt? (d.target path) = some (.file content mode) := by
  obtain ⟨p, q, old, mode, hreplaces⟩ := exists_replaces h
  obtain rfl := eq_target_of_open? hreplaces.opened
  -- The scratch file is the file itself, or nothing stands at its place.
  have hmissing : q = d.target path ∨ d.nodeAt? q = none := by
    obtain ⟨hlocate, _, _, hbare⟩ := locateForWrite_eq_ok hreplaces.scratch
    have hqtarget := eq_target_of_locate hlocate
    rcases d.target_scratch path with hsame | ⟨parent, name, htarget, hname⟩
    · rw [hbare, hsame] at hqtarget
      exact .inl hqtarget
    · right
      have hown : own q = false := hqtarget ▸ hpath.scratch _ (d.target_mem_route _)
      rw [hbare, htarget] at hqtarget
      cases hn : d.nodeAt? q with
      | none => rfl
      | some n =>
        refine absurd hname (hclear q n hn hown name ?_)
        rw [hqtarget]
        simp
  have hview := replace_sameView h
  refine ⟨⟨⟨hview.here, hview.process⟩, fun r => ?_⟩, mode, ?_⟩
  · rw [hreplaces.nodeAt?_eq]
    by_cases hr : r = d.target path
    · rw [if_pos hr, hr]
      exact .inr ⟨rfl, old, content, mode, nodeAt?_of_open? hreplaces.opened, rfl⟩
    · rw [if_neg hr]
      split
      · rename_i hrq
        exact .inl (hrq ▸ (hmissing.resolve_left fun hsame => hr (hrq.trans hsame)).symm)
      · exact .inl rfl
  · rw [hreplaces.nodeAt?_eq, if_pos rfl]

/-- Writing to a disk rewrites the file. -/
theorem Store.rewritesOnly_of_write {s t : Store} {content : Bytes} (hreal : s.overlay = none)
    (h : s.write path content = .ok t) (hclear : s.disk.ScratchClear own)
    (hpath : s.disk.Clears own path) :
    t.overlay = none ∧ s.disk.RewritesOnly (· = s.disk.target path) t.disk := by
  obtain ⟨e, hreplace, rfl⟩ := exists_replace_of_write hreal h
  exact ⟨hreal, (Disk.rewritesOnly_of_replace hreplace hclear hpath).1⟩

namespace Rename

variable {e : Engine} {old new : String} {range : Option LineRange}

/-- Looking at files rewrites some of them; the induction is on the files that are left. -/
theorem Progress.visits_rewritesOnly {p : Progress} (hreal : p.store.overlay = none)
    (hclear : p.store.disk.ScratchClear own) {paths : List Path}
    (hpaths : ∀ path ∈ paths, p.store.disk.Clears own path) :
    (paths.foldl (visit e old new range) p).store.overlay = none ∧
      p.store.disk.RewritesOnly (fun q => ∃ path ∈ paths, p.store.disk.target path = q)
        (paths.foldl (visit e old new range) p).store.disk := by
  induction paths generalizing p with
  | nil => exact ⟨hreal, .refl _ _⟩
  | cons path rest ih =>
    rw [List.foldl_cons]
    have hone : (p.visit e old new range path).store.overlay = none ∧
        p.store.disk.RewritesOnly (· = p.store.disk.target path)
          (p.visit e old new range path).store.disk := by
      cases hstopped : p.stopped with
      | some cause =>
        rw [visit_of_stopped (by rw [hstopped]; rfl)]
        exact ⟨hreal, .refl _ _⟩
      | none =>
        cases visited e old new range hstopped path with
        | unchanged _ hstore | failed _ _ hstore | stopped _ _ hstore =>
          rw [hstore]
          exact ⟨hreal, .refl _ _⟩
        | changed _ _ hrewrites =>
          obtain ⟨content, found, rewritten, _, _, _, _, hwrite⟩ := hrewrites.exists_text
          exact Store.rewritesOnly_of_write hreal hwrite hclear (hpaths path List.mem_cons_self)
    obtain ⟨hplain, hfirst⟩ := hone
    obtain ⟨hlast, hrest⟩ := ih hplain (hfirst.scratchClear hclear) fun q hq =>
      hfirst.view.clears (hpaths q (List.mem_cons_of_mem path hq))
    refine ⟨hlast, (hfirst.mono ?_).trans (hrest.mono ?_)⟩
    · rintro q rfl
      exact ⟨path, List.mem_cons_self, rfl⟩
    · rintro q ⟨other, hother, rfl⟩
      exact ⟨other, List.mem_cons_of_mem path hother, (hfirst.target_eq other).symm⟩

/-- A rename on a disk rewrites some of the files that it looks at, and nothing else. -/
theorem run_rewritesOnly {s : Store} (hreal : s.overlay = none) (hclear : s.disk.ScratchClear own)
    {scope : Scope} {files : List Path} (hfiles : candidates e s old scope = .ok files)
    (hpaths : ∀ path ∈ files, s.disk.Clears own path) :
    (run e s old new scope).store.overlay = none ∧
      s.disk.RewritesOnly (fun q => ∃ path ∈ files, s.disk.target path = q)
        (run e s old new scope).store.disk := by
  rcases run_cases e s old new scope with ⟨cause, hrun⟩ | ⟨found, hfound, hrun⟩
  · rw [hrun]
    exact ⟨hreal, .refl _ _⟩
  · obtain rfl := Except.ok.inj (hfiles.symm.trans hfound)
    rw [hrun]
    exact Progress.visits_rewritesOnly
      (p := { store := s, remarks := searchRemarks e old files scope }) hreal hclear hpaths

end Rename

end SymbolRename
