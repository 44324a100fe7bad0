import SymbolRename.Proofs.Snapshot.History

/-!
# The law of snapshots

After any successful calls and edits the manifest is read back as the entries that are held in
memory, and putting the files back gives each of them, once and in the order of the first calls,
what it held when it was first saved: `Snapshot.History.restores_first`. Beyond different labels,
one spelling for each file and different digests this takes that the snapshot's own places and the
scratch files are kept apart from the files that are saved. `Snapshot.law_fails` has an input for
each of these conditions.
-/

namespace SymbolRename.Snapshot

/-! ### First savings -/

/-- The savings of files that were not saved before. -/
def firsts (saved : List Saving) : List Saving := saved.eraseDupsBy fun x y => x.path.same y.path

/-- Lists whose members go together pair by pair still do when repetitions are left out of both. -/
theorem forall₂_eraseDupsBy {α β : Type} {related : α → β → Prop} {r : α → α → Bool}
    {r' : β → β → Bool}
    (hsame : ∀ {a b a' b'}, related a b → related a' b' → r a a' = r' b b') {xs : List α}
    {ys : List β} (h : List.Forall₂ related xs ys) :
    List.Forall₂ related (xs.eraseDupsBy r) (ys.eraseDupsBy r') := by
  -- The induction is on the length, because what is left is filtered.
  induction hlength : xs.length using Nat.strong_induction_on generalizing xs ys with
  | _ n ih =>
    cases h with
    | nil => exact .nil
    | @cons x y xs ys hhead htail =>
      rw [List.eraseDupsBy_cons, List.eraseDupsBy_cons]
      refine .cons hhead (ih _ ?_ (List.rel_filter ?_ htail) rfl)
      · have hle := List.length_filter_le (fun b => decide (r b x = false)) xs
        rw [← hlength, List.length_cons]
        omega
      · intro a b hab
        simp only [hsame hab hhead]

theorem exists_of_mem_right {α β : Type} {related : α → β → Prop} {xs : List α} {ys : List β}
    {y : β} (h : List.Forall₂ related xs ys) (hy : y ∈ ys) : ∃ x ∈ xs, related x y := by
  induction h with
  | nil => cases hy
  | @cons x y' _ _ hhead _ ih =>
    rcases List.mem_cons.mp hy with rfl | hy
    · exact ⟨x, List.mem_cons_self, hhead⟩
    · obtain ⟨x', hx', hrelated⟩ := ih hy
      exact ⟨x', List.mem_cons_of_mem x hx', hrelated⟩

/-- The first entry of each file is what is left without repetitions. -/
theorem firstEntries_eq (entries : List SnapshotEntry) :
    firstEntries entries = entries.eraseDupsBy fun x y => x.original.same y.original := by
  have hcomm : ∀ p q : Path, p.same q = q.same p := fun p q =>
    Bool.eq_iff_iff.mpr ⟨Path.same_symm, Path.same_symm⟩
  have hgo : ∀ (entries : List SnapshotEntry) (met : List Path),
      firstEntries.go met entries =
        (entries.filter fun e => !met.any (·.same e.original)).eraseDupsBy
          fun x y => x.original.same y.original := by
    intro entries
    induction entries with
    | nil => exact fun met => rfl
    | cons e rest ih =>
      intro met
      rw [firstEntries.go]
      split
      · rename_i hmet
        rw [ih, List.filter_cons_of_neg (by simp [hmet])]
      · rename_i hnew
        rw [ih, List.filter_cons_of_pos (by simp [hnew]), List.eraseDupsBy_cons, List.filter_filter]
        congr 2
        refine List.filter_congr fun x _ => ?_
        rw [List.any_cons, hcomm x.original]
        cases e.original.same x.original <;> simp
  rw [firstEntries, hgo]
  simp

/-- No file has two first entries. -/
theorem pairwise_firstEntries (entries : List SnapshotEntry) :
    (firstEntries entries).Pairwise fun x y => x.original.same y.original = false := by
  have hgo : ∀ (entries : List SnapshotEntry) (met : List Path),
      (firstEntries.go met entries).Pairwise fun x y => x.original.same y.original = false := by
    intro entries
    induction entries with
    | nil => exact fun _ => .nil
    | cons e rest ih =>
      intro met
      rw [firstEntries.go]
      split
      · exact ih met
      · exact .cons (fun x hx => (mem_of_mem_go hx).2 e.original List.mem_cons_self) (ih _)
  exact hgo entries []

/-! ### Putting files back -/

/-- Files can be put back: no directory has taken the place of one, and where one still stands there
is room beside it for its scratch file, which has the name of none of them. -/
structure Ready (d : Disk) (entries : List SnapshotEntry) : Prop where
  places : ∀ x ∈ entries, ∀ mode, d.nodeAt? (d.target x.original) ≠ some (.directory mode)
  scratch : ∀ x ∈ entries, d.isFile x.original = true →
    d.locateForWrite (d.scratch x.original) = .ok (d.target (d.scratch x.original), none)
  names : ∀ x ∈ entries, ∀ y ∈ entries, d.isFile x.original = true →
    d.target y.original ≠ d.target (d.scratch x.original)

instance (d : Disk) (entries : List SnapshotEntry) : Decidable (Ready d entries) :=
  decidable_of_iff
    ((∀ x ∈ entries, (d.nodeAt? (d.target x.original)).any Node.isDirectory = false) ∧
      (∀ x ∈ entries, d.isFile x.original = true →
        (d.locateForWrite (d.scratch x.original)).toOption =
          some (d.target (d.scratch x.original), none)) ∧
      ∀ x ∈ entries, ∀ y ∈ entries, d.isFile x.original = true →
        d.target y.original ≠ d.target (d.scratch x.original)) <| by
    constructor
    · rintro ⟨h, h', h''⟩
      refine ⟨fun x hx mode hnode => ?_,
        fun x hx hfile => toOption_eq_some_iff.mp (h' x hx hfile), h''⟩
      have hplace := h x hx
      rw [hnode] at hplace
      cases hplace
    · intro h
      refine ⟨fun x hx => ?_, fun x hx hfile => toOption_eq_some_iff.mpr (h.scratch x hx hfile),
        h.names⟩
      have hplaces := h.places x hx
      cases hnode : d.nodeAt? (d.target x.original) with
      | none => rfl
      | some n =>
        cases n with
        | file content mode => rfl
        | directory mode => exact absurd hnode (hplaces mode)

/-- Some files were put back: they hold what their copies hold, and nothing else has changed. -/
structure Returned (d : Disk) (done : List SnapshotEntry) (r : Restored) : Prop where
  fault : r.fault = none
  files : r.files = done.map (·.original)
  process : r.disk.process = d.process
  keeps : d.Keeps (fun _ => true) (fun p => ∃ x ∈ done, d.target x.original = p) r.disk
  contents : ∀ x ∈ done, ∀ content mode,
    d.nodeAt? (d.target x.backup) = some (.file content mode) →
      ∃ mode', r.disk.nodeAt? (d.target x.original) = some (.file content mode')

section Restoring

variable {start before d : Disk} {backups : Path} {id : String} {new s : Snapshot}
  {labels : List String} {saved : List Saving} {x : SnapshotEntry} {y : Saving} {directory : Path}

/-- What putting one file back does, given its copy. -/
theorem Restored.putBack_eq {r : Restored} (hfault : r.fault = none) {content : Bytes}
    {p : Place} (hread : r.disk.read x.backup = .ok content)
    (hlocate : r.disk.locate x.original = .ok p) (hbare : x.original.IsBare)
    (hplace : ∀ mode, r.disk.nodeAt? p ≠ some (.directory mode))
    (hscratch : r.disk.isFile x.original = true →
      ∃ q, r.disk.locateForWrite (r.disk.scratch x.original) = .ok (q, none)) :
    ∃ mode, r.putBack x =
      { r with
        disk := r.disk.put p (.file content mode)
        files := r.files ++ [x.original] } := by
  unfold putBack
  rw [hfault]
  simp only [Option.isSome_none, Bool.false_eq_true, if_false, hread, bind, Except.bind]
  by_cases hfile : r.disk.isFile x.original = true
  · obtain ⟨old, mode, hnode⟩ := (Disk.isFile_iff_of_locate hlocate).mp hfile
    obtain ⟨q, hq⟩ := hscratch hfile
    have hreplace : r.disk.replace x.original content =
        .ok (r.disk.put p (.file content mode)) := by
      unfold Disk.replace
      rw [Disk.open?_eq_ok_iff.mpr ⟨hlocate, hnode⟩, hq]
      simp only [bind, Except.bind, pure, Except.pure]
      rw [Disk.drop_eq_self (Disk.locateForWrite_eq_ok hq).2.1]
    simp only [hfile, if_true, hreplace]
    exact ⟨mode, rfl⟩
  · have hwrite : r.disk.write x.original content = .ok (r.disk.put p (.file content
        (((r.disk.nodeAt? p).map Node.mode).getD Node.fileMode))) := by
      unfold Disk.write
      rw [Disk.locateForWrite_of_locate hbare.withoutSlash_eq hlocate hplace]
      rfl
    simp only [hfile, Bool.false_eq_true, if_false, hwrite]
    exact ⟨_, rfl⟩

/-- Only the places of the files that were put back are new. -/
theorem Returned.nodeAt?_eq {done : List SnapshotEntry} {r : Restored} (h : Returned d done r)
    (hdone : done ⊆ s.entries) {p : Place} (hp : ∀ z ∈ s.entries, d.target z.original ≠ p) :
    r.disk.nodeAt? p = d.nodeAt? p :=
  h.keeps.nodes p fun ⟨z, hz, hplace⟩ => hp z (hdone hz) hplace

/-- A file that still stands can be replaced after others were put back. -/
theorem Returned.scratch {done : List SnapshotEntry} {r : Restored} (h : Returned d done r)
    (hready : Ready d s.entries) (hdone : done ⊆ s.entries) (hx : x ∈ s.entries)
    (hfile : d.isFile x.original = true) :
    ∃ q, r.disk.locateForWrite (r.disk.scratch x.original) = .ok (q, none) := by
  have hsame : r.disk.scratch x.original = d.scratch x.original := by
    unfold Disk.scratch
    rw [h.process]
  obtain ⟨hq, hnone, _, hbare⟩ := Disk.locateForWrite_eq_ok (hready.scratch x hx hfile)
  have hstill : r.disk.nodeAt? (d.target (d.scratch x.original)) = none := by
    rw [h.nodeAt?_eq hdone fun z hz => hready.names x hx z hz hfile, hnone]
  refine ⟨d.target (d.scratch x.original), ?_⟩
  rw [hbare] at hq
  rw [hsame, Disk.locateForWrite_of_locate hbare (h.keeps.locate hq) (by simp [hstill]), hstill]

/-- One more file is put back. -/
theorem Returned.putBack {done : List SnapshotEntry} {r : Restored} (h : Returned d done r)
    (hseparate : Separate d s) (hready : Ready d s.entries) (hdone : done ⊆ s.entries)
    (hx : x ∈ s.entries) (hfresh : ∀ z ∈ done, z.original.same x.original = false)
    (hstored : Stored d directory labels x y) : Returned d (done ++ [x]) (r.putBack x) := by
  obtain ⟨content, mode, -, hcopy⟩ := hstored.holds
  have happart : ∀ z ∈ done, d.target z.original ≠ d.target x.original := by
    intro z hz hplace
    have hsame := hseparate.spelling z (hdone hz) x hx hplace
    rw [hfresh z hz] at hsame
    cases hsame
  have hown : r.disk.nodeAt? (d.target x.original) = d.nodeAt? (d.target x.original) :=
    h.keeps.nodes _ fun ⟨z, hz, hplace⟩ => happart z hz hplace
  have hlocate := h.keeps.locate hstored.located
  have hread : r.disk.read x.backup = .ok content := by
    refine Disk.read_eq_ok_iff.mpr ⟨_, mode, Disk.open?_eq_ok_iff.mpr
      ⟨h.keeps.locate hstored.copied, ?_⟩⟩
    rw [h.nodeAt?_eq hdone fun z hz => hseparate.copies z hz x hx, hcopy]
  have hplace : ∀ mode, r.disk.nodeAt? (d.target x.original) ≠ some (.directory mode) := by
    rw [hown]
    exact hready.places x hx
  have hscratch : r.disk.isFile x.original = true →
      ∃ q, r.disk.locateForWrite (r.disk.scratch x.original) = .ok (q, none) := by
    intro hfile
    rw [Disk.isFile_iff_of_locate hlocate, hown] at hfile
    exact h.scratch hready hdone hx ((Disk.isFile_iff_of_locate hstored.located).mpr hfile)
  obtain ⟨mode', hput⟩ := Restored.putBack_eq h.fault hread hlocate hstored.bare hplace hscratch
  have hne := Disk.ne_nil_of_nodeAt? hplace
  rw [hput]
  refine ⟨h.fault, by simp [h.files], h.process, ?_, fun z hz content' mode'' hcontent => ?_⟩
  · refine (h.keeps.mono ?_).trans (Disk.Keeps.put rfl ⟨x, by simp, rfl⟩ hplace _)
    rintro p ⟨z, hz, hp⟩
    exact ⟨z, List.mem_append_left _ hz, hp⟩
  · rcases List.mem_append.mp hz with hz | hz
    · obtain ⟨now, hnow⟩ := h.contents z hz content' mode'' hcontent
      exact ⟨now, (Disk.nodeAt?_put hne).trans ((if_neg (happart z hz)).trans hnow)⟩
    · obtain rfl := List.mem_singleton.mp hz
      cases hcopy.symm.trans hcontent
      exact ⟨mode', (Disk.nodeAt?_put hne).trans (if_pos rfl)⟩

/-- All files are put back; the induction is on the first entries that are left. -/
theorem returned_restore (hseparate : Separate d s) (hready : Ready d s.entries)
    (hstored : ∀ x ∈ s.entries, ∃ y, Stored d directory labels x y) :
    Returned d (firstEntries s.entries) (restore d s) := by
  have hfold : ∀ (rest done : List SnapshotEntry) (r : Restored),
      firstEntries s.entries = done ++ rest → Returned d done r →
        Returned d (firstEntries s.entries) (rest.foldl Restored.putBack r) := by
    intro rest
    induction rest with
    | nil =>
      intro done r hall hr
      rwa [hall, List.append_nil]
    | cons x rest ih =>
      intro done r hall hr
      have hx : x ∈ s.entries := mem_of_mem_firstEntries (by simp [hall])
      have hdone : done ⊆ s.entries := fun z hz => mem_of_mem_firstEntries (by simp [hall, hz])
      have hpairs := pairwise_firstEntries s.entries
      rw [hall] at hpairs
      obtain ⟨y, hy⟩ := hstored x hx
      refine ih (done ++ [x]) _ (by simp [hall]) (hr.putBack hseparate hready hdone hx ?_ hy)
      exact fun z hz => (List.pairwise_append.mp hpairs).2.2 z hz x List.mem_cons_self
  exact hfold _ [] { disk := d } rfl ⟨rfl, rfl, rfl, .refl _ _ _, nofun⟩

/-! ### The law -/

/-- What putting back the files of a history does: each file that was saved is put back once, in the
order of the first calls that saved it, it holds what it held then, and nothing else has changed. -/
structure GivesBack (saved : List Saving) (d : Disk) (r : Restored) : Prop where
  fault : r.fault = none
  files : r.files = (firsts saved).map (·.path)
  once : r.files.Pairwise fun p q => p.same q = false
  all : ∀ y ∈ saved, ∃ path ∈ r.files, path.same y.path = true
  contents : ∀ y ∈ firsts saved, ∃ content, y.Held content ∧ r.disk.read y.path = .ok content
  others : ∀ p, (∀ y ∈ firsts saved, d.target y.path ≠ p) → r.disk.nodeAt? p = d.nodeAt? p

/-- The snapshot that is opened again is the one that was written. -/
theorem Consistent.load (h : Consistent start labels saved d s)
    (hempty : s.entries = [] → ∀ content mode,
      start.nodeAt? (start.target (manifestPath s.directory)) ≠ some (.file content mode)) :
    load d s.directory = .ok s := by
  rcases h.manifest with ⟨hnil, hsame⟩ | ⟨mode, hopen⟩
  · have hno : d.isFile (manifestPath s.directory) = false := by
      refine Bool.eq_false_iff.mpr fun hfile => ?_
      obtain ⟨p, content, mode, hopen⟩ := Disk.isFile_iff.mp hfile
      have hnode := Disk.nodeAt?_of_open? hopen
      rw [Disk.eq_target_of_open? hopen, h.target_eq, hsame] at hnode
      exact hempty hnil content mode hnode
    unfold Snapshot.load
    dsimp only
    rw [if_neg (by simp [hno]), ← hnil]
  · exact load_of_open? hopen

/-- The first entries belong to the first savings. -/
theorem Consistent.firsts (h : Consistent start labels saved d s) :
    List.Forall₂ (Stored d s.directory labels) (firstEntries s.entries) (firsts saved) := by
  rw [firstEntries_eq]
  refine forall₂_eraseDupsBy ?_ h.entries
  intro x y x' y' hx hx'
  rw [hx.original, hx'.original]

/-- What is put back from the entries of a history are the files as they were first saved. -/
theorem Consistent.givesBack (h : Consistent start labels saved d s)
    (hseparate : Separate start s) (hready : Ready d s.entries) :
    GivesBack saved d (restore d s) := by
  have hfirsts := h.firsts
  have hseparate' : Separate d s := hseparate.mono h.here rfl (List.Subset.refl _)
  have hreturned := returned_restore hseparate' hready fun x hx =>
    (exists_of_mem_right h.entries.flip hx).imp fun _ hy => hy.2
  have hpaths : (firstEntries s.entries).map (·.original) =
      (Snapshot.firsts saved).map (·.path) := by
    rw [← List.forall₂_eq_eq_eq, List.forall₂_map_left_iff, List.forall₂_map_right_iff]
    exact hfirsts.imp fun _ _ hstored => hstored.original
  refine ⟨hreturned.fault, hreturned.files.trans hpaths, ?_, fun y hy => ?_, fun y hy => ?_,
    fun p hp => ?_⟩
  · rw [hreturned.files, List.pairwise_map]
    exact pairwise_firstEntries s.entries
  · obtain ⟨x, hx, hstored⟩ := exists_of_mem_right h.entries hy
    obtain ⟨first, hfirst, hsame⟩ := exists_mem_firstEntries hx
    refine ⟨first.original, ?_, hstored.original ▸ hsame⟩
    rw [hreturned.files]
    exact List.mem_map_of_mem hfirst
  · obtain ⟨x, hx, hstored⟩ := exists_of_mem_right hfirsts hy
    obtain ⟨content, mode, hheld, hcopy⟩ := hstored.holds
    obtain ⟨mode', hnode⟩ := hreturned.contents x hx content mode hcopy
    have hlocate := hreturned.keeps.locate hstored.located
    rw [hstored.original] at hlocate hnode
    exact ⟨content, hheld,
      Disk.read_eq_ok_iff.mpr ⟨_, mode', Disk.open?_eq_ok_iff.mpr ⟨hlocate, hnode⟩⟩⟩
  · refine hreturned.keeps.nodes p fun ⟨x, hx, hplace⟩ => ?_
    obtain ⟨y, hy, hstored⟩ := exists_of_mem_right hfirsts.flip hx
    exact hp y hy (hstored.original ▸ hplace)

/-- Whatever is saved and edited, the snapshot on the disk is the one in memory, and either of them
gives back the files as they were first saved. -/
theorem History.restores_first (hcreate : create before backups id = .ok (start, new))
    (h : History start new labels saved d s) (hseparate : Separate start s)
    (hempty : s.entries = [] → ∀ content mode,
      start.nodeAt? (start.target (manifestPath s.directory)) ≠ some (.file content mode))
    (hready : Ready d s.entries) :
    load d s.directory = .ok s ∧
      ∀ opened, opened = s ∨ load d s.directory = .ok opened →
        GivesBack saved d (restore d opened) := by
  have hnew : new.entries = [] := by
    obtain ⟨made, _, hmade⟩ := bind_eq_ok_iff.mp hcreate
    obtain ⟨-, rfl⟩ := Prod.mk.inj (Except.ok.inj hmade)
    rfl
  have hconsistent := h.consistent hnew hseparate
  have hload := hconsistent.load hempty
  refine ⟨hload, fun opened hopened => ?_⟩
  obtain rfl : opened = s := by
    rcases hopened with rfl | hopened
    · rfl
    · exact (Except.ok.inj (hload.symm.trans hopened)).symm
  exact hconsistent.givesBack hseparate hready

end Restoring

/-- A disk with a few directories and files. -/
def smallDisk (directories : List Place) (files : List (Place × String)) : Disk :=
  { here := [], process := 7
    nodes := directories.map (fun p => (p, .directory Node.directoryMode)) ++
      files.map fun (p, text) => (p, .file (bytes text) Node.fileMode) }

/-- Two files are saved, one is rewritten and the other removed, the first is saved again and
rewritten once more. -/
def twice : Scenario where
  before := smallDisk [] [(["x"], "1"), (["y"], "2")]
  events := [.save "a" [⟨"x"⟩, ⟨"y"⟩], .write ["x"] "3", .remove ["y"], .save "b" [⟨"x"⟩],
    .write ["x"] "4"]

/-- Both files get back what they held at the first call. -/
theorem History.restores_first_twice :
    ∃ start new m, twice.play? = some (start, new, m) ∧
      load m.disk m.snapshot.directory = .ok m.snapshot ∧
      GivesBack m.saved m.disk (restore m.disk m.snapshot) ∧
      (restore m.disk m.snapshot).files = [⟨"x"⟩, ⟨"y"⟩] ∧
      (restore m.disk m.snapshot).disk.read ⟨"x"⟩ = .ok (bytes "1") ∧
      (restore m.disk m.snapshot).disk.read ⟨"y"⟩ = .ok (bytes "2") := by
  have hplay : twice.play?.any (fun (start, _, m) => decide (m.snapshot.entries ≠ [] ∧
      Separate start m.snapshot ∧ Ready m.disk m.snapshot.entries ∧
      (restore m.disk m.snapshot).files = [⟨"x"⟩, ⟨"y"⟩] ∧
      (restore m.disk m.snapshot).disk.read ⟨"x"⟩ = .ok (bytes "1") ∧
      (restore m.disk m.snapshot).disk.read ⟨"y"⟩ = .ok (bytes "2"))) = true := by
    decide +kernel
  obtain ⟨⟨start, new, m⟩, hm, hchecks⟩ := (Option.any_eq_true _ _).mp hplay
  obtain ⟨hnonempty, hseparate, hready, hfiles, hx, hy⟩ := of_decide_eq_true hchecks
  obtain ⟨hcreate, hhistory⟩ := Scenario.history_of_play? hm
  obtain ⟨hload, hback⟩ := History.restores_first hcreate hhistory hseparate
    (fun hempty => absurd hempty hnonempty) hready
  exact ⟨start, new, m, hm, hload, hback _ (.inl rfl), hfiles, hx, hy⟩

/-! ### Where the law does not hold -/

/-- What the law says of a moment. -/
def Moment.IsLawful (m : Moment) : Prop :=
  load m.disk m.snapshot.directory = .ok m.snapshot ∧
    GivesBack m.saved m.disk (restore m.disk m.snapshot)

/-- A file does not get back what it held when it was first saved. -/
def Moment.loses (path : Path) (content : Bytes) (m : Moment) : Bool :=
  (firsts m.saved).any fun y => decide (y.path = path ∧
    (y.disk.read path).toOption = some content ∧
    ((restore m.disk m.snapshot).disk.read path).toOption ≠ some content)

/-- A file that was never saved is not what it was. -/
def Moment.harms (p : Place) (m : Moment) : Bool :=
  decide ((∀ y ∈ firsts m.saved, m.disk.target y.path ≠ p) ∧
    (restore m.disk m.snapshot).disk.nodeAt? p ≠ m.disk.nodeAt? p)

/-- Some file is not put back, or the manifest cannot be read. -/
def Moment.stops (m : Moment) : Bool :=
  (restore m.disk m.snapshot).fault.isSome || !(load m.disk m.snapshot.directory).isOk

theorem Moment.not_isLawful_of_loses {path : Path} {content : Bytes} {m : Moment}
    (h : m.loses path content = true) : ¬ m.IsLawful := by
  rintro ⟨-, hback⟩
  obtain ⟨y, hy, hcheck⟩ := List.any_eq_true.mp h
  obtain ⟨rfl, hread, hlost⟩ := of_decide_eq_true hcheck
  obtain ⟨p, mode, hopen⟩ := Disk.read_eq_ok_iff.mp (toOption_eq_some_iff.mp hread)
  obtain ⟨found, ⟨mode', hheld⟩, hfound⟩ := hback.contents y hy
  have hnode := Disk.nodeAt?_of_open? hopen
  rw [Disk.eq_target_of_open? hopen, hheld] at hnode
  cases hnode
  exact hlost (toOption_eq_some_iff.mpr hfound)

theorem Moment.not_isLawful_of_harms {p : Place} {m : Moment} (h : m.harms p = true) :
    ¬ m.IsLawful := by
  rintro ⟨-, hback⟩
  obtain ⟨hother, hharmed⟩ := of_decide_eq_true h
  exact hharmed (hback.others p hother)

theorem Moment.not_isLawful_of_stops {m : Moment} (h : m.stops = true) : ¬ m.IsLawful := by
  rintro ⟨hload, hback⟩
  simp [stops, hload, hback.fault, Except.isOk, Except.toBool] at h

/-- All calls succeed under different labels, each file is spelled one way and no digests collide,
and still the law does not hold in the end. -/
def Scenario.Fails (c : Scenario) : Prop :=
  ∃ start new m, create c.before ⟨"s"⟩ "t" = .ok (start, new) ∧ c.play? = some (start, new, m) ∧
    History start new m.labels m.saved m.disk m.snapshot ∧ Distinct m.disk m.snapshot.entries ∧
    ¬ m.IsLawful

theorem Scenario.fails_of_any {c : Scenario} {broken : Moment → Bool}
    (hbroken : ∀ m, broken m = true → ¬ m.IsLawful)
    (h : c.play?.any (fun (_, _, m) => decide (Distinct m.disk m.snapshot.entries) && broken m) =
      true) : c.Fails := by
  obtain ⟨⟨start, new, m⟩, hm, hchecks⟩ := (Option.any_eq_true _ _).mp h
  obtain ⟨hdistinct, hbreaks⟩ := Bool.and_eq_true_iff.mp hchecks
  obtain ⟨hcreate, hhistory⟩ := history_of_play? hm
  exact ⟨start, new, m, hcreate, hm, hhistory, of_decide_eq_true hdistinct, hbroken m hbreaks⟩

theorem Scenario.fails_of_stops {c : Scenario} (h : c.play?.any (fun (_, _, m) =>
    decide (Distinct m.disk m.snapshot.entries) && m.stops) = true) : c.Fails :=
  fails_of_any (fun _ => Moment.not_isLawful_of_stops) h

/-- Two labels name one directory. -/
def oneDirectory : Scenario where
  before := smallDisk [] [(["f"], "v1")]
  events := [.save "a" [⟨"f"⟩], .write ["f"] "v2", .save "./a" [⟨"f"⟩]]

/-- A file has the name of the scratch file of another. -/
def scratchTaken : Scenario where
  before := smallDisk [] [(["f"], "v1"), (["f.7.refactor.tmp"], "kept")]
  events := [.save "a" [⟨"f"⟩]]

/-- The scratch file of a file cannot be written. -/
def scratchBlocked : Scenario where
  before := smallDisk [["f.7.refactor.tmp"]] [(["f"], "v1")]
  events := [.save "a" [⟨"f"⟩]]

/-- A file that is saved stands where a later call puts a copy. -/
def copyTaken : Scenario where
  before := smallDisk [["s"], ["s", "t"], ["s", "t", "b"]] [(["f"], "v1"),
    (["s", "t", "b", "252f10c83610ebca1a059c0bae8255eba2f95be4d1d7bcfa89d7248a82d9f111"], "v2")]
  events :=
    [.save "a" [⟨"s/t/b/252f10c83610ebca1a059c0bae8255eba2f95be4d1d7bcfa89d7248a82d9f111"⟩],
      .save "b" [⟨"f"⟩]]

/-- A manifest was there before, and no call writes another. -/
def manifestThere : Scenario where
  before := smallDisk [["s"], ["s", "t"]] [(["s", "t", "manifest.json"], "")]
  events := [.save "a" []]

theorem fails_oneDirectory : oneDirectory.Fails := by
  apply Scenario.fails_of_any fun m => @Moment.not_isLawful_of_loses ⟨"f"⟩ (bytes "v1") m
  decide +kernel

theorem fails_scratchTaken : scratchTaken.Fails := by
  apply Scenario.fails_of_any fun m => @Moment.not_isLawful_of_harms ["f.7.refactor.tmp"] m
  decide +kernel

theorem fails_copyTaken : copyTaken.Fails := by
  apply Scenario.fails_of_any fun m => @Moment.not_isLawful_of_loses ⟨"f"⟩ (bytes "v1") m
  decide +kernel

theorem fails_scratchBlocked : scratchBlocked.Fails := by
  apply Scenario.fails_of_stops
  decide +kernel

theorem fails_manifestThere : manifestThere.Fails := by
  apply Scenario.fails_of_stops
  decide +kernel

/-- Each of the further conditions is needed: the copies of two calls are put over each other, a
file of the project is lost, a file is not put back, a copy is spoilt by what is put back before it,
or a manifest is read that no call has written. -/
theorem law_fails : oneDirectory.Fails ∧ scratchTaken.Fails ∧ scratchBlocked.Fails ∧
    copyTaken.Fails ∧ manifestThere.Fails :=
  ⟨fails_oneDirectory, fails_scratchTaken, fails_scratchBlocked, fails_copyTaken,
    fails_manifestThere⟩

end SymbolRename.Snapshot
