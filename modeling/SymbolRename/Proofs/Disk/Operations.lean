import SymbolRename.Proofs.Disk.Outside
import SymbolRename.Proofs.Disk.Rewritten
import SymbolRename.Proofs.Text.Utf8

/-!
# What each operation on a disk does

One lemma for each operation that creates, fills or removes a file or a directory: where it
succeeds, which node it puts or drops and what stood there before. Making directories leaves all
nodes as they are and adds directories only (`Disk.grows_of_makeDirectories`).
-/

namespace SymbolRename.Disk

variable {d e : Disk} {path : Path}

/-- A place with nothing or with a file is not the root. -/
theorem ne_nil_of_nodeAt? {p : Place} (h : ∀ mode, d.nodeAt? p ≠ some (.directory mode)) :
    p ≠ [] := by
  rintro rfl
  exact h _ rfl

theorem read_eq_ok_iff {content : Bytes} :
    d.read path = .ok content ↔ ∃ p mode, d.open? path = .ok (p, .file content mode) := by
  unfold read
  constructor
  · intro h
    obtain ⟨⟨p, n⟩, hopen, h⟩ := bind_eq_ok_iff.mp h
    cases n with
    | file found mode =>
      obtain rfl := Except.ok.inj h
      exact ⟨p, mode, hopen⟩
    | directory mode => cases h
  · rintro ⟨p, mode, hopen⟩
    rw [hopen]
    rfl

/-- Whether a path leads to a file, when it can be followed. -/
theorem isFile_iff_of_locate {p : Place} (h : d.locate path = .ok p) :
    d.isFile path = true ↔ ∃ content mode, d.nodeAt? p = some (.file content mode) := by
  unfold isFile open?
  rw [h]
  simp only [bind, Except.bind]
  cases d.nodeAt? p with
  | none => simp
  | some n => cases n <;> simp

/-- What is read as text is the text of a file. -/
theorem readText_eq_ok {content : String} (h : d.readText path = .ok content) :
    ∃ p mode, d.open? path = .ok (p, .file (bytes content) mode) := by
  obtain ⟨found, hread, h⟩ := bind_eq_ok_iff.mp h
  cases hdecode : Utf8.decode? found with
  | none =>
    rw [hdecode] at h
    cases h
  | some text =>
    rw [hdecode] at h
    obtain rfl := Except.ok.inj h
    rw [Utf8.bytes_of_decode? hdecode]
    exact read_eq_ok_iff.mp hread

theorem remove_eq_ok_iff :
    d.remove path = .ok e ↔
      ∃ p content mode, d.open? path = .ok (p, .file content mode) ∧ e = d.drop p := by
  unfold remove
  constructor
  · intro h
    obtain ⟨⟨p, n⟩, hopen, h⟩ := bind_eq_ok_iff.mp h
    cases n with
    | file content mode =>
      obtain rfl := Except.ok.inj h
      exact ⟨p, content, mode, hopen, rfl⟩
    | directory mode => cases h
  · rintro ⟨p, content, mode, hopen, rfl⟩
    rw [hopen]
    rfl

/-- A file that is written stands at the target of its path, with the mode it had. -/
theorem write_eq_ok {content : Bytes} (h : d.write path content = .ok e) :
    d.locate path = .ok (d.target path) ∧
      (∀ mode, d.nodeAt? (d.target path) ≠ some (.directory mode)) ∧
      e = d.put (d.target path) (.file content
        (((d.nodeAt? (d.target path)).map Node.mode).getD Node.fileMode)) := by
  obtain ⟨⟨p, found⟩, hlocate, h⟩ := bind_eq_ok_iff.mp h
  obtain ⟨hp, hfound, hdirectory, hbare⟩ := locateForWrite_eq_ok hlocate
  rw [hbare] at hp
  obtain rfl := eq_target_of_locate hp
  obtain rfl := Except.ok.inj h
  subst hfound
  exact ⟨hp, hdirectory, rfl⟩

/-- A file that is copied is put at the target of the other path. -/
theorem copy_eq_ok {target : Path} (h : d.copy path target = .ok e) :
    d.locate target = .ok (d.target target) ∧
      (∀ mode, d.nodeAt? (d.target target) ≠ some (.directory mode)) ∧
      ∃ p content mode, d.open? path = .ok (p, .file content mode) ∧
        e = d.put (d.target target) (.file content mode) := by
  obtain ⟨⟨p, n⟩, hopen, h⟩ := bind_eq_ok_iff.mp h
  cases n with
  | directory mode => cases h
  | file content mode =>
    obtain ⟨⟨q, found⟩, hlocate, h⟩ := bind_eq_ok_iff.mp h
    obtain ⟨hq, hfound, hdirectory, hbare⟩ := locateForWrite_eq_ok hlocate
    rw [hbare] at hq
    obtain rfl := eq_target_of_locate hq
    exact ⟨hq, hfound ▸ hdirectory, p, content, mode, hopen, (Except.ok.inj h).symm⟩

/-- A file that must not exist yet is put where nothing stands. -/
theorem writeNew_eq_ok {content : Bytes} (h : d.writeNew path content = .ok e) :
    d.nodeAt? (d.target path) = none ∧
      e = d.put (d.target path) (.file content Node.fileMode) := by
  unfold writeNew at h
  split at h
  · cases h
  · rename_i hexists
    obtain ⟨hlocate, _, rfl⟩ := write_eq_ok h
    have hnone : d.nodeAt? (d.target path) = none := by
      cases hnode : d.nodeAt? (d.target path) with
      | none => rfl
      | some n =>
        refine absurd ?_ hexists
        unfold Disk.exists
        rw [open?_eq_ok_iff.mpr ⟨hlocate, hnode⟩]
        rfl
    exact ⟨hnone, by rw [hnone]; rfl⟩

/-- Whether a file can be written does not depend on its content. -/
theorem write_error {content other : Bytes} {fault : FileFault}
    (h : d.write path content = .error fault) : d.write path other = .error fault := by
  unfold write at h ⊢
  cases hwhere : d.locateForWrite path with
  | error reason => simpa [hwhere, bind, Except.bind] using h
  | ok found => simp [hwhere, bind, Except.bind, pure, Except.pure] at h

/-- Whether a new file can be made does not depend on its content. -/
theorem writeNew_error {content other : Bytes} {fault : FileFault}
    (h : d.writeNew path content = .error fault) : d.writeNew path other = .error fault := by
  unfold writeNew at h ⊢
  split
  · rename_i hexists
    rwa [if_pos hexists] at h
  · rename_i hexists
    rw [if_neg hexists] at h
    exact write_error h

theorem putNode_putNode (p : Place) (n m : Node) (nodes : List (Place × Node)) :
    putNode p n (putNode p m nodes) = putNode p n nodes := by
  induction nodes with
  | nil => simp [putNode]
  | cons entry rest ih =>
    obtain ⟨q, k⟩ := entry
    by_cases hq : q = p
    · simp [putNode, hq]
    · simp [putNode, hq, ih]

/-- Of two nodes put at one place the later stays. -/
theorem put_put (p : Place) (n m : Node) : (d.put p m).put p n = d.put p n := by
  simp only [put, putNode_putNode]

/-! ### Making directories -/

/-- All nodes of one disk stand on the other. -/
structure Grows (d e : Disk) : Prop where
  here : e.here = d.here
  process : e.process = d.process
  nodes : ∀ p n, d.nodeAt? p = some n → e.nodeAt? p = some n

theorem Grows.refl (d : Disk) : Grows d d := ⟨rfl, rfl, fun _ _ h => h⟩

theorem Grows.trans {f : Disk} (h : Grows d e) (h' : Grows e f) : Grows d f :=
  ⟨h'.here.trans h.here, h'.process.trans h.process, fun p n hn => h'.nodes p n (h.nodes p n hn)⟩

theorem Grows.target_eq (h : Grows d e) (path : Path) : e.target path = d.target path :=
  target_congr h.here path

/-- A directory is made where nothing stands. -/
theorem makeDirectory_eq_ok (h : d.makeDirectory path = .ok e) :
    ∃ p, d.nodeAt? p = none ∧ e = d.put p (.directory Node.directoryMode) := by
  obtain ⟨p, _, h⟩ := bind_eq_ok_iff.mp h
  cases hp : d.nodeAt? p with
  | some n =>
    rw [hp] at h
    cases h
  | none =>
    rw [hp] at h
    exact ⟨p, hp, (Except.ok.inj h).symm⟩

theorem grows_of_makeDirectory (h : d.makeDirectory path = .ok e) : Grows d e := by
  obtain ⟨p, hp, rfl⟩ := makeDirectory_eq_ok h
  refine ⟨rfl, rfl, fun q n hq => ?_⟩
  rw [nodeAt?_put (ne_nil_of_nodeAt? (d := d) (by simp [hp])), if_neg]
  · exact hq
  · rintro rfl
    rw [hp] at hq
    cases hq

/-- What making one directory does, making all that are missing does. -/
theorem makeDirectoriesFrom_induction {motive : Disk → Disk → Prop} (hrefl : ∀ d, motive d d)
    (htrans : ∀ {d e f}, motive d e → motive e f → motive d f)
    (hmake : ∀ {d e path}, d.makeDirectory path = .ok e → motive d e) {fuel : Nat}
    (h : makeDirectoriesFrom fuel d path = .ok e) : motive d e := by
  induction fuel generalizing d e path with
  | zero =>
    obtain rfl := Except.ok.inj h
    exact hrefl d
  | succ fuel ih =>
    have hlast : ∀ {d e : Disk} {fault : FileFault},
        (if d.isDirectory path then Except.ok d else .error fault) = .ok e → motive d e := by
      intro d e fault h
      split at h
      · obtain rfl := Except.ok.inj h
        exact hrefl d
      · cases h
    rw [makeDirectoriesFrom] at h
    split at h
    · obtain rfl := Except.ok.inj h
      exact hrefl d
    · split at h
      · rename_i hmade
        obtain rfl := Except.ok.inj h
        exact hmake hmade
      · split at h
        · cases h
        · obtain ⟨above, habove, h⟩ := bind_eq_ok_iff.mp h
          refine htrans (ih habove) ?_
          split at h
          · rename_i hmade
            obtain rfl := Except.ok.inj h
            exact hmake hmade
          · exact hlast h
      · exact hlast h

/-- Making directories keeps every node. -/
theorem grows_of_makeDirectories (h : d.makeDirectories path = .ok e) : Grows d e :=
  makeDirectoriesFrom_induction .refl .trans grows_of_makeDirectory h

/-- Making directories makes no file. -/
theorem file_of_makeDirectories (h : d.makeDirectories path = .ok e) {p : Place} {content : Bytes}
    {mode : Nat} (hfile : e.nodeAt? p = some (.file content mode)) :
    d.nodeAt? p = some (.file content mode) := by
  refine makeDirectoriesFrom_induction
    (motive := fun d e => e.nodeAt? p = some (.file content mode) →
      d.nodeAt? p = some (.file content mode))
    (fun _ h => h) (fun h h' hlast => h (h' hlast)) ?_ h hfile
  intro d e path h hfile
  obtain ⟨q, hq, rfl⟩ := makeDirectory_eq_ok h
  rw [nodeAt?_put (ne_nil_of_nodeAt? (d := d) (by simp [hq]))] at hfile
  split at hfile
  · cases hfile
  · exact hfile

end SymbolRename.Disk
