import SymbolRename.Disk
import SymbolRename.Proofs.Fallible
import Mathlib.Data.List.Forall2

/-!
# Disks that differ in file contents

Two disks with the same files and directories, of which some files hold different bytes,
answer every question about paths alike. `Disk.replace` leads to such a disk when nothing
stands at the place of its scratch file.
-/

namespace SymbolRename

/-- Both are files, or the same directory. -/
inductive Node.SameKind : Node → Node → Prop
  | file (a b : Bytes) (m n : Nat) : SameKind (.file a m) (.file b n)
  | directory (m : Nat) : SameKind (.directory m) (.directory m)

theorem Node.SameKind.refl (n : Node) : n.SameKind n := by
  cases n with
  | file => exact .file _ _ _ _
  | directory => exact .directory _

theorem Node.SameKind.trans {a b c : Node} (h : a.SameKind b) (h' : b.SameKind c) :
    a.SameKind c := by
  cases h with
  | file =>
    cases h'
    exact .file _ _ _ _
  | directory => exact h'

/-- Two entries for one place: nodes of one kind, and the same node if the place is not
among the changed ones. -/
structure Disk.SameEntry (changed : Place → Prop) (a b : Place × Node) : Prop where
  place : a.1 = b.1
  kind : a.2.SameKind b.2
  kept : ¬ changed a.1 → a.2 = b.2

theorem Disk.SameEntry.refl (changed : Place → Prop) (a : Place × Node) :
    SameEntry changed a a := ⟨rfl, Node.SameKind.refl _, fun _ => rfl⟩

/-- The second disk arises from the first when files at some places get other contents. -/
structure Disk.Rewritten (changed : Place → Prop) (d e : Disk) : Prop where
  here : e.here = d.here
  process : e.process = d.process
  nodes : List.Forall₂ (SameEntry changed) d.nodes e.nodes

theorem Disk.Rewritten.refl (changed : Place → Prop) (d : Disk) : Rewritten changed d d :=
  ⟨rfl, rfl, List.forall₂_same.mpr fun _ _ => SameEntry.refl _ _⟩

theorem Disk.putNode_sameEntry {nodes : List (Place × Node)} {p : Place} {n m : Node}
    (h : nodes.lookup p = some n) (hkind : n.SameKind m) :
    List.Forall₂ (SameEntry (· = p)) nodes (putNode p m nodes) := by
  induction nodes with
  | nil => simp at h
  | cons entry rest ih =>
    obtain ⟨q, k⟩ := entry
    by_cases hq : q = p
    · subst hq
      obtain rfl : k = n := by simpa using h
      rw [putNode, if_pos rfl]
      refine .cons ⟨rfl, hkind, fun hne => absurd rfl hne⟩ ?_
      exact List.forall₂_same.mpr fun _ _ => SameEntry.refl _ _
    · have hbeq : (p == q) = false := by simpa using Ne.symm hq
      rw [List.lookup_cons, hbeq] at h
      rw [putNode, if_neg hq]
      exact .cons (SameEntry.refl _ _) (ih h)

/-- A node that is put where another of its kind stands changes one content. -/
theorem Disk.Rewritten.put {d : Disk} {p : Place} {n m : Node} (hp : p ≠ [])
    (hat : d.nodeAt? p = some n) (hkind : n.SameKind m) :
    Rewritten (· = p) d (d.put p m) := by
  refine ⟨rfl, rfl, putNode_sameEntry ?_ hkind⟩
  simpa [Disk.nodeAt?, hp] using hat

/-- Emptying a place where nothing stands changes nothing. -/
theorem Disk.drop_eq_self {d : Disk} {p : Place} (h : d.nodeAt? p = none) : d.drop p = d := by
  have hp : p ≠ [] := by
    rintro rfl
    simp [Disk.nodeAt?] at h
  have hlookup : d.nodes.lookup p = none := by simpa [Disk.nodeAt?, hp] using h
  have hfilter : d.nodes.filter (·.1 != p) = d.nodes := by
    refine List.filter_eq_self.mpr fun entry hentry => ?_
    have hne := List.lookup_eq_none_iff.mp hlookup entry hentry
    exact bne_iff_ne.mpr (bne_iff_ne.mp hne).symm
  rw [drop, hfilter]

theorem Disk.lookup_sameEntry {changed : Place → Prop} {as bs : List (Place × Node)}
    (h : List.Forall₂ (SameEntry changed) as bs) (p : Place) :
    (as.lookup p = none ∧ bs.lookup p = none) ∨
      ∃ n m, as.lookup p = some n ∧ bs.lookup p = some m ∧ n.SameKind m ∧
        (¬ changed p → n = m) := by
  induction h with
  | nil => exact .inl ⟨rfl, rfl⟩
  | @cons a b as bs hab _ ih =>
    obtain ⟨q, n⟩ := a
    obtain ⟨q', m⟩ := b
    obtain ⟨hq, hkind, hkept⟩ := hab
    obtain rfl : q = q' := hq
    by_cases heq : p = q
    · subst heq
      exact .inr ⟨n, m, by simp, by simp, hkind, hkept⟩
    · have hbeq : (p == q) = false := by simpa using heq
      simpa only [List.lookup_cons, hbeq] using ih

/-- What stands at a place is of one kind, and the same where nothing changed. -/
theorem Disk.Rewritten.nodeAt? {changed : Place → Prop} {d e : Disk} (h : Rewritten changed d e)
    (p : Place) :
    (d.nodeAt? p = none ∧ e.nodeAt? p = none) ∨
      ∃ n m, d.nodeAt? p = some n ∧ e.nodeAt? p = some m ∧ n.SameKind m ∧
        (¬ changed p → n = m) := by
  unfold Disk.nodeAt?
  by_cases hp : p = []
  · exact .inr ⟨_, _, if_pos hp, if_pos hp, Node.SameKind.refl _, fun _ => rfl⟩
  · simp only [hp, if_false]
    exact lookup_sameEntry h.nodes p

theorem Disk.Rewritten.follow_eq {changed : Place → Prop} {d e : Disk}
    (h : Rewritten changed d e) : e.follow = d.follow := by
  funext p segment
  rcases h.nodeAt? p with ⟨hd, he⟩ | ⟨n, m, hd, he, hkind, _⟩
  · simp only [follow, hd, he]
  · cases hkind with
    | file => simp only [follow, hd, he]
    | directory => simp only [follow, hd, he]

/-- Every path names the same place. -/
theorem Disk.Rewritten.locate_eq {changed : Place → Prop} {d e : Disk}
    (h : Rewritten changed d e) (path : Path) : e.locate path = d.locate path := by
  simp only [locate, h.follow_eq, h.here]

/-- Every path leads to nodes of one kind at one place, or nowhere for one reason. -/
theorem Disk.Rewritten.open? {changed : Place → Prop} {d e : Disk} (h : Rewritten changed d e)
    (path : Path) :
    (∃ fault, d.open? path = .error fault ∧ e.open? path = .error fault) ∨
      ∃ p n m, d.open? path = .ok (p, n) ∧ e.open? path = .ok (p, m) ∧ n.SameKind m ∧
        (¬ changed p → n = m) := by
  unfold Disk.open?
  rw [h.locate_eq path]
  cases hp : d.locate path with
  | error fault => exact .inl ⟨fault, rfl, rfl⟩
  | ok p =>
    rcases h.nodeAt? p with ⟨hd, he⟩ | ⟨n, m, hd, he, hkind, hkeep⟩
    · exact .inl ⟨.missing, by simp [bind, Except.bind, hd], by simp [bind, Except.bind, he]⟩
    · exact .inr ⟨p, n, m, by simp [bind, Except.bind, hd], by simp [bind, Except.bind, he],
        hkind, hkeep⟩

/-- The place of what a path leads to. -/
def Disk.place? (d : Disk) (path : Path) : Option Place := (d.open? path).toOption.map Prod.fst

theorem Disk.place?_eq_some_iff {d : Disk} {path : Path} {p : Place} :
    d.place? path = some p ↔ ∃ n, d.open? path = .ok (p, n) := by
  unfold place?
  cases d.open? path with
  | error fault => simp [Except.toOption]
  | ok found => simp [Except.toOption, Prod.ext_iff]

theorem Disk.open?_eq_ok_iff {d : Disk} {path : Path} {p : Place} {n : Node} :
    d.open? path = .ok (p, n) ↔ d.locate path = .ok p ∧ d.nodeAt? p = some n := by
  unfold Disk.open?
  cases hlocate : d.locate path with
  | error fault => simp [bind, Except.bind]
  | ok q =>
    cases hq : d.nodeAt? q with
    | none =>
      refine iff_of_false (by simp [bind, Except.bind, hq]) ?_
      rintro ⟨heq, hn⟩
      rw [← Except.ok.inj heq, hq] at hn
      cases hn
    | some m =>
      simp only [bind, Except.bind, hq]
      constructor
      · intro h
        obtain ⟨rfl, rfl⟩ := Prod.mk.inj (Except.ok.inj h)
        exact ⟨rfl, hq⟩
      · rintro ⟨heq, hn⟩
        obtain rfl := Except.ok.inj heq
        obtain rfl := Option.some.inj (hq.symm.trans hn)
        rfl

theorem Disk.nodeAt?_of_open? {d : Disk} {path : Path} {p : Place} {n : Node}
    (h : d.open? path = .ok (p, n)) : d.nodeAt? p = some n := (open?_eq_ok_iff.mp h).2

theorem Disk.Rewritten.isFile_eq {changed : Place → Prop} {d e : Disk}
    (h : Rewritten changed d e) (path : Path) : e.isFile path = d.isFile path := by
  unfold isFile
  rcases h.open? path with ⟨fault, hd, he⟩ | ⟨p, n, m, hd, he, hkind, _⟩
  · rw [hd, he]
  · rw [hd, he]
    cases hkind <;> rfl

/-! ### Directories that stay -/

theorem Disk.follow_of_directories {d e : Disk}
    (hdirectory : ∀ r mode, e.nodeAt? r = some (.directory mode) →
      d.nodeAt? r = some (.directory mode)) {p r : Place} {segment : String}
    (h : e.follow p segment = .ok r) : d.follow p segment = .ok r := by
  unfold follow at h ⊢
  cases he : e.nodeAt? p with
  | none =>
    rw [he] at h
    cases h
  | some n =>
    cases n with
    | file content mode =>
      rw [he] at h
      cases h
    | directory mode =>
      rw [he] at h
      rw [hdirectory p mode he]
      exact h

/-- A path that can be followed leads to the same where the same directories stand. -/
theorem Disk.locate_of_directories {d e : Disk} (hhere : e.here = d.here)
    (hdirectory : ∀ r mode, e.nodeAt? r = some (.directory mode) →
      d.nodeAt? r = some (.directory mode)) {path : Path} {r : Place}
    (h : e.locate path = .ok r) : d.locate path = .ok r := by
  have hfold : ∀ (segments : List String) (p : Place), segments.foldlM e.follow p = .ok r →
      segments.foldlM d.follow p = .ok r := by
    intro segments
    induction segments with
    | nil => exact fun p hp => hp
    | cons segment rest ih =>
      intro p hp
      rw [List.foldlM_cons] at hp ⊢
      obtain ⟨q, hq, hp⟩ := bind_eq_ok_iff.mp hp
      exact bind_eq_ok_iff.mpr ⟨q, follow_of_directories hdirectory hq, ih q hp⟩
  unfold locate at h ⊢
  rw [hhere] at h
  split
  · rename_i hempty
    rw [if_pos hempty] at h
    cases h
  · rename_i hempty
    rw [if_neg hempty] at h
    split
    · rename_i hnul
      rw [if_pos hnul] at h
      cases h
    · rename_i hnul
      rw [if_neg hnul] at h
      split
      · rename_i hlong
        rw [if_pos hlong] at h
        cases h
      · rename_i hlong
        rw [if_neg hlong] at h
        exact hfold _ _ h

/-! ### Writing by way of a scratch file -/

/-- Nothing stands where the scratch file of a path would be written. -/
def Disk.ScratchFree (d : Disk) (path : Path) : Prop :=
  (d.locateForWrite (d.scratch path)).toOption.bind Prod.snd = none

instance (d : Disk) (path : Path) : Decidable (d.ScratchFree path) :=
  inferInstanceAs (Decidable ((d.locateForWrite (d.scratch path)).toOption.bind Prod.snd = none))

theorem Disk.scratchFree_iff {d : Disk} {path : Path} :
    d.ScratchFree path ↔ ∀ q n, d.locateForWrite (d.scratch path) ≠ .ok (q, some n) := by
  unfold ScratchFree
  cases d.locateForWrite (d.scratch path) with
  | error fault => exact ⟨fun _ _ _ => nofun, fun _ => rfl⟩
  | ok found =>
    obtain ⟨p, found⟩ := found
    cases found with
    | none => exact ⟨fun _ _ _ => nofun, fun _ => rfl⟩
    | some n => exact ⟨nofun, fun h => absurd rfl (h p n)⟩

theorem Disk.locateForWrite_eq_ok {d : Disk} {path : Path} {q : Place} {found : Option Node}
    (h : d.locateForWrite path = .ok (q, found)) :
    d.locate (withoutSlash path) = .ok q ∧ d.nodeAt? q = found ∧
      (∀ m, found ≠ some (.directory m)) ∧ withoutSlash path = path := by
  unfold locateForWrite at h
  obtain ⟨p, hp, h⟩ := bind_eq_ok_iff.mp h
  split at h
  · cases h
  · rename_i hdir
    split at h
    · rename_i hbare
      obtain ⟨rfl, rfl⟩ := Prod.mk.inj (Except.ok.inj h)
      exact ⟨hp, rfl, fun m hm => hdir m hm, hbare⟩
    · cases h

theorem Disk.locateForWrite_of_locate {d : Disk} {path : Path} {q : Place}
    (hbare : withoutSlash path = path) (hq : d.locate path = .ok q)
    (hdir : ∀ m, d.nodeAt? q ≠ some (.directory m)) :
    d.locateForWrite path = .ok (q, d.nodeAt? q) := by
  simp only [locateForWrite, hbare, hq]
  cases hn : d.nodeAt? q with
  | none => simp [bind, Except.bind, hn]
  | some n =>
    cases n with
    | file c m => simp [bind, Except.bind, hn]
    | directory m => exact absurd hn (hdir m)

/-- New contents leave the places of scratch files as they are. -/
theorem Disk.Rewritten.scratchFree {changed : Place → Prop} {d e : Disk}
    (h : Rewritten changed d e) {path : Path} (hfree : d.ScratchFree path) :
    e.ScratchFree path := by
  rw [scratchFree_iff] at hfree ⊢
  intro q n hq
  have hscratch : e.scratch path = d.scratch path := by simp only [scratch, h.process]
  rw [hscratch] at hq
  obtain ⟨hloc, hn, hdir, hbare⟩ := locateForWrite_eq_ok hq
  rw [hbare, h.locate_eq] at hloc
  rcases h.nodeAt? q with ⟨_, he⟩ | ⟨m, m', hd, he, hkind, _⟩
  · rw [hn] at he
    cases he
  · refine hfree q m ?_
    rw [← hd]
    refine locateForWrite_of_locate hbare hloc fun mode hmode => ?_
    obtain rfl := Option.some.inj (hd.symm.trans hmode)
    cases hkind
    exact hdir mode (hn.symm.trans he)

/-- What the replacement of a file does: the file, which was at `p`, has the new content, and the
scratch file at `q` is gone. -/
structure Disk.Replaces (d : Disk) (path : Path) (content : Bytes) (e : Disk) (p q : Place)
    (old : Bytes) (mode : Nat) : Prop where
  opened : d.open? path = .ok (p, .file old mode)
  scratch : d.locateForWrite (d.scratch path) = .ok (q, d.nodeAt? q)
  result : e = (d.drop q).put p (.file content mode)

theorem Disk.exists_replaces {d e : Disk} {path : Path} {content : Bytes}
    (h : d.replace path content = .ok e) : ∃ p q old mode, d.Replaces path content e p q old mode := by
  unfold replace at h
  obtain ⟨⟨p, n⟩, hopen, h⟩ := bind_eq_ok_iff.mp h
  obtain ⟨⟨q, found⟩, hscratch, h⟩ := bind_eq_ok_iff.mp h
  obtain ⟨_, hfound, _⟩ := locateForWrite_eq_ok hscratch
  cases n with
  | directory mode => cases h
  | file old mode => exact ⟨p, q, old, mode, hopen, hfound ▸ hscratch, (Except.ok.inj h).symm⟩

namespace Disk.Replaces

variable {d e : Disk} {path : Path} {content old : Bytes} {p q : Place} {mode : Nat}

/-- No directory stands at the place of the scratch file. -/
theorem ne_directory (h : d.Replaces path content e p q old mode) (mode' : Nat) :
    d.nodeAt? q ≠ some (.directory mode') :=
  (locateForWrite_eq_ok h.scratch).2.2.1 mode'

/-- All other nodes stay. -/
theorem nodeAt?_eq (h : d.Replaces path content e p q old mode) (r : Place) : e.nodeAt? r =
    if r = p then some (.file content mode) else if r = q then none else d.nodeAt? r := by
  have hp : p ≠ [] := by
    rintro rfl
    have hat := nodeAt?_of_open? h.opened
    simp [Disk.nodeAt?] at hat
  have hq : q ≠ [] := by
    rintro rfl
    exact h.ne_directory _ rfl
  rw [h.result, nodeAt?_put hp, nodeAt?_drop hq]

/-- The directories are the same as before. -/
theorem directory_iff (h : d.Replaces path content e p q old mode) {r : Place} {mode' : Nat} :
    e.nodeAt? r = some (.directory mode') ↔ d.nodeAt? r = some (.directory mode') := by
  rw [h.nodeAt?_eq]
  split
  · rename_i hr
    rw [hr, nodeAt?_of_open? h.opened]
    exact ⟨nofun, nofun⟩
  split
  · rename_i hr
    exact ⟨nofun, fun hat => absurd (hr ▸ hat) (h.ne_directory mode')⟩
  · rfl

end Disk.Replaces

/-- A replaced file has the new content. -/
theorem Disk.nodeAt?_of_replace {d e : Disk} {path : Path} {content : Bytes}
    (h : d.replace path content = .ok e) :
    ∃ p old mode, d.open? path = .ok (p, .file old mode) ∧ e.here = d.here ∧
      e.nodeAt? p = some (.file content mode) := by
  obtain ⟨p, q, old, mode, hreplaces⟩ := exists_replaces h
  refine ⟨p, old, mode, hreplaces.opened, ?_, ?_⟩
  · rw [hreplaces.result]
    rfl
  · rw [hreplaces.nodeAt?_eq, if_pos rfl]

/-- Replacing a file changes its content and nothing else. -/
theorem Disk.rewritten_of_replace {d e : Disk} {path : Path} {content : Bytes}
    (h : d.replace path content = .ok e) (hfree : d.ScratchFree path) :
    ∃ p old mode, d.open? path = .ok (p, .file old mode) ∧ Rewritten (· = p) d e ∧
      e.nodeAt? p = some (.file content mode) := by
  obtain ⟨p, q, old, mode, hreplaces⟩ := exists_replaces h
  have hnew := hreplaces.nodeAt?_eq p
  rw [if_pos rfl] at hnew
  refine ⟨p, old, mode, hreplaces.opened, ?_, hnew⟩
  have hnone : d.nodeAt? q = none := by
    cases hq : d.nodeAt? q with
    | none => rfl
    | some n => exact absurd (hq ▸ hreplaces.scratch) (scratchFree_iff.mp hfree q n)
  have hat := nodeAt?_of_open? hreplaces.opened
  have hp : p ≠ [] := by
    rintro rfl
    simp [Disk.nodeAt?] at hat
  rw [hreplaces.result, drop_eq_self hnone]
  exact .put hp hat (.file _ _ _ _)

end SymbolRename
