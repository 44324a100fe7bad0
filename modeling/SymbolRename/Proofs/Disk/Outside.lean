import SymbolRename.Disk
import SymbolRename.Proofs.Fallible

/-!
# Disks that agree outside of some places

A hook may keep files of its own on the disk. Two disks that agree outside of these places
look the same to whoever follows paths that do not come through them, and writing such a
path on both keeps them alike.
-/

namespace SymbolRename

/-- Both disks are the same outside of the places of an owner. -/
structure Disk.SameOutside (own : Place → Bool) (d e : Disk) : Prop where
  here : e.here = d.here
  process : e.process = d.process
  nodes : e.nodes.filter (fun entry => !own entry.1) =
    d.nodes.filter fun entry => !own entry.1

instance (own : Place → Bool) (d e : Disk) : Decidable (d.SameOutside own e) :=
  decidable_of_iff (e.here = d.here ∧ e.process = d.process ∧
    e.nodes.filter (fun entry => !own entry.1) = d.nodes.filter fun entry => !own entry.1)
    ⟨fun ⟨h, h', h''⟩ => ⟨h, h', h''⟩, fun ⟨h, h', h''⟩ => ⟨h, h', h''⟩⟩

namespace Disk.SameOutside

variable {own : Place → Bool} {d e : Disk}

theorem refl (own : Place → Bool) (d : Disk) : SameOutside own d d := ⟨rfl, rfl, rfl⟩

theorem symm (h : SameOutside own d e) : SameOutside own e d :=
  ⟨h.here.symm, h.process.symm, h.nodes.symm⟩

theorem trans {f : Disk} (h : SameOutside own d e) (h' : SameOutside own e f) :
    SameOutside own d f :=
  ⟨h'.here.trans h.here, h'.process.trans h.process, h'.nodes.trans h.nodes⟩

end Disk.SameOutside

theorem Disk.lookup_outside {own : Place → Bool} {p : Place} (hp : own p = false)
    (nodes : List (Place × Node)) :
    (nodes.filter fun entry => !own entry.1).lookup p = nodes.lookup p := by
  induction nodes with
  | nil => rfl
  | cons entry rest ih =>
    obtain ⟨q, n⟩ := entry
    by_cases hq : p = q
    · subst hq
      simp [hp]
    · have hbeq : (p == q) = false := by simpa using hq
      rw [List.filter_cons]
      split
      · simp only [List.lookup_cons, hbeq, ih]
      · simp only [List.lookup_cons, hbeq, ih]

/-- Outside of the places of the owner the same nodes stand. -/
theorem Disk.SameOutside.nodeAt?_eq {own : Place → Bool} {d e : Disk} (h : SameOutside own d e)
    {p : Place} (hp : own p = false) : e.nodeAt? p = d.nodeAt? p := by
  unfold Disk.nodeAt?
  split
  · rfl
  · rw [← lookup_outside hp, h.nodes, lookup_outside hp]

/-! ### Following paths -/

/-- Where one step leads from a place, whether or not something stands there. -/
def Place.step (p : Place) (segment : String) : Place :=
  if segment = "" ∨ segment = "." then p
  else if segment = ".." then p.dropLast
  else p ++ [segment]

/-- The places that one comes through from a place on. -/
def Place.through (p : Place) : List String → List Place
  | [] => [p]
  | segment :: rest => p :: through (p.step segment) rest

/-- The places that a path comes through, its target included. -/
def Disk.route (d : Disk) (path : Path) : List Place :=
  Place.through (if path.isAbsolute then [] else d.here) path.segments

/-- The place that a path names, whether or not something stands there. -/
def Disk.target (d : Disk) (path : Path) : Place :=
  path.segments.foldl Place.step (if path.isAbsolute then [] else d.here)

/-- What a path names is a matter of the working directory only. -/
theorem Disk.target_congr {d e : Disk} (h : d.here = e.here) (path : Path) :
    d.target path = e.target path := by
  unfold target
  rw [h]

theorem Disk.eq_step_of_follow {d : Disk} {p q : Place} {segment : String}
    (h : d.follow p segment = .ok q) : q = p.step segment := by
  unfold follow at h
  split at h
  · cases h
  · cases h
  · unfold Place.step
    split at h
    · rename_i hsilent
      rw [if_pos hsilent]
      exact (Except.ok.inj h).symm
    · rename_i hsilent
      rw [if_neg hsilent]
      split at h
      · rename_i hup
        rw [if_pos hup]
        exact (Except.ok.inj h).symm
      · rename_i hup
        rw [if_neg hup]
        split at h
        · cases h
        · exact (Except.ok.inj h).symm

theorem Disk.eq_of_foldlM_follow {d : Disk} {p q : Place} {segments : List String}
    (h : segments.foldlM d.follow p = .ok q) : q = segments.foldl Place.step p := by
  induction segments generalizing p with
  | nil => exact (Except.ok.inj h).symm
  | cons segment rest ih =>
    rw [List.foldlM_cons] at h
    obtain ⟨next, hnext, h⟩ := bind_eq_ok_iff.mp h
    rw [List.foldl_cons, ← eq_step_of_follow hnext]
    exact ih h

/-- A path that can be followed leads to its target. -/
theorem Disk.eq_target_of_locate {d : Disk} {path : Path} {p : Place}
    (h : d.locate path = .ok p) : p = d.target path := by
  unfold locate at h
  split at h
  · cases h
  split at h
  · cases h
  split at h
  · cases h
  exact eq_of_foldlM_follow h

theorem Disk.eq_target_of_open? {d : Disk} {path : Path} {p : Place} {n : Node}
    (h : d.open? path = .ok (p, n)) : p = d.target path := by
  obtain ⟨q, hq, h⟩ := bind_eq_ok_iff.mp h
  split at h
  · cases h
  · obtain ⟨rfl, _⟩ := Prod.mk.inj (Except.ok.inj h)
    exact eq_target_of_locate hq

theorem Place.target_mem_through (p : Place) (segments : List String) :
    segments.foldl step p ∈ p.through segments := by
  induction segments generalizing p with
  | nil => exact List.mem_singleton.mpr rfl
  | cons segment rest ih => exact List.mem_cons_of_mem p (ih (p.step segment))

/-- The target is on the route. -/
theorem Disk.target_mem_route (d : Disk) (path : Path) : d.target path ∈ d.route path :=
  Place.target_mem_through _ _

/-- A path comes through no place of the owner. -/
def Disk.Avoids (d : Disk) (own : Place → Bool) (path : Path) : Prop :=
  ∀ p ∈ d.route path, own p = false

instance (d : Disk) (own : Place → Bool) (path : Path) : Decidable (d.Avoids own path) :=
  inferInstanceAs (Decidable (∀ p ∈ d.route path, own p = false))

theorem Disk.SameOutside.foldlM_follow_eq {own : Place → Bool} {d e : Disk}
    (h : SameOutside own d e) {p : Place} {segments : List String}
    (havoids : ∀ q ∈ p.through segments, own q = false) :
    segments.foldlM e.follow p = segments.foldlM d.follow p := by
  induction segments generalizing p with
  | nil => rfl
  | cons segment rest ih =>
    have hfollow : e.follow p segment = d.follow p segment := by
      simp only [follow, h.nodeAt?_eq (havoids p List.mem_cons_self)]
    rw [List.foldlM_cons, List.foldlM_cons, hfollow]
    cases hnext : d.follow p segment with
    | error fault => rfl
    | ok q =>
      obtain rfl := eq_step_of_follow hnext
      exact ih fun r hr => havoids r (List.mem_cons_of_mem p hr)

theorem Disk.SameOutside.locate_eq {own : Place → Bool} {d e : Disk} (h : SameOutside own d e)
    {path : Path} (hpath : d.Avoids own path) : e.locate path = d.locate path := by
  unfold locate
  rw [h.here, h.foldlM_follow_eq hpath]

/-- A path that comes through no place of the owner leads to the same. -/
theorem Disk.SameOutside.open?_eq {own : Place → Bool} {d e : Disk} (h : SameOutside own d e)
    {path : Path} (hpath : d.Avoids own path) : e.open? path = d.open? path := by
  unfold Disk.open?
  rw [h.locate_eq hpath]
  cases hp : d.locate path with
  | error fault => rfl
  | ok p =>
    have hown : own p = false := eq_target_of_locate hp ▸ hpath _ (d.target_mem_route path)
    simp only [bind, Except.bind, h.nodeAt?_eq hown]

theorem Disk.SameOutside.isFile_eq {own : Place → Bool} {d e : Disk} (h : SameOutside own d e)
    {path : Path} (hpath : d.Avoids own path) : e.isFile path = d.isFile path := by
  unfold isFile
  rw [h.open?_eq hpath]

theorem Disk.SameOutside.locateForWrite_eq {own : Place → Bool} {d e : Disk}
    (h : SameOutside own d e) {path : Path} (hpath : d.Avoids own (withoutSlash path)) :
    e.locateForWrite path = d.locateForWrite path := by
  unfold locateForWrite
  simp only [h.locate_eq hpath]
  cases hp : d.locate (withoutSlash path) with
  | error fault => rfl
  | ok p =>
    have hown : own p = false := eq_target_of_locate hp ▸ hpath _ (d.target_mem_route _)
    simp only [bind, Except.bind, h.nodeAt?_eq hown]

/-! ### Writing -/

theorem Disk.filter_putNode {own : Place → Bool} {p : Place} (hp : own p = false) (n : Node)
    (nodes : List (Place × Node)) :
    (putNode p n nodes).filter (fun entry => !own entry.1) =
      putNode p n (nodes.filter fun entry => !own entry.1) := by
  induction nodes with
  | nil => simp [putNode, hp]
  | cons entry rest ih =>
    obtain ⟨q, m⟩ := entry
    by_cases hq : q = p
    · subst hq
      simp [putNode, hp]
    · cases hown : own q with
      | true => simp [putNode, hq, hown, ih]
      | false => simp [putNode, hq, hown, ih]

/-- The same node put at the same place keeps the disks alike. -/
theorem Disk.SameOutside.put {own : Place → Bool} {d e : Disk} (h : SameOutside own d e)
    {p : Place} (hp : own p = false) (n : Node) : SameOutside own (d.put p n) (e.put p n) := by
  refine ⟨h.here, h.process, ?_⟩
  simp only [Disk.put, filter_putNode hp, h.nodes]

/-- The same place emptied keeps the disks alike. -/
theorem Disk.SameOutside.drop {own : Place → Bool} {d e : Disk} (h : SameOutside own d e)
    (p : Place) : SameOutside own (d.drop p) (e.drop p) := by
  refine ⟨h.here, h.process, ?_⟩
  have hswap : ∀ nodes : List (Place × Node),
      (nodes.filter (·.1 != p)).filter (fun entry => !own entry.1) =
        (nodes.filter fun entry => !own entry.1).filter (·.1 != p) := by
    intro nodes
    simp only [List.filter_filter, Bool.and_comm]
  simp only [Disk.drop, hswap, h.nodes]

/-- A node put at a place of the owner is not seen outside. -/
theorem Disk.sameOutside_put {own : Place → Bool} (d : Disk) {p : Place} (hp : own p = true)
    (n : Node) : SameOutside own d (d.put p n) := by
  refine ⟨rfl, rfl, ?_⟩
  simp only [Disk.put]
  induction d.nodes with
  | nil => simp [putNode, hp]
  | cons entry rest ih =>
    obtain ⟨q, m⟩ := entry
    by_cases hq : q = p
    · subst hq
      simp [putNode, hp]
    · simp only [putNode, if_neg hq, List.filter_cons, ih]

/-- A path and the scratch file beside it come through no place of the owner. -/
structure Disk.Clears (d : Disk) (own : Place → Bool) (path : Path) : Prop where
  route : d.Avoids own path
  scratch : d.Avoids own (withoutSlash (d.scratch path))

/-- Replacing the same file on both disks fails alike, or keeps them alike. -/
theorem Disk.SameOutside.replace {own : Place → Bool} {d e : Disk} (h : SameOutside own d e)
    {path : Path} (hpath : d.Clears own path) (content : Bytes) :
    (∃ fault, d.replace path content = .error fault ∧ e.replace path content = .error fault) ∨
      ∃ d' e', d.replace path content = .ok d' ∧ e.replace path content = .ok e' ∧
        SameOutside own d' e' := by
  have hscratch : e.scratch path = d.scratch path := by simp only [scratch, h.process]
  unfold Disk.replace
  rw [h.open?_eq hpath.route, hscratch, h.locateForWrite_eq hpath.scratch]
  cases hopen : d.open? path with
  | error fault => exact .inl ⟨fault, rfl, rfl⟩
  | ok found =>
    obtain ⟨p, n⟩ := found
    cases hwrite : d.locateForWrite (d.scratch path) with
    | error fault => exact .inl ⟨fault, rfl, rfl⟩
    | ok place =>
      obtain ⟨q, was⟩ := place
      cases n with
      | directory mode => exact .inl ⟨.isDirectory, rfl, rfl⟩
      | file old mode =>
        have hown : own p = false :=
          eq_target_of_open? hopen ▸ hpath.route _ (d.target_mem_route path)
        exact .inr ⟨_, _, rfl, rfl, (h.drop q).put hown _⟩

/-! ### Views -/

/-- The disk is seen by the same process from the same directory. -/
structure Disk.SameView (d e : Disk) : Prop where
  here : e.here = d.here
  process : e.process = d.process

theorem Disk.SameView.clears {own : Place → Bool} {d e : Disk} (h : d.SameView e) {path : Path}
    (hpath : d.Clears own path) : e.Clears own path := by
  have hroute : ∀ path, e.route path = d.route path := fun path => by
    simp only [route, h.here]
  refine ⟨fun p hp => hpath.route p (hroute path ▸ hp), fun p hp => hpath.scratch p ?_⟩
  rw [hroute] at hp
  simpa only [scratch, h.process] using hp

theorem Disk.replace_sameView {d e : Disk} {path : Path} {content : Bytes}
    (h : d.replace path content = .ok e) : d.SameView e := by
  unfold replace at h
  obtain ⟨⟨p, n⟩, _, h⟩ := bind_eq_ok_iff.mp h
  obtain ⟨⟨q, was⟩, _, h⟩ := bind_eq_ok_iff.mp h
  cases n with
  | directory mode => cases h
  | file old mode =>
    obtain rfl := Except.ok.inj h
    exact ⟨rfl, rfl⟩

end SymbolRename
