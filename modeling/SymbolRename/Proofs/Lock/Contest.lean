import Mathlib
import SymbolRename.Lock
import SymbolRename.Proofs.Disk.Operations
import SymbolRename.Proofs.Text.Decimal

/-!
# Calls that contend for a lock

Taking a lock is a sequence of actions on the disk, and the actions of several calls interleave.
One call that is not interrupted does what `Lock.acquire` does (`Contest.acts_acquire`). Two calls
never hold fresh locks at once as long as each removes only the file that it has read, and no call
reads a lock between its creation and its writing: then the stages of all calls stay coherent with
each other and with the file (`Contest.Coherent.play`). Nothing in the actions ensures that care,
and without it two fresh locks are held.
-/

namespace SymbolRename

namespace Lock

/-- Nobody holds a lock with this content. -/
def IsLapsed (m : Machine) (content : String) : Prop := heldBy? m content = none

/-- The lock is not older than the longest age. -/
def IsFresh (now : Nat) (lock : Lock) : Prop :=
  ∃ found ∈ holder? lock.content, now - found.2 ≤ longestAge

instance (now : Nat) (lock : Lock) : Decidable (IsFresh now lock) :=
  inferInstanceAs (Decidable (∃ found ∈ holder? lock.content, now - found.2 ≤ longestAge))

theorem toList_contentOf (process now : Nat) : (contentOf process now).toList =
    Nat.toDigits 10 process ++ ':' :: Nat.toDigits 10 now := by
  simp [contentOf, ToString.toString, Nat.repr]

/-- Nothing is trimmed from what a process writes into its lock. -/
theorem trim_contentOf (process now : Nat) :
    Text.trim (contentOf process now) = contentOf process now := by
  have hdigit : ∀ {n : Nat} {c : Char}, c ∈ Nat.toDigits 10 n → Text.isBlank c = false :=
    fun hc => Text.not_isBlank_of_isDigit (Count.isDigit_of_mem_toDigits hc)
  have htrim : Text.trimChars (contentOf process now).toList = (contentOf process now).toList := by
    rw [toList_contentOf]
    apply Text.trimChars_eq_self
    · intro c hc
      rw [List.head?_append_of_ne_nil _ Nat.toDigits_ne_nil] at hc
      exact hdigit (List.mem_of_mem_head? hc)
    · intro c hc
      rw [List.append_cons, List.getLast?_append_of_ne_nil _ Nat.toDigits_ne_nil] at hc
      exact hdigit (List.mem_of_mem_getLast? hc)
  unfold Text.trim
  rw [htrim, String.ofList_toList]

/-- What a process writes into its lock is read back. -/
theorem holder?_contentOf {process now : Nat} (hprocess : process < processLimit)
    (hnow : now < Count.limit) : holder? (contentOf process now) = some (process, now) := by
  have hcolon : ':' ∉ Nat.toDigits 10 process := fun hc =>
    absurd (Count.isDigit_of_mem_toDigits hc) (by decide)
  have hlimit : process < Count.limit := hprocess.trans (by decide)
  unfold holder?
  rw [trim_contentOf, toList_contentOf, Text.splitOnce?_append hcolon]
  simp [Count.read?_toDigits hlimit, Count.read?_toDigits hnow, Option.filter, hprocess]

theorem heldBy?_contentOf {m : Machine} {process now : Nat} (hprocess : process < processLimit)
    (hnow : now < Count.limit) :
    heldBy? m (contentOf process now) =
      if m.now - now ≤ longestAge && m.running process then some process else none := by
  unfold heldBy?
  rw [holder?_contentOf hprocess hnow]
  rfl

/-- A lock that nobody holds is never held again. -/
theorem IsLapsed.later {now later : Nat} {running : Nat → Bool} {content : String}
    (h : IsLapsed ⟨now, running⟩ content) (hlater : now ≤ later) :
    IsLapsed ⟨later, running⟩ content := by
  unfold IsLapsed heldBy? at h ⊢
  cases hholder : holder? content with
  | none => rfl
  | some found =>
    obtain ⟨process, time⟩ := found
    rw [hholder] at h
    simp only [Option.bind_eq_bind, Option.bind_some] at h ⊢
    split at h
    · cases h
    · rename_i hnot
      rw [if_neg]
      simp only [Bool.and_eq_true, decide_eq_true_eq, not_and] at hnot ⊢
      intro hage
      exact hnot (by omega)

/-- A lock that its own process has lapsed on is not fresh. -/
theorem IsLapsed.not_isFresh {m : Machine} {path : Path} {process time : Nat}
    (hprocess : process < processLimit) (htime : time < Count.limit)
    (hruns : m.running process = true) (h : IsLapsed m (contentOf process time)) :
    ¬ IsFresh m.now ⟨path, contentOf process time⟩ := by
  rintro ⟨found, hfound, hage⟩
  obtain rfl := Option.some.inj ((holder?_contentOf hprocess htime).symm.trans hfound)
  unfold IsLapsed at h
  rw [heldBy?_contentOf hprocess htime, hruns, decide_eq_true hage] at h
  cases h

/-- Taking the lock once nothing is in the way: the directory is made and the file created. -/
def create (now : Nat) (d : Disk) (directory : Path) : Disk × Except Failure Lock :=
  match d.makeDirectories directory with
  | .error fault =>
    (d, .error ((Failure.ofFile fault).within "Failed to create .refactor directory"))
  | .ok d =>
    let path := directory.join ⟨fileName⟩
    let content := contentOf d.process now
    match d.writeNew path (bytes content) with
    | .error fault => (d, .error ((Failure.ofFile fault).within "Failed to create lock file"))
    | .ok d => (d, .ok ⟨path, content⟩)

theorem acquire_eq (m : Machine) (d : Disk) (directory : Path) :
    acquire m d directory =
      match clear m d (directory.join ⟨fileName⟩) with
      | .error f => (d, .error f)
      | .ok d => create m.now d directory := rfl

/-- What all calls have in common; the processes that make them run. -/
structure Setting (ι : Type) where
  /-- The directory of the lock. -/
  directory : Path
  /-- The number of the process that makes each call. -/
  number : ι → Nat
  running : Nat → Bool
  number_lt : ∀ i, number i < processLimit
  runs : ∀ i, running (number i) = true

/-- The file of the lock. -/
def Setting.path {ι : Type} (w : Setting ι) : Path := w.directory.join ⟨fileName⟩

/-- How far a call has come. A file is known by the call that made it, if one of them did. -/
inductive Stage (ι : Type)
  /-- Will read the lock file. -/
  | starts
  /-- Has read this in a file, and will judge it. -/
  | judges (content : String) (maker : Option ι)
  /-- Has read a lock that nobody holds, and will remove it. -/
  | removes (maker : Option ι)
  /-- Has seen no lock, or removed one, and will make the directory. -/
  | prepares
  /-- Will create the lock file, for this content. -/
  | creates (content : String)
  /-- Has created the file, which is empty, and will write it. -/
  | writes (content : String)
  | ended (result : Except Failure Lock)
deriving DecidableEq

/-- The file that the call has created is still empty. -/
def Stage.isWriting {ι : Type} : Stage ι → Bool
  | writes _ => true
  | _ => false

/-- What a call has left in the file that it made. -/
def Stage.left? {ι : Type} : Stage ι → Option Bytes
  | writes _ => some []
  | ended (.ok lock) => some (bytes lock.content)
  | _ => none

/-- Several calls under way. -/
structure Contest (ι : Type) where
  disk : Disk
  now : Nat
  /-- The call that made the file that stands at the path of the lock, if one of them did. -/
  maker : Option ι
  stage : ι → Stage ι

/-- A call acts, or time passes. -/
inductive Move (ι : Type)
  | acts (i : ι)
  | waits (seconds : Nat)

namespace Contest

variable {ι : Type} {w : Setting ι} {c c' : Contest ι} {i : ι}

section Actions

variable [DecidableEq ι]

/-- The contest with a call at another stage. -/
def enter (c : Contest ι) (i : ι) (stage : Stage ι) : Contest ι :=
  { c with stage := Function.update c.stage i stage }

@[simp] theorem enter_disk (c : Contest ι) (i : ι) (stage : Stage ι) :
    (c.enter i stage).disk = c.disk := rfl

@[simp] theorem enter_now (c : Contest ι) (i : ι) (stage : Stage ι) :
    (c.enter i stage).now = c.now := rfl

@[simp] theorem enter_maker (c : Contest ι) (i : ι) (stage : Stage ι) :
    (c.enter i stage).maker = c.maker := rfl

@[simp] theorem enter_stage_self (c : Contest ι) (i : ι) (stage : Stage ι) :
    (c.enter i stage).stage i = stage := by simp [enter]

theorem enter_stage_of_ne {j : ι} (h : j ≠ i) (c : Contest ι) (stage : Stage ι) :
    (c.enter i stage).stage j = c.stage j := by simp [enter, h]

/-- A stage in which the acting call is not stays as it is. -/
theorem enter_stage_of_stage {c : Contest ι} {k : ι} {stage kept : Stage ι}
    (hk : c.stage k = kept) (hi : c.stage i ≠ kept) : (c.enter i stage).stage k = kept := by
  rw [enter_stage_of_ne]
  · exact hk
  · rintro rfl
    exact hi hk

/-- The next action of a call. -/
def act (w : Setting ι) (c : Contest ι) (i : ι) : Contest ι :=
  match c.stage i with
  | .starts =>
    match c.disk.readText w.path with
    | .error _ => c.enter i .prepares
    | .ok content => c.enter i (.judges content c.maker)
  | .judges content maker =>
    match heldBy? ⟨c.now, w.running⟩ content with
    | some process => c.enter i (.ended (.error { trouble := .lockHeld process w.path }))
    | none => c.enter i (.removes maker)
  | .removes _ =>
    match c.disk.remove w.path with
    | .error fault =>
      c.enter i (.ended (.error ((Failure.ofFile fault).within "Failed to remove stale lock file")))
    | .ok d => { c with disk := d, maker := none }.enter i .prepares
  | .prepares =>
    match c.disk.makeDirectories w.directory with
    | .error fault =>
      c.enter i (.ended (.error
        ((Failure.ofFile fault).within "Failed to create .refactor directory")))
    | .ok d => { c with disk := d }.enter i (.creates (contentOf (w.number i) c.now))
  | .creates content =>
    match c.disk.writeNew w.path [] with
    | .error fault =>
      c.enter i (.ended (.error ((Failure.ofFile fault).within "Failed to create lock file")))
    | .ok d => { c with disk := d, maker := some i }.enter i (.writes content)
  | .writes content =>
    -- A file that was removed meanwhile is written all the same, but stands nowhere.
    let disk := if c.maker = some i then
        c.disk.put (c.disk.target w.path) (.file (bytes content) Node.fileMode)
      else c.disk
    { c with disk := disk }.enter i (.ended (.ok ⟨w.path, content⟩))
  | .ended _ => c

/-- A call at this stage takes care: it does not read a lock that is yet to be written, and
removes only the file that it has read. -/
def TakesCare (c : Contest ι) : Stage ι → Prop
  | .starts => ∀ k ∈ c.maker, (c.stage k).isWriting = false
  | .removes maker => c.maker = maker
  | _ => True

instance decidableTakesCare (c : Contest ι) : (stage : Stage ι) → Decidable (c.TakesCare stage)
  | .starts => inferInstanceAs (Decidable (∀ k ∈ c.maker, (c.stage k).isWriting = false))
  | .removes maker => inferInstanceAs (Decidable (c.maker = maker))
  | .judges _ _ | .prepares | .creates _ | .writes _ | .ended _ => inferInstanceAs (Decidable True)

/-- Makes a move. -/
def move (w : Setting ι) (c : Contest ι) : Move ι → Contest ι
  | .acts i => c.act w i
  | .waits seconds => { c with now := c.now + seconds }

/-- Makes moves one after the other. -/
def play (w : Setting ι) (c : Contest ι) (moves : List (Move ι)) : Contest ι :=
  moves.foldl (move w) c

/-- Whoever acts does so with care. -/
def PlaysWithCare (w : Setting ι) (c : Contest ι) : List (Move ι) → Prop
  | [] => True
  | .acts i :: rest => c.TakesCare (c.stage i) ∧ (c.act w i).PlaysWithCare w rest
  | .waits seconds :: rest => ({ c with now := c.now + seconds } : Contest ι).PlaysWithCare w rest

instance decidablePlaysWithCare (w : Setting ι) (c : Contest ι) :
    (moves : List (Move ι)) → Decidable (c.PlaysWithCare w moves)
  | [] => inferInstanceAs (Decidable True)
  | .acts i :: rest =>
    have := decidablePlaysWithCare w (c.act w i) rest
    inferInstanceAs (Decidable (c.TakesCare (c.stage i) ∧ (c.act w i).PlaysWithCare w rest))
  | .waits seconds :: rest => decidablePlaysWithCare w { c with now := c.now + seconds } rest

end Actions

/-- No call has done anything yet. -/
structure Begins (c : Contest ι) : Prop where
  maker : c.maker = none
  stage : ∀ i, c.stage i = .starts

/-! ### What the stages say of the file -/

/-- The stage of a call says the truth about the file and about the other calls. -/
def Fits (w : Setting ι) (c : Contest ι) (i : ι) : Stage ι → Prop
  | .starts | .prepares | .ended (.error _) => True
  | .judges content maker => ∀ k ∈ maker, c.stage k = .ended (.ok ⟨w.path, content⟩)
  | .removes maker => ∀ k ∈ maker, ∃ lock, c.stage k = .ended (.ok lock) ∧
      IsLapsed ⟨c.now, w.running⟩ lock.content
  | .creates content => ∃ time ≤ c.now, content = contentOf (w.number i) time
  | .writes content => c.maker = some i ∧ ∃ time ≤ c.now, content = contentOf (w.number i) time
  | .ended (.ok lock) => (c.maker = some i ∨ IsLapsed ⟨c.now, w.running⟩ lock.content) ∧
      ∃ time ≤ c.now, lock = ⟨w.path, contentOf (w.number i) time⟩

/-- The stages of all calls agree with each other and with the disk. -/
structure Coherent (w : Setting ι) (c : Contest ι) : Prop where
  fits : ∀ i, c.Fits w i (c.stage i)
  /-- The file that a call has made stands as the call left it. -/
  made : ∀ i, c.maker = some i → ∃ content, (c.stage i).left? = some content ∧
    c.disk.nodeAt? (c.disk.target w.path) = some (.file content Node.fileMode)

theorem Begins.coherent (h : c.Begins) (w : Setting ι) : c.Coherent w where
  fits i := by
    rw [h.stage i]
    trivial
  made i hmaker := by
    rw [h.maker] at hmaker
    cases hmaker

/-- What no step takes back: locks stay taken, and only a lapsed lock loses its file. -/
structure Continues (w : Setting ι) (c c' : Contest ι) : Prop where
  now_le : c.now ≤ c'.now
  ended : ∀ k lock, c.stage k = .ended (.ok lock) → c'.stage k = .ended (.ok lock)
  maker : ∀ k, c.maker = some k → c'.maker = some k ∨
    ∃ lock, c.stage k = .ended (.ok lock) ∧ IsLapsed ⟨c'.now, w.running⟩ lock.content

/-- The stage of a call that does not act stays true. -/
theorem Continues.fits (h : Continues w c c') (hfits : c.Fits w i (c.stage i))
    (hstage : c'.stage i = c.stage i) : c'.Fits w i (c'.stage i) := by
  rw [hstage]
  cases hi : c.stage i with
  | starts => trivial
  | prepares => trivial
  | judges content maker =>
    rw [hi] at hfits
    intro k hk
    exact h.ended k _ (hfits k hk)
  | removes maker =>
    rw [hi] at hfits
    intro k hk
    obtain ⟨lock, hlock, hlapsed⟩ := hfits k hk
    exact ⟨lock, h.ended k lock hlock, hlapsed.later h.now_le⟩
  | creates content =>
    rw [hi] at hfits
    obtain ⟨time, htime, rfl⟩ := hfits
    exact ⟨time, htime.trans h.now_le, rfl⟩
  | writes content =>
    rw [hi] at hfits
    obtain ⟨hmaker, time, htime, rfl⟩ := hfits
    refine ⟨?_, time, htime.trans h.now_le, rfl⟩
    rcases h.maker i hmaker with hkept | ⟨lock, hlock, _⟩
    · exact hkept
    · rw [hi] at hlock
      cases hlock
  | ended result =>
    cases result with
    | error f => trivial
    | ok lock =>
      rw [hi] at hfits
      obtain ⟨hheld, time, htime, hlock⟩ := hfits
      refine ⟨?_, time, htime.trans h.now_le, hlock⟩
      rcases hheld with hmaker | hlapsed
      · rcases h.maker i hmaker with hkept | ⟨lock', hlock', hlapsed⟩
        · exact .inl hkept
        · rw [hi] at hlock'
          cases hlock'
          exact .inr hlapsed
      · exact .inr (hlapsed.later h.now_le)

/-- Only the stage of the call that acts has to be checked again. -/
theorem Coherent.of_continues (h : c.Coherent w) (hc : Continues w c c')
    (hothers : ∀ j, j ≠ i → c'.stage j = c.stage j) (hfits : c'.Fits w i (c'.stage i))
    (hmade : ∀ k, c'.maker = some k → ∃ content, (c'.stage k).left? = some content ∧
      c'.disk.nodeAt? (c'.disk.target w.path) = some (.file content Node.fileMode)) :
    c'.Coherent w where
  fits j := by
    by_cases hj : j = i
    · subst hj
      exact hfits
    · exact hc.fits (h.fits j) (hothers j hj)
  made := hmade

/-- What is read in a file that a call has made, and is not about to write, is the call's lock. -/
theorem Coherent.ended_of_readText (h : c.Coherent w) {k : ι} {content : String}
    (hk : c.maker = some k) (hnot : (c.stage k).isWriting = false)
    (hread : c.disk.readText w.path = .ok content) :
    c.stage k = .ended (.ok ⟨w.path, content⟩) := by
  obtain ⟨left, hleft, hnode⟩ := h.made k hk
  obtain ⟨p, mode, hopen⟩ := Disk.readText_eq_ok hread
  have hfound := (Disk.open?_eq_ok_iff.mp hopen).2
  rw [Disk.eq_target_of_open? hopen, hnode] at hfound
  have hbytes : left = bytes content := by
    cases hfound
    rfl
  have hfits := h.fits k
  cases hstage : c.stage k with
  | writes other =>
    rw [hstage] at hnot
    cases hnot
  | ended result =>
    cases result with
    | error f => simp [hstage, Stage.left?] at hleft
    | ok lock =>
      rw [hstage] at hleft hfits
      obtain ⟨_, time, _, rfl⟩ := hfits
      have hsame := bytes_injective ((Option.some.inj hleft).trans hbytes)
      dsimp only at hsame
      rw [hsame]
  | _ => simp [hstage, Stage.left?] at hleft

/-- Time that passes takes nothing back. -/
theorem Coherent.wait {later : Nat} (h : c.Coherent w) (hlater : c.now ≤ later) :
    ({ c with now := later } : Contest ι).Coherent w where
  fits j := by
    have hcontinues : Continues w c { c with now := later } :=
      ⟨hlater, fun _ _ hk => hk, fun _ hk => .inl hk⟩
    exact hcontinues.fits (h.fits j) rfl
  made := h.made

section Preservation

variable [DecidableEq ι]

/-! ### A call that is not interrupted -/

theorem play_replicate_succ (w : Setting ι) (c : Contest ι) (i : ι) (n : Nat) :
    c.play w (List.replicate (n + 1) (.acts i)) =
      (c.act w i).play w (List.replicate n (.acts i)) := rfl

/-- A call that has ended does nothing any more. -/
theorem play_of_ended {result : Except Failure Lock} (hi : c.stage i = .ended result) (n : Nat) :
    c.play w (List.replicate n (.acts i)) = c := by
  induction n with
  | zero => rfl
  | succ n ih =>
    have hact : c.act w i = c := by
      unfold act
      rw [hi]
    rw [play_replicate_succ, hact, ih]

/-- The call has ended with this, and so stands the disk. -/
def Leaves (c : Contest ι) (i : ι) (outcome : Disk × Except Failure Lock) : Prop :=
  c.disk = outcome.1 ∧ c.stage i = .ended outcome.2

theorem leaves_of_enter {d : Disk} {result : Except Failure Lock} (hd : c.disk = d) (n : Nat) :
    ((c.enter i (.ended result)).play w (List.replicate n (.acts i))).Leaves i (d, result) := by
  rw [play_of_ended (enter_stage_self c i _)]
  exact ⟨hd, enter_stage_self c i _⟩

/-- From the creation of the file on. -/
theorem play_creates {content : String} (hi : c.stage i = .creates content) (n : Nat) :
    (c.play w (List.replicate (n + 2) (.acts i))).Leaves i
      (match c.disk.writeNew w.path (bytes content) with
      | .error fault =>
        (c.disk, .error ((Failure.ofFile fault).within "Failed to create lock file"))
      | .ok d => (d, .ok ⟨w.path, content⟩)) := by
  rw [play_replicate_succ]
  unfold act
  rw [hi]
  dsimp only
  cases hempty : c.disk.writeNew w.path [] with
  | error fault =>
    rw [Disk.writeNew_error hempty]
    exact leaves_of_enter rfl _
  | ok d =>
    obtain ⟨_, rfl⟩ := Disk.writeNew_eq_ok hempty
    cases hnew : c.disk.writeNew w.path (bytes content) with
    | error fault =>
      rw [Disk.writeNew_error hnew] at hempty
      cases hempty
    | ok e =>
      obtain ⟨_, rfl⟩ := Disk.writeNew_eq_ok hnew
      rw [play_replicate_succ]
      unfold act
      rw [enter_stage_self]
      apply leaves_of_enter
      -- The file that was created empty is filled.
      exact (if_pos rfl).trans (Disk.put_put _ _ _)

/-- From the making of the directory on. -/
theorem play_prepares (hi : c.stage i = .prepares) (hprocess : c.disk.process = w.number i)
    (n : Nat) :
    (c.play w (List.replicate (n + 3) (.acts i))).Leaves i
      (create c.now c.disk w.directory) := by
  rw [play_replicate_succ]
  unfold act create
  rw [hi]
  dsimp only
  cases hmake : c.disk.makeDirectories w.directory with
  | error fault => exact leaves_of_enter rfl _
  | ok d =>
    have hnumber : d.process = w.number i :=
      (Disk.grows_of_makeDirectories hmake).process.trans hprocess
    dsimp only
    rw [hnumber]
    exact play_creates (enter_stage_self _ i _) n

/-- Without interruption a call takes the lock as a whole. -/
theorem acts_acquire (hi : c.stage i = .starts) (hprocess : c.disk.process = w.number i) :
    (c.play w (List.replicate 6 (.acts i))).Leaves i
      (acquire ⟨c.now, w.running⟩ c.disk w.directory) := by
  rw [play_replicate_succ, acquire_eq]
  unfold act clear
  rw [hi]
  dsimp only
  cases hread : c.disk.readText w.path with
  | error fault =>
    rw [show c.disk.readText (w.directory.join ⟨fileName⟩) = .error fault from hread]
    exact play_prepares (enter_stage_self c i _) hprocess 2
  | ok content =>
    rw [show c.disk.readText (w.directory.join ⟨fileName⟩) = .ok content from hread]
    dsimp only
    rw [play_replicate_succ]
    unfold act
    rw [enter_stage_self]
    dsimp only [enter_now, enter_disk]
    cases heldBy? ⟨c.now, w.running⟩ content with
    | some process => exact leaves_of_enter rfl _
    | none =>
      dsimp only
      rw [play_replicate_succ]
      unfold act
      rw [enter_stage_self]
      dsimp only [enter_disk]
      cases hremove : c.disk.remove w.path with
      | error fault =>
        rw [show c.disk.remove (w.directory.join ⟨fileName⟩) = .error fault from hremove]
        exact leaves_of_enter rfl _
      | ok d =>
        rw [show c.disk.remove (w.directory.join ⟨fileName⟩) = .ok d from hremove]
        obtain ⟨p, _, _, _, rfl⟩ := Disk.remove_eq_ok_iff.mp hremove
        apply play_prepares
        · exact enter_stage_self _ i _
        · exact hprocess

/-! ### Moves with care -/

/-- A call that has made no file enters a stage at which it has made none either. -/
theorem Coherent.enter {d : Disk} {stage : Stage ι} (h : c.Coherent w) (hd : Disk.Grows c.disk d)
    (hleft : (c.stage i).left? = none)
    (hfits : Continues w c ({ c with disk := d }.enter i stage) →
      ({ c with disk := d }.enter i stage).Fits w i stage) :
    ({ c with disk := d }.enter i stage).Coherent w := by
  have hne : ∀ {k content}, (c.stage k).left? = some content → k ≠ i := by
    rintro k content hk rfl
    rw [hleft] at hk
    cases hk
  have hcontinues : Continues w c ({ c with disk := d }.enter i stage) := by
    refine ⟨le_rfl, fun k lock hk => ?_, fun k hk => .inl hk⟩
    rw [enter_stage_of_ne (hne (by rw [hk]; rfl))]
    exact hk
  refine h.of_continues hcontinues (fun j hj => enter_stage_of_ne hj _ _) ?_ ?_
  · rw [enter_stage_self]
    exact hfits hcontinues
  · intro k hk
    obtain ⟨content, hcontent, hnode⟩ := h.made k hk
    refine ⟨content, ?_, ?_⟩
    · rw [enter_stage_of_ne (hne hcontent)]
      exact hcontent
    · rw [enter_disk, hd.target_eq]
      exact hd.nodes _ _ hnode

/-- Removing the file that was read takes it from a lapsed lock, or from nobody. -/
theorem Coherent.remove {d : Disk} (h : c.Coherent w) (hi : c.stage i = .removes c.maker) :
    ({ c with disk := d, maker := none }.enter i .prepares).Coherent w := by
  have hfits := h.fits i
  rw [hi] at hfits
  have hcontinues : Continues w c ({ c with disk := d, maker := none }.enter i .prepares) := by
    refine ⟨le_rfl, fun k lock hk => ?_, fun k hk => .inr (hfits k hk)⟩
    exact enter_stage_of_stage hk fun heq => nomatch hi.symm.trans heq
  refine h.of_continues hcontinues (fun j hj => enter_stage_of_ne hj _ _) ?_ ?_
  · rw [enter_stage_self]
    trivial
  · intro k hk
    cases hk

/-- A call creates the file only where none stands, so no other call has made one. -/
theorem Coherent.create {d : Disk} {content : String} (h : c.Coherent w)
    (hi : c.stage i = .creates content) (hnew : c.disk.writeNew w.path [] = .ok d) :
    ({ c with disk := d, maker := some i }.enter i (.writes content)).Coherent w := by
  obtain ⟨hnone, rfl⟩ := Disk.writeNew_eq_ok hnew
  have hmaker : ∀ k, c.maker ≠ some k := by
    intro k hk
    obtain ⟨left, _, hnode⟩ := h.made k hk
    rw [hnone] at hnode
    cases hnode
  have hroot : c.disk.target w.path ≠ [] := Disk.ne_nil_of_nodeAt? (d := c.disk) (by simp [hnone])
  have hfits := h.fits i
  rw [hi] at hfits
  have hcontinues : Continues w c ({ c with
      disk := c.disk.put (c.disk.target w.path) (.file [] Node.fileMode)
      maker := some i }.enter i (.writes content)) := by
    refine ⟨le_rfl, fun k lock hk => ?_, fun k hk => absurd hk (hmaker k)⟩
    exact enter_stage_of_stage hk fun heq => nomatch hi.symm.trans heq
  refine h.of_continues hcontinues (fun j hj => enter_stage_of_ne hj _ _) ?_ ?_
  · rw [enter_stage_self]
    exact ⟨rfl, hfits⟩
  · intro k hk
    obtain rfl := Option.some.inj hk
    refine ⟨[], ?_, ?_⟩
    · rw [enter_stage_self]
      rfl
    · exact (Disk.nodeAt?_put hroot).trans (if_pos rfl)

/-- A call that writes still has the file that it created. -/
theorem Coherent.write {content : String} (h : c.Coherent w) (hi : c.stage i = .writes content) :
    ({ c with disk := c.disk.put (c.disk.target w.path) (.file (bytes content) Node.fileMode) }.enter
      i (.ended (.ok ⟨w.path, content⟩))).Coherent w := by
  have hfits := h.fits i
  rw [hi] at hfits
  obtain ⟨hmaker, time, htime, rfl⟩ := hfits
  obtain ⟨left, _, hnode⟩ := h.made i hmaker
  have hroot : c.disk.target w.path ≠ [] := Disk.ne_nil_of_nodeAt? (d := c.disk) (by simp [hnode])
  have hcontinues : Continues w c ({ c with
      disk := c.disk.put (c.disk.target w.path)
        (.file (bytes (contentOf (w.number i) time)) Node.fileMode) }.enter
      i (.ended (.ok ⟨w.path, contentOf (w.number i) time⟩))) := by
    refine ⟨le_rfl, fun k lock hk => ?_, fun k hk => .inl hk⟩
    exact enter_stage_of_stage hk fun heq => nomatch hi.symm.trans heq
  refine h.of_continues hcontinues (fun j hj => enter_stage_of_ne hj _ _) ?_ ?_
  · rw [enter_stage_self]
    exact ⟨.inl hmaker, time, htime, rfl⟩
  · intro k hk
    obtain rfl := Option.some.inj (hmaker.symm.trans hk)
    refine ⟨bytes (contentOf (w.number i) time), ?_, ?_⟩
    · rw [enter_stage_self]
      rfl
    · exact (Disk.nodeAt?_put hroot).trans (if_pos rfl)

/-- An action keeps the stages coherent if the call takes care. -/
theorem Coherent.act (h : c.Coherent w) (hcare : c.TakesCare (c.stage i)) :
    (c.act w i).Coherent w := by
  have hfits := h.fits i
  unfold Contest.act
  cases hi : c.stage i with
  | starts =>
    rw [hi] at hcare
    have hleft : (c.stage i).left? = none := by rw [hi]; rfl
    dsimp only
    cases hread : c.disk.readText w.path with
    | error fault => exact h.enter (.refl _) hleft fun _ => trivial
    | ok content =>
      refine h.enter (.refl _) hleft fun hcontinues => ?_
      intro k hk
      exact hcontinues.ended k _ (h.ended_of_readText hk (hcare k hk) hread)
  | judges content maker =>
    rw [hi] at hfits
    have hleft : (c.stage i).left? = none := by rw [hi]; rfl
    dsimp only
    cases hheld : heldBy? ⟨c.now, w.running⟩ content with
    | some process => exact h.enter (.refl _) hleft fun _ => trivial
    | none =>
      refine h.enter (.refl _) hleft fun hcontinues => ?_
      intro k hk
      exact ⟨_, hcontinues.ended k _ (hfits k hk), hheld⟩
  | removes maker =>
    rw [hi] at hcare
    have hleft : (c.stage i).left? = none := by rw [hi]; rfl
    dsimp only
    cases c.disk.remove w.path with
    | error fault => exact h.enter (.refl _) hleft fun _ => trivial
    | ok d => exact h.remove (by rw [hi, hcare])
  | prepares =>
    have hleft : (c.stage i).left? = none := by rw [hi]; rfl
    dsimp only
    cases hmake : c.disk.makeDirectories w.directory with
    | error fault => exact h.enter (.refl _) hleft fun _ => trivial
    | ok d =>
      exact h.enter (Disk.grows_of_makeDirectories hmake) hleft fun _ => ⟨c.now, le_rfl, rfl⟩
  | creates content =>
    have hleft : (c.stage i).left? = none := by rw [hi]; rfl
    dsimp only
    cases hnew : c.disk.writeNew w.path [] with
    | error fault => exact h.enter (.refl _) hleft fun _ => trivial
    | ok d => exact h.create hi hnew
  | writes content =>
    rw [hi] at hfits
    dsimp only
    rw [if_pos hfits.1]
    exact h.write hi
  | ended result => exact h

/-- Moves with care keep the stages coherent. -/
theorem Coherent.play {moves : List (Move ι)} (h : c.Coherent w)
    (hcare : c.PlaysWithCare w moves) : (c.play w moves).Coherent w := by
  induction moves generalizing c with
  | nil => exact h
  | cons m rest ih =>
    cases m with
    | acts i => exact ih (h.act hcare.1) hcare.2
    | waits seconds => exact ih (h.wait (Nat.le_add_right c.now seconds)) hcare

/-- Calls that act with care never hold two fresh locks at once. -/
theorem fresh_lock_is_single {moves : List (Move ι)} {j : ι} {lock lock' : Lock} (hc : c.Begins)
    (hcare : c.PlaysWithCare w moves) (hnow : (c.play w moves).now < Count.limit) (hij : i ≠ j)
    (hi : (c.play w moves).stage i = .ended (.ok lock))
    (hj : (c.play w moves).stage j = .ended (.ok lock')) :
    ¬ (lock.IsFresh (c.play w moves).now ∧ lock'.IsFresh (c.play w moves).now) := by
  have hcoherent := (hc.coherent w).play hcare
  have hfresh : ∀ {k : ι} {held : Lock}, (c.play w moves).stage k = .ended (.ok held) →
      held.IsFresh (c.play w moves).now → (c.play w moves).maker = some k := by
    intro k held hk hheld
    have hfits := hcoherent.fits k
    rw [hk] at hfits
    obtain ⟨hmaker | hlapsed, time, htime, rfl⟩ := hfits
    · exact hmaker
    · exact absurd hheld
        (hlapsed.not_isFresh (w.number_lt k) (htime.trans_lt hnow) (w.runs k))
  rintro ⟨hlock, hlock'⟩
  exact hij (Option.some.inj ((hfresh hi hlock).symm.trans (hfresh hj hlock')))

/-- Two processes that contend for the lock of a project. -/
def twoProcesses : Setting Bool where
  directory := ⟨".refactor"⟩
  number second := if second then 8 else 7
  running process := process == 7 || process == 8
  number_lt := by decide
  runs := by decide

/-- Both processes are about to take the lock, and this is left of an earlier one. -/
def twoStart (left : List (Place × Node)) : Contest Bool where
  disk := { here := [], process := 7, nodes := ([".refactor"], .directory 0o755) :: left }
  now := 1000
  maker := none
  stage _ := .starts

/-- A lock that was taken 400 seconds ago. -/
def oldLock : List (Place × Node) :=
  [([".refactor", "refactor.lock"], .file (bytes "7:600") Node.fileMode)]

/-- A lock is taken over when it has grown too old. -/
theorem fresh_lock_is_single_later :
    let moves := List.replicate 6 (.acts false) ++ .waits 301 :: List.replicate 6 (.acts true)
    let last := (twoStart oldLock).play twoProcesses moves
    last.stage false = .ended (.ok ⟨⟨".refactor/refactor.lock"⟩, "7:1000"⟩) ∧
      last.stage true = .ended (.ok ⟨⟨".refactor/refactor.lock"⟩, "8:1301"⟩) ∧
      ¬ ((⟨⟨".refactor/refactor.lock"⟩, "7:1000"⟩ : Lock).IsFresh last.now ∧
        (⟨⟨".refactor/refactor.lock"⟩, "8:1301"⟩ : Lock).IsFresh last.now) :=
  ⟨by decide +kernel, by decide +kernel,
    fresh_lock_is_single (w := twoProcesses) (c := twoStart oldLock) (i := false) (j := true)
      ⟨rfl, fun _ => rfl⟩ (by decide +kernel) (by decide +kernel) (by decide) (by decide +kernel)
      (by decide +kernel)⟩

/-- Both processes read the old lock before the first takes it over, or the second reads the lock
of the first before it is written. -/
theorem fresh_locks_collide :
    let readBoth := .acts true :: List.replicate 6 (.acts false) ++ List.replicate 5 (.acts true)
    let readEmpty := List.replicate 3 (.acts false) ++ List.replicate 6 (.acts true) ++ [.acts false]
    ∀ last ∈ [(twoStart oldLock).play twoProcesses readBoth,
        (twoStart []).play twoProcesses readEmpty],
      last.stage false = .ended (.ok ⟨⟨".refactor/refactor.lock"⟩, "7:1000"⟩) ∧
        last.stage true = .ended (.ok ⟨⟨".refactor/refactor.lock"⟩, "8:1000"⟩) ∧
        (⟨⟨".refactor/refactor.lock"⟩, "7:1000"⟩ : Lock).IsFresh last.now ∧
        (⟨⟨".refactor/refactor.lock"⟩, "8:1000"⟩ : Lock).IsFresh last.now := by
  decide +kernel

end Preservation

end Contest

end Lock

end SymbolRename
