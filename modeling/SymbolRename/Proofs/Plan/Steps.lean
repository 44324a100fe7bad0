import SymbolRename.Proofs.Plan.Safety

/-!
# The steps of a plan, one by one

Every step renames one identifier to a different one, temporary names included, and a
mapping that is the first with its old name has exactly one step that takes this name
away.
-/

namespace SymbolRename

/-! ### Temporary names are identifiers -/

/-- A character of a temporary name: an ASCII letter or digit, or an underscore. -/
def Plan.IsNameChar (c : Char) : Prop := c.isAlphanum = true ∨ c = '_'

theorem Plan.IsNameChar.lt {c : Char} (h : IsNameChar c) : c.toNat < 0x80 := by
  rcases h with h | rfl
  · exact Char.lt_of_isAlphanum h
  · decide

/-- Such a character is one byte that may continue an identifier. -/
theorem Plan.IsNameChar.encode {c : Char} (h : IsNameChar c) :
    String.utf8EncodeChar c = [c.toNat.toUInt8] ∧ isIdentifierRest c.toNat.toUInt8 = true := by
  refine ⟨Utf8.encode_of_lt h.lt, ?_⟩
  have hall : ∀ n < 128, (Char.ofNat n).isAlphanum = true ∨ Char.ofNat n = '_' →
      isIdentifierRest n.toUInt8 = true := by decide +kernel
  refine hall c.toNat h.lt ?_
  rw [Char.ofNat_toNat]
  exact h

theorem Plan.isNameChar_hex {message : Bytes} {c : Char} (h : c ∈ (Sha256.hex message).toList) :
    IsNameChar c := by
  have hbyte : ∀ n < 256, (Sha256.hexByte (UInt8.ofNat n)).all Char.isAlphanum = true := by
    decide +kernel
  rw [Sha256.hex, String.toList_ofList] at h
  obtain ⟨b, _, hb⟩ := List.mem_flatMap.mp h
  have hall := hbyte b.toNat b.toNat_lt
  rw [UInt8.ofNat_toNat] at hall
  exact .inl (List.all_eq_true.mp hall c hb)

theorem Plan.isNameChar_digits {n : Nat} {c : Char} (h : c ∈ Nat.toDigits 10 n) :
    IsNameChar c := by
  have hdigit := Nat.isDigit_of_mem_toDigits (by decide) (by decide) h
  exact .inl (by simp [Char.isAlphanum, hdigit])

/-- A text that begins with the mark of temporary names and goes on like them. -/
def Plan.IsTemp (name : String) : Prop :=
  ∃ rest, name.toList = tempMark.toList ++ rest ∧ ∀ c ∈ rest, IsNameChar c

theorem Plan.isTemp_tempName (message : Bytes) (used : List String) (mapping : Nat) :
    IsTemp (tempName (Sha256.hex message) used mapping) := by
  obtain ⟨found, hfound, _⟩ := exists_firstFree used.contains
    s!"{tempMark}{String.ofList ((Sha256.hex message).toList.take 8)}_{mapping}"
    (used.length + 1) 0
  rw [tempName, hfound]
  have hbase : ∀ c ∈ (Sha256.hex message).toList.take 8 ++ '_' :: Nat.toDigits 10 mapping,
      IsNameChar c := by
    intro c hc
    rcases List.mem_append.mp hc with hc | hc
    · exact isNameChar_hex (List.mem_of_mem_take hc)
    · rcases List.mem_cons.mp hc with rfl | hc
      · exact .inr rfl
      · exact isNameChar_digits hc
  have htext : (s!"{tempMark}{String.ofList ((Sha256.hex message).toList.take 8)}_{mapping}" :
      String).toList = tempMark.toList ++
        ((Sha256.hex message).toList.take 8 ++ '_' :: Nat.toDigits 10 mapping) := by
    simp [ToString.toString, Nat.repr]
  unfold tempCandidate
  split
  · exact ⟨_, htext, hbase⟩
  · refine ⟨((Sha256.hex message).toList.take 8 ++ '_' :: Nat.toDigits 10 mapping) ++
      '_' :: Nat.toDigits 10 found, ?_, fun c hc => ?_⟩
    · have happend : ∀ base : String, (s!"{base}_{found}" : String).toList =
          base.toList ++ '_' :: Nat.toDigits 10 found := by
        intro base
        simp [ToString.toString, Nat.repr]
      rw [happend, htext, List.append_assoc]
    · rcases List.mem_append.mp hc with hc | hc
      · exact hbase c hc
      · rcases List.mem_cons.mp hc with rfl | hc
        · exact .inr rfl
        · exact isNameChar_digits hc

theorem Plan.isTemp_of_mem_allocate {message : Bytes} {used : List String} {members : List Nat}
    {name : String} (h : name ∈ allocate (Sha256.hex message) used members) : IsTemp name := by
  induction members generalizing used with
  | nil => simp [allocate] at h
  | cons m rest ih =>
    rcases List.mem_cons.mp h with rfl | h
    · exact isTemp_tempName message used m
    · exact ih h

/-- All its characters are those of temporary names. -/
theorem Plan.IsTemp.isNameChar {name : String} (h : IsTemp name) {c : Char}
    (hc : c ∈ name.toList) : IsNameChar c := by
  obtain ⟨rest, hname, hrest⟩ := h
  rw [hname] at hc
  rcases List.mem_append.mp hc with hc | hc
  · have hmark : tempMark.toList.all (fun c => c.isAlphanum || c == '_') = true := by
      decide +kernel
    simpa [IsNameChar] using List.all_eq_true.mp hmark c hc
  · exact hrest c hc

theorem Plan.IsTemp.bytes_eq {name : String} (h : IsTemp name) :
    bytes name = name.toList.map fun c => c.toNat.toUInt8 := by
  rw [bytes_eq_flatMap]
  have hall : ∀ c ∈ name.toList, String.utf8EncodeChar c = [c.toNat.toUInt8] :=
    fun c hc => (h.isNameChar hc).encode.1
  generalize name.toList = cs at hall
  induction cs with
  | nil => rfl
  | cons c cs ih =>
    rw [List.flatMap_cons, List.map_cons, hall c List.mem_cons_self,
      ih fun d hd => hall d (List.mem_cons_of_mem c hd)]
    rfl

theorem Plan.IsTemp.exists_bytes {name : String} (h : IsTemp name) :
    ∃ more, bytes name = bytes tempMark ++ more := by
  obtain ⟨rest, hname, _⟩ := h
  refine ⟨bytes (String.ofList rest), ?_⟩
  rw [← bytes_append]
  refine congrArg bytes (String.toList_inj.mp ?_)
  simp [hname]

/-- A temporary name is a valid identifier. -/
theorem Plan.IsTemp.isValidIdentifier {name : String} (h : IsTemp name) :
    isValidIdentifier name = true := by
  have hrest : ∀ b ∈ bytes name, isIdentifierRest b = true := by
    rw [h.bytes_eq]
    intro b hb
    obtain ⟨c, hc, rfl⟩ := List.mem_map.mp hb
    exact (h.isNameChar hc).encode.2
  obtain ⟨rest, hname, _⟩ := h.imp fun _ h => h
  have hhead : ∃ more, bytes name = 0x5f :: more := by
    rw [h.bytes_eq, hname]
    exact ⟨_, rfl⟩
  obtain ⟨more, hmore⟩ := hhead
  rw [hmore] at hrest
  unfold SymbolRename.isValidIdentifier
  rw [hmore, isIdentifierBytes, Bool.and_eq_true, List.all_eq_true]
  exact ⟨rfl, fun b hb => hrest b (List.mem_cons_of_mem _ hb)⟩

/-! ### The names of steps -/

theorem Plan.Emission.Reached.isTemp {mappings : List Mapping} {taken : List String}
    {message : Bytes} {temps : List String} {e : Emission}
    (h : Reached mappings taken (Sha256.hex message) temps e) {name : String}
    (hname : name ∈ temps) : IsTemp name := by
  induction h with
  | start => simp at hname
  | @put temps e item h hready ih =>
    rcases List.mem_append.mp hname with hname | hname
    · cases item with
      | mapping i => simp [namesFor] at hname
      | cycle id => exact isTemp_of_mem_allocate hname
    · exact ih hname

/-- What the steps of a plan are: those of its mappings, by way of temporary names that are
new. -/
structure Plan.Sound (mappings : List Mapping) (taken : List String) (p : Plan) : Prop where
  belongs : ∀ step ∈ p.steps, step.Belongs mappings p.allocated
  fresh : ∀ name ∈ p.allocated, name ∉ names mappings ∧ name ∉ taken
  temp : ∀ name ∈ p.allocated, IsTemp name

theorem Plan.sound_ofMappings {mappings : List Mapping} (hproper : ∀ m ∈ mappings, m.IsProper)
    (taken : List String) : Sound mappings taken (ofMappings mappings taken) := by
  obtain ⟨temps, e, hreached, hsteps, _⟩ := exists_reached_ofMappings mappings taken
  have hallocated : ∀ name, name ∈ (ofMappings mappings taken).allocated ↔ name ∈ temps :=
    fun name => hreached.mem_allocated_iff hproper hsteps
  refine ⟨fun step hstep => ?_, fun name hname => ?_, fun name hname => ?_⟩
  · rw [hsteps] at hstep
    exact (hreached.belongs hstep).2.mono fun name hname => (hallocated name).mpr hname
  · exact hreached.temps_fresh ((hallocated name).mp hname)
  · exact hreached.isTemp ((hallocated name).mp hname)

/-- Every step renames one identifier to a different one. -/
theorem Plan.Sound.proper {mappings : List Mapping} {taken : List String} {p : Plan}
    (h : Sound mappings taken p) (hproper : ∀ m ∈ mappings, m.IsProper) {step : PlanStep}
    (hstep : step ∈ p.steps) : Mapping.IsProper ⟨step.old, step.new⟩ := by
  cases h.belongs step hstep with
  | direct hm => exact hproper _ (List.mem_of_getElem? hm)
  | @away i m temp hm htemp =>
    have hmem := List.mem_of_getElem? hm
    refine ⟨(hproper _ hmem).1, (h.temp _ htemp).isValidIdentifier, fun heq => ?_⟩
    obtain rfl : m.old = temp := heq
    exact (h.fresh _ htemp).1 (old_mem_names hmem)
  | @home i m temp hm htemp =>
    have hmem := List.mem_of_getElem? hm
    refine ⟨(h.temp _ htemp).isValidIdentifier, (hproper _ hmem).2.1, fun heq => ?_⟩
    obtain rfl : temp = m.new := heq
    exact (h.fresh _ htemp).1 (new_mem_names hmem)

/-- A step does not write the old name of its own mapping. -/
theorem Plan.Sound.new_ne_old {mappings : List Mapping} {taken : List String} {p : Plan}
    (h : Sound mappings taken p) (hproper : ∀ m ∈ mappings, m.IsProper) {step : PlanStep}
    (hstep : step ∈ p.steps) {m : Mapping} (hm : mappings[step.origin]? = some m) :
    step.new ≠ m.old := by
  have hmem := List.mem_of_getElem? hm
  have hbelongs := h.belongs step hstep
  cases hbelongs with
  | @direct i n hn =>
    obtain rfl := Option.some.inj (hn.symm.trans hm)
    exact (hproper _ hmem).2.2.symm
  | away hn htemp =>
    rintro rfl
    exact (h.fresh _ htemp).1 (old_mem_names hmem)
  | @home i n temp hn htemp =>
    obtain rfl := Option.some.inj (hn.symm.trans hm)
    exact (hproper _ hmem).2.2.symm

/-- The first mapping with an old name has one step that takes this name away, and no
other. -/
theorem Plan.Safe.exists_step {mappings : List Mapping} {taken : List String} {p : Plan}
    (h : Safe mappings p) (hsound : Sound mappings taken p)
    (hproper : ∀ m ∈ mappings, m.IsProper) {i : Nat} {m : Mapping} (hm : mappings[i]? = some m)
    (hfirst : Mapping.firstFor mappings m.old = some i) :
    ∃ before step after, p.steps = before ++ step :: after ∧ step.origin = i ∧
      step.old = m.old ∧ ∀ other ∈ before ++ after, other.origin = i → other.old ≠ m.old := by
  have hmem := List.mem_of_getElem? hm
  have hname : m.old ∉ p.allocated := fun hold => (hsound.fresh _ hold).1 (old_mem_names hmem)
  have hmoves : Plan.replay p.steps m.old ≠ m.old := by
    rw [h.replay _ hname, Mapping.target_eq, hfirst, Option.bind_some, hm]
    exact (hproper m hmem).2.2.symm
  cases hfind : p.steps.find? (fun step => step.old == m.old) with
  | none =>
    exact absurd (replay_eq_self fun step hstep => by
      simpa using List.find?_eq_none.mp hfind step hstep) hmoves
  | some step =>
    obtain ⟨hold, before, after, hsplit, hbefore⟩ := List.find?_eq_some_iff_append.mp hfind
    have hold : step.old = m.old := by simpa using hold
    have hkept : Plan.replay before m.old = m.old :=
      replay_eq_self fun other hother => by simpa using hbefore other hother
    have horigin : step.origin = i := by
      have hpicks := (h.picks before step after hsplit m.old hname).mp (hkept.trans hold.symm)
      exact Option.some.inj (hpicks.symm.trans hfirst)
    have hstep : step ∈ p.steps := hsplit ▸ List.mem_append_right _ List.mem_cons_self
    refine ⟨before, step, after, hsplit, horigin, hold, fun other hother hsame heq => ?_⟩
    rcases List.mem_append.mp hother with hother | hother
    · have hne := hbefore other hother
      simp [heq] at hne
    · have hprecedes : step.Precedes other := by
        have hpairwise := h.pairwise
        rw [hsplit] at hpairwise
        exact List.rel_of_pairwise_cons (List.pairwise_append.mp hpairwise).2.1 hother
      have hwrites := hprecedes.1.mpr (horigin.trans hsame.symm)
      exact hsound.new_ne_old hproper hstep (horigin ▸ hm) (hwrites.trans heq)

end SymbolRename
