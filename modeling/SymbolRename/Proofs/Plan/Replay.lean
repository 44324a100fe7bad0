import SymbolRename.Proofs.Plan.Emission
import SymbolRename.Proofs.Plan.TemporaryNames

/-!
# Replaying steps on a name

`Plan.replay` follows one name through a list of steps, and `Mapping.target` is where a
mapping set sends the name at once. A cycle is replayed in two passes: the first takes
each old name to a temporary name of its own, the second takes that to the new name.
-/

namespace SymbolRename

/-- What a name becomes when the steps are run in order. -/
def Plan.replay (steps : List PlanStep) (name : String) : String :=
  steps.foldl (fun current step => if current = step.old then step.new else current) name

/-- The number of the first mapping with an old name. -/
def Mapping.firstFor (mappings : List Mapping) (name : String) : Option Nat :=
  mappings.findIdx? (·.old == name)

/-- Where a mapping set sends a name: to the new name of the first mapping whose old name
it is, and to itself without one. -/
def Mapping.target (mappings : List Mapping) (name : String) : String :=
  ((mappings.find? (·.old == name)).map (·.new)).getD name

theorem Mapping.firstFor_eq_some_iff {mappings : List Mapping} {name : String} {i : Nat} :
    firstFor mappings name = some i ↔
      (∃ m, mappings[i]? = some m ∧ m.old = name) ∧
        ∀ k < i, ∀ m, mappings[k]? = some m → m.old ≠ name := by
  rw [firstFor, List.findIdx?_eq_some_iff_getElem]
  constructor
  · rintro ⟨hlt, hold, hfirst⟩
    refine ⟨⟨mappings[i], List.getElem?_eq_getElem hlt, by simpa using hold⟩, fun k hk m hm => ?_⟩
    obtain ⟨hklt, rfl⟩ := List.getElem?_eq_some_iff.mp hm
    simpa using hfirst k hk
  · rintro ⟨⟨m, hm, rfl⟩, hfirst⟩
    obtain ⟨hlt, rfl⟩ := List.getElem?_eq_some_iff.mp hm
    refine ⟨hlt, by simp, fun k hk => ?_⟩
    simpa using hfirst k hk _ (List.getElem?_eq_getElem (hk.trans hlt))

/-- The first mapping with the old name of a mapping does not come after it. -/
theorem Mapping.exists_firstFor {mappings : List Mapping} {i : Nat} {m : Mapping}
    (h : mappings[i]? = some m) : ∃ j ≤ i, firstFor mappings m.old = some j := by
  cases hj : firstFor mappings m.old with
  | none =>
    have hnone := List.findIdx?_eq_none_iff.mp hj m (List.mem_of_getElem? h)
    simp at hnone
  | some j =>
    refine ⟨j, ?_, rfl⟩
    by_contra hlt
    exact (firstFor_eq_some_iff.mp hj).2 i (Nat.lt_of_not_le hlt) m h rfl

/-- The target is read off the first mapping. -/
theorem Mapping.target_eq {mappings : List Mapping} {name : String} :
    target mappings name =
      (((firstFor mappings name).bind (mappings[·]?)).map (·.new)).getD name := by
  induction mappings with
  | nil => rfl
  | cons m rest ih =>
    unfold target firstFor at ih ⊢
    by_cases h : m.old = name
    · simp [List.findIdx?_cons, h]
    · rw [List.find?_cons_of_neg (by simpa using h), List.findIdx?_cons]
      simp only [beq_eq_false_iff_ne.mpr h, Bool.false_eq_true, if_false]
      rw [ih]
      cases rest.findIdx? (·.old == name) <;> rfl

/-! ### One name through a list of steps -/

@[simp] theorem Plan.replay_nil (name : String) : replay [] name = name := rfl

theorem Plan.replay_cons (step : PlanStep) (rest : List PlanStep) (name : String) :
    replay (step :: rest) name = replay rest (if name = step.old then step.new else name) := rfl

theorem Plan.replay_append (before after : List PlanStep) (name : String) :
    replay (before ++ after) name = replay after (replay before name) := List.foldl_append

/-- A name that no step takes stays. -/
theorem Plan.replay_eq_self {steps : List PlanStep} {name : String}
    (h : ∀ step ∈ steps, step.old ≠ name) : replay steps name = name := by
  induction steps with
  | nil => rfl
  | cons step rest ih =>
    rw [replay_cons, if_neg (h step List.mem_cons_self).symm]
    exact ih fun s hs => h s (List.mem_cons_of_mem _ hs)

/-- A name stays, or becomes the new name of some step. -/
theorem Plan.replay_cases (steps : List PlanStep) (name : String) :
    replay steps name = name ∨ ∃ step ∈ steps, replay steps name = step.new := by
  induction steps generalizing name with
  | nil => exact .inl rfl
  | cons step rest ih =>
    rw [replay_cons]
    split
    · rcases ih step.new with h | ⟨s, hs, h⟩
      · exact .inr ⟨step, List.mem_cons_self, h⟩
      · exact .inr ⟨s, List.mem_cons_of_mem _ hs, h⟩
    · exact (ih name).imp_right fun ⟨s, hs, h⟩ => ⟨s, List.mem_cons_of_mem _ hs, h⟩

/-! ### Cycles -/

/-- Mappings paired with temporary names: the mappings differ in their old names, and
the temporary names differ from each other and from all names of the set. -/
structure Plan.Detour (mappings : List Mapping) (pairs : List (Nat × String)) : Prop where
  mapping : ∀ p ∈ pairs, ∃ m, mappings[p.1]? = some m
  olds : (pairs.map fun p => (mappings[p.1]?.getD ⟨"", ""⟩).old).Nodup
  names : (pairs.map Prod.snd).Nodup
  fresh : ∀ p ∈ pairs, p.2 ∉ Plan.names mappings

theorem Plan.Detour.exists_mapping {mappings : List Mapping} {pairs : List (Nat × String)}
    (h : Detour mappings pairs) {p : Nat × String} (hp : p ∈ pairs) :
    ∃ m ∈ mappings, mappings[p.1]? = some m ∧ mappings[p.1]?.getD ⟨"", ""⟩ = m := by
  obtain ⟨m, hm⟩ := h.mapping p hp
  exact ⟨m, List.mem_of_getElem? hm, hm, by rw [hm, Option.getD_some]⟩

/-- A temporary name is no old name of the mapping set. -/
theorem Plan.Detour.ne_old {mappings : List Mapping} {pairs : List (Nat × String)}
    (h : Detour mappings pairs) {p : Nat × String} (hp : p ∈ pairs) {m : Mapping}
    (hm : m ∈ mappings) : p.2 ≠ m.old :=
  fun heq => h.fresh p hp (heq ▸ old_mem_names hm)

theorem Plan.Detour.ne_new {mappings : List Mapping} {pairs : List (Nat × String)}
    (h : Detour mappings pairs) {p : Nat × String} (hp : p ∈ pairs) {m : Mapping}
    (hm : m ∈ mappings) : p.2 ≠ m.new :=
  fun heq => h.fresh p hp (heq ▸ new_mem_names hm)

/-- The first pass leaves a name or takes it to a temporary name. -/
theorem Plan.replay_away_cases (mappings : List Mapping) (pairs : List (Nat × String))
    (name : String) :
    replay (away mappings pairs) name = name ∨
      ∃ p ∈ pairs, replay (away mappings pairs) name = p.2 := by
  refine (replay_cases _ _).imp_right fun ⟨step, hstep, h⟩ => ?_
  obtain ⟨p, hp, rfl⟩ := List.mem_map.mp hstep
  exact ⟨p, hp, h⟩

/-- Up to its own step, the first pass keeps the old name of a member for this member. -/
theorem Plan.Detour.replay_away_eq_old_iff {mappings : List Mapping}
    {before after : List (Nat × String)} {i : Nat} {temp : String} {m : Mapping}
    (h : Detour mappings (before ++ (i, temp) :: after)) (hm : mappings[i]? = some m)
    {name : String} : replay (away mappings before) name = m.old ↔ name = m.old := by
  have hmem := List.mem_of_getElem? hm
  constructor
  · intro heq
    rcases replay_away_cases mappings before name with hself | ⟨p, hp, htemp⟩
    · exact hself.symm.trans heq
    · exact absurd (htemp.symm.trans heq) (h.ne_old (List.mem_append_left _ hp) hmem)
  · rintro rfl
    refine replay_eq_self fun step hstep => ?_
    obtain ⟨p, hp, rfl⟩ := List.mem_map.mp hstep
    have holds := h.olds
    rw [List.map_append, List.map_cons, hm] at holds
    intro heq
    exact List.disjoint_of_nodup_append holds (List.mem_map_of_mem hp)
      (List.mem_cons.mpr (.inl heq))

/-- The first pass takes exactly the old name of a member to its temporary name. -/
theorem Plan.Detour.replay_away_eq_temp_iff {mappings : List Mapping}
    {before after : List (Nat × String)} {i : Nat} {temp : String} {m : Mapping}
    (h : Detour mappings (before ++ (i, temp) :: after)) (hm : mappings[i]? = some m)
    {name : String} (hname : ∀ p ∈ before ++ (i, temp) :: after, name ≠ p.2) :
    replay (away mappings (before ++ (i, temp) :: after)) name = temp ↔ name = m.old := by
  have hself : (i, temp) ∈ before ++ (i, temp) :: after := by simp
  have hsplit : away mappings (before ++ (i, temp) :: after) =
      away mappings before ++ ⟨m.old, temp, i, true⟩ :: away mappings after := by
    simp [away, awayStep, hm]
  have hrest : replay (away mappings after) temp = temp := by
    refine replay_eq_self fun step hstep => ?_
    obtain ⟨p, hp, rfl⟩ := List.mem_map.mp hstep
    have hp' : p ∈ before ++ (i, temp) :: after := by simp [hp]
    obtain ⟨m', hm', _, hget⟩ := h.exists_mapping hp'
    show (mappings[p.1]?.getD ⟨"", ""⟩).old ≠ temp
    rw [hget]
    exact (h.ne_old hself hm').symm
  have hnames := h.names
  rw [List.map_append, List.map_cons] at hnames
  rw [hsplit, replay_append, replay_cons]
  constructor
  · intro heq
    by_contra hne
    rw [if_neg (mt (h.replay_away_eq_old_iff hm).mp hne)] at heq
    rcases replay_away_cases mappings after (replay (away mappings before) name) with
      hkept | ⟨p, hp, htemp⟩
    · rcases replay_away_cases mappings before name with hkept' | ⟨p, hp, htemp⟩
      · exact hname _ hself (hkept'.symm.trans (hkept.symm.trans heq))
      · have hsame : p.2 = temp := htemp.symm.trans (hkept.symm.trans heq)
        exact List.disjoint_of_nodup_append hnames (List.mem_map_of_mem hp)
          (List.mem_cons.mpr (.inl hsame))
    · have hsame : p.2 = temp := htemp.symm.trans heq
      have hnot := (List.nodup_cons.mp (List.nodup_append'.mp hnames).2.1).1
      exact hnot (List.mem_map.mpr ⟨p, hp, hsame⟩)
  · rintro rfl
    rw [if_pos ((h.replay_away_eq_old_iff hm).mpr rfl)]
    exact hrest

/-- The first pass leaves every name that is no member's old name. -/
theorem Plan.replay_away_eq_self {mappings : List Mapping} {pairs : List (Nat × String)}
    {name : String} (h : ∀ p ∈ pairs, (mappings[p.1]?.getD ⟨"", ""⟩).old ≠ name) :
    replay (away mappings pairs) name = name := by
  refine replay_eq_self fun step hstep => ?_
  obtain ⟨p, hp, rfl⟩ := List.mem_map.mp hstep
  exact h p hp

/-- Up to its own step, the second pass keeps a temporary name. -/
theorem Plan.Detour.replay_home_eq_temp_iff {mappings : List Mapping}
    {before after : List (Nat × String)} {i : Nat} {temp : String}
    (h : Detour mappings (before ++ (i, temp) :: after)) {name : String} :
    replay (home mappings before) name = temp ↔ name = temp := by
  have hself : (i, temp) ∈ before ++ (i, temp) :: after := by simp
  have hnames := h.names
  rw [List.map_append, List.map_cons] at hnames
  constructor
  · intro heq
    rcases replay_cases (home mappings before) name with hkept | ⟨step, hstep, hnew⟩
    · exact hkept.symm.trans heq
    · obtain ⟨p, hp, rfl⟩ := List.mem_map.mp hstep
      obtain ⟨m, hm, _, hget⟩ := h.exists_mapping (List.mem_append_left _ hp)
      simp only [homeStep, hget] at hnew
      exact absurd (heq.symm.trans hnew) (h.ne_new hself hm)
  · rintro rfl
    refine replay_eq_self fun step hstep => ?_
    obtain ⟨p, hp, rfl⟩ := List.mem_map.mp hstep
    exact fun heq => List.disjoint_of_nodup_append hnames (List.mem_map_of_mem hp)
      (List.mem_cons.mpr (.inl heq))

/-- The second pass takes the temporary name of a member to its new name. -/
theorem Plan.Detour.replay_home {mappings : List Mapping} {before after : List (Nat × String)}
    {i : Nat} {temp : String} {m : Mapping}
    (h : Detour mappings (before ++ (i, temp) :: after)) (hm : mappings[i]? = some m) :
    replay (home mappings (before ++ (i, temp) :: after)) temp = m.new := by
  have hsplit : home mappings (before ++ (i, temp) :: after) =
      home mappings before ++ ⟨temp, m.new, i, true⟩ :: home mappings after := by
    simp [home, homeStep, hm]
  rw [hsplit, replay_append, h.replay_home_eq_temp_iff.mpr rfl, replay_cons, if_pos rfl]
  refine replay_eq_self fun step hstep => ?_
  obtain ⟨p, hp, rfl⟩ := List.mem_map.mp hstep
  exact h.ne_new (by simp [hp]) (List.mem_of_getElem? hm)

/-- The second pass leaves every other name. -/
theorem Plan.replay_home_eq_self {mappings : List Mapping} {pairs : List (Nat × String)}
    {name : String} (h : ∀ p ∈ pairs, name ≠ p.2) : replay (home mappings pairs) name = name := by
  refine replay_eq_self fun step hstep => ?_
  obtain ⟨p, hp, rfl⟩ := List.mem_map.mp hstep
  exact (h p hp).symm

end SymbolRename
