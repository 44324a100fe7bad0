import SymbolRename.Proofs.Plan.Replay

/-!
# The steps of an emission and their order

Every step of an emission is the direct step of a mapping or one half of a cycle member,
whose temporary name is new. Without ambiguities the steps are in order: a later step
takes the name that an earlier one wrote only if the two are halves of one member.
-/

namespace SymbolRename

/-- The mappings of an item. -/
def Plan.Pending.members (mappings : List Mapping) : Pending → List Nat
  | .mapping i => [i]
  | .cycle id => ((cyclesOf (dependencies mappings))[id]?).getD []

/-- The members of an item that is put as a cycle, with their temporary names. -/
def Plan.Emission.pairsFor (mappings : List Mapping) (hash : String) (e : Emission)
    (item : Pending) : List (Nat × String) :=
  (item.members mappings).zip (e.namesFor mappings hash item)

/-- The steps that putting an item adds. -/
def Plan.Emission.stepsFor (mappings : List Mapping) (hash : String) (e : Emission) :
    Pending → List PlanStep
  | .mapping i => (mappings[i]?.toList).map fun m => ⟨m.old, m.new, i, false⟩
  | .cycle id =>
    away mappings (e.pairsFor mappings hash (.cycle id)) ++
      home mappings (e.pairsFor mappings hash (.cycle id))

/-- Putting a ready item adds its steps, its mappings and its temporary names. -/
theorem Plan.Emission.Ready.put_eq {mappings : List Mapping} {e : Emission} {item : Pending}
    (h : e.Ready mappings item) (hash : String) :
    (e.put mappings (cyclesOf (dependencies mappings)) hash item).steps =
        e.steps ++ e.stepsFor mappings hash item ∧
      (e.put mappings (cyclesOf (dependencies mappings)) hash item).emitted =
        item.members mappings ++ e.emitted ∧
      (e.put mappings (cyclesOf (dependencies mappings)) hash item).used =
        e.namesFor mappings hash item ++ e.used := by
  cases h with
  | @mapping i hlt =>
    rw [put_mapping e (List.getElem?_eq_getElem hlt)]
    simp [stepsFor, namesFor, Pending.members, hlt]
  | cycle hid =>
    rw [put_cycle e hid]
    simp [stepsFor, pairsFor, namesFor, Pending.members, hid]

/-- The mappings of a ready item are in the set, not emitted, and have their turn. -/
theorem Plan.Emission.Ready.members {mappings : List Mapping} {e : Emission} {item : Pending}
    (h : e.Ready mappings item) {i : Nat} (hi : i ∈ item.members mappings) :
    (∃ m, mappings[i]? = some m) ∧ i ∉ e.emitted ∧ e.HasTurn mappings i := by
  cases h with
  | mapping hlt hnew _ _ hturn =>
    obtain rfl := List.mem_singleton.mp hi
    exact ⟨⟨_, List.getElem?_eq_getElem hlt⟩, hnew, hturn⟩
  | @cycle id members hid hnew =>
    simp only [Pending.members, hid, Option.getD_some] at hi
    have hcycle := List.mem_of_getElem? hid
    obtain ⟨p, _, hp⟩ := exists_prior_of_mem_cycle hcycle hi
    exact ⟨⟨_, List.getElem?_eq_getElem (next?_lt hp)⟩, hnew i hi, .inr ⟨p, hp⟩⟩

theorem Plan.Emission.map_snd_pairsFor (mappings : List Mapping) (hash : String) (e : Emission)
    (item : Pending) :
    (e.pairsFor mappings hash item).map Prod.snd = e.namesFor mappings hash item := by
  refine List.map_snd_zip ?_
  cases item <;> simp [namesFor, Pending.members]

theorem Plan.Emission.map_fst_pairsFor (mappings : List Mapping) (hash : String) (e : Emission)
    (id : Nat) :
    (e.pairsFor mappings hash (.cycle id)).map Prod.fst =
      (Pending.cycle id).members mappings := by
  refine List.map_fst_zip ?_
  simp [namesFor, Pending.members]

/-! ### Temporary names -/

theorem Plan.Emission.Reached.used_eq {mappings : List Mapping} {taken : List String}
    {hash : String} {temps : List String} {e : Emission}
    (h : Reached mappings taken hash temps e) : e.used = temps ++ (names mappings ++ taken) := by
  induction h with
  | start => rfl
  | put _ hready ih => rw [(hready.put_eq hash).2.2, ih, List.append_assoc]

/-- The names that an item allocates are not in use. -/
theorem Plan.Emission.not_mem_used_of_mem_namesFor {mappings : List Mapping} {hash : String}
    {e : Emission} {item : Pending} {name : String}
    (h : name ∈ e.namesFor mappings hash item) : name ∉ e.used := by
  cases item with
  | mapping i => simp [namesFor] at h
  | cycle id => exact not_mem_of_mem_allocate h

/-- Temporary names are neither names of the mapping set nor taken. -/
theorem Plan.Emission.Reached.temps_fresh {mappings : List Mapping} {taken : List String}
    {hash : String} {temps : List String} {e : Emission}
    (h : Reached mappings taken hash temps e) {name : String} (hname : name ∈ temps) :
    name ∉ names mappings ∧ name ∉ taken := by
  induction h with
  | start => simp at hname
  | put h hready ih =>
    rcases List.mem_append.mp hname with hname | hname
    · have hfresh := not_mem_used_of_mem_namesFor hname
      rw [h.used_eq] at hfresh
      simp only [List.mem_append, not_or] at hfresh
      exact hfresh.2
    · exact ih hname

/-- The names that an item allocates are new to the steps before it. -/
theorem Plan.Emission.Reached.namesFor_fresh {mappings : List Mapping} {taken : List String}
    {hash : String} {temps : List String} {e : Emission}
    (h : Reached mappings taken hash temps e) {item : Pending} {name : String}
    (hname : name ∈ e.namesFor mappings hash item) : name ∉ temps ∧ name ∉ names mappings := by
  have hfresh := not_mem_used_of_mem_namesFor hname
  rw [h.used_eq] at hfresh
  simp only [List.mem_append, not_or] at hfresh
  exact ⟨hfresh.1, hfresh.2.1⟩

/-! ### What the steps are -/

/-- The step is the direct step of a mapping, or one half of a member of a cycle. -/
inductive PlanStep.Belongs (mappings : List Mapping) (temps : List String) : PlanStep → Prop
  | direct {i : Nat} {m : Mapping} (hm : mappings[i]? = some m) :
      Belongs mappings temps ⟨m.old, m.new, i, false⟩
  | away {i : Nat} {m : Mapping} {temp : String} (hm : mappings[i]? = some m)
      (htemp : temp ∈ temps) : Belongs mappings temps ⟨m.old, temp, i, true⟩
  | home {i : Nat} {m : Mapping} {temp : String} (hm : mappings[i]? = some m)
      (htemp : temp ∈ temps) : Belongs mappings temps ⟨temp, m.new, i, true⟩

theorem PlanStep.Belongs.mono {mappings : List Mapping} {temps temps' : List String}
    {step : PlanStep} (h : step.Belongs mappings temps) (hsub : temps ⊆ temps') :
    step.Belongs mappings temps' := by
  cases h with
  | direct hm => exact .direct hm
  | away hm htemp => exact .away hm (hsub htemp)
  | home hm htemp => exact .home hm (hsub htemp)

/-- The steps of a ready item belong to its mappings and temporary names. -/
theorem Plan.Emission.Ready.belongs {mappings : List Mapping} {e : Emission} {item : Pending}
    (h : e.Ready mappings item) {hash : String} {step : PlanStep}
    (hstep : step ∈ e.stepsFor mappings hash item) :
    step.origin ∈ item.members mappings ∧
      step.Belongs mappings (e.namesFor mappings hash item) := by
  cases item with
  | mapping i =>
    obtain ⟨m, hm, rfl⟩ := List.mem_map.mp hstep
    exact ⟨List.mem_singleton.mpr rfl, .direct (Option.mem_toList.mp hm)⟩
  | cycle id =>
    rcases List.mem_append.mp hstep with hstep | hstep
    · obtain ⟨p, hp, rfl⟩ := List.mem_map.mp hstep
      obtain ⟨hi, hname⟩ := List.of_mem_zip hp
      obtain ⟨m, hm⟩ := (h.members hi).1
      refine ⟨hi, ?_⟩
      simp only [awayStep, hm, Option.getD_some]
      exact .away hm hname
    · obtain ⟨p, hp, rfl⟩ := List.mem_map.mp hstep
      obtain ⟨hi, hname⟩ := List.of_mem_zip hp
      obtain ⟨m, hm⟩ := (h.members hi).1
      refine ⟨hi, ?_⟩
      simp only [homeStep, hm, Option.getD_some]
      exact .home hm hname

theorem Plan.Emission.Reached.belongs {mappings : List Mapping} {taken : List String}
    {hash : String} {temps : List String} {e : Emission}
    (h : Reached mappings taken hash temps e) {step : PlanStep} (hstep : step ∈ e.steps) :
    step.origin ∈ e.emitted ∧ step.Belongs mappings temps := by
  induction h with
  | start => simp at hstep
  | put h hready ih =>
    rw [(hready.put_eq hash).1] at hstep
    rw [(hready.put_eq hash).2.1]
    rcases List.mem_append.mp hstep with hstep | hstep
    · obtain ⟨horigin, hbelongs⟩ := ih hstep
      exact ⟨List.mem_append_right _ horigin, hbelongs.mono (List.subset_append_right _ _)⟩
    · obtain ⟨horigin, hbelongs⟩ := hready.belongs hstep
      exact ⟨List.mem_append_left _ horigin, hbelongs.mono (List.subset_append_left _ _)⟩

/-- Every temporary name is written and read by the two halves of one mapping. -/
theorem Plan.Emission.Reached.exists_halves {mappings : List Mapping} {taken : List String}
    {hash : String} {temps : List String} {e : Emission}
    (h : Reached mappings taken hash temps e) {name : String} (hname : name ∈ temps) :
    ∃ i old new, (⟨old, name, i, true⟩ : PlanStep) ∈ e.steps ∧
      (⟨name, new, i, true⟩ : PlanStep) ∈ e.steps := by
  induction h with
  | start => simp at hname
  | @put temps e item h hready ih =>
    rw [(hready.put_eq hash).1]
    rcases List.mem_append.mp hname with hname | hname
    · cases item with
      | mapping i => simp [namesFor] at hname
      | cycle id =>
        rw [← map_snd_pairsFor] at hname
        obtain ⟨p, hp, rfl⟩ := List.mem_map.mp hname
        exact ⟨_, _, _,
          List.mem_append_right _ (List.mem_append_left _ (List.mem_map_of_mem hp)),
          List.mem_append_right _ (List.mem_append_right _ (List.mem_map_of_mem hp))⟩
    · obtain ⟨i, old, new, haway, hhome⟩ := ih hname
      exact ⟨i, old, new, List.mem_append_left _ haway, List.mem_append_left _ hhome⟩

/-! ### Old names without ambiguities -/

/-- Without ambiguities no other mapping shares its old name with a dependency. -/
theorem Plan.eq_of_old_eq {mappings : List Mapping} (hamb : ambiguitiesOf mappings = [])
    (hproper : ∀ m ∈ mappings, m.IsProper) {i j p : Nat}
    (hp : next? (dependencies mappings) p = some i) {m n : Mapping}
    (hm : mappings[i]? = some m) (hn : mappings[j]? = some n) (hold : n.old = m.old) : j = i := by
  rw [next?_dependencies] at hp
  have hi := List.mem_of_head? hp
  obtain ⟨_, q, m', hq, hm', hnew⟩ := mem_candidates_iff.mp hi
  obtain rfl := Option.some.inj (hm.symm.trans hm')
  have hne : j ≠ p := by
    rintro rfl
    obtain rfl := Option.some.inj (hn.symm.trans hq)
    exact (hproper n (List.mem_of_getElem? hn)).2.2 (hold.trans hnew)
  exact eq_of_mem_candidates hamb
    (mem_candidates_iff.mpr ⟨hne, q, n, hq, hn, hold.trans hnew⟩) hi

/-- When a mapping has its turn, the first mapping with its old name is itself or is
emitted. -/
theorem Plan.Emission.HasTurn.eq_or_mem {mappings : List Mapping} {e : Emission}
    (hamb : ambiguitiesOf mappings = []) (hproper : ∀ m ∈ mappings, m.IsProper) {i j : Nat}
    (hturn : e.HasTurn mappings i) {m n : Mapping} (hm : mappings[i]? = some m)
    (hn : mappings[j]? = some n) (hold : n.old = m.old) (hle : j ≤ i) :
    j = i ∨ j ∈ e.emitted := by
  rcases hturn with hall | ⟨p, hp⟩
  · exact (Nat.lt_or_eq_of_le hle).symm.imp_right (hall j)
  · exact .inl (eq_of_old_eq hamb hproper hp hm hn hold)

/-- Without ambiguities no emitted mapping writes the old name of one that is not. -/
theorem Plan.Emission.Closed.new_ne_old {mappings : List Mapping} {e : Emission}
    (h : e.Closed mappings) (hamb : ambiguitiesOf mappings = []) {i j : Nat} {m n : Mapping}
    (hi : i ∈ e.emitted) (hm : mappings[i]? = some m) (hj : j ∉ e.emitted)
    (hn : mappings[j]? = some n) : m.new ≠ n.old := by
  intro heq
  have hne : j ≠ i := fun hji => hj (hji ▸ hi)
  have hmem : j ∈ candidates mappings i := mem_candidates_iff.mpr ⟨hne, m, n, hm, hn, heq.symm⟩
  exact hj (h.next i hi j (next?_eq_some_of_mem hamb hmem))

/-- The members of a cycle and their temporary names. -/
theorem Plan.Emission.Reached.detour {mappings : List Mapping} {taken : List String}
    {hash : String} {temps : List String} {e : Emission}
    (h : Reached mappings taken hash temps e) (hamb : ambiguitiesOf mappings = [])
    (hproper : ∀ m ∈ mappings, m.IsProper) {id : Nat} (hready : e.Ready mappings (.cycle id)) :
    Detour mappings (e.pairsFor mappings hash (.cycle id)) := by
  constructor
  · intro p hp
    exact (hready.members (List.of_mem_zip hp).1).1
  · have hfun : (fun p : Nat × String => (mappings[p.1]?.getD ⟨"", ""⟩).old) =
        (fun i : Nat => (mappings[i]?.getD ⟨"", ""⟩).old) ∘ Prod.fst := rfl
    rw [hfun, ← List.map_map, map_fst_pairsFor]
    cases hready with
    | @cycle id members hid hnew =>
      have hcycle := List.mem_of_getElem? hid
      have hmembers : (Pending.cycle id).members mappings = members := by
        simp [Pending.members, hid]
      rw [hmembers]
      refine List.Nodup.map_on (fun j hj i hi hold => ?_) (cycle_nodup hcycle)
      obtain ⟨p, _, hp⟩ := exists_prior_of_mem_cycle hcycle hi
      obtain ⟨_, _, hq⟩ := exists_next?_of_mem_cycle hcycle hj
      have hlt : j < mappings.length := by simpa using lt_length_of_next? hq
      have hm := List.getElem?_eq_getElem (next?_lt hp)
      have hn := List.getElem?_eq_getElem hlt
      rw [hm, hn, Option.getD_some, Option.getD_some] at hold
      exact eq_of_old_eq hamb hproper hp hm hn hold
  · rw [map_snd_pairsFor]
    exact allocate_nodup hash _ _
  · exact fun p hp => (h.namesFor_fresh (List.of_mem_zip hp).2).2

/-! ### The order of the steps -/

/-- A later step takes the name that an earlier one wrote exactly when they belong to one
mapping, and then they are its two halves. -/
def PlanStep.Precedes (s t : PlanStep) : Prop :=
  (s.new = t.old ↔ s.origin = t.origin) ∧ (s.origin = t.origin → s.isTemp = true ∧ t.isTemp = true)

theorem PlanStep.Precedes.of_ne {s t : PlanStep} (hname : s.new ≠ t.old)
    (horigin : s.origin ≠ t.origin) : s.Precedes t :=
  ⟨iff_of_false hname horigin, fun h => absurd h horigin⟩

/-- The two passes over a cycle are in order. -/
theorem Plan.Detour.pairwise {mappings : List Mapping} {pairs : List (Nat × String)}
    (h : Detour mappings pairs) :
    (away mappings pairs ++ home mappings pairs).Pairwise PlanStep.Precedes := by
  have horigins : (pairs.map Prod.fst).Nodup := by
    have holds := h.olds
    have hfun : (fun p : Nat × String => (mappings[p.1]?.getD ⟨"", ""⟩).old) =
        (fun i : Nat => (mappings[i]?.getD ⟨"", ""⟩).old) ∘ Prod.fst := rfl
    rw [hfun, ← List.map_map] at holds
    exact holds.of_map _
  have hdistinct : pairs.Pairwise fun p q => p.1 ≠ q.1 := List.pairwise_map.mp horigins
  refine List.pairwise_append.mpr ⟨?_, ?_, ?_⟩
  · refine List.pairwise_map.mpr (hdistinct.imp_of_mem fun hp hq hne => ?_)
    obtain ⟨m, hm, _, hget⟩ := h.exists_mapping hq
    refine .of_ne ?_ hne
    simp only [awayStep, hget]
    exact h.ne_old hp hm
  · refine List.pairwise_map.mpr (hdistinct.imp_of_mem fun hp hq hne => ?_)
    obtain ⟨m, hm, _, hget⟩ := h.exists_mapping hp
    refine .of_ne ?_ hne
    simp only [homeStep, hget]
    exact (h.ne_new hq hm).symm
  · intro s hs t ht
    obtain ⟨p, hp, rfl⟩ := List.mem_map.mp hs
    obtain ⟨q, hq, rfl⟩ := List.mem_map.mp ht
    refine ⟨⟨fun hname => ?_, fun horigin => ?_⟩, fun _ => ⟨rfl, rfl⟩⟩
    · exact congrArg Prod.fst (List.inj_on_of_nodup_map h.names hp hq hname)
    · exact congrArg Prod.snd (List.inj_on_of_nodup_map horigins hp hq horigin)

/-- A step of an emitted mapping precedes every step of a ready item. -/
theorem Plan.Emission.Reached.precedes {mappings : List Mapping} {taken : List String}
    {hash : String} {temps : List String} {e : Emission}
    (h : Reached mappings taken hash temps e) (hamb : ambiguitiesOf mappings = [])
    {item : Pending} (hready : e.Ready mappings item) {s t : PlanStep} (hs : s ∈ e.steps)
    (ht : t ∈ e.stepsFor mappings hash item) : s.Precedes t := by
  obtain ⟨hsorigin, hsbelongs⟩ := h.belongs hs
  obtain ⟨htorigin, htbelongs⟩ := hready.belongs ht
  have hnew := (hready.members htorigin).2.1
  refine .of_ne ?_ fun heq => hnew (heq ▸ hsorigin)
  -- Either name is a temporary name or one of the mapping set.
  rcases hsbelongs with @⟨i, m, hm⟩ | @⟨i, m, temp, hm, htemp⟩ | @⟨i, m, temp, hm, htemp⟩ <;>
    rcases htbelongs with @⟨j, n, hn⟩ | @⟨j, n, temp', hn, htemp'⟩ | @⟨j, n, temp', hn, htemp'⟩
  · exact h.closed.new_ne_old hamb hsorigin hm hnew hn
  · exact h.closed.new_ne_old hamb hsorigin hm hnew hn
  · rintro rfl
    exact (h.namesFor_fresh htemp').2 (new_mem_names (List.mem_of_getElem? hm))
  · rintro rfl
    exact (h.temps_fresh htemp).1 (old_mem_names (List.mem_of_getElem? hn))
  · rintro rfl
    exact (h.temps_fresh htemp).1 (old_mem_names (List.mem_of_getElem? hn))
  · rintro rfl
    exact (h.namesFor_fresh htemp').1 htemp
  · exact h.closed.new_ne_old hamb hsorigin hm hnew hn
  · exact h.closed.new_ne_old hamb hsorigin hm hnew hn
  · rintro rfl
    exact (h.namesFor_fresh htemp').2 (new_mem_names (List.mem_of_getElem? hm))

theorem Plan.Emission.Reached.pairwise {mappings : List Mapping} {taken : List String}
    {hash : String} {temps : List String} {e : Emission}
    (h : Reached mappings taken hash temps e) (hamb : ambiguitiesOf mappings = [])
    (hproper : ∀ m ∈ mappings, m.IsProper) : e.steps.Pairwise PlanStep.Precedes := by
  induction h with
  | start => exact .nil
  | @put temps e item h hready ih =>
    rw [(hready.put_eq hash).1]
    refine List.pairwise_append.mpr ⟨ih, ?_, fun s hs t ht => h.precedes hamb hready hs ht⟩
    cases item with
    | mapping i =>
      refine List.pairwise_map.mpr ?_
      cases mappings[i]? <;> simp
    | cycle id => exact (h.detour hamb hproper hready).pairwise

end SymbolRename
