import SymbolRename.Proofs.Plan.Order

/-!
# Plans are safe

Without ambiguities the steps of a plan, run in order, do to every name what the mapping
set does at once: each step takes exactly the names whose first mapping is its own, and
no step takes a name that an earlier step wrote, but for the two halves of a cycle member.
-/

namespace SymbolRename

/-! ### The replay of the steps -/

/-- After `base`, each of the steps takes exactly the names whose first mapping is the
one it belongs to. -/
def Plan.Picks (mappings : List Mapping) (temps : List String) (base steps : List PlanStep) :
    Prop :=
  ∀ before step after, steps = before ++ step :: after → ∀ name ∉ temps,
    (replay (base ++ before) name = step.old ↔ Mapping.firstFor mappings name = some step.origin)

theorem Plan.Picks.append {mappings : List Mapping} {temps : List String}
    {base first second : List PlanStep} (hfirst : Picks mappings temps base first)
    (hsecond : Picks mappings temps (base ++ first) second) :
    Picks mappings temps base (first ++ second) := by
  intro before step after hsplit
  rcases List.append_eq_append_iff.mp hsplit with ⟨more, rfl, hrest⟩ | ⟨more, rfl, hrest⟩
  · rw [← List.append_assoc]
    exact hsecond more step after hrest
  · cases more with
    | nil =>
      simpa only [List.append_nil] using hsecond [] step after hrest.symm
    | cons s more =>
      obtain ⟨rfl, rfl⟩ := List.cons.inj hrest
      exact hfirst before step more rfl

/-- What the steps of an emission do to each name that is not temporary. -/
structure Plan.Emission.Traced (mappings : List Mapping) (temps : List String) (e : Emission) :
    Prop where
  moved : ∀ name ∉ temps, ∀ i m, Mapping.firstFor mappings name = some i → i ∈ e.emitted →
    mappings[i]? = some m → replay e.steps name = m.new
  kept : ∀ name ∉ temps, (∀ i, Mapping.firstFor mappings name = some i → i ∉ e.emitted) →
    replay e.steps name = name
  picks : Picks mappings temps [] e.steps

/-- What is replayed up to now is the old name of a mapping that is not emitted exactly
for the names of which it is the first mapping. -/
theorem Plan.Emission.Traced.replay_eq_old_iff {mappings : List Mapping} {temps : List String}
    {e : Emission} (ht : e.Traced mappings temps) (hclosed : e.Closed mappings)
    (hamb : ambiguitiesOf mappings = []) (hproper : ∀ m ∈ mappings, m.IsProper) {i : Nat}
    {m : Mapping} (hm : mappings[i]? = some m) (hnew : i ∉ e.emitted)
    (hturn : e.HasTurn mappings i) {name : String} (hname : name ∉ temps) :
    replay e.steps name = m.old ↔ Mapping.firstFor mappings name = some i := by
  constructor
  · intro heq
    by_cases hfirst : ∃ j, Mapping.firstFor mappings name = some j ∧ j ∈ e.emitted
    · obtain ⟨j, hj, hmem⟩ := hfirst
      obtain ⟨⟨n, hn, _⟩, _⟩ := Mapping.firstFor_eq_some_iff.mp hj
      have hmoved := ht.moved name hname j n hj hmem hn
      exact absurd (hmoved.symm.trans heq) (hclosed.new_ne_old hamb hmem hn hnew hm)
    · have hnone : ∀ j, Mapping.firstFor mappings name = some j → j ∉ e.emitted :=
        fun j hj hmem => hfirst ⟨j, hj, hmem⟩
      have hsame : name = m.old := (ht.kept name hname hnone).symm.trans heq
      subst hsame
      obtain ⟨j, hle, hj⟩ := Mapping.exists_firstFor hm
      obtain ⟨⟨n, hn, hold⟩, _⟩ := Mapping.firstFor_eq_some_iff.mp hj
      rcases hturn.eq_or_mem hamb hproper hm hn hold hle with rfl | hmem
      · exact hj
      · exact absurd hmem (hnone j hj)
  · intro hfirst
    have hkept := ht.kept name hname fun j hj => by
      obtain rfl := Option.some.inj (hfirst.symm.trans hj)
      exact hnew
    obtain ⟨⟨n, hn, hold⟩, _⟩ := Mapping.firstFor_eq_some_iff.mp hfirst
    obtain rfl := Option.some.inj (hm.symm.trans hn)
    exact hkept.trans hold.symm

/-- What is replayed up to now is one of the names of the mapping set, or the name itself. -/
theorem Plan.Emission.Traced.replay_mem {mappings : List Mapping} {temps : List String}
    {e : Emission} (ht : e.Traced mappings temps) {name : String} (hname : name ∉ temps) :
    replay e.steps name = name ∨ replay e.steps name ∈ names mappings := by
  by_cases hfirst : ∃ j, Mapping.firstFor mappings name = some j ∧ j ∈ e.emitted
  · obtain ⟨j, hj, hmem⟩ := hfirst
    obtain ⟨⟨n, hn, _⟩, _⟩ := Mapping.firstFor_eq_some_iff.mp hj
    rw [ht.moved name hname j n hj hmem hn]
    exact .inr (new_mem_names (List.mem_of_getElem? hn))
  · exact .inl (ht.kept name hname fun j hj hmem => hfirst ⟨j, hj, hmem⟩)

/-- The two passes over a cycle take exactly the old names of its members. -/
theorem Plan.Detour.picks {mappings : List Mapping} {pairs : List (Nat × String)}
    (h : Detour mappings pairs) {temps : List String} {base : List PlanStep}
    (hbase : ∀ p ∈ pairs, ∀ m, mappings[p.1]? = some m → ∀ name ∉ temps,
      (replay base name = m.old ↔ Mapping.firstFor mappings name = some p.1))
    (hfree : ∀ name ∉ temps, ∀ p ∈ pairs, replay base name ≠ p.2) :
    Picks mappings temps base (away mappings pairs ++ home mappings pairs) := by
  refine .append ?_ ?_
  · intro before step after hsplit name hname
    obtain ⟨first, rest, rfl, rfl, hrest⟩ := List.map_eq_append_iff.mp hsplit
    obtain ⟨⟨i, temp⟩, last, rfl, rfl, rfl⟩ := List.map_eq_cons_iff.mp hrest
    obtain ⟨m, hm⟩ := h.mapping (i, temp) (by simp)
    have hold : (awayStep mappings (i, temp)).old = m.old := by simp [awayStep, hm]
    rw [hold, replay_append]
    exact (h.replay_away_eq_old_iff hm).trans (hbase (i, temp) (by simp) m hm name hname)
  · intro before step after hsplit name hname
    obtain ⟨first, rest, rfl, rfl, hrest⟩ := List.map_eq_append_iff.mp hsplit
    obtain ⟨⟨i, temp⟩, last, rfl, rfl, rfl⟩ := List.map_eq_cons_iff.mp hrest
    obtain ⟨m, hm⟩ := h.mapping (i, temp) (by simp)
    rw [replay_append, replay_append]
    refine (h.replay_home_eq_temp_iff).trans ?_
    exact (h.replay_away_eq_temp_iff hm (hfree name hname)).trans
      (hbase (i, temp) (by simp) m hm name hname)

/-- The two passes over a cycle take the old name of a member to its new name. -/
theorem Plan.Detour.replay_old {mappings : List Mapping} {pairs : List (Nat × String)}
    (h : Detour mappings pairs) {p : Nat × String} (hp : p ∈ pairs) {m : Mapping}
    (hm : mappings[p.1]? = some m) (hfree : ∀ q ∈ pairs, m.old ≠ q.2) :
    replay (away mappings pairs ++ home mappings pairs) m.old = m.new := by
  obtain ⟨before, after, rfl⟩ := List.append_of_mem hp
  rw [replay_append, (h.replay_away_eq_temp_iff hm hfree).mpr rfl]
  exact h.replay_home hm

/-- The two passes over a cycle leave every other name. -/
theorem Plan.Detour.replay_other {mappings : List Mapping} {pairs : List (Nat × String)}
    {name : String} (hold : ∀ p ∈ pairs, (mappings[p.1]?.getD ⟨"", ""⟩).old ≠ name)
    (hfree : ∀ p ∈ pairs, name ≠ p.2) :
    replay (away mappings pairs ++ home mappings pairs) name = name := by
  rw [replay_append, replay_away_eq_self hold, replay_home_eq_self hfree]

/-- What the steps of one item do, after those of an emission. -/
structure Plan.Emission.Segment (mappings : List Mapping) (temps : List String) (e : Emission)
    (members : List Nat) (steps : List PlanStep) : Prop where
  picks : Picks mappings temps e.steps steps
  moved : ∀ i ∈ members, ∀ m, mappings[i]? = some m → m.old ∉ temps →
    replay steps m.old = m.new
  kept : ∀ name ∉ temps, (∀ i, Mapping.firstFor mappings name = some i → i ∉ members) →
    replay steps (replay e.steps name) = replay e.steps name

/-- The direct step of a mapping. -/
theorem Plan.Emission.Traced.segment_mapping {mappings : List Mapping} {temps : List String}
    {e : Emission} (ht : e.Traced mappings temps) (hclosed : e.Closed mappings)
    (hamb : ambiguitiesOf mappings = []) (hproper : ∀ m ∈ mappings, m.IsProper) {i : Nat}
    {m : Mapping} (hm : mappings[i]? = some m) (hnew : i ∉ e.emitted)
    (hturn : e.HasTurn mappings i) :
    e.Segment mappings temps [i] [⟨m.old, m.new, i, false⟩] := by
  have htakes : ∀ name ∉ temps,
      (replay e.steps name = m.old ↔ Mapping.firstFor mappings name = some i) :=
    fun name hname => ht.replay_eq_old_iff hclosed hamb hproper hm hnew hturn hname
  constructor
  · intro before step after hsplit name hname
    obtain ⟨rfl, rfl, rfl⟩ : before = [] ∧ step = ⟨m.old, m.new, i, false⟩ ∧ after = [] := by
      cases before with
      | nil => simpa [eq_comm] using hsplit
      | cons s before => simp at hsplit
    rw [List.append_nil]
    exact htakes name hname
  · intro j hj n hn _
    obtain rfl := List.mem_singleton.mp hj
    obtain rfl := Option.some.inj (hm.symm.trans hn)
    rw [replay_cons, if_pos rfl, replay_nil]
  · intro name hname hnone
    have hne : replay e.steps name ≠ m.old := fun heq =>
      hnone i ((htakes name hname).mp heq) (List.mem_singleton.mpr rfl)
    rw [replay_cons, if_neg hne, replay_nil]

/-- The two passes over a cycle. -/
theorem Plan.Emission.Traced.segment_cycle {mappings : List Mapping} {temps : List String}
    {e : Emission} (ht : e.Traced mappings temps) (hclosed : e.Closed mappings)
    (hamb : ambiguitiesOf mappings = []) (hproper : ∀ m ∈ mappings, m.IsProper) {id : Nat}
    {hash : String} (hready : e.Ready mappings (.cycle id))
    (hdetour : Detour mappings (e.pairsFor mappings hash (.cycle id))) :
    e.Segment mappings (e.namesFor mappings hash (.cycle id) ++ temps)
      ((Pending.cycle id).members mappings) (e.stepsFor mappings hash (.cycle id)) := by
  have hpairs : ∀ p ∈ e.pairsFor mappings hash (.cycle id),
      p.2 ∈ e.namesFor mappings hash (.cycle id) := fun p hp => (List.of_mem_zip hp).2
  have htakes : ∀ p ∈ e.pairsFor mappings hash (.cycle id), ∀ m, mappings[p.1]? = some m →
      ∀ name ∉ e.namesFor mappings hash (.cycle id) ++ temps,
        (replay e.steps name = m.old ↔ Mapping.firstFor mappings name = some p.1) := by
    intro p hp m hm name hname
    have hmember := hready.members (List.of_mem_zip hp).1
    exact ht.replay_eq_old_iff hclosed hamb hproper hm hmember.2.1 hmember.2.2
      fun h => hname (List.mem_append_right _ h)
  have hfree : ∀ name ∉ e.namesFor mappings hash (.cycle id) ++ temps,
      ∀ p ∈ e.pairsFor mappings hash (.cycle id), replay e.steps name ≠ p.2 := by
    intro name hname p hp heq
    rcases ht.replay_mem (fun h => hname (List.mem_append_right _ h)) with hself | hmem
    · exact hname (List.mem_append_left _ (hself.symm.trans heq ▸ hpairs p hp))
    · exact hdetour.fresh p hp (heq ▸ hmem)
  constructor
  · exact hdetour.picks htakes hfree
  · intro i hi m hm hold
    have hi' : i ∈ (e.pairsFor mappings hash (.cycle id)).map Prod.fst := by
      rw [map_fst_pairsFor]
      exact hi
    obtain ⟨p, hp, rfl⟩ := List.mem_map.mp hi'
    exact hdetour.replay_old hp hm fun q hq heq =>
      hold (List.mem_append_left _ (heq ▸ hpairs q hq))
  · intro name hname hnone
    refine Detour.replay_other (fun p hp heq => ?_) (hfree name hname)
    obtain ⟨m, _, hm, hget⟩ := hdetour.exists_mapping hp
    rw [hget] at heq
    exact hnone p.1 ((htakes p hp m hm name hname).mp heq.symm) (List.of_mem_zip hp).1

/-- Running the steps of one more item keeps the account of every name. -/
theorem Plan.Emission.Traced.append {mappings : List Mapping} {temps temps' : List String}
    {e e' : Emission} {members : List Nat} {steps : List PlanStep} (ht : e.Traced mappings temps)
    (hsub : temps ⊆ temps') (hseg : e.Segment mappings temps' members steps)
    (hsteps : e'.steps = e.steps ++ steps) (hemitted : e'.emitted = members ++ e.emitted)
    (hnew : ∀ i ∈ members, i ∉ e.emitted) : e'.Traced mappings temps' := by
  have hless : ∀ name ∉ temps', name ∉ temps := fun name hname hmem => hname (hsub hmem)
  constructor
  · intro name hname i m hfirst hi hm
    rw [hsteps, replay_append]
    rw [hemitted] at hi
    rcases List.mem_append.mp hi with hi | hi
    · have hkept := ht.kept name (hless name hname) fun j hj => by
        obtain rfl := Option.some.inj (hfirst.symm.trans hj)
        exact hnew i hi
      obtain ⟨⟨n, hn, hold⟩, _⟩ := Mapping.firstFor_eq_some_iff.mp hfirst
      obtain rfl := Option.some.inj (hm.symm.trans hn)
      subst hold
      rw [hkept]
      exact hseg.moved i hi m hm hname
    · have hother : ∀ j, Mapping.firstFor mappings name = some j → j ∉ members := by
        intro j hj hmem
        obtain rfl := Option.some.inj (hfirst.symm.trans hj)
        exact hnew i hmem hi
      rw [hseg.kept name hname hother]
      exact ht.moved name (hless name hname) i m hfirst hi hm
  · intro name hname hnone
    rw [hemitted] at hnone
    rw [hsteps, replay_append,
      hseg.kept name hname fun i hi hmem => hnone i hi (List.mem_append_left _ hmem)]
    exact ht.kept name (hless name hname) fun i hi hmem =>
      hnone i hi (List.mem_append_right _ hmem)
  · rw [hsteps]
    refine .append (fun before step after hsplit name hname => ?_) (by simpa using hseg.picks)
    exact ht.picks before step after hsplit name (hless name hname)

/-- Every reached emission accounts for every name that is not temporary. -/
theorem Plan.Emission.Reached.traced {mappings : List Mapping} {taken : List String}
    {hash : String} {temps : List String} {e : Emission}
    (h : Reached mappings taken hash temps e) (hamb : ambiguitiesOf mappings = [])
    (hproper : ∀ m ∈ mappings, m.IsProper) : e.Traced mappings temps := by
  induction h with
  | start =>
    refine ⟨fun _ _ _ _ _ hi => by simp at hi, fun _ _ _ => rfl, ?_⟩
    intro before step after hsplit
    simp at hsplit
  | @put temps e item h hready ih =>
    obtain ⟨hsteps, hemitted, _⟩ := hready.put_eq hash
    refine ih.append (List.subset_append_right _ _) ?_ hsteps hemitted
      fun i hi => (hready.members hi).2.1
    cases item with
    | mapping i =>
      obtain ⟨⟨m, hm⟩, hnew, hturn⟩ := hready.members (List.mem_singleton.mpr rfl)
      have hstep : e.stepsFor mappings hash (.mapping i) = [⟨m.old, m.new, i, false⟩] := by
        simp [stepsFor, hm]
      rw [hstep]
      exact ih.segment_mapping h.closed hamb hproper hm hnew hturn
    | cycle id =>
      exact ih.segment_cycle h.closed hamb hproper hready (h.detour hamb hproper hready)

/-! ### Whole plans -/

/-- The temporary names that a plan allocates: what one half of a mapping writes and its
other half reads. -/
def Plan.allocated (p : Plan) : List String :=
  (p.steps.filter fun s => s.isTemp && p.steps.any fun t =>
    t.isTemp && t.origin == s.origin && t.old == s.new).map (·.new)

/-- The allocated names of a reached emission are its temporary names. -/
theorem Plan.Emission.Reached.mem_allocated_iff {mappings : List Mapping} {taken : List String}
    {hash : String} {temps : List String} {e : Emission}
    (h : Reached mappings taken hash temps e) (hproper : ∀ m ∈ mappings, m.IsProper) {p : Plan}
    (hp : p.steps = e.steps) {name : String} : name ∈ p.allocated ↔ name ∈ temps := by
  simp only [allocated, hp, List.mem_map, List.mem_filter, Bool.and_eq_true, List.any_eq_true,
    beq_iff_eq]
  constructor
  · rintro ⟨s, ⟨hs, hstemp, t, ht, ⟨httemp, horigin⟩, hread⟩, rfl⟩
    have hsbelongs := (h.belongs hs).2
    have htbelongs := (h.belongs ht).2
    cases hsbelongs with
    | direct hm => simp at hstemp
    | away hm htemp => exact htemp
    | @home i m temp hm htemp =>
      -- The other half reads no new name: it reads the old one, or a temporary name.
      exfalso
      have hmem := List.mem_of_getElem? hm
      cases htbelongs with
      | direct hn => simp at httemp
      | @away j n temp' hn _ =>
        obtain rfl : j = i := horigin
        obtain rfl := Option.some.inj (hm.symm.trans hn)
        exact (hproper m hmem).2.2 hread
      | @home j n temp' hn htemp' =>
        obtain rfl : temp' = m.new := hread
        exact (h.temps_fresh htemp').1 (new_mem_names hmem)
  · intro hname
    obtain ⟨i, old, new, haway, hhome⟩ := h.exists_halves hname
    exact ⟨_, ⟨haway, rfl, _, hhome, ⟨rfl, rfl⟩, rfl⟩, rfl⟩

/-- What a plan without ambiguities keeps: it does to every name but its own temporary
names what the mapping set does at once, step by step, and reads written names only
within a cycle member. -/
structure Plan.Safe (mappings : List Mapping) (p : Plan) : Prop where
  replay : ∀ name ∉ p.allocated, Plan.replay p.steps name = Mapping.target mappings name
  picks : Picks mappings p.allocated [] p.steps
  pairwise : p.steps.Pairwise PlanStep.Precedes

theorem Plan.safe_ofMappings {mappings : List Mapping} (hproper : ∀ m ∈ mappings, m.IsProper)
    (taken : List String) (hamb : ambiguitiesOf mappings = []) :
    Safe mappings (ofMappings mappings taken) := by
  obtain ⟨temps, e, hreached, hsteps, hall⟩ := exists_reached_ofMappings mappings taken
  have htraced := hreached.traced hamb hproper
  have hless : ∀ name ∉ (ofMappings mappings taken).allocated, name ∉ temps :=
    fun name hname hmem => hname ((hreached.mem_allocated_iff hproper hsteps).mpr hmem)
  refine ⟨fun name hname => ?_, fun before step after hsplit name hname => ?_, ?_⟩
  · rw [hsteps, Mapping.target_eq]
    cases hfirst : Mapping.firstFor mappings name with
    | none =>
      exact htraced.kept name (hless name hname) fun i hi => by simp [hfirst] at hi
    | some i =>
      obtain ⟨⟨m, hm, _⟩, _⟩ := Mapping.firstFor_eq_some_iff.mp hfirst
      rw [Option.bind_some, hm, Option.map_some, Option.getD_some]
      exact htraced.moved name (hless name hname) i m hfirst
        (hall i (List.getElem?_eq_some_iff.mp hm).1) hm
  · exact htraced.picks before step after (hsteps ▸ hsplit) name (hless name hname)
  · rw [hsteps]
    exact hreached.pairwise hamb hproper

/-- Planning is safe. Every accepted mapping set has a plan; it has no ambiguities when
the old names are distinct; its temporary names are new; and without ambiguities, running
its steps in order takes every other name to its target, no step taking a name that an
earlier step wrote unless both belong to one member of a cycle. -/
theorem Plan.make_safe {mappings : List Mapping} (h : Mapping.validate mappings = .ok ())
    (taken : List String) :
    ∃ p, Plan.make mappings taken = .ok p ∧
      ((mappings.map (·.old)).Nodup → p.ambiguities = []) ∧
      (∀ name ∈ p.allocated, name ∉ taken ∧ ∀ m ∈ mappings, name ≠ m.old ∧ name ≠ m.new) ∧
      (p.ambiguities = [] →
        (∀ name ∉ p.allocated, replay p.steps name = Mapping.target mappings name) ∧
        p.steps.Pairwise PlanStep.Precedes) := by
  have hproper := (Mapping.validate_eq_ok_iff.mp h).2
  refine ⟨ofMappings mappings taken, ?_, ambiguitiesOf_eq_nil_of_nodup, ?_, fun hamb => ?_⟩
  · simp [make, h]
  · intro name hname
    obtain ⟨temps, e, hreached, hsteps, _⟩ := exists_reached_ofMappings mappings taken
    obtain ⟨hnames, htaken⟩ :=
      hreached.temps_fresh ((hreached.mem_allocated_iff hproper hsteps).mp hname)
    refine ⟨htaken, fun m hm => ⟨?_, ?_⟩⟩
    · rintro rfl
      exact hnames (old_mem_names hm)
    · rintro rfl
      exact hnames (new_mem_names hm)
  · have hsafe := safe_ofMappings hproper taken hamb
    exact ⟨hsafe.replay, hsafe.pairwise⟩

/-- A swap with a third mapping that waits for it. -/
theorem Plan.make_safe_swap :
    Mapping.validate [⟨"a", "b"⟩, ⟨"b", "a"⟩, ⟨"c", "a"⟩] = .ok () ∧
      ∃ p, Plan.make [⟨"a", "b"⟩, ⟨"b", "a"⟩, ⟨"c", "a"⟩] ["d"] = .ok p ∧ p.ambiguities = [] ∧
        ∀ name ∉ p.allocated, replay p.steps name =
          Mapping.target [⟨"a", "b"⟩, ⟨"b", "a"⟩, ⟨"c", "a"⟩] name := by
  have hvalid : Mapping.validate [⟨"a", "b"⟩, ⟨"b", "a"⟩, ⟨"c", "a"⟩] = .ok () := by decide +kernel
  obtain ⟨p, hp, hamb, _, hsafe⟩ := make_safe hvalid ["d"]
  have hnone := hamb (by decide)
  exact ⟨hvalid, p, hp, hnone, (hsafe hnone).1⟩

end SymbolRename
