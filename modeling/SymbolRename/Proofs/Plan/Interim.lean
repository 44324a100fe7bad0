import SymbolRename.Proofs.Plan.Safety

/-!
# Where temporary names stand in a plan

One step of a plan writes a temporary name and a later one takes it. Between the two come only
halves of cycle members, and no other step writes the name: `Plan.interim_ofMappings`.
-/

namespace SymbolRename

/-- One step writes the name, a later one takes it, and no other writes it; all steps between
the two are halves of cycle members. -/
inductive Plan.Interim (name : String) : List PlanStep → Prop
  | intro {before between after : List PlanStep} {away home : PlanStep} (hawayNew : away.new = name)
      (haway : away.isTemp = true) (hhomeOld : home.old = name)
      (hbetween : ∀ step ∈ between, step.isTemp = true)
      (hothers : ∀ step ∈ before ++ between ++ home :: after, step.new ≠ name) :
      Interim name (before ++ away :: (between ++ home :: after))

theorem Plan.Interim.append_left {name : String} {steps : List PlanStep} (h : Interim name steps)
    {more : List PlanStep} (hmore : ∀ step ∈ more, step.new ≠ name) :
    Interim name (more ++ steps) := by
  obtain @⟨before, between, after, away, home, hawayNew, haway, hhomeOld, hbetween, hothers⟩ := h
  rw [← List.append_assoc]
  refine .intro hawayNew haway hhomeOld hbetween fun step hstep => ?_
  rw [List.append_assoc, List.append_assoc] at hstep
  rcases List.mem_append.mp hstep with hstep | hstep
  · exact hmore step hstep
  · exact hothers step (by rwa [List.append_assoc])

theorem Plan.Interim.append_right {name : String} {steps : List PlanStep} (h : Interim name steps)
    {more : List PlanStep} (hmore : ∀ step ∈ more, step.new ≠ name) :
    Interim name (steps ++ more) := by
  obtain @⟨before, between, after, away, home, hawayNew, haway, hhomeOld, hbetween, hothers⟩ := h
  rw [List.append_assoc, List.cons_append, List.append_assoc, List.cons_append]
  refine .intro hawayNew haway hhomeOld hbetween fun step hstep => ?_
  rw [← List.cons_append, ← List.append_assoc] at hstep
  rcases List.mem_append.mp hstep with hstep | hstep
  · exact hothers step hstep
  · exact hmore step hstep

/-- A direct step that does not take the name comes before the step that writes it or after the one
that takes it. -/
theorem Plan.Interim.cut {name : String} {done rest : List PlanStep} {step : PlanStep}
    (h : Interim name (done ++ step :: rest)) (hdirect : step.isTemp = false)
    (hold : step.old ≠ name) : (∀ other ∈ done, other.new ≠ name) ∨ Interim name done := by
  generalize hsteps : done ++ step :: rest = steps at h
  obtain @⟨before, between, after, away, home, hawayNew, haway, hhomeOld, hbetween, hothers⟩ := h
  rcases List.append_eq_append_iff.mp hsteps with ⟨more, rfl, -⟩ | ⟨more, rfl, hmore⟩
  · exact .inl fun other hother =>
      hothers other (List.mem_append_left _ (List.mem_append_left _ (List.mem_append_left _ hother)))
  · rcases List.cons_eq_append_iff.mp hmore with ⟨rfl, hhead⟩ | ⟨more, rfl, hbehind⟩
    · obtain ⟨rfl, _⟩ := List.cons.inj hhead
      rw [hdirect] at haway
      cases haway
    · rcases List.append_eq_append_iff.mp hbehind with ⟨last, rfl, hlast⟩ | ⟨last, rfl, hlast⟩
      · rcases List.cons_eq_append_iff.mp hlast with ⟨rfl, hhead⟩ | ⟨last, rfl, rfl⟩
        · obtain ⟨rfl, _⟩ := List.cons.inj hhead
          exact absurd hhomeOld hold
        · refine .inr (.intro hawayNew haway hhomeOld hbetween fun other hother => ?_)
          refine hothers other ?_
          rw [← List.cons_append, ← List.append_assoc]
          exact List.mem_append_left _ hother
      · rcases List.cons_eq_append_iff.mp hlast with ⟨rfl, hhead⟩ | ⟨last, rfl, _⟩
        · obtain ⟨rfl, _⟩ := List.cons.inj hhead
          exact absurd hhomeOld hold
        · have htemp := hbetween step (List.mem_append_right _ List.mem_cons_self)
          rw [hdirect] at htemp
          cases htemp

/-- Only one step writes the name. -/
theorem Plan.Interim.eq_of_new_eq {name : String} {steps : List PlanStep} (h : Interim name steps)
    {s t : PlanStep} (hs : s ∈ steps) (ht : t ∈ steps) (hsnew : s.new = name)
    (htnew : t.new = name) : s = t := by
  obtain @⟨before, between, after, away, home, _, _, _, _, hothers⟩ := h
  have hall : ∀ step ∈ before ++ away :: (between ++ home :: after), step.new = name →
      step = away := by
    intro step hstep hnew
    rcases List.mem_append.mp hstep with hstep | hstep
    · exact absurd hnew (hothers step (List.mem_append_left _ (List.mem_append_left _ hstep)))
    · refine (List.mem_cons.mp hstep).resolve_right fun hstep => hothers step ?_ hnew
      rw [List.append_assoc]
      exact List.mem_append_right _ hstep
  rw [hall s hs hsnew, hall t ht htnew]

/-- In the two passes over a cycle every temporary name is interim. -/
theorem Plan.interim_cycle {mappings : List Mapping} {pairs : List (Nat × String)}
    (hnodup : (pairs.map Prod.snd).Nodup) {p : Nat × String} (hp : p ∈ pairs)
    (hhome : ∀ step ∈ home mappings pairs, step.new ≠ p.2) :
    Interim p.2 (away mappings pairs ++ home mappings pairs) := by
  obtain ⟨front, back, rfl⟩ := List.append_of_mem hp
  have hdiffer : ∀ q ∈ front ++ back, q.2 ≠ p.2 := by
    intro q hq heq
    rw [List.map_append, List.map_cons, List.nodup_middle, List.nodup_cons, ← List.map_append]
      at hnodup
    exact hnodup.1 (heq ▸ List.mem_map_of_mem hq)
  have haway : ∀ step ∈ away mappings front ++ away mappings back, step.new ≠ p.2 := by
    intro step hstep
    rw [away, away, ← List.map_append] at hstep
    obtain ⟨q, hq, rfl⟩ := List.mem_map.mp hstep
    exact hdiffer q hq
  have hsplit : ∀ f : Nat × String → PlanStep, (front ++ p :: back).map f =
      front.map f ++ f p :: back.map f := fun f => by
    rw [List.map_append, List.map_cons]
  have hsteps : away mappings (front ++ p :: back) ++ home mappings (front ++ p :: back) =
      away mappings front ++ awayStep mappings p ::
        ((away mappings back ++ home mappings front) ++
          homeStep mappings p :: home mappings back) := by
    rw [away, home, hsplit, hsplit]
    simp [away, home]
  rw [hsteps]
  refine .intro rfl rfl rfl (fun step hstep => ?_) fun step hstep => ?_
  · rcases List.mem_append.mp hstep with hstep | hstep
    · obtain ⟨q, _, rfl⟩ := List.mem_map.mp hstep
      rfl
    · obtain ⟨q, _, rfl⟩ := List.mem_map.mp hstep
      rfl
  · rw [← List.append_assoc, List.append_assoc _ (home mappings front)] at hstep
    rcases List.mem_append.mp hstep with hstep | hstep
    · exact haway step hstep
    · refine hhome step ?_
      rw [home, hsplit]
      exact hstep

/-- A step writes a temporary name or a new name of the set. -/
theorem PlanStep.Belongs.new_mem {mappings : List Mapping} {temps : List String} {step : PlanStep}
    (h : step.Belongs mappings temps) : step.new ∈ temps ∨ step.new ∈ Plan.names mappings := by
  cases h with
  | direct hm => exact .inr (Plan.new_mem_names (List.mem_of_getElem? hm))
  | away _ htemp => exact .inl htemp
  | home hm _ => exact .inr (Plan.new_mem_names (List.mem_of_getElem? hm))

/-- Every temporary name is interim. -/
theorem Plan.Emission.Reached.interim {mappings : List Mapping} {taken : List String}
    {hash : String} {temps : List String} {e : Emission}
    (h : Reached mappings taken hash temps e) {name : String} (hname : name ∈ temps) :
    Interim name e.steps := by
  induction h with
  | start => simp at hname
  | @put temps e item h hready ih =>
    rw [(hready.put_eq hash).1]
    rcases List.mem_append.mp hname with hname | hname
    · obtain ⟨hold, hnames⟩ := h.namesFor_fresh hname
      refine .append_left ?_ fun step hstep heq => ?_
      · cases item with
        | mapping i => simp [namesFor] at hname
        | cycle id =>
          have hnodup : ((e.pairsFor mappings hash (.cycle id)).map Prod.snd).Nodup := by
            rw [map_snd_pairsFor]
            exact allocate_nodup hash _ _
          rw [← map_snd_pairsFor] at hname
          obtain ⟨p, hp, rfl⟩ := List.mem_map.mp hname
          refine interim_cycle hnodup hp fun step hstep heq => hnames ?_
          obtain ⟨q, hq, rfl⟩ := List.mem_map.mp hstep
          obtain ⟨m, hm⟩ := (hready.members (List.of_mem_zip hq).1).1
          have hnew : m.new ∈ names mappings := new_mem_names (List.mem_of_getElem? hm)
          rw [← heq]
          simpa [homeStep, hm] using hnew
      · rcases (h.belongs hstep).2.new_mem with hmem | hmem
        · exact hold (heq ▸ hmem)
        · exact hnames (heq ▸ hmem)
    · refine (ih hname).append_right fun step hstep heq => ?_
      rcases (hready.belongs hstep).2.new_mem with hmem | hmem
      · exact (h.namesFor_fresh hmem).1 (heq ▸ hname)
      · exact (h.temps_fresh hname).1 (heq ▸ hmem)

/-- Every name that a plan allocates is interim. -/
theorem Plan.interim_ofMappings {mappings : List Mapping} (hproper : ∀ m ∈ mappings, m.IsProper)
    (taken : List String) {name : String} (hname : name ∈ (ofMappings mappings taken).allocated) :
    Interim name (ofMappings mappings taken).steps := by
  obtain ⟨temps, e, hreached, hsteps, _⟩ := exists_reached_ofMappings mappings taken
  rw [hsteps]
  exact hreached.interim ((hreached.mem_allocated_iff hproper hsteps).mp hname)

end SymbolRename
