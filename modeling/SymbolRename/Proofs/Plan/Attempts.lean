import SymbolRename.Proofs.Plan.Interim
import SymbolRename.Proofs.Plan.Steps

/-!
# Steps that fail in one file

In one file any of the steps may fail and leave the names as they are. As long as no later
step that changes the names takes or writes one that a failed step left, a name only goes
where the steps of its own mapping take it, and names with different targets stay apart:
`Plan.Attempts.exists_apart`.
-/

namespace SymbolRename

/-! ### Names of single mappings -/

theorem Mapping.target_of_firstFor {mappings : List Mapping} {name : String} {i : Nat}
    {m : Mapping} (hfirst : firstFor mappings name = some i) (hm : mappings[i]? = some m) :
    target mappings name = m.new := by
  rw [target_eq, hfirst, Option.bind_some, hm]
  rfl

/-- A mapping is the first with one name only. -/
theorem Mapping.eq_of_firstFor {mappings : List Mapping} {x y : String} {i : Nat}
    (hx : firstFor mappings x = some i) (hy : firstFor mappings y = some i) : x = y := by
  obtain ⟨⟨m, hm, rfl⟩, _⟩ := firstFor_eq_some_iff.mp hx
  obtain ⟨⟨n, hn, rfl⟩, _⟩ := firstFor_eq_some_iff.mp hy
  obtain rfl := Option.some.inj (hm.symm.trans hn)
  rfl

/-- A name that moves has a first mapping. -/
theorem Mapping.exists_firstFor_of_target_ne {mappings : List Mapping} {name : String}
    (h : target mappings name ≠ name) : ∃ i m, firstFor mappings name = some i ∧
      mappings[i]? = some m ∧ m.old = name := by
  cases hfirst : firstFor mappings name with
  | none =>
    rw [target_eq, hfirst] at h
    exact absurd rfl h
  | some i =>
    obtain ⟨⟨m, hm, hold⟩, _⟩ := firstFor_eq_some_iff.mp hfirst
    exact ⟨i, m, rfl, hm, hold⟩

/-- What a step writes is a temporary name or the new name of its mapping. -/
theorem Plan.Sound.new_cases {mappings : List Mapping} {taken : List String} {p : Plan}
    (h : Sound mappings taken p) {step : PlanStep} (hstep : step ∈ p.steps) :
    step.new ∈ p.allocated ∨ ∃ m, mappings[step.origin]? = some m ∧ step.new = m.new := by
  cases h.belongs step hstep with
  | direct hm => exact .inr ⟨_, hm, rfl⟩
  | away hm htemp => exact .inl htemp
  | home hm htemp => exact .inr ⟨_, hm, rfl⟩

/-! ### Temporary names belong to one mapping -/

/-- The steps that write one temporary name belong to one mapping. -/
theorem Plan.origin_eq_of_new_eq {mappings : List Mapping} (hproper : ∀ m ∈ mappings, m.IsProper)
    (taken : List String) {s t : PlanStep} (hs : s ∈ (ofMappings mappings taken).steps)
    (ht : t ∈ (ofMappings mappings taken).steps)
    (hname : s.new ∈ (ofMappings mappings taken).allocated) (hsame : s.new = t.new) :
    s.origin = t.origin := by
  rw [(interim_ofMappings hproper taken hname).eq_of_new_eq hs ht rfl hsame.symm]

/-! ### Attempts -/

/-- What a step makes of a name. -/
def PlanStep.rename (step : PlanStep) (name : String) : String :=
  if name = step.old then step.new else name

theorem PlanStep.rename_old (step : PlanStep) : step.rename step.old = step.new := if_pos rfl

theorem PlanStep.rename_of_ne {step : PlanStep} {name : String} (h : name ≠ step.old) :
    step.rename name = name := if_neg h

theorem PlanStep.rename_ne_old {step : PlanStep} (h : step.old ≠ step.new) (name : String) :
    step.rename name ≠ step.old := by
  by_cases hname : name = step.old
  · rw [hname, rename_old]
    exact h.symm
  · rwa [rename_of_ne hname]

theorem PlanStep.map_rename_of_not_mem {step : PlanStep} {names : List String}
    (h : step.old ∉ names) : names.map step.rename = names := by
  refine (List.map_congr_left fun name hname => ?_).trans (List.map_id names)
  exact rename_of_ne fun heq => h (heq ▸ hname)

/-- A step keeps two names apart, unless it takes one of them to the other. -/
theorem PlanStep.rename_ne {step : PlanStep} {x y : String} (hne : x ≠ y)
    (hx : x = step.old → y ≠ step.new) (hy : y = step.old → x ≠ step.new) :
    step.rename x ≠ step.rename y := by
  by_cases hxold : x = step.old
  · have hyold : y ≠ step.old := fun heq => hne (hxold.trans heq.symm)
    rw [hxold, rename_old, rename_of_ne hyold]
    exact (hx hxold).symm
  · rw [rename_of_ne hxold]
    by_cases hyold : y = step.old
    · rw [hyold, rename_old]
      exact hy hyold
    · rwa [rename_of_ne hyold]

/-- A step that was tried in a file, with the names in the file before and after. -/
structure Plan.Attempt where
  step : PlanStep
  before : List String
  after : List String
deriving DecidableEq, Repr

/-- A later attempt that changes the names spares the one that an earlier attempt left: it
neither takes nor writes it. -/
def Plan.Attempt.SparedBy (a b : Attempt) : Prop :=
  a.step.old ∈ a.after → b.after ≠ b.before → b.step.old ≠ a.step.old ∧ b.step.new ≠ a.step.old

instance (a b : Plan.Attempt) : Decidable (a.SparedBy b) := by
  unfold Plan.Attempt.SparedBy
  infer_instance

/-- The attempts at the steps in a file, and the names that they make of the original ones:
an attempt fails and leaves the names, or it is carried out. -/
inductive Plan.Attempts (original : List String) : List Attempt → List String → Prop
  | start : Attempts original [] original
  | failed {done : List Attempt} {names : List String} (h : Attempts original done names)
      (step : PlanStep) : Attempts original (done ++ [⟨step, names, names⟩]) names
  | carried {done : List Attempt} {names : List String} (h : Attempts original done names)
      (step : PlanStep) :
      Attempts original (done ++ [⟨step, names, names.map step.rename⟩]) (names.map step.rename)

/-- Where a name stands after some attempts: it was kept by all of them, or a step of its own
mapping moved it. -/
inductive Plan.Stands (mappings : List Mapping) (done : List Attempt) (name : String) :
    String → Prop
  | kept (hleft : ∀ a ∈ done, name ∈ a.after) : Stands mappings done name name
  | moved {a : Attempt} (ha : a ∈ done)
      (hfirst : Mapping.firstFor mappings name = some a.step.origin) :
      Stands mappings done name a.step.new

/-- A name stands where it did when one more attempt leaves it there. -/
theorem Plan.Stands.concat {mappings : List Mapping} {done : List Attempt}
    {name current : String} (h : Stands mappings done name current) {a : Attempt}
    (ha : current ∈ a.after) : Stands mappings (done ++ [a]) name current := by
  cases h with
  | kept hleft =>
    refine .kept fun b hb => ?_
    rcases List.mem_append.mp hb with hb | hb
    · exact hleft b hb
    · obtain rfl := List.mem_singleton.mp hb
      exact ha
  | moved hb hfirst => exact .moved (List.mem_append_left _ hb) hfirst

/-- When one more attempt is carried out, a name stands where its step takes it. -/
theorem Plan.Stands.carried {mappings : List Mapping} {done : List Attempt}
    {name current : String} (h : Stands mappings done name current) {step : PlanStep}
    {names : List String} (hmem : current ∈ names)
    (hfirst : current = step.old → Mapping.firstFor mappings name = some step.origin) :
    Stands mappings (done ++ [⟨step, names, names.map step.rename⟩]) name
      (step.rename current) := by
  by_cases hold : current = step.old
  · rw [hold, PlanStep.rename_old]
    exact .moved (a := ⟨step, names, names.map step.rename⟩)
      (List.mem_append_right _ (List.mem_singleton.mpr rfl)) (hfirst hold)
  · have hkept : step.rename current = current := PlanStep.rename_of_ne hold
    rw [hkept]
    refine h.concat ?_
    have hrenamed := List.mem_map_of_mem (f := step.rename) hmem
    rwa [hkept] at hrenamed

section

variable {mappings : List Mapping} {taken : List String} {p : Plan}
  {done : List Plan.Attempt} {step : PlanStep} {after : List PlanStep}

/-- A step whose name no failed step left takes the names of its own mapping only. -/
theorem Plan.Safe.firstFor_of_stands (hsafe : Safe mappings p)
    (hsplit : p.steps = done.map (·.step) ++ step :: after)
    (hspared : ∀ a ∈ done, a.step.old ∈ a.after → step.old ≠ a.step.old) {name : String}
    (hname : name ∉ p.allocated) (hstands : Stands mappings done name step.old) :
    Mapping.firstFor mappings name = some step.origin := by
  generalize hcurrent : step.old = current at hstands
  cases hstands with
  | kept hleft =>
    refine (hsafe.picks _ _ _ hsplit name hname).mp ?_
    rw [List.nil_append, hcurrent]
    -- A step that could have taken the name away would have left it.
    refine replay_eq_self fun other hother heq => ?_
    obtain ⟨a, ha, rfl⟩ := List.mem_map.mp hother
    exact hspared a ha (heq ▸ hleft a ha) (hcurrent.trans heq.symm)
  | @moved a ha hfirst =>
    have hpairwise := hsafe.pairwise
    rw [hsplit] at hpairwise
    have hprecedes : a.step.Precedes step :=
      (List.pairwise_append.mp hpairwise).2.2 _ (List.mem_map_of_mem ha) _ List.mem_cons_self
    rw [hfirst, hprecedes.1.mp hcurrent.symm]

/-- A step that writes a name which stands in the file already takes its own name to the
target of that one, if no failed step left it. -/
theorem Plan.Safe.target_eq_of_stands (hsafe : Safe mappings p) (hsound : Sound mappings taken p)
    (hproper : ∀ m ∈ mappings, m.IsProper)
    (hsplit : p.steps = done.map (·.step) ++ step :: after)
    (horigin : ∀ s ∈ p.steps, s.new ∈ p.allocated → s.new = step.new → s.origin = step.origin)
    (hspared : ∀ a ∈ done, a.step.old ∈ a.after → step.new ≠ a.step.old) {x y : String}
    (hx : Mapping.firstFor mappings x = some step.origin) (hy : y ∉ p.allocated)
    (hstands : Stands mappings done y step.new) :
    Mapping.target mappings x = Mapping.target mappings y := by
  have hstep : step ∈ p.steps := hsplit ▸ List.mem_append_right _ List.mem_cons_self
  have hsame : ∀ {i}, Mapping.firstFor mappings y = some i → i = step.origin →
      Mapping.target mappings x = Mapping.target mappings y := by
    rintro i hfirst rfl
    rw [Mapping.eq_of_firstFor hx hfirst]
  generalize hcurrent : step.new = current at hstands
  cases hstands with
  | kept hleft =>
    obtain ⟨m, hm, hnew⟩ := (hsound.new_cases hstep).resolve_left (hcurrent ▸ hy)
    by_contra hne
    have hmoves : Mapping.target mappings y ≠ y := by
      rw [Mapping.target_of_firstFor hx hm, ← hnew, hcurrent] at hne
      exact fun heq => hne heq.symm
    obtain ⟨i, n, hfirst, hn, rfl⟩ := Mapping.exists_firstFor_of_target_ne hmoves
    obtain ⟨_, other, _, hother, horigin, hold, _⟩ := hsafe.exists_step hsound hproper hn hfirst
    have hother : other ∈ p.steps := hother ▸ List.mem_append_right _ List.mem_cons_self
    -- The step that takes this name away comes earlier, so it has left the name.
    rw [hsplit] at hother
    rcases List.mem_append.mp hother with hother | hother
    · obtain ⟨a, ha, rfl⟩ := List.mem_map.mp hother
      exact hspared a ha (hold ▸ hleft a ha) (hcurrent.trans hold.symm)
    rcases List.mem_cons.mp hother with rfl | hother
    · exact (hsound.proper hproper hstep).2.2 (hold.trans hcurrent.symm)
    · have hpairwise := hsafe.pairwise
      rw [hsplit] at hpairwise
      have hprecedes : step.Precedes other :=
        List.rel_of_pairwise_cons (List.pairwise_append.mp hpairwise).2.1 hother
      exact hne (hsame hfirst (horigin.symm.trans (hprecedes.1.mp (hcurrent.trans hold.symm)).symm))
  | @moved a ha hfirst =>
    have hearlier : a.step ∈ p.steps := hsplit ▸ List.mem_append_left _ (List.mem_map_of_mem ha)
    rcases hsound.new_cases hearlier with htemp | ⟨n, hn, hnnew⟩
    · exact hsame hfirst (horigin _ hearlier htemp hcurrent.symm)
    · rcases hsound.new_cases hstep with htemp | ⟨m, hm, hmnew⟩
      · rw [hcurrent, hnnew] at htemp
        exact absurd (new_mem_names (List.mem_of_getElem? hn)) (hsound.fresh _ htemp).1
      · rw [Mapping.target_of_firstFor hx hm, Mapping.target_of_firstFor hfirst hn, ← hmnew,
          ← hnnew, hcurrent]

end

/-- Names with different targets stay apart in a file in which any of the first steps of a
plan fail, as long as later steps spare the names that failed ones left. The induction is on
the attempts; it keeps where every original name stands. -/
theorem Plan.Attempts.exists_apart {mappings : List Mapping} {taken : List String}
    (hproper : ∀ m ∈ mappings, m.IsProper) (hamb : ambiguitiesOf mappings = [])
    {original names : List String} {done : List Attempt} (h : Attempts original done names)
    (hsteps : done.map (·.step) <+: (ofMappings mappings taken).steps)
    (hspared : done.Pairwise Attempt.SparedBy)
    (hnew : ∀ name ∈ original, name ∉ (ofMappings mappings taken).allocated) :
    ∃ current : String → String, names = original.map current ∧
      (∀ x ∈ original, Stands mappings done x (current x)) ∧
      ∀ x ∈ original, ∀ y ∈ original,
        Mapping.target mappings x ≠ Mapping.target mappings y → current x ≠ current y := by
  have hsafe := safe_ofMappings hproper taken hamb
  have hsound := sound_ofMappings hproper taken
  induction h with
  | start =>
    refine ⟨id, (List.map_id _).symm, fun x _ => .kept fun a ha => absurd ha List.not_mem_nil, ?_⟩
    intro x _ y _ hne heq
    exact hne (congrArg _ heq)
  | @failed done names h step ih =>
    rw [List.map_append] at hsteps
    obtain ⟨current, rfl, hstands, hapart⟩ :=
      ih ((List.prefix_append _ _).trans hsteps) (List.pairwise_append.mp hspared).1
    exact ⟨current, rfl, fun x hx => (hstands x hx).concat (List.mem_map_of_mem hx), hapart⟩
  | @carried done names h step ih =>
    rw [List.map_append] at hsteps
    obtain ⟨current, rfl, hstands, hapart⟩ :=
      ih ((List.prefix_append _ _).trans hsteps) (List.pairwise_append.mp hspared).1
    obtain ⟨after, hsplit⟩ := hsteps
    rw [List.append_assoc] at hsplit
    have hsplit : (ofMappings mappings taken).steps = done.map (·.step) ++ step :: after :=
      hsplit.symm
    have hstep : step ∈ (ofMappings mappings taken).steps :=
      hsplit ▸ List.mem_append_right _ List.mem_cons_self
    have hne : step.old ≠ step.new := (hsound.proper hproper hstep).2.2
    by_cases hold : step.old ∈ original.map current
    · -- The attempt changes the names, so it spares what earlier ones left.
      have hchanges : (original.map current).map step.rename ≠ original.map current := by
        intro heq
        obtain ⟨name, _, hname⟩ := List.mem_map.mp (heq ▸ hold)
        exact PlanStep.rename_ne_old hne name hname
      have hspares : ∀ a ∈ done, a.step.old ∈ a.after →
          step.old ≠ a.step.old ∧ step.new ≠ a.step.old := fun a ha hleft =>
        (List.pairwise_append.mp hspared).2.2 a ha _ (List.mem_singleton.mpr rfl) hleft hchanges
      have hfirst : ∀ x ∈ original, current x = step.old →
          Mapping.firstFor mappings x = some step.origin := fun x hx hcurrent =>
        hsafe.firstFor_of_stands hsplit (fun a ha hleft => (hspares a ha hleft).1) (hnew x hx)
          (hcurrent ▸ hstands x hx)
      have hmeets : ∀ x ∈ original, ∀ y ∈ original, current x = step.old → current y = step.new →
          Mapping.target mappings x = Mapping.target mappings y := by
        intro x hx y hy hxold hynew
        refine hsafe.target_eq_of_stands hsound hproper hsplit ?_
          (fun a ha hleft => (hspares a ha hleft).2) (hfirst x hx hxold) (hnew y hy)
          (hynew ▸ hstands y hy)
        exact fun s hs htemp hsame => origin_eq_of_new_eq hproper taken hs hstep htemp hsame
      refine ⟨step.rename ∘ current, List.map_map, fun x hx => ?_, fun x hx y hy htargets => ?_⟩
      · exact (hstands x hx).carried (List.mem_map_of_mem hx) (hfirst x hx)
      · exact PlanStep.rename_ne (hapart x hx y hy htargets)
          (fun hxold hynew => htargets (hmeets x hx y hy hxold hynew))
          (fun hyold hxnew => htargets (hmeets y hy x hx hyold hxnew).symm)
    · rw [PlanStep.map_rename_of_not_mem hold]
      exact ⟨current, rfl, fun x hx => (hstands x hx).concat (List.mem_map_of_mem hx), hapart⟩

end SymbolRename
