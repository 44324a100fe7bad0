import SymbolRename.Proofs.Plan.Cycles
import SymbolRename.Proofs.Plan.Dependencies

/-!
# The order of emission

A plan emits a mapping after what it depends on, and a cycle at once. `Emission.Reached`
lists the emissions that arise from putting ready items one after the other; the
recursive visits of the planner only ever put ready items, and emit every mapping.
-/

namespace SymbolRename

/-- The old and new names of a mapping set. -/
def Plan.names (mappings : List Mapping) : List String := mappings.flatMap fun m => [m.old, m.new]

theorem Plan.old_mem_names {mappings : List Mapping} {m : Mapping} (h : m ∈ mappings) :
    m.old ∈ names mappings := List.mem_flatMap.mpr ⟨m, h, by simp⟩

theorem Plan.new_mem_names {mappings : List Mapping} {m : Mapping} (h : m ∈ mappings) :
    m.new ∈ names mappings := List.mem_flatMap.mpr ⟨m, h, by simp⟩

/-- The half of a cycle member that leads to its temporary name. -/
def Plan.awayStep (mappings : List Mapping) (p : Nat × String) : PlanStep :=
  ⟨(mappings[p.1]?.getD ⟨"", ""⟩).old, p.2, p.1, true⟩

/-- The half of a cycle member that leads from its temporary name to its new name. -/
def Plan.homeStep (mappings : List Mapping) (p : Nat × String) : PlanStep :=
  ⟨p.2, (mappings[p.1]?.getD ⟨"", ""⟩).new, p.1, true⟩

/-- The first pass over a cycle. -/
def Plan.away (mappings : List Mapping) (pairs : List (Nat × String)) : List PlanStep :=
  pairs.map (awayStep mappings)

/-- The second pass over a cycle. -/
def Plan.home (mappings : List Mapping) (pairs : List (Nat × String)) : List PlanStep :=
  pairs.map (homeStep mappings)

/-- A mapping comes in its turn, or because another depends on it. -/
def Plan.Emission.HasTurn (mappings : List Mapping) (e : Emission) (i : Nat) : Prop :=
  (∀ k < i, k ∈ e.emitted) ∨ ∃ p, next? (dependencies mappings) p = some i

/-- An item that can be put: a mapping outside all cycles whose dependency is emitted, or
a cycle of which nothing is emitted. -/
inductive Plan.Emission.Ready (mappings : List Mapping) (e : Emission) : Pending → Prop
  | mapping {i : Nat} (hlt : i < mappings.length) (hnew : i ∉ e.emitted)
      (hopen : ¬ Returns (dependencies mappings) i)
      (hnext : ∀ j, next? (dependencies mappings) i = some j → j ∈ e.emitted)
      (hturn : e.HasTurn mappings i) : Ready mappings e (.mapping i)
  | cycle {id : Nat} {members : List Nat}
      (hid : (cyclesOf (dependencies mappings))[id]? = some members)
      (hnew : ∀ i ∈ members, i ∉ e.emitted) : Ready mappings e (.cycle id)

/-- The temporary names that putting an item allocates. -/
def Plan.Emission.namesFor (mappings : List Mapping) (hash : String) (e : Emission) :
    Pending → List String
  | .mapping _ => []
  | .cycle id => allocate hash e.used (((cyclesOf (dependencies mappings))[id]?).getD [])

/-- The emissions that arise from ready items, with all temporary names so far. -/
inductive Plan.Emission.Reached (mappings : List Mapping) (taken : List String) (hash : String) :
    List String → Emission → Prop
  | start : Reached mappings taken hash [] { used := names mappings ++ taken }
  | put {temps : List String} {e : Emission} {item : Pending}
      (h : Reached mappings taken hash temps e) (hready : e.Ready mappings item) :
      Reached mappings taken hash (e.namesFor mappings hash item ++ temps)
        (e.put mappings (cyclesOf (dependencies mappings)) hash item)

/-! ### Putting one item -/

/-- Putting a mapping adds its direct step. -/
theorem Plan.Emission.put_mapping {mappings : List Mapping} {cycles : List (List Nat)}
    {hash : String} {i : Nat} {m : Mapping} (e : Emission) (hm : mappings[i]? = some m) :
    e.put mappings cycles hash (.mapping i) =
      { e with steps := e.steps ++ [⟨m.old, m.new, i, false⟩], emitted := i :: e.emitted } := by
  simp [put, hm]

/-- Putting a cycle adds both passes over its members. -/
theorem Plan.Emission.put_cycle {mappings : List Mapping} {cycles : List (List Nat)}
    {hash : String} {id : Nat} {members : List Nat} (e : Emission)
    (hid : cycles[id]? = some members) :
    e.put mappings cycles hash (.cycle id) =
      { steps := e.steps ++ away mappings (members.zip (allocate hash e.used members)) ++
          home mappings (members.zip (allocate hash e.used members))
        emitted := members ++ e.emitted
        cycles := id :: e.cycles
        used := allocate hash e.used members ++ e.used } := by
  simp only [put, hid]
  rfl

/-- What is emitted stays emitted. -/
theorem Plan.Emission.emitted_subset_put {mappings : List Mapping} {cycles : List (List Nat)}
    {hash : String} (e : Emission) (item : Pending) :
    e.emitted ⊆ (e.put mappings cycles hash item).emitted := by
  cases item with
  | mapping i =>
    cases hm : mappings[i]? with
    | none => simp [put, hm]
    | some m =>
      rw [put_mapping e hm]
      exact List.subset_cons_self i e.emitted
  | cycle id =>
    cases hid : cycles[id]? with
    | none => simp [put, hid]
    | some members =>
      rw [put_cycle e hid]
      exact List.subset_append_right members e.emitted

/-! ### What every reached emission keeps -/

/-- What has been emitted, seen apart from the steps: it is closed under dependencies,
and a cycle is emitted as a whole. -/
structure Plan.Emission.Closed (mappings : List Mapping) (e : Emission) : Prop where
  next : ∀ i ∈ e.emitted, ∀ j, next? (dependencies mappings) i = some j → j ∈ e.emitted
  whole : ∀ members ∈ cyclesOf (dependencies mappings),
    (∀ i ∈ members, i ∈ e.emitted) ∨ ∀ i ∈ members, i ∉ e.emitted
  listed : ∀ id ∈ e.cycles, ∀ members, (cyclesOf (dependencies mappings))[id]? = some members →
    ∀ i ∈ members, i ∈ e.emitted

/-- Putting a ready item keeps the emitted mappings closed. -/
theorem Plan.Emission.Closed.put {mappings : List Mapping} {e : Emission} {item : Pending}
    (h : e.Closed mappings) (hready : e.Ready mappings item) (hash : String) :
    (e.put mappings (cyclesOf (dependencies mappings)) hash item).Closed mappings := by
  cases hready with
  | @mapping i hlt hnew hopen hnext hturn =>
    rw [put_mapping e (List.getElem?_eq_getElem hlt)]
    constructor
    · intro k hk j hj
      rcases List.mem_cons.mp hk with rfl | hk
      · exact List.mem_cons_of_mem _ (hnext j hj)
      · exact List.mem_cons_of_mem _ (h.next k hk j hj)
    · intro members hmembers
      rcases h.whole members hmembers with hall | hnone
      · exact .inl fun k hk => List.mem_cons_of_mem _ (hall k hk)
      · refine .inr fun k hk hmem => ?_
        rcases List.mem_cons.mp hmem with rfl | hmem
        · exact hopen (returns_of_mem_cycle hmembers hk)
        · exact hnone k hk hmem
    · intro id hid members hmembers k hk
      exact List.mem_cons_of_mem _ (h.listed id hid members hmembers k hk)
  | @cycle id members hid hnew =>
    have hcycle := List.mem_of_getElem? hid
    rw [put_cycle e hid]
    constructor
    · intro k hk j hj
      rcases List.mem_append.mp hk with hk | hk
      · exact List.mem_append_left _ (mem_cycle_of_leadsTo hcycle hk (.of_next? hj))
      · exact List.mem_append_right _ (h.next k hk j hj)
    · intro other hother
      rcases h.whole other hother with hall | hnone
      · exact .inl fun k hk => List.mem_append_right _ (hall k hk)
      · by_cases hcommon : ∃ k ∈ other, k ∈ members
        · obtain ⟨k, hko, hkm⟩ := hcommon
          obtain rfl := cycle_eq_of_mem hother hcycle hko hkm
          exact .inl fun k hk => List.mem_append_left _ hk
        · refine .inr fun k hk hmem => ?_
          rcases List.mem_append.mp hmem with hmem | hmem
          · exact hcommon ⟨k, hk, hmem⟩
          · exact hnone k hk hmem
    · intro other hother found hfound k hk
      rcases List.mem_cons.mp hother with rfl | hother
      · obtain rfl := Option.some.inj (hid.symm.trans hfound)
        exact List.mem_append_left _ hk
      · exact List.mem_append_right _ (h.listed other hother found hfound k hk)

theorem Plan.Emission.Reached.closed {mappings : List Mapping} {taken : List String}
    {hash : String} {temps : List String} {e : Emission}
    (h : Reached mappings taken hash temps e) : e.Closed mappings := by
  induction h with
  | start => exact ⟨fun i hi => by simp at hi, fun _ _ => .inr fun i _ hi => by simp at hi,
      fun id hid => by simp at hid⟩
  | put _ hready ih => exact ih.put hready hash

/-! ### The visits of the planner -/

/-- Following dependencies ends, or meets a cycle, in fewer steps than there are
mappings: otherwise some mapping would be met twice before. -/
theorem Plan.exists_end_of_path {mappings : List Mapping} {i : Nat} (hi : i < mappings.length) :
    ∃ count < mappings.length, ∃ j, follow (dependencies mappings) count i = some j ∧
      (Returns (dependencies mappings) j ∨ next? (dependencies mappings) j = none) := by
  by_contra hnever
  have hgoes : ∀ count < mappings.length, ∀ j, follow (dependencies mappings) count i = some j →
      ¬ Returns (dependencies mappings) j ∧ next? (dependencies mappings) j ≠ none := by
    intro count hcount j hj
    constructor
    · exact fun hreturns => hnever ⟨count, hcount, j, hj, .inl hreturns⟩
    · exact fun hnone => hnever ⟨count, hcount, j, hj, .inr hnone⟩
  have hmet : ∀ count ≤ mappings.length, ∃ j < mappings.length,
      follow (dependencies mappings) count i = some j := by
    intro count
    induction count with
    | zero => exact fun _ => ⟨i, hi, rfl⟩
    | succ count ih =>
      intro hcount
      obtain ⟨j, _, hj⟩ := ih (Nat.le_of_succ_le hcount)
      obtain ⟨k, hk⟩ := Option.ne_none_iff_exists'.mp (hgoes count hcount j hj).2
      exact ⟨k, next?_lt hk, by rw [follow_succ, hj, Option.bind_some, hk]⟩
  have hdistinct : ∀ a b, a < b → b ≤ mappings.length →
      follow (dependencies mappings) a i ≠ follow (dependencies mappings) b i := by
    intro a b hab hb hsame
    obtain ⟨j, _, hj⟩ := hmet a (by omega)
    obtain ⟨period, rfl⟩ := Nat.exists_eq_add_of_lt hab
    rw [hj, Nat.add_assoc, follow_add, hj, Option.bind_some] at hsame
    exact (hgoes a (by omega) j hj).1 ⟨period + 1, by omega, hsame.symm⟩
  let met := (List.range (mappings.length + 1)).map fun count =>
    (follow (dependencies mappings) count i).getD 0
  have hnodup : met.Nodup := by
    refine List.Nodup.map_on (fun a ha b hb hsame => ?_) List.nodup_range
    obtain ⟨j, _, hj⟩ := hmet a (Nat.le_of_lt_succ (List.mem_range.mp ha))
    obtain ⟨k, _, hk⟩ := hmet b (Nat.le_of_lt_succ (List.mem_range.mp hb))
    have hjk : j = k := by simpa [hj, hk] using hsame
    rcases Nat.lt_trichotomy a b with hlt | heq | hgt
    · exact absurd (by rw [hj, hk, hjk]) (hdistinct a b hlt (Nat.le_of_lt_succ (List.mem_range.mp hb)))
    · exact heq
    · exact absurd (by rw [hj, hk, hjk]) (hdistinct b a hgt (Nat.le_of_lt_succ (List.mem_range.mp ha)))
  have hsub : met ⊆ List.range mappings.length := by
    intro j hj
    obtain ⟨count, hcount, rfl⟩ := List.mem_map.mp hj
    obtain ⟨k, hk, hfollow⟩ := hmet count (Nat.le_of_lt_succ (List.mem_range.mp hcount))
    simpa [hfollow] using hk
  have hle := hnodup.length_le_of_subset hsub
  simp only [met, List.length_map, List.length_range] at hle
  omega

/-- The cycle that the planner looks up for a mapping holds it. -/
theorem Plan.mem_of_findIdx?_eq_some {cycles : List (List Nat)} {i id : Nat}
    (h : cycles.findIdx? (·.contains i) = some id) :
    ∃ members, cycles[id]? = some members ∧ i ∈ members := by
  obtain ⟨hlt, hcontains, _⟩ := List.findIdx?_eq_some_iff_getElem.mp h
  exact ⟨_, List.getElem?_eq_getElem hlt, List.contains_iff_mem.mp hcontains⟩

theorem Plan.findIdx?_eq_none_of_not_returns {dependsOn : List (Option Nat)} {i : Nat}
    (h : ¬ Returns dependsOn i) : (cyclesOf dependsOn).findIdx? (·.contains i) = none := by
  refine List.findIdx?_eq_none_iff.mpr fun members hmembers => ?_
  refine Bool.eq_false_iff.mpr fun hcontains => h ?_
  exact returns_of_mem_cycle hmembers (List.contains_iff_mem.mp hcontains)

/-- What is emitted after the prerequisites of mapping `i` were put one after the other:
the emission was reached, and nothing came but what `i` leads to. -/
structure Plan.Emission.Visited (mappings : List Mapping) (taken : List String) (hash : String)
    (e e' : Emission) (i : Nat) : Prop where
  reached : ∃ temps, Reached mappings taken hash temps e'
  self : i ∈ e'.emitted
  kept : e.emitted ⊆ e'.emitted
  only : ∀ k ∈ e'.emitted, k ∈ e.emitted ∨ LeadsTo (dependencies mappings) i k

theorem Plan.Emission.Visited.of_emitted {mappings : List Mapping} {taken : List String}
    {hash : String} {temps : List String} {e : Emission}
    (h : Reached mappings taken hash temps e) {i : Nat} (hi : i ∈ e.emitted) :
    Visited mappings taken hash e e i :=
  ⟨⟨temps, h⟩, hi, List.Subset.refl _, fun _ hk => .inl hk⟩

/-- Putting the cycle of a mapping that is not emitted yet. -/
theorem Plan.Emission.Visited.put_cycle {mappings : List Mapping} {taken : List String}
    {hash : String} {temps : List String} {e : Emission}
    (h : Reached mappings taken hash temps e) {i id : Nat} {members : List Nat}
    (hid : (cyclesOf (dependencies mappings))[id]? = some members) (hi : i ∈ members)
    (hnew : i ∉ e.emitted) :
    Visited mappings taken hash e
      (e.put mappings (cyclesOf (dependencies mappings)) hash (.cycle id)) i := by
  have hcycle := List.mem_of_getElem? hid
  have hnone : ∀ k ∈ members, k ∉ e.emitted := by
    rcases h.closed.whole members hcycle with hall | hnone
    · exact absurd (hall i hi) hnew
    · exact hnone
  refine ⟨⟨_, h.put (.cycle hid hnone)⟩, ?_, emitted_subset_put e _, ?_⟩
  · rw [Emission.put_cycle e hid]
    exact List.mem_append_left _ hi
  · intro k hk
    rw [Emission.put_cycle e hid] at hk
    rcases List.mem_append.mp hk with hk | hk
    · exact .inr (leadsTo_of_mem_cycle hcycle hi hk)
    · exact .inl hk

/-- Putting a mapping after what it depends on. -/
theorem Plan.Emission.Visited.put_mapping {mappings : List Mapping} {taken : List String}
    {hash : String} {temps : List String} {e : Emission}
    (h : Reached mappings taken hash temps e) {i : Nat} (hi : i < mappings.length)
    (hnew : i ∉ e.emitted) (hopen : ¬ Returns (dependencies mappings) i)
    (hnext : ∀ j, next? (dependencies mappings) i = some j → j ∈ e.emitted)
    (hturn : e.HasTurn mappings i) :
    Visited mappings taken hash e
      (e.put mappings (cyclesOf (dependencies mappings)) hash (.mapping i)) i := by
  refine ⟨⟨_, h.put (.mapping hi hnew hopen hnext hturn)⟩, ?_, emitted_subset_put e _, ?_⟩
  · rw [Emission.put_mapping e (List.getElem?_eq_getElem hi)]
    exact List.mem_cons_self
  · intro k hk
    rw [Emission.put_mapping e (List.getElem?_eq_getElem hi)] at hk
    rcases List.mem_cons.mp hk with rfl | hk
    · exact .inr ⟨0, rfl⟩
    · exact .inl hk

/-- What a dependency put before a mapping comes within the visit of the mapping. -/
theorem Plan.Emission.Visited.trans {mappings : List Mapping} {taken : List String}
    {hash : String} {e e' e'' : Emission} {i j : Nat}
    (h : Visited mappings taken hash e e' j) (hij : LeadsTo (dependencies mappings) i j)
    (h' : Visited mappings taken hash e' e'' i) : Visited mappings taken hash e e'' i := by
  refine ⟨h'.reached, h'.self, List.Subset.trans h.kept h'.kept, fun k hk => ?_⟩
  rcases h'.only k hk with hk | hk
  · exact (h.only k hk).imp_right hij.trans
  · exact .inr hk

/-- A mapping that has its turn keeps it while more is emitted. -/
theorem Plan.Emission.HasTurn.mono {mappings : List Mapping} {e e' : Emission} {i : Nat}
    (h : e.HasTurn mappings i) (hsub : e.emitted ⊆ e'.emitted) : e'.HasTurn mappings i :=
  h.imp_left fun hall k hk => hsub (hall k hk)

/-- A chain stops at a mapping that is emitted or belongs to a cycle. -/
theorem Plan.Emission.Reached.put_last {mappings : List Mapping} {taken : List String}
    {hash : String} {temps : List String} {e : Emission}
    (h : Reached mappings taken hash temps e) (count : Nat) {i : Nat}
    (hi : i ∈ e.emitted ∨ Returns (dependencies mappings) i) :
    Visited mappings taken hash e
      ((prerequisites (dependencies mappings)
        (fun m => (cyclesOf (dependencies mappings)).findIdx? (·.contains m)) e (count + 1)
          i).reverse.foldl
          (Emission.put mappings (cyclesOf (dependencies mappings)) hash) e) i := by
  by_cases hmem : i ∈ e.emitted
  · have hnone : prerequisites (dependencies mappings)
        (fun m => (cyclesOf (dependencies mappings)).findIdx? (·.contains m)) e (count + 1) i = [] := by
      simp [prerequisites, hmem]
    rw [hnone]
    exact .of_emitted h hmem
  · obtain ⟨members, hmembers, him⟩ := (hi.resolve_left hmem).exists_cycle
    obtain ⟨id, hid⟩ : ∃ id, (cyclesOf (dependencies mappings)).findIdx? (·.contains i) = some id := by
      refine Option.isSome_iff_exists.mp (List.findIdx?_isSome.trans ?_)
      exact List.any_eq_true.mpr ⟨members, hmembers, List.contains_iff_mem.mpr him⟩
    obtain ⟨found, hfound, hif⟩ := mem_of_findIdx?_eq_some hid
    have hfresh : id ∉ e.cycles := fun hid => hmem (h.closed.listed id hid found hfound i hif)
    have hone : prerequisites (dependencies mappings)
        (fun m => (cyclesOf (dependencies mappings)).findIdx? (·.contains m)) e (count + 1) i =
          [.cycle id] := by
      simp only [prerequisites, List.contains_iff_mem, hmem, if_false, hid, hfresh]
    rw [hone]
    exact .put_cycle h hfound hif hmem

/-- Putting the prerequisites of a mapping, farthest first, puts ready items only and
emits the mapping. The induction is on the number of dependencies up to the end of the
chain or its first member in a cycle. -/
theorem Plan.Emission.Reached.put_prerequisites {mappings : List Mapping} {taken : List String}
    {hash : String} {temps : List String} {e : Emission}
    (h : Reached mappings taken hash temps e) {steps count i j : Nat}
    (hi : i < mappings.length) (hturn : e.HasTurn mappings i) (hcount : steps < count)
    (hfollow : follow (dependencies mappings) steps i = some j)
    (hend : Returns (dependencies mappings) j ∨ next? (dependencies mappings) j = none) :
    Visited mappings taken hash e
      ((prerequisites (dependencies mappings)
        (fun m => (cyclesOf (dependencies mappings)).findIdx? (·.contains m)) e count i).reverse.foldl
          (Emission.put mappings (cyclesOf (dependencies mappings)) hash) e) i := by
  induction steps generalizing i count with
  | zero =>
    obtain ⟨rest, rfl⟩ := Nat.exists_eq_add_of_lt hcount
    obtain rfl : i = j := Option.some.inj hfollow
    by_cases hlast : i ∈ e.emitted ∨ Returns (dependencies mappings) i
    · exact h.put_last _ hlast
    · obtain ⟨hnew, hopen⟩ := not_or.mp hlast
      have hnone := hend.resolve_left hopen
      have hfree := findIdx?_eq_none_of_not_returns hopen
      simp only [prerequisites, List.contains_iff_mem, hnew, if_false, hfree, hnone,
        List.reverse_singleton, List.foldl_cons, List.foldl_nil]
      exact .put_mapping h hi hnew hopen (fun j hj => by simp [hnone] at hj) hturn
  | succ steps ih =>
    obtain ⟨rest, rfl⟩ := Nat.exists_eq_add_of_lt hcount
    by_cases hlast : i ∈ e.emitted ∨ Returns (dependencies mappings) i
    · exact h.put_last _ hlast
    · obtain ⟨hnew, hopen⟩ := not_or.mp hlast
      have hfree := findIdx?_eq_none_of_not_returns hopen
      obtain ⟨k, hk, hfollow⟩ := Option.bind_eq_some_iff.mp hfollow
      have hrest : steps < steps + 1 + rest := by omega
      have hvisit := ih (next?_lt hk) (.inr ⟨i, hk⟩) hrest hfollow
      obtain ⟨temps', hreached⟩ := hvisit.reached
      simp only [prerequisites, List.contains_iff_mem, hnew, if_false, hfree, hk,
        List.reverse_cons, List.foldl_append, List.foldl_cons, List.foldl_nil]
      refine .trans hvisit (.of_next? hk) (.put_mapping hreached hi ?_ hopen ?_ ?_)
      · intro hmem
        rcases hvisit.only i hmem with hmem | hback
        · exact hnew hmem
        · obtain ⟨more, hmore⟩ := hback
          exact hopen ⟨more + 1, Nat.succ_pos more, by simp [follow, hk, hmore]⟩
      · intro k' hk'
        obtain rfl := Option.some.inj (hk.symm.trans hk')
        exact hvisit.self
      · exact hturn.mono hvisit.kept

/-- A visit emits its mapping, when all mappings before it are emitted. -/
theorem Plan.Emission.Reached.visit {mappings : List Mapping} {taken : List String}
    {hash : String} {temps : List String} {e : Emission}
    (h : Reached mappings taken hash temps e) {i : Nat} (hi : i < mappings.length)
    (hall : ∀ k < i, k ∈ e.emitted) :
    Visited mappings taken hash e
      (e.visit mappings (dependencies mappings) (cyclesOf (dependencies mappings)) hash i) i := by
  obtain ⟨steps, hsteps, j, hfollow, hend⟩ := exists_end_of_path hi
  exact h.put_prerequisites hi (.inl hall) hsteps hfollow hend

/-- Visiting the first mappings in order emits them. -/
theorem Plan.Emission.exists_reached_visits (mappings : List Mapping) (taken : List String)
    (hash : String) {count : Nat} (hcount : count ≤ mappings.length) :
    ∃ temps, Reached mappings taken hash temps ((List.range count).foldl
        (Emission.visit mappings (dependencies mappings) (cyclesOf (dependencies mappings)) hash)
        { used := names mappings ++ taken }) ∧
      ∀ i < count, i ∈ ((List.range count).foldl
        (Emission.visit mappings (dependencies mappings) (cyclesOf (dependencies mappings)) hash)
        { used := names mappings ++ taken }).emitted := by
  induction count with
  | zero => exact ⟨[], .start, fun i hi => absurd hi (Nat.not_lt_zero i)⟩
  | succ count ih =>
    obtain ⟨temps, hreached, hall⟩ := ih (Nat.le_of_succ_le hcount)
    have hvisit := hreached.visit hcount hall
    obtain ⟨temps', hreached'⟩ := hvisit.reached
    rw [List.range_succ, List.foldl_append]
    refine ⟨temps', hreached', fun i hi => ?_⟩
    rcases Nat.lt_succ_iff_lt_or_eq.mp hi with hlt | rfl
    · exact hvisit.kept (hall i hlt)
    · exact hvisit.self

/-- The steps of a plan are those of an emission that was reached and is complete. -/
theorem Plan.exists_reached_ofMappings (mappings : List Mapping) (taken : List String) :
    ∃ temps e, Emission.Reached mappings taken (setHash mappings) temps e ∧
      (ofMappings mappings taken).steps = e.steps ∧ ∀ i < mappings.length, i ∈ e.emitted := by
  obtain ⟨temps, hreached, hall⟩ :=
    Emission.exists_reached_visits mappings taken (setHash mappings) (Nat.le_refl _)
  exact ⟨temps, _, hreached, rfl, hall⟩

end SymbolRename
