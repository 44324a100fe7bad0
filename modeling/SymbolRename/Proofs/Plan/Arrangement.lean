import SymbolRename.Proofs.Plan.Interim
import SymbolRename.Proofs.Plan.Steps

/-!
# What a plan is made up of

A mapping outside all cycles has one direct step, a member of a cycle the two halves of its
detour, and all first halves of a cycle come before the second ones. What a mapping depends on
comes before it. An emission keeps this item by item, `Plan.Emission.Reached.arranged`.
-/

namespace SymbolRename

/-- Mapping `j` renames what mapping `i` writes. -/
def Mapping.Takes (mappings : List Mapping) (i j : Nat) : Prop :=
  j ≠ i ∧ ∃ m n, mappings[i]? = some m ∧ mappings[j]? = some n ∧ n.old = m.new

/-! ### The steps of an emission -/

/-- What is emitted has its steps, each in its place. -/
structure Plan.Emission.Arranged (mappings : List Mapping) (temps : List String) (e : Emission) :
    Prop where
  nodup : e.emitted.Nodup
  bound : ∀ i ∈ e.emitted, i < mappings.length
  direct : ∀ i ∈ e.emitted, ¬ Returns (dependencies mappings) i → ∀ m, mappings[i]? = some m →
    e.steps.filter (·.origin = i) = [⟨m.old, m.new, i, false⟩]
  passes : ∀ members ∈ cyclesOf (dependencies mappings), ∀ i ∈ members, i ∈ e.emitted →
    ∃ pairs : List (Nat × String), pairs.map Prod.fst = members ∧ (∀ pair ∈ pairs, pair.2 ∈ temps) ∧
      e.steps.filter (·.origin ∈ members) = away mappings pairs ++ home mappings pairs
  waits : e.steps.Pairwise fun s t =>
    next? (dependencies mappings) s.origin = some t.origin →
      Returns (dependencies mappings) s.origin
  length : e.steps.length =
    e.emitted.length + e.emitted.countP (cyclesOf (dependencies mappings)).flatten.contains

namespace Plan.Emission

variable {mappings : List Mapping} {taken temps : List String} {hash : String} {e : Emission}
  {item : Pending} {members : List Nat} {i : Nat}

theorem filter_steps_eq_nil {steps : List PlanStep} {P : Nat → Prop} [DecidablePred P]
    (h : ∀ step ∈ steps, ¬ P step.origin) : steps.filter (fun step => P step.origin) = [] :=
  List.filter_eq_nil_iff.mpr fun step hstep => by simpa using h step hstep

/-- The mappings of a ready item are all in cycles or all outside. -/
theorem Ready.returns_iff (h : e.Ready mappings item) (hi : i ∈ item.members mappings) :
    Returns (dependencies mappings) i ↔
      ∃ id, item = .cycle id ∧ (cyclesOf (dependencies mappings))[id]? = some (item.members mappings) := by
  cases h with
  | @mapping k _ _ hopen =>
    obtain rfl := List.mem_singleton.mp hi
    exact iff_of_false hopen (by simp)
  | @cycle id members hid =>
    have hmembers : (Pending.cycle id).members mappings = members := by simp [Pending.members, hid]
    rw [hmembers] at hi ⊢
    exact iff_of_true (returns_of_mem_cycle (List.mem_of_getElem? hid) hi) ⟨id, rfl, hid⟩

theorem Ready.nodup_members (h : e.Ready mappings item) : (item.members mappings).Nodup := by
  cases h with
  | mapping => exact List.nodup_singleton _
  | @cycle id members hid =>
    simpa [Pending.members, hid] using cycle_nodup (List.mem_of_getElem? hid)

/-- A ready item has a step for each of its mappings, and a second one for members of cycles. -/
theorem Ready.length_stepsFor (h : e.Ready mappings item) (hash : String) :
    (e.stepsFor mappings hash item).length = (item.members mappings).length +
      (item.members mappings).countP (cyclesOf (dependencies mappings)).flatten.contains := by
  cases h with
  | @mapping i hlt _ hopen =>
    have hout : i ∉ (cyclesOf (dependencies mappings)).flatten :=
      fun hin => hopen (mem_flatten_cyclesOf_iff.mp hin)
    simp [stepsFor, Pending.members, hlt, hout]
  | @cycle id members hid =>
    have hall : ∀ k ∈ members, (cyclesOf (dependencies mappings)).flatten.contains k = true :=
      fun k hk => List.contains_iff_mem.mpr
        (List.mem_flatten.mpr ⟨members, List.mem_of_getElem? hid, hk⟩)
    have hlength : (e.pairsFor mappings hash (.cycle id)).length = members.length := by
      rw [← List.length_map Prod.fst, map_fst_pairsFor, Pending.members, hid, Option.getD_some]
    rw [Pending.members, hid, Option.getD_some, List.countP_eq_length.mpr hall, stepsFor, away, home,
      List.length_append, List.length_map, List.length_map, hlength]

/-- Within one item only members of cycles depend on each other. -/
theorem Ready.waits (h : e.Ready mappings item) (hash : String) :
    (e.stepsFor mappings hash item).Pairwise fun s t =>
      next? (dependencies mappings) s.origin = some t.origin →
        Returns (dependencies mappings) s.origin := by
  cases item with
  | mapping i =>
    refine List.pairwise_map.mpr ?_
    cases mappings[i]? <;> simp
  | cycle id =>
    refine List.pairwise_of_forall_mem_list fun s hs t _ _ => ?_
    have hin := (h.belongs hs).1
    cases h with
    | @cycle _ members hid =>
      rw [Pending.members, hid, Option.getD_some] at hin
      exact returns_of_mem_cycle (List.mem_of_getElem? hid) hin

/-- A ready mapping outside all cycles has its direct step. -/
theorem Ready.filter_stepsFor_eq (h : e.Ready mappings item) (hash : String) {k : Nat}
    (hk : k ∈ item.members mappings) (hopen : ¬ Returns (dependencies mappings) k) {m : Mapping}
    (hm : mappings[k]? = some m) :
    (e.stepsFor mappings hash item).filter (·.origin = k) = [⟨m.old, m.new, k, false⟩] := by
  cases h with
  | mapping =>
    obtain rfl := List.mem_singleton.mp hk
    simp [stepsFor, hm]
  | cycle hid =>
    rw [Pending.members, hid, Option.getD_some] at hk
    exact absurd (returns_of_mem_cycle (List.mem_of_getElem? hid) hk) hopen

/-- A ready item that has a member of a cycle is this cycle, with the two halves of its detour. -/
theorem Ready.exists_passes (h : e.Ready mappings item) (hash : String)
    (hmembers : members ∈ cyclesOf (dependencies mappings)) {k : Nat} (hk : k ∈ members)
    (hin : k ∈ item.members mappings) :
    item.members mappings = members ∧ ∃ pairs : List (Nat × String), pairs.map Prod.fst = members ∧
      (∀ pair ∈ pairs, pair.2 ∈ e.namesFor mappings hash item) ∧
      (e.stepsFor mappings hash item).filter (·.origin ∈ members) =
        away mappings pairs ++ home mappings pairs := by
  obtain ⟨id, rfl, hid⟩ := (h.returns_iff hin).mp (returns_of_mem_cycle hmembers hk)
  have hsame := cycle_eq_of_mem (List.mem_of_getElem? hid) hmembers hin hk
  refine ⟨hsame, e.pairsFor mappings hash (.cycle id), (map_fst_pairsFor _ _ _ _).trans hsame,
    fun pair hpair => (List.of_mem_zip hpair).2, ?_⟩
  rw [List.filter_eq_self.mpr fun step hstep => by simpa [← hsame] using (h.belongs hstep).1]
  rfl

/-- Putting a ready item keeps the steps arranged. -/
theorem Arranged.put (h : e.Arranged mappings temps) (hreached : Reached mappings taken hash temps e)
    (hready : e.Ready mappings item) :
    (e.put mappings (cyclesOf (dependencies mappings)) hash item).Arranged mappings
      (e.namesFor mappings hash item ++ temps) := by
  obtain ⟨hsteps, hemitted, _⟩ := hready.put_eq hash
  have holder : ∀ step ∈ e.steps, step.origin ∈ e.emitted :=
    fun step hstep => (hreached.belongs hstep).1
  have hnewer : ∀ step ∈ e.stepsFor mappings hash item, step.origin ∈ item.members mappings :=
    fun step hstep => (hready.belongs hstep).1
  have hfresh : ∀ k ∈ item.members mappings, k ∉ e.emitted := fun k hk => (hready.members hk).2.1
  constructor
  · rw [hemitted]
    exact List.nodup_append.mpr ⟨hready.nodup_members, h.nodup, by
      rintro k hk _ hk' rfl
      exact hfresh k hk hk'⟩
  · rw [hemitted]
    intro k hk
    rcases List.mem_append.mp hk with hk | hk
    · obtain ⟨m, hm⟩ := (hready.members hk).1
      exact (List.getElem?_eq_some_iff.mp hm).1
    · exact h.bound k hk
  · rw [hsteps, hemitted]
    intro k hk hopen m hm
    rw [List.filter_append]
    rcases List.mem_append.mp hk with hk | hk
    · rw [filter_steps_eq_nil (P := (· = k)) fun step hstep heq =>
        hfresh k hk (heq ▸ holder step hstep)]
      exact hready.filter_stepsFor_eq hash hk hopen hm
    · rw [h.direct k hk hopen m hm,
        filter_steps_eq_nil (P := (· = k)) fun step hstep heq =>
          hfresh _ (hnewer step hstep) (heq ▸ hk)]
      rfl
  · rw [hsteps, hemitted]
    intro members hmembers k hk hin
    rw [List.filter_append]
    rcases List.mem_append.mp hin with hin | hin
    · obtain ⟨hsame, pairs, hfst, hsnd, hfilter⟩ := hready.exists_passes hash hmembers hk hin
      refine ⟨pairs, hfst, fun pair hpair => List.mem_append_left _ (hsnd pair hpair), ?_⟩
      rw [filter_steps_eq_nil fun step hstep heq => hfresh _ (hsame ▸ heq) (holder step hstep),
        hfilter]
      rfl
    · obtain ⟨pairs, hfst, hsnd, hfilter⟩ := h.passes members hmembers k hk hin
      refine ⟨pairs, hfst, fun pair hpair => List.mem_append_right _ (hsnd pair hpair), ?_⟩
      have hall := (hreached.closed.whole members hmembers).resolve_right
        fun hnone => hnone k hk hin
      rw [hfilter,
        filter_steps_eq_nil fun step hstep heq => hfresh _ (hnewer step hstep) (hall _ heq),
        List.append_nil]
  · rw [hsteps]
    refine List.pairwise_append.mpr ⟨h.waits, hready.waits hash, fun s hs t ht hnext => ?_⟩
    -- What an emitted mapping depends on is emitted already.
    exact absurd (hreached.closed.next _ (holder s hs) _ hnext) (hfresh _ (hnewer t ht))
  · rw [hsteps, hemitted, List.length_append, List.length_append, List.countP_append, h.length,
      hready.length_stepsFor]
    omega

theorem Reached.arranged (h : Reached mappings taken hash temps e) : e.Arranged mappings temps := by
  induction h with
  | start => exact ⟨List.nodup_nil, nofun, nofun, nofun, .nil, rfl⟩
  | put h hready ih => exact ih.put h hready

/-- What the first step of a mapping writes. -/
def tempOf (e : Emission) (i : Nat) : String :=
  (e.steps.find? (·.origin = i)).elim "" (·.new)

end Plan.Emission

/-- In the two passes over a cycle each member has its two halves. -/
theorem Plan.filter_passes {mappings : List Mapping} {pairs : List (Nat × String)}
    (h : (pairs.map Prod.fst).Nodup) {p : Nat × String} (hp : p ∈ pairs) :
    (away mappings pairs ++ home mappings pairs).filter (·.origin = p.1) =
      [awayStep mappings p, homeStep mappings p] := by
  obtain ⟨front, back, rfl⟩ := List.append_of_mem hp
  have hdiffer : ∀ q ∈ front ++ back, q.1 ≠ p.1 := by
    intro q hq heq
    rw [List.map_append, List.map_cons, List.nodup_middle, List.nodup_cons, ← List.map_append] at h
    exact h.1 (heq ▸ List.mem_map_of_mem hq)
  have hone : ∀ f : Nat × String → PlanStep, (∀ q, (f q).origin = q.1) →
      ((front ++ p :: back).map f).filter (·.origin = p.1) = [f p] := by
    intro f hf
    have hnone : ∀ part ⊆ front ++ back, (part.map f).filter (·.origin = p.1) = [] := by
      intro part hpart
      refine Emission.filter_steps_eq_nil (P := (· = p.1)) fun step hstep => ?_
      obtain ⟨q, hq, rfl⟩ := List.mem_map.mp hstep
      exact hf q ▸ hdiffer q (hpart hq)
    rw [List.map_append, List.map_cons, List.filter_append,
      List.filter_cons_of_pos (by simp [hf]), hnone front (List.subset_append_left _ _),
      hnone back (List.subset_append_right _ _), List.nil_append]
  rw [List.filter_append, away, home, hone _ fun _ => rfl, hone _ fun _ => rfl]
  rfl

/-! ### Whole plans -/

/-- What the plan of a mapping set is made up of; `temp` tells the temporary names of the members
of cycles. -/
structure Plan.Arranged (mappings : List Mapping) (taken : List String) (temp : Nat → String)
    (p : Plan) : Prop where
  /-- Dependencies go to the first mapping that renames what a mapping writes. -/
  dependsOn : p.dependsOn.length = mappings.length ∧ ∀ i j, p.dependsOn[i]? = some (some j) ↔
    Mapping.Takes mappings i j ∧ ∀ k, Mapping.Takes mappings i k → j ≤ k
  ambiguous : ∀ i, (∃ a ∈ p.ambiguities, a.mapping = i) ↔
    ∃ j k, j ≠ k ∧ Mapping.Takes mappings i j ∧ Mapping.Takes mappings i k
  recorded : ∀ a ∈ p.ambiguities, p.dependsOn[a.mapping]? = some (some a.chosen) ∧
    a.candidates.Pairwise (· < ·) ∧ ∀ j, j ∈ a.candidates ↔ Mapping.Takes mappings a.mapping j
  cycles : p.cycles = cyclesOf p.dependsOn
  /-- A mapping outside all cycles has its direct step. -/
  direct : ∀ i m, mappings[i]? = some m → i ∉ p.cycles.flatten →
    p.steps.filter (·.origin = i) = [⟨m.old, m.new, i, false⟩]
  /-- A member of a cycle goes to its temporary name and from there to its new name. -/
  detour : ∀ i m, mappings[i]? = some m → i ∈ p.cycles.flatten →
    p.steps.filter (·.origin = i) = [⟨m.old, temp i, i, true⟩, ⟨temp i, m.new, i, true⟩]
  /-- All members of a cycle go to their temporary names before the first one goes on. -/
  passes : ∀ members ∈ p.cycles, p.steps.filter (·.origin ∈ members) =
    away mappings (members.map fun i => (i, temp i)) ++
      home mappings (members.map fun i => (i, temp i))
  identifier : ∀ i ∈ p.cycles.flatten, isValidIdentifier (temp i) = true
  distinct : ∀ i ∈ p.cycles.flatten, ∀ j ∈ p.cycles.flatten, temp i = temp j → i = j
  fresh : ∀ i ∈ p.cycles.flatten, temp i ∉ taken ∧ ∀ m ∈ mappings, temp i ≠ m.old ∧ temp i ≠ m.new
  origin_lt : ∀ step ∈ p.steps, step.origin < mappings.length
  length : p.steps.length = mappings.length + p.circularRenames
  /-- A mapping outside all cycles waits for all steps of its dependency. -/
  waits : ∀ i j : Nat, i ∉ p.cycles.flatten → p.dependsOn[i]? = some (some j) →
    ∀ (a b : Nat) (s t : PlanStep), p.steps[a]? = some s → p.steps[b]? = some t →
      s.origin = j → t.origin = i → a < b

section

variable {mappings : List Mapping} {i j : Nat}

theorem Plan.getElem?_dependencies (mappings : List Mapping) (i j : Nat) :
    (dependencies mappings)[i]? = some (some j) ↔ next? (dependencies mappings) i = some j := by
  unfold next?
  cases (dependencies mappings)[i]? <;> simp

theorem Plan.lt_length_of_returns (h : Returns (dependencies mappings) i) : i < mappings.length := by
  obtain ⟨count, hpos, hreturn⟩ := h
  obtain ⟨j, hj⟩ := follow_isSome_of_le (Nat.succ_le_of_lt hpos) hreturn
  rw [Nat.succ_eq_add_one, Nat.zero_add, follow_one] at hj
  rw [← length_dependencies mappings]
  exact lt_length_of_next? hj

/-- The candidates of a mapping come in order. -/
theorem Plan.pairwise_candidates (mappings : List Mapping) (i : Nat) :
    (candidates mappings i).Pairwise (· < ·) := by
  unfold candidates
  split
  · exact .nil
  · exact List.pairwise_lt_range.filter _

/-- A mapping depends on the first one that renames what it writes. -/
theorem Plan.next?_eq_some_iff : next? (dependencies mappings) i = some j ↔
    Mapping.Takes mappings i j ∧ ∀ k, Mapping.Takes mappings i k → j ≤ k := by
  have hmem : ∀ k, k ∈ candidates mappings i ↔ Mapping.Takes mappings i k :=
    fun _ => mem_candidates_iff
  rw [next?_dependencies]
  constructor
  · intro hhead
    obtain ⟨rest, hlist⟩ := List.head?_eq_some_iff.mp hhead
    have hsorted := pairwise_candidates mappings i
    rw [hlist, List.pairwise_cons] at hsorted
    refine ⟨(hmem j).mp (List.mem_of_head? hhead), fun k hk => ?_⟩
    rcases List.mem_cons.mp (hlist ▸ (hmem k).mpr hk) with rfl | hk
    · exact Nat.le_refl _
    · exact Nat.le_of_lt (hsorted.1 k hk)
  · rintro ⟨htakes, hfirst⟩
    have hj := (hmem j).mpr htakes
    obtain ⟨first, rest, hlist⟩ := List.exists_cons_of_ne_nil (List.ne_nil_of_mem hj)
    have hsorted := pairwise_candidates mappings i
    rw [hlist] at hj hsorted
    have hle := hfirst first ((hmem first).mp (hlist ▸ List.mem_cons_self))
    rw [hlist, List.head?_cons]
    rcases List.mem_cons.mp hj with rfl | hj
    · rfl
    · have hlt := (List.pairwise_cons.mp hsorted).1 j hj
      omega

/-- An ambiguity is recorded where a mapping has several candidates. -/
theorem Plan.mem_ambiguitiesOf_iff {a : Ambiguity} : a ∈ ambiguitiesOf mappings ↔
    a.candidates = candidates mappings a.mapping ∧ 2 ≤ a.candidates.length ∧
      next? (dependencies mappings) a.mapping = some a.chosen := by
  unfold ambiguitiesOf
  rw [List.mem_filterMap]
  constructor
  · rintro ⟨i, _, hi⟩
    split at hi
    · rename_i chosen other more hlist
      obtain rfl := Option.some.inj hi
      exact ⟨hlist.symm, by simp, by rw [next?_dependencies, hlist, List.head?_cons]⟩
    · cases hi
  · rintro ⟨hlist, hlength, hnext⟩
    refine ⟨a.mapping, List.mem_range.mpr ?_, ?_⟩
    · simpa using lt_length_of_next? hnext
    · rw [next?_dependencies, ← hlist] at hnext
      rw [← hlist]
      obtain ⟨mapping, found, chosen⟩ := a
      match found, hlength, hnext with
      | first :: other :: more, _, hnext =>
        obtain rfl := Option.some.inj hnext
        rfl

theorem Plan.total_map_length (cycles : List (List Nat)) :
    Count.total (cycles.map List.length) = cycles.flatten.length := by
  induction cycles with
  | nil => rfl
  | cons cycle rest ih =>
    rw [List.map_cons, Count.total, ih, List.flatten_cons, List.length_append]

end

/-- Ambiguities are the mappings with two candidates or more. -/
theorem Plan.exists_ambiguity_iff {mappings : List Mapping} {i : Nat} :
    (∃ a ∈ ambiguitiesOf mappings, a.mapping = i) ↔
      ∃ j k, j ≠ k ∧ Mapping.Takes mappings i j ∧ Mapping.Takes mappings i k := by
  constructor
  · rintro ⟨a, ha, rfl⟩
    obtain ⟨hlist, hlength, _⟩ := mem_ambiguitiesOf_iff.mp ha
    have hnodup := candidates_nodup mappings a.mapping
    rw [hlist] at hlength
    match hc : candidates mappings a.mapping, hlength with
    | j :: k :: more, _ =>
      rw [hc] at hnodup
      refine ⟨j, k, fun heq => ?_, mem_candidates_iff.mp (by simp [hc]),
        mem_candidates_iff.mp (by simp [hc])⟩
      simp [heq] at hnodup
  · rintro ⟨j, k, hne, hj, hk⟩
    have hj : j ∈ candidates mappings i := mem_candidates_iff.mpr hj
    have hk : k ∈ candidates mappings i := mem_candidates_iff.mpr hk
    match hc : candidates mappings i with
    | [] => simp [hc] at hj
    | [only] =>
      rw [hc, List.mem_singleton] at hj hk
      exact absurd (hj.trans hk.symm) hne
    | chosen :: other :: more =>
      refine ⟨⟨i, chosen :: other :: more, chosen⟩, mem_ambiguitiesOf_iff.mpr
        ⟨hc.symm, by simp, ?_⟩, rfl⟩
      rw [next?_dependencies, hc, List.head?_cons]

namespace Plan.Emission.Arranged

variable {mappings : List Mapping} {taken temps : List String} {hash : String} {e : Emission}
  {members : List Nat} {i j : Nat}

/-- In a complete emission the steps of a cycle are its two passes, and the first step of each
member writes its temporary name. -/
theorem cycle (h : e.Arranged mappings temps) (hall : ∀ i < mappings.length, i ∈ e.emitted)
    (hmembers : members ∈ cyclesOf (dependencies mappings)) :
    e.steps.filter (·.origin ∈ members) = away mappings (members.map fun i => (i, e.tempOf i)) ++
        home mappings (members.map fun i => (i, e.tempOf i)) ∧
      ∀ i ∈ members, e.tempOf i ∈ temps ∧ e.steps.filter (·.origin = i) =
        [awayStep mappings (i, e.tempOf i), homeStep mappings (i, e.tempOf i)] := by
  obtain ⟨first, rest, rfl, _⟩ := (mem_cyclesOf_iff.mp hmembers).exists_lowest
  generalize hlist : first :: rest = members at hmembers ⊢
  have hfirst : first ∈ members := hlist ▸ List.mem_cons_self
  obtain ⟨pairs, hfst, hsnd, hfilter⟩ := h.passes members hmembers first hfirst
    (hall first (lt_length_of_returns (returns_of_mem_cycle hmembers hfirst)))
  have hnodup : (pairs.map Prod.fst).Nodup := hfst ▸ cycle_nodup hmembers
  have hown : ∀ pair ∈ pairs, e.steps.filter (·.origin = pair.1) =
      [awayStep mappings pair, homeStep mappings pair] := by
    intro pair hpair
    have hin : pair.1 ∈ members := hfst ▸ List.mem_map_of_mem hpair
    rw [← filter_passes hnodup hpair, ← hfilter, List.filter_filter]
    refine List.filter_congr fun step _ => ?_
    by_cases heq : step.origin = pair.1 <;> simp [heq, hin]
  have htemp : ∀ pair ∈ pairs, e.tempOf pair.1 = pair.2 := by
    intro pair hpair
    rw [tempOf, ← List.head?_filter, hown pair hpair]
    rfl
  have hpairs : pairs = members.map fun i => (i, e.tempOf i) := by
    rw [← hfst, List.map_map]
    exact (List.map_id pairs).symm.trans (List.map_congr_left fun pair hpair =>
      Prod.ext rfl (htemp pair hpair).symm)
  refine ⟨hpairs ▸ hfilter, fun i hi => ?_⟩
  have hpair : (i, e.tempOf i) ∈ pairs := hpairs ▸ List.mem_map_of_mem hi
  exact ⟨hsnd _ hpair, hown _ hpair⟩

theorem member (h : e.Arranged mappings temps) (hall : ∀ i < mappings.length, i ∈ e.emitted)
    (hi : i ∈ (cyclesOf (dependencies mappings)).flatten) :
    e.tempOf i ∈ temps ∧ e.steps.filter (·.origin = i) =
      [awayStep mappings (i, e.tempOf i), homeStep mappings (i, e.tempOf i)] := by
  obtain ⟨members, hmembers, hi⟩ := List.mem_flatten.mp hi
  exact (h.cycle hall hmembers).2 i hi

/-- Members of cycles have temporary names of their own: one step only writes each. -/
theorem tempOf_inj (h : e.Arranged mappings temps) (hreached : Reached mappings taken hash temps e)
    (hall : ∀ i < mappings.length, i ∈ e.emitted)
    (hi : i ∈ (cyclesOf (dependencies mappings)).flatten)
    (hj : j ∈ (cyclesOf (dependencies mappings)).flatten) (hsame : e.tempOf i = e.tempOf j) :
    i = j := by
  have hstep : ∀ k ∈ (cyclesOf (dependencies mappings)).flatten,
      awayStep mappings (k, e.tempOf k) ∈ e.steps := fun k hk =>
    List.mem_of_mem_filter ((h.member hall hk).2 ▸ List.mem_cons_self)
  have hone := (hreached.interim (h.member hall hi).1).eq_of_new_eq (hstep i hi) (hstep j hj) rfl
    hsame.symm
  exact congrArg PlanStep.origin hone

theorem length_eq (h : e.Arranged mappings temps) (hall : ∀ i < mappings.length, i ∈ e.emitted) :
    e.steps.length = mappings.length + (cyclesOf (dependencies mappings)).flatten.length := by
  have hperm : e.emitted.Perm (List.range mappings.length) := by
    refine (List.perm_ext_iff_of_nodup h.nodup List.nodup_range).mpr fun i => ?_
    rw [List.mem_range]
    exact ⟨h.bound i, hall i⟩
  have hflat : ((List.range mappings.length).filter
      (cyclesOf (dependencies mappings)).flatten.contains).Perm
        (cyclesOf (dependencies mappings)).flatten := by
    refine (List.perm_ext_iff_of_nodup (List.nodup_range.filter _)
      (nodup_flatten_cyclesOf _)).mpr fun i => ?_
    rw [List.mem_filter, List.mem_range, List.contains_iff_mem]
    exact ⟨And.right, fun hi => ⟨lt_length_of_returns (mem_flatten_cyclesOf_iff.mp hi), hi⟩⟩
  rw [h.length, hperm.length_eq, List.length_range, hperm.countP_eq, List.countP_eq_length_filter,
    hflat.length_eq]

/-- The steps of a dependency come first. -/
theorem lt_of_next? (h : e.Arranged mappings temps) (hopen : ¬ Returns (dependencies mappings) i)
    (hnext : next? (dependencies mappings) i = some j) {a b : Nat} {s t : PlanStep}
    (hs : e.steps[a]? = some s) (ht : e.steps[b]? = some t) (hsj : s.origin = j)
    (hti : t.origin = i) : a < b := by
  rcases Nat.lt_trichotomy a b with hlt | rfl | hgt
  · exact hlt
  · obtain rfl := Option.some.inj (hs.symm.trans ht)
    obtain rfl : i = j := hti.symm.trans hsj
    exact absurd ⟨1, Nat.one_pos, by simpa using hnext⟩ hopen
  · obtain ⟨hat, rfl⟩ := List.getElem?_eq_some_iff.mp ht
    obtain ⟨hbt, rfl⟩ := List.getElem?_eq_some_iff.mp hs
    subst hsj hti
    exact absurd (List.pairwise_iff_getElem.mp h.waits b a hat hbt hgt hnext) hopen

end Plan.Emission.Arranged

/-- The plan of a mapping set has every mapping in its place. -/
theorem Plan.exists_arranged (mappings : List Mapping) (taken : List String) :
    ∃ temp, (ofMappings mappings taken).Arranged mappings taken temp := by
  obtain ⟨temps, e, hreached, hsteps, hall⟩ := exists_reached_ofMappings mappings taken
  have harranged := hreached.arranged
  have hopen : ∀ i ∉ (cyclesOf (dependencies mappings)).flatten, ¬ Returns (dependencies mappings) i :=
    fun i hi hreturns => hi (mem_flatten_cyclesOf_iff.mpr hreturns)
  have hnext := getElem?_dependencies mappings
  refine ⟨e.tempOf, ⟨⟨length_dependencies mappings, fun i j => (hnext i j).trans next?_eq_some_iff⟩,
    fun i => exists_ambiguity_iff, fun a ha => ?_, rfl, fun i m hm hi => ?_, fun i m hm hi => ?_,
    fun members hmembers => ?_, fun i hi => ?_, fun i hi j hj hsame => ?_, fun i hi => ?_,
    fun step hstep => ?_, ?_, ?_⟩⟩
  · obtain ⟨hlist, _, hchosen⟩ := mem_ambiguitiesOf_iff.mp ha
    rw [hlist]
    exact ⟨(hnext _ _).mpr hchosen, pairwise_candidates mappings _, fun j => mem_candidates_iff⟩
  · rw [hsteps]
    exact harranged.direct i (hall i (List.getElem?_eq_some_iff.mp hm).1) (hopen i hi) m hm
  · rw [hsteps, (harranged.member hall hi).2, awayStep, homeStep, hm, Option.getD_some]
  · rw [hsteps]
    exact (harranged.cycle hall hmembers).1
  · exact (hreached.isTemp (harranged.member hall hi).1).isValidIdentifier
  · exact harranged.tempOf_inj hreached hall hi hj hsame
  · obtain ⟨hnames, htaken⟩ := hreached.temps_fresh (harranged.member hall hi).1
    refine ⟨htaken, fun m hm => ⟨fun heq => ?_, fun heq => ?_⟩⟩
    · exact hnames (heq ▸ old_mem_names hm)
    · exact hnames (heq ▸ new_mem_names hm)
  · rw [hsteps] at hstep
    exact harranged.bound _ (hreached.belongs hstep).1
  · rw [hsteps, harranged.length_eq hall, circularRenames, total_map_length]
    rfl
  · intro i j hi hij a b s t hs ht
    rw [hsteps] at hs ht
    exact harranged.lt_of_next? (hopen i hi) ((hnext i j).mp hij) hs ht

/-- Every accepted mapping set is planned, whatever names are taken: mappings outside all cycles
by one direct step, members of cycles by two through new temporary names, each in its place. -/
theorem Plan.make_arranges {mappings : List Mapping} (h : Mapping.validate mappings = .ok ())
    (taken : List String) :
    ∃ p temp, Plan.make mappings taken = .ok p ∧ p.Arranged mappings taken temp := by
  obtain ⟨temp, harranged⟩ := exists_arranged mappings taken
  exact ⟨ofMappings mappings taken, temp, by simp [make, h], harranged⟩

/-- A swap, a mapping that waits for it, one that is given twice and one that is ambiguous. -/
theorem Plan.make_arranges_swap :
    Mapping.validate [⟨"c", "a"⟩, ⟨"a", "b"⟩, ⟨"b", "a"⟩, ⟨"a", "d"⟩, ⟨"c", "a"⟩] = .ok () ∧
      ∃ p temp, Plan.make [⟨"c", "a"⟩, ⟨"a", "b"⟩, ⟨"b", "a"⟩, ⟨"a", "d"⟩, ⟨"c", "a"⟩] ["e"] =
          .ok p ∧
        p.Arranged [⟨"c", "a"⟩, ⟨"a", "b"⟩, ⟨"b", "a"⟩, ⟨"a", "d"⟩, ⟨"c", "a"⟩] ["e"] temp := by
  have hvalid : Mapping.validate [⟨"c", "a"⟩, ⟨"a", "b"⟩, ⟨"b", "a"⟩, ⟨"a", "d"⟩, ⟨"c", "a"⟩] =
      .ok () := by decide +kernel
  exact ⟨hvalid, make_arranges hvalid ["e"]⟩

end SymbolRename
