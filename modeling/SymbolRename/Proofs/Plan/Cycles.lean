import SymbolRename.Plan
import Mathlib.Data.List.Induction
import Mathlib.Data.List.Nodup
import Mathlib.Data.Nat.Find

/-!
# Closed chains of dependencies

Every mapping has one dependency at most, so what it leads to is a path that either ends
or returns. `Plan.cyclesOf` lists each closed path once: its members are exactly the
mappings that lead back to themselves, and following a dependency never leaves it.
-/

namespace SymbolRename

/-- The mapping met from `i` on after following `count` dependencies. -/
def Plan.follow (dependsOn : List (Option Nat)) : Nat → Nat → Option Nat
  | 0, i => some i
  | count + 1, i => (next? dependsOn i).bind (follow dependsOn count)

/-- Following dependencies from `i` on leads to `j`. -/
def Plan.LeadsTo (dependsOn : List (Option Nat)) (i j : Nat) : Prop :=
  ∃ count, follow dependsOn count i = some j

/-- Following dependencies from `i` on leads back to `i`. -/
def Plan.Returns (dependsOn : List (Option Nat)) (i : Nat) : Prop :=
  ∃ count, 0 < count ∧ follow dependsOn count i = some i

theorem Plan.follow_add (dependsOn : List (Option Nat)) (a b i : Nat) :
    follow dependsOn (a + b) i = (follow dependsOn a i).bind (follow dependsOn b) := by
  induction a generalizing i with
  | zero => simp [follow]
  | succ a ih =>
    rw [Nat.succ_add]
    cases h : next? dependsOn i with
    | none => simp [follow, h]
    | some j => simp [follow, h, ih]

@[simp] theorem Plan.follow_one (dependsOn : List (Option Nat)) (i : Nat) :
    follow dependsOn 1 i = next? dependsOn i := by
  cases h : next? dependsOn i <;> simp [follow, h]

theorem Plan.follow_succ (dependsOn : List (Option Nat)) (count i : Nat) :
    follow dependsOn (count + 1) i = (follow dependsOn count i).bind (next? dependsOn) := by
  rw [follow_add]
  exact congrArg _ (funext fun j => follow_one dependsOn j)

/-- A path that goes on so far was not interrupted earlier. -/
theorem Plan.follow_isSome_of_le {dependsOn : List (Option Nat)} {a b i j : Nat} (hab : a ≤ b)
    (h : follow dependsOn b i = some j) : ∃ k, follow dependsOn a i = some k := by
  obtain ⟨c, rfl⟩ := Nat.exists_eq_add_of_le hab
  rw [follow_add] at h
  obtain ⟨k, hk, _⟩ := Option.bind_eq_some_iff.mp h
  exact ⟨k, hk⟩

theorem Plan.lt_length_of_next? {dependsOn : List (Option Nat)} {i j : Nat}
    (h : next? dependsOn i = some j) : i < dependsOn.length := by
  by_contra hi
  simp [next?, List.getElem?_eq_none (Nat.le_of_not_lt hi)] at h

theorem Plan.LeadsTo.trans {dependsOn : List (Option Nat)} {i j k : Nat}
    (hij : LeadsTo dependsOn i j) (hjk : LeadsTo dependsOn j k) : LeadsTo dependsOn i k := by
  obtain ⟨a, ha⟩ := hij
  obtain ⟨b, hb⟩ := hjk
  exact ⟨a + b, by simp [follow_add, ha, hb]⟩

theorem Plan.LeadsTo.of_next? {dependsOn : List (Option Nat)} {i j : Nat}
    (h : next? dependsOn i = some j) : LeadsTo dependsOn i j := ⟨1, by simpa using h⟩

/-- A mapping that returns goes on returning, so it is met again after any number of steps. -/
theorem Plan.follow_mul_of_follow {dependsOn : List (Option Nat)} {period i : Nat}
    (h : follow dependsOn period i = some i) (count : Nat) :
    follow dependsOn (count * period) i = some i := by
  induction count with
  | zero => simp [follow]
  | succ count ih => rw [Nat.succ_mul, follow_add, ih, Option.bind_some, h]

/-- Everything that a returning mapping leads to leads back to it. -/
theorem Plan.Returns.leadsTo_symm {dependsOn : List (Option Nat)} {i j : Nat}
    (hi : Returns dependsOn i) (hij : LeadsTo dependsOn i j) : LeadsTo dependsOn j i := by
  obtain ⟨period, hpos, hperiod⟩ := hi
  obtain ⟨count, hcount⟩ := hij
  have hle : count ≤ count * period := Nat.le_mul_of_pos_right count hpos
  obtain ⟨more, hmore⟩ := Nat.exists_eq_add_of_le hle
  have hback := follow_mul_of_follow hperiod count
  rw [hmore, follow_add, hcount, Option.bind_some] at hback
  exact ⟨more, hback⟩

/-- What a returning mapping leads to returns as well. -/
theorem Plan.Returns.of_leadsTo {dependsOn : List (Option Nat)} {i j : Nat}
    (hi : Returns dependsOn i) (hij : LeadsTo dependsOn i j) : Returns dependsOn j := by
  obtain ⟨back, hback⟩ := hi.leadsTo_symm hij
  obtain ⟨period, hpos, hperiod⟩ := hi
  obtain ⟨count, hcount⟩ := hij
  refine ⟨back + (period + count), by omega, ?_⟩
  simp [follow_add, hback, hperiod, hcount]

/-! ### The first return -/

/-- The length of the closed path of `i`: the first number of steps that leads back to it. -/
structure Plan.FirstReturn (dependsOn : List (Option Nat)) (i period : Nat) : Prop where
  pos : 0 < period
  returns : follow dependsOn period i = some i
  first : ∀ count, 0 < count → count < period → follow dependsOn count i ≠ some i

theorem Plan.Returns.exists_firstReturn {dependsOn : List (Option Nat)} {i : Nat}
    (h : Returns dependsOn i) : ∃ period, FirstReturn dependsOn i period := by
  classical
  refine ⟨Nat.find h, (Nat.find_spec h).1, (Nat.find_spec h).2, ?_⟩
  intro count hpos hlt hreturn
  exact Nat.find_min h hlt ⟨hpos, hreturn⟩

/-- Before the first return no mapping is met twice: a repetition would bring the return
forward. -/
theorem Plan.FirstReturn.injective {dependsOn : List (Option Nat)} {i period a b : Nat}
    (h : FirstReturn dependsOn i period) (hab : a < b) (hb : b < period) :
    follow dependsOn a i ≠ follow dependsOn b i := by
  intro hsame
  obtain ⟨rest, hrest⟩ := Nat.exists_eq_add_of_le (Nat.le_of_lt hb)
  have hreturn := h.returns
  rw [hrest, follow_add, ← hsame, ← follow_add] at hreturn
  exact h.first (a + rest) (by omega) (by omega) hreturn

/-- The members of the closed path of `i`, from `i` on up to the first return. -/
structure Plan.Closes (dependsOn : List (Option Nat)) (i : Nat) (members : List Nat) : Prop where
  first : FirstReturn dependsOn i members.length
  met : ∀ t < members.length, members[t]? = follow dependsOn t i

/-- The members of a closed path, from the lowest one on. -/
def Plan.IsCycle (dependsOn : List (Option Nat)) (members : List Nat) : Prop :=
  ∃ i, Closes dependsOn i members ∧ ∀ j ∈ members, i ≤ j

section

variable {dependsOn : List (Option Nat)} {i j : Nat} {members : List Nat}

theorem Plan.Closes.returns (h : Closes dependsOn i members) : Returns dependsOn i :=
  ⟨members.length, h.first.pos, h.first.returns⟩

theorem Plan.Returns.exists_closes (h : Returns dependsOn i) :
    ∃ members, Closes dependsOn i members := by
  obtain ⟨period, hfirst⟩ := h.exists_firstReturn
  refine ⟨(List.range period).map fun count => (follow dependsOn count i).getD i,
    by simpa using hfirst, fun t ht => ?_⟩
  have ht : t < period := by simpa using ht
  obtain ⟨k, hk⟩ := follow_isSome_of_le (Nat.le_of_lt ht) hfirst.returns
  rw [List.getElem?_map, List.getElem?_range ht, Option.map_some, hk, Option.getD_some]

/-- The members of a closed path are what its beginning leads to. -/
theorem Plan.Closes.mem_iff (h : Closes dependsOn i members) :
    j ∈ members ↔ LeadsTo dependsOn i j := by
  rw [List.mem_iff_getElem?]
  constructor
  · rintro ⟨t, ht⟩
    exact ⟨t, (h.met t (List.getElem?_eq_some_iff.mp ht).1).symm.trans ht⟩
  · rintro ⟨count, hcount⟩
    refine ⟨count % members.length, ?_⟩
    rw [h.met _ (Nat.mod_lt _ h.first.pos)]
    rwa [← Nat.div_add_mod count members.length, Nat.mul_comm, follow_add,
      follow_mul_of_follow h.first.returns, Option.bind_some] at hcount

theorem Plan.Closes.nodup (h : Closes dependsOn i members) : members.Nodup := by
  refine List.nodup_iff_getElem?_ne_getElem?.mpr fun a b hab hb => ?_
  rw [h.met a (Nat.lt_trans hab hb), h.met b hb]
  exact h.first.injective hab hb

/-- A mapping begins one closed path only. -/
theorem Plan.Closes.unique {others : List Nat} (h : Closes dependsOn i members)
    (hothers : Closes dependsOn i others) : members = others := by
  have hlength : members.length = others.length := by
    rcases Nat.lt_trichotomy members.length others.length with hlt | heq | hgt
    · exact absurd h.first.returns (hothers.first.first _ h.first.pos hlt)
    · exact heq
    · exact absurd hothers.first.returns (h.first.first _ hothers.first.pos hgt)
  refine List.ext_getElem? fun t => ?_
  by_cases ht : t < members.length
  · rw [h.met t ht, hothers.met t (hlength ▸ ht)]
  · rw [List.getElem?_eq_none (by omega), List.getElem?_eq_none (by omega)]

/-- A closed path can be listed from each of its members on. -/
theorem Plan.Closes.turn {k : Nat} (h : Closes dependsOn i members) (hk : members[k]? = some j) :
    Closes dependsOn j (members.drop k ++ members.take k) := by
  have hlt := (List.getElem?_eq_some_iff.mp hk).1
  have hto : follow dependsOn k i = some j := (h.met k hlt).symm.trans hk
  obtain ⟨rest, hrest⟩ := Nat.exists_eq_add_of_lt hlt
  have hlength : (members.drop k ++ members.take k).length = members.length := by
    rw [← (List.take_append_drop k members), List.length_append, List.length_append]
    simp
    omega
  have hback : follow dependsOn (rest + 1) j = some i := by
    have hreturn := h.first.returns
    rwa [hrest, Nat.add_assoc, follow_add, hto, Option.bind_some] at hreturn
  refine ⟨⟨hlength ▸ h.first.pos, ?_, fun count hpos hcount hsame => ?_⟩, fun t ht => ?_⟩
  · rw [hlength, hrest, Nat.add_comm k, Nat.add_right_comm, follow_add, hback, Option.bind_some, hto]
  · -- A shorter way back to the member would be one for the beginning.
    refine h.first.first count hpos (hlength ▸ hcount) ?_
    have hround : follow dependsOn (rest + 1 + count) j = some i := by
      rw [Nat.add_comm, follow_add, hsame, Option.bind_some, hback]
    rwa [follow_add, hback, Option.bind_some] at hround
  · rw [hlength] at ht
    by_cases hfront : t < members.length - k
    · rw [List.getElem?_append_left (by simpa using hfront), List.getElem?_drop, h.met _ (by omega),
        follow_add, hto, Option.bind_some]
    · obtain ⟨more, rfl⟩ := Nat.exists_eq_add_of_le (show rest + 1 ≤ t by omega)
      rw [List.getElem?_append_right (by simp; omega), List.length_drop,
        show rest + 1 + more - (members.length - k) = more by omega,
        List.getElem?_take_of_lt (by omega), h.met more (by omega), follow_add, hback,
        Option.bind_some]

theorem Plan.IsCycle.returns (h : IsCycle dependsOn members) (hi : i ∈ members) :
    Returns dependsOn i := by
  obtain ⟨low, hcloses, _⟩ := h
  exact hcloses.returns.of_leadsTo (hcloses.mem_iff.mp hi)

/-- Following dependencies never leaves a cycle. -/
theorem Plan.IsCycle.mem_of_leadsTo (h : IsCycle dependsOn members) (hi : i ∈ members)
    (hij : LeadsTo dependsOn i j) : j ∈ members := by
  obtain ⟨low, hcloses, _⟩ := h
  exact hcloses.mem_iff.mpr ((hcloses.mem_iff.mp hi).trans hij)

/-- Every member of a cycle leads to every member. -/
theorem Plan.IsCycle.leadsTo (h : IsCycle dependsOn members) (hi : i ∈ members)
    (hj : j ∈ members) : LeadsTo dependsOn i j := by
  obtain ⟨low, hcloses, _⟩ := h
  have hback := hcloses.returns.leadsTo_symm (hcloses.mem_iff.mp hi)
  exact hback.trans (hcloses.mem_iff.mp hj)

/-- Two cycles with a common member are one. -/
theorem Plan.IsCycle.eq_of_mem {others : List Nat} (h : IsCycle dependsOn members)
    (hothers : IsCycle dependsOn others) (hi : i ∈ members) (hi' : i ∈ others) :
    members = others := by
  obtain ⟨low, hcloses, hlow⟩ := id h
  obtain ⟨low', hcloses', hlow'⟩ := id hothers
  have hbegins : low ∈ members := hcloses.mem_iff.mpr ⟨0, rfl⟩
  have hbegins' : low' ∈ others := hcloses'.mem_iff.mpr ⟨0, rfl⟩
  have hle := hlow low' (h.mem_of_leadsTo hi (hothers.leadsTo hi' hbegins'))
  have hle' := hlow' low (hothers.mem_of_leadsTo hi' (h.leadsTo hi hbegins))
  obtain rfl := Nat.le_antisymm hle hle'
  exact hcloses.unique hcloses'

/-- A closed path, listed from its lowest member on, is a cycle. -/
theorem Plan.Closes.isCycle_fromLowest (h : Closes dependsOn i members) :
    IsCycle dependsOn (fromLowest members) ∧ ∀ j, j ∈ fromLowest members ↔ j ∈ members := by
  have hmem : ∀ j, j ∈ fromLowest members ↔ j ∈ members := fun j => by
    rw [fromLowest, List.mem_append, or_comm, ← List.mem_append, List.take_append_drop]
  have hne : members ≠ [] := List.length_pos_iff.mp h.first.pos
  obtain ⟨low, hmin⟩ := Option.isSome_iff_exists.mp (List.isSome_min?_of_ne_nil hne)
  obtain ⟨hlow, hle⟩ := List.min?_eq_some_iff.mp hmin
  have hat : members[members.idxOf low]? = some low := List.getElem?_idxOf hlow
  refine ⟨⟨low, ?_, fun j hj => hle j ((hmem j).mp hj)⟩, hmem⟩
  unfold fromLowest
  rw [hmin]
  exact h.turn hat

end

/-! ### The walks -/

/-- Some walks are complete: nothing is left to follow, and they closed exactly the cycles that
they met. -/
structure Plan.Walks.Complete (dependsOn : List (Option Nat)) (w : Walks) : Prop where
  closed : ∀ i ∈ w.visited, ∀ j, next? dependsOn i = some j → j ∈ w.visited
  nodup : w.cycles.Nodup
  mem_iff : ∀ members, members ∈ w.cycles ↔
    IsCycle dependsOn members ∧ ∃ i ∈ members, i ∈ w.visited

/-- A walk that came from `first` to `node` along a path that no earlier walk met. -/
structure Plan.Walks.Path (dependsOn : List (Option Nat)) (earlier : List Nat) (first : Nat)
    (path : List Nat) (node : Option Nat) : Prop where
  met : ∀ t < path.length, path[t]? = follow dependsOn t first
  ahead : follow dependsOn path.length first = node
  nodup : path.Nodup
  apart : ∀ i ∈ path, i ∉ earlier

namespace Plan.Walks

variable {dependsOn : List (Option Nat)} {before w : Walks} {first i j current : Nat}
  {path members : List Nat} {node : Option Nat} {earlier : List Nat}

/-- What stands on a path leads to what is ahead of it. -/
theorem Path.exists_follow (h : Path dependsOn earlier first path node) {t : Nat}
    (ht : path[t]? = some i) : follow dependsOn (path.length - t) i = node := by
  have hlt := (List.getElem?_eq_some_iff.mp ht).1
  rw [← h.ahead, ← Nat.add_sub_of_le (Nat.le_of_lt hlt), follow_add, ← h.met t hlt, ht,
    Option.bind_some, Nat.add_sub_cancel_left]

/-- A dependency leads on along the path or to what is ahead of it. -/
theorem Path.next (h : Path dependsOn earlier first path node) (hi : i ∈ path)
    (hij : next? dependsOn i = some j) : j ∈ path ∨ node = some j := by
  obtain ⟨t, ht⟩ := List.mem_iff_getElem?.mp hi
  have hlt := (List.getElem?_eq_some_iff.mp ht).1
  have hfollow : follow dependsOn (t + 1) first = some j := by
    rw [follow_succ, ← h.met t hlt, ht, Option.bind_some, hij]
  rcases Nat.lt_or_ge (t + 1) path.length with hnext | hend
  · exact .inl (List.mem_of_getElem? ((h.met _ hnext).trans hfollow))
  · rw [← h.ahead, show path.length = t + 1 by omega]
    exact .inr hfollow

/-- While a walk can go on, its path is no longer than the mapping set. -/
theorem Path.length_le (h : Path dependsOn earlier first path (some current)) :
    path.length ≤ dependsOn.length := by
  have hsub : path ⊆ List.range dependsOn.length := by
    intro i hi
    obtain ⟨t, ht⟩ := List.mem_iff_getElem?.mp hi
    have hlt := (List.getElem?_eq_some_iff.mp ht).1
    obtain ⟨j, hj⟩ := follow_isSome_of_le (show 1 ≤ path.length - t by omega) (h.exists_follow ht)
    exact List.mem_range.mpr (lt_length_of_next? (by simpa using hj))
  simpa using h.nodup.length_le_of_subset hsub

/-- A path that comes back closes a cycle. -/
theorem Path.closes (h : Path dependsOn earlier first path (some current))
    (hcurrent : current ∈ path) :
    Closes dependsOn current (path.drop (path.idxOf current)) := by
  have hat : path[path.idxOf current]? = some current := List.getElem?_idxOf hcurrent
  have hlt := (List.getElem?_eq_some_iff.mp hat).1
  have hto := (h.met _ hlt).symm.trans hat
  have hget : ∀ t < path.length - path.idxOf current,
      path[path.idxOf current + t]? = follow dependsOn t current := fun t ht => by
    rw [h.met _ (by omega), follow_add, hto, Option.bind_some]
  refine ⟨⟨by rw [List.length_drop]; omega, ?_, fun count hpos hcount hsame => ?_⟩, fun t ht => ?_⟩
  · rw [List.length_drop]
    exact h.exists_follow hat
  · rw [List.length_drop] at hcount
    refine List.nodup_iff_getElem?_ne_getElem?.mp h.nodup _ _ (Nat.lt_add_of_pos_right hpos)
      (by omega) (hat.trans ?_)
    rw [hget count hcount, hsame]
  · rw [List.length_drop] at ht
    rw [List.getElem?_drop, hget t ht]

theorem Path.nil : Path dependsOn earlier first [] (some first) :=
  ⟨nofun, rfl, List.nodup_nil, nofun⟩

/-- A walk goes on with a mapping that nothing met. -/
theorem Path.concat (h : Path dependsOn earlier first path (some current))
    (hpath : current ∉ path) (hearlier : current ∉ earlier) :
    Path dependsOn earlier first (path ++ [current]) (next? dependsOn current) where
  met t ht := by
    rw [List.length_append, List.length_singleton] at ht
    rcases Nat.lt_or_ge t path.length with hlt | hge
    · rw [List.getElem?_append_left hlt, h.met t hlt]
    · obtain rfl := Nat.le_antisymm (Nat.le_of_lt_succ ht) hge
      rw [List.getElem?_concat_length, h.ahead]
  ahead := by
    rw [List.length_append, List.length_singleton, follow_succ, h.ahead, Option.bind_some]
  nodup := List.nodup_append.mpr ⟨h.nodup, List.nodup_singleton _, by
    rintro a ha b hb rfl
    exact hpath (List.mem_singleton.mp hb ▸ ha)⟩
  apart i hi := by
    rcases List.mem_append.mp hi with hi | hi
    · exact h.apart i hi
    · exact List.mem_singleton.mp hi ▸ hearlier

/-- A walk that ends, or comes to what an earlier one met, closes no cycle. -/
theorem Complete.end (h : before.Complete dependsOn)
    (hpath : Path dependsOn before.visited first path node)
    (hnode : ∀ j ∈ node, j ∈ before.visited) :
    Complete dependsOn ⟨path.reverse ++ before.visited, before.cycles⟩ where
  closed i hi j hij := by
    rcases List.mem_append.mp hi with hi | hi
    · rcases hpath.next (List.mem_reverse.mp hi) hij with hj | hj
      · exact List.mem_append_left _ (List.mem_reverse.mpr hj)
      · exact List.mem_append_right _ (hnode j hj)
    · exact List.mem_append_right _ (h.closed i hi j hij)
  nodup := h.nodup
  mem_iff members := by
    rw [h.mem_iff]
    refine and_congr_right fun hcycle => ⟨?_, ?_⟩
    · rintro ⟨i, hi, hvisited⟩
      exact ⟨i, hi, List.mem_append_right _ hvisited⟩
    · rintro ⟨i, hi, hvisited⟩
      rcases List.mem_append.mp hvisited with hat | hvisited
      · -- A member on the path leads to what is ahead, so this is a member too.
        obtain ⟨t, ht⟩ := List.mem_iff_getElem?.mp (List.mem_reverse.mp hat)
        have hfollow := hpath.exists_follow ht
        obtain ⟨period, hpos, hreturn⟩ := hcycle.returns hi
        have hlong : path.length - t ≤ (path.length - t) * period :=
          Nat.le_mul_of_pos_right _ hpos
        obtain ⟨j, hj⟩ := follow_isSome_of_le hlong (follow_mul_of_follow hreturn _)
        exact ⟨j, hcycle.mem_of_leadsTo hi ⟨_, hj⟩, hnode j (hfollow.symm.trans hj)⟩
      · exact ⟨i, hi, hvisited⟩

/-- A walk that comes back to its path closes the one cycle on it. -/
theorem Complete.close (h : before.Complete dependsOn)
    (hpath : Path dependsOn before.visited first path (some current)) (hcurrent : current ∈ path) :
    Complete dependsOn ⟨path.reverse ++ before.visited,
      before.cycles ++ [fromLowest (path.drop (path.idxOf current))]⟩ := by
  obtain ⟨hcycle, hmembers⟩ := (hpath.closes hcurrent).isCycle_fromLowest
  generalize hnew : fromLowest (path.drop (path.idxOf current)) = new at hcycle hmembers ⊢
  have hsub : ∀ i ∈ new, i ∈ path := fun i hi => List.mem_of_mem_drop ((hmembers i).mp hi)
  have hin : current ∈ new := (hmembers current).mpr ((hpath.closes hcurrent).mem_iff.mpr ⟨0, rfl⟩)
  refine ⟨fun i hi j hij => ?_, ?_, fun members => ?_⟩
  · rcases List.mem_append.mp hi with hi | hi
    · rcases hpath.next (List.mem_reverse.mp hi) hij with hj | hj
      · exact List.mem_append_left _ (List.mem_reverse.mpr hj)
      · exact List.mem_append_left _ (List.mem_reverse.mpr (Option.some.inj hj ▸ hcurrent))
    · exact List.mem_append_right _ (h.closed i hi j hij)
  · refine List.nodup_append.mpr ⟨h.nodup, List.nodup_singleton _, ?_⟩
    rintro a ha b hb rfl
    obtain rfl := List.mem_singleton.mp hb
    obtain ⟨_, i, hi, hvisited⟩ := (h.mem_iff a).mp ha
    exact hpath.apart i (hsub i hi) hvisited
  · rw [List.mem_append, List.mem_singleton, h.mem_iff]
    constructor
    · rintro (⟨hcycle, i, hi, hvisited⟩ | rfl)
      · exact ⟨hcycle, i, hi, List.mem_append_right _ hvisited⟩
      · exact ⟨hcycle, current, hin, List.mem_append_left _ (List.mem_reverse.mpr hcurrent)⟩
    · rintro ⟨hother, i, hi, hvisited⟩
      rcases List.mem_append.mp hvisited with hat | hvisited
      · obtain ⟨t, ht⟩ := List.mem_iff_getElem?.mp (List.mem_reverse.mp hat)
        have hcommon := hother.mem_of_leadsTo hi ⟨_, hpath.exists_follow ht⟩
        exact .inr (hother.eq_of_mem hcycle hcommon hin)
      · exact .inl ⟨hother, i, hi, hvisited⟩

/-- A walk completes what it meets. The induction is on the bound, which no path exceeds. -/
theorem Complete.walk {count : Nat} (h : before.Complete dependsOn)
    (hpath : Path dependsOn before.visited first path node)
    (hcount : count + path.length = dependsOn.length + 1) :
    (Walks.walk dependsOn count ⟨path.reverse ++ before.visited, before.cycles⟩ path
      node).Complete dependsOn := by
  induction count generalizing path node with
  | zero =>
    cases node with
    | none => exact h.end hpath nofun
    | some current =>
      have hle := hpath.length_le
      omega
  | succ count ih =>
    cases node with
    | none => exact h.end hpath nofun
    | some current =>
      rw [Walks.walk]
      split
      · rename_i hback
        exact h.close hpath (List.contains_iff_mem.mp hback)
      · rename_i hback
        have hfresh : current ∉ path := fun hin => hback (List.contains_iff_mem.mpr hin)
        split
        · rename_i hmet
          have hmet := (List.mem_append.mp (List.contains_iff_mem.mp hmet)).resolve_left
            fun hin => hfresh (List.mem_reverse.mp hin)
          exact h.end hpath fun j hj => Option.some.inj hj ▸ hmet
        · rename_i hmet
          have hnot : current ∉ before.visited := fun hin =>
            hmet (List.contains_iff_mem.mpr (List.mem_append_right _ hin))
          have hlonger := ih (hpath.concat hfresh hnot) (by
            rw [List.length_append, List.length_singleton]
            omega)
          rwa [List.reverse_append, List.reverse_singleton, List.append_assoc] at hlonger

theorem visited_subset_walk (count : Nat) :
    w.visited ⊆ (w.walk dependsOn count path node).visited := by
  induction count generalizing w path node with
  | zero => cases node <;> exact List.Subset.refl _
  | succ count ih =>
    cases node with
    | none => exact List.Subset.refl _
    | some current =>
      rw [Walks.walk]
      split
      · exact List.Subset.refl _
      · split
        · exact List.Subset.refl _
        · exact List.Subset.trans (List.subset_cons_self current w.visited)
            (ih (w := ⟨current :: w.visited, w.cycles⟩))

/-- Walking from a mapping completes what it leads to. -/
theorem Complete.start (h : w.Complete dependsOn) (i : Nat) :
    (w.start dependsOn i).Complete dependsOn ∧
      w.visited ⊆ (w.start dependsOn i).visited ∧ i ∈ (w.start dependsOn i).visited := by
  unfold Walks.start
  split
  · rename_i hmet
    exact ⟨h, List.Subset.refl _, List.contains_iff_mem.mp hmet⟩
  · rename_i hmet
    refine ⟨h.walk .nil rfl,
      visited_subset_walk _, ?_⟩
    rw [Walks.walk, if_neg (by simp), if_neg hmet]
    exact visited_subset_walk _ List.mem_cons_self

/-- The walks from all mappings close exactly the cycles. -/
theorem exists_complete (dependsOn : List (Option Nat)) :
    let w := (List.range dependsOn.length).foldl (Walks.start dependsOn) {}
    w.cycles.Nodup ∧ ∀ members, members ∈ w.cycles ↔ IsCycle dependsOn members := by
  intro w
  have hall : ∀ count, ((List.range count).foldl (Walks.start dependsOn) {}).Complete dependsOn ∧
      ∀ i < count, i ∈ ((List.range count).foldl (Walks.start dependsOn) {}).visited := by
    intro count
    induction count with
    | zero => exact ⟨⟨nofun, List.nodup_nil, by simp⟩, nofun⟩
    | succ count ih =>
      rw [List.range_succ, List.foldl_append]
      obtain ⟨hcomplete, hkept, hmet⟩ := ih.1.start count
      refine ⟨hcomplete, fun i hi => ?_⟩
      rcases Nat.lt_or_eq_of_le (Nat.le_of_lt_succ hi) with hlt | rfl
      · exact hkept (ih.2 i hlt)
      · exact hmet
  obtain ⟨hcomplete, hmet⟩ := hall dependsOn.length
  refine ⟨hcomplete.nodup, fun members => (hcomplete.mem_iff members).trans
    ⟨And.left, fun hcycle => ⟨hcycle, ?_⟩⟩⟩
  obtain ⟨i, hcloses, _⟩ := id hcycle
  obtain ⟨count, hpos, hreturn⟩ := hcloses.returns
  obtain ⟨j, hj⟩ := follow_isSome_of_le (Nat.succ_le_of_lt hpos) hreturn
  exact ⟨i, hcloses.mem_iff.mpr ⟨0, rfl⟩, hmet i (lt_length_of_next? (by simpa using hj))⟩

end Plan.Walks

/-! ### The listed cycles -/

section

variable {cycle : List Nat} {cycles sorted : List (List Nat)}

theorem Plan.perm_insertCycle (cycle : List Nat) (sorted : List (List Nat)) :
    (insertCycle cycle sorted).Perm (cycle :: sorted) := by
  induction sorted with
  | nil => exact List.Perm.refl _
  | cons other rest ih =>
    rw [insertCycle]
    split
    · exact List.Perm.refl _
    · exact (ih.cons other).trans (.swap cycle other rest)

/-- A cycle is put where the first members stay in order. -/
theorem Plan.pairwise_insertCycle
    (h : sorted.Pairwise fun a b => a.headD 0 ≤ b.headD 0) :
    (insertCycle cycle sorted).Pairwise fun a b => a.headD 0 ≤ b.headD 0 := by
  induction sorted with
  | nil => exact List.pairwise_singleton _ _
  | cons other rest ih =>
    obtain ⟨hother, hrest⟩ := List.pairwise_cons.mp h
    rw [insertCycle]
    split
    · rename_i hlt
      refine List.pairwise_cons.mpr ⟨fun a ha => ?_, h⟩
      rcases List.mem_cons.mp ha with rfl | ha
      · exact Nat.le_of_lt hlt
      · exact Nat.le_trans (Nat.le_of_lt hlt) (hother a ha)
    · rename_i hge
      refine List.pairwise_cons.mpr ⟨fun a ha => ?_, ih hrest⟩
      rcases List.mem_cons.mp ((perm_insertCycle cycle rest).mem_iff.mp ha) with rfl | ha
      · exact Nat.le_of_not_lt hge
      · exact hother a ha

theorem Plan.sorted_insertCycles (cycles : List (List Nat)) :
    let sorted := cycles.foldl (fun sorted cycle => insertCycle cycle sorted) []
    sorted.Perm cycles ∧ sorted.Pairwise fun a b => a.headD 0 ≤ b.headD 0 := by
  induction cycles using List.reverseRecOn with
  | nil => exact ⟨List.Perm.refl _, .nil⟩
  | append_singleton cycles cycle ih =>
    rw [List.foldl_append]
    refine ⟨(perm_insertCycle cycle _).trans ?_, pairwise_insertCycle ih.2⟩
    exact (ih.1.cons cycle).trans (List.perm_append_singleton cycle cycles).symm

end

/-- The listed cycles are exactly the cycles. -/
theorem Plan.mem_cyclesOf_iff {dependsOn : List (Option Nat)} {members : List Nat} :
    members ∈ cyclesOf dependsOn ↔ IsCycle dependsOn members :=
  (sorted_insertCycles _).1.mem_iff.trans ((Walks.exists_complete dependsOn).2 members)

theorem Plan.cyclesOf_nodup (dependsOn : List (Option Nat)) : (cyclesOf dependsOn).Nodup :=
  (sorted_insertCycles _).1.nodup_iff.mpr (Walks.exists_complete dependsOn).1

/-- Every mapping that returns belongs to a listed cycle. -/
theorem Plan.Returns.exists_cycle {dependsOn : List (Option Nat)} {i : Nat}
    (h : Returns dependsOn i) : ∃ members ∈ cyclesOf dependsOn, i ∈ members := by
  classical
  have hsome : ∃ j, LeadsTo dependsOn i j := ⟨i, 0, rfl⟩
  have hlow := Nat.find_spec hsome
  obtain ⟨members, hcloses⟩ := (h.of_leadsTo hlow).exists_closes
  refine ⟨members, mem_cyclesOf_iff.mpr ⟨_, hcloses, fun j hj => ?_⟩,
    hcloses.mem_iff.mpr (h.leadsTo_symm hlow)⟩
  exact Nat.find_min' hsome (hlow.trans (hcloses.mem_iff.mp hj))

/-- Every member of a listed cycle returns. -/
theorem Plan.returns_of_mem_cycle {dependsOn : List (Option Nat)} {members : List Nat} {i : Nat}
    (h : members ∈ cyclesOf dependsOn) (hi : i ∈ members) : Returns dependsOn i :=
  (mem_cyclesOf_iff.mp h).returns hi

theorem Plan.mem_flatten_cyclesOf_iff {dependsOn : List (Option Nat)} {i : Nat} :
    i ∈ (cyclesOf dependsOn).flatten ↔ Returns dependsOn i := by
  rw [List.mem_flatten]
  constructor
  · rintro ⟨members, hmembers, hi⟩
    exact returns_of_mem_cycle hmembers hi
  · exact fun h => h.exists_cycle

/-- Following dependencies never leaves a listed cycle. -/
theorem Plan.mem_cycle_of_leadsTo {dependsOn : List (Option Nat)} {members : List Nat} {i j : Nat}
    (h : members ∈ cyclesOf dependsOn) (hi : i ∈ members) (hij : LeadsTo dependsOn i j) :
    j ∈ members :=
  (mem_cyclesOf_iff.mp h).mem_of_leadsTo hi hij

/-- Every member of a listed cycle leads to every member. -/
theorem Plan.leadsTo_of_mem_cycle {dependsOn : List (Option Nat)} {members : List Nat} {i j : Nat}
    (h : members ∈ cyclesOf dependsOn) (hi : i ∈ members) (hj : j ∈ members) :
    LeadsTo dependsOn i j :=
  (mem_cyclesOf_iff.mp h).leadsTo hi hj

/-- Every member of a cycle depends on a member. -/
theorem Plan.exists_next?_of_mem_cycle {dependsOn : List (Option Nat)} {members : List Nat}
    {i : Nat} (h : members ∈ cyclesOf dependsOn) (hi : i ∈ members) :
    ∃ j ∈ members, next? dependsOn i = some j := by
  obtain ⟨count, hpos, hreturn⟩ := returns_of_mem_cycle h hi
  obtain ⟨j, hj⟩ := follow_isSome_of_le (Nat.succ_le_of_lt hpos) hreturn
  have hnext : next? dependsOn i = some j := by simpa using hj
  exact ⟨j, mem_cycle_of_leadsTo h hi (.of_next? hnext), hnext⟩

/-- Some member of a cycle depends on each member. -/
theorem Plan.exists_prior_of_mem_cycle {dependsOn : List (Option Nat)} {members : List Nat}
    {i : Nat} (h : members ∈ cyclesOf dependsOn) (hi : i ∈ members) :
    ∃ j ∈ members, next? dependsOn j = some i := by
  obtain ⟨count, hpos, hreturn⟩ := returns_of_mem_cycle h hi
  obtain ⟨before, rfl⟩ := Nat.exists_eq_add_of_lt hpos
  rw [Nat.zero_add, follow_succ] at hreturn
  obtain ⟨j, hj, hji⟩ := Option.bind_eq_some_iff.mp hreturn
  exact ⟨j, mem_cycle_of_leadsTo h hi ⟨before, hj⟩, hji⟩

/-- Two listed cycles with a common member are one. -/
theorem Plan.cycle_eq_of_mem {dependsOn : List (Option Nat)} {a b : List Nat} {i : Nat}
    (ha : a ∈ cyclesOf dependsOn) (hb : b ∈ cyclesOf dependsOn) (hia : i ∈ a) (hib : i ∈ b) :
    a = b :=
  (mem_cyclesOf_iff.mp ha).eq_of_mem (mem_cyclesOf_iff.mp hb) hia hib

theorem Plan.cycle_nodup {dependsOn : List (Option Nat)} {members : List Nat}
    (h : members ∈ cyclesOf dependsOn) : members.Nodup := by
  obtain ⟨_, hcloses, _⟩ := mem_cyclesOf_iff.mp h
  exact hcloses.nodup

/-- The members of a cycle stand in the order of their dependencies; behind the last one, the
first one follows. -/
theorem Plan.IsCycle.next {dependsOn : List (Option Nat)} {members : List Nat} {t i : Nat}
    (h : IsCycle dependsOn members) (hi : members[t]? = some i) :
    next? dependsOn i = members[(t + 1) % members.length]? := by
  obtain ⟨low, hcloses, _⟩ := h
  have hlt := (List.getElem?_eq_some_iff.mp hi).1
  have hnext : next? dependsOn i = follow dependsOn (t + 1) low := by
    rw [follow_succ, ← hcloses.met t hlt, hi, Option.bind_some]
  rcases Nat.lt_or_ge (t + 1) members.length with hinner | hlast
  · rw [Nat.mod_eq_of_lt hinner, hcloses.met _ hinner, hnext]
  · obtain hround : t + 1 = members.length := by omega
    rw [hnext, hround, Nat.mod_self, hcloses.met 0 hcloses.first.pos, hcloses.first.returns]
    rfl

/-- A cycle begins with its lowest member. -/
theorem Plan.IsCycle.exists_lowest {dependsOn : List (Option Nat)} {members : List Nat}
    (h : IsCycle dependsOn members) :
    ∃ lowest rest, members = lowest :: rest ∧ ∀ j ∈ rest, lowest < j := by
  obtain ⟨low, hcloses, hlow⟩ := h
  obtain ⟨first, rest, rfl⟩ := List.exists_cons_of_length_pos hcloses.first.pos
  obtain rfl : first = low := Option.some.inj (hcloses.met 0 hcloses.first.pos)
  refine ⟨first, rest, rfl, fun j hj => ?_⟩
  have hne : j ≠ first := fun hsame => (List.nodup_cons.mp hcloses.nodup).1 (hsame ▸ hj)
  have hle := hlow j (List.mem_cons_of_mem _ hj)
  omega

theorem Plan.pairwise_cyclesOf (dependsOn : List (Option Nat)) :
    (cyclesOf dependsOn).Pairwise fun a b => List.Disjoint a b ∧ a.headD 0 < b.headD 0 := by
  have hsorted := (sorted_insertCycles
    ((List.range dependsOn.length).foldl (Walks.start dependsOn) {}).cycles).2
  refine (hsorted.and (cyclesOf_nodup dependsOn)).imp_of_mem fun ha hb hab => ?_
  obtain ⟨hle, hne⟩ := hab
  have hapart : List.Disjoint _ _ := fun i hi hi' => hne (cycle_eq_of_mem ha hb hi hi')
  obtain ⟨low, rest, rfl, _⟩ := (mem_cyclesOf_iff.mp ha).exists_lowest
  obtain ⟨low', rest', rfl, _⟩ := (mem_cyclesOf_iff.mp hb).exists_lowest
  refine ⟨hapart, Nat.lt_of_le_of_ne hle fun hsame => ?_⟩
  exact hapart List.mem_cons_self (List.mem_cons.mpr (.inl hsame))

/-- No mapping is listed twice. -/
theorem Plan.nodup_flatten_cyclesOf (dependsOn : List (Option Nat)) :
    (cyclesOf dependsOn).flatten.Nodup :=
  List.nodup_flatten.mpr
    ⟨fun _ hmembers => cycle_nodup hmembers, (pairwise_cyclesOf dependsOn).imp And.left⟩

/-- The listed cycles are exactly the closed paths: their members are the mappings that lead back
to themselves, none is listed twice, every member is followed by its dependency and the last one
by the first, and both the members of a cycle and the cycles begin with the lowest one. -/
theorem Plan.cyclesOf_exact (dependsOn : List (Option Nat)) :
    (∀ i, (∃ members ∈ cyclesOf dependsOn, i ∈ members) ↔ Returns dependsOn i) ∧
      (cyclesOf dependsOn).flatten.Nodup ∧
      (∀ members ∈ cyclesOf dependsOn,
        (∀ t i, members[t]? = some i →
          next? dependsOn i = members[(t + 1) % members.length]?) ∧
        ∃ lowest rest, members = lowest :: rest ∧ ∀ j ∈ rest, lowest < j) ∧
      (cyclesOf dependsOn).Pairwise fun a b => a.headD 0 < b.headD 0 := by
  refine ⟨fun i => List.mem_flatten.symm.trans mem_flatten_cyclesOf_iff,
    nodup_flatten_cyclesOf dependsOn, fun members hmembers => ?_,
    (pairwise_cyclesOf dependsOn).imp And.right⟩
  have hcycle := mem_cyclesOf_iff.mp hmembers
  exact ⟨fun t i hi => hcycle.next hi, hcycle.exists_lowest⟩

-- Mappings 0 and 3 lead into cycles, and the walk from 3 comes to the path of an earlier one.
example : Plan.cyclesOf [some 2, some 4, some 1, some 2, some 2, some 5] = [[1, 4, 2], [5]] := by
  decide

end SymbolRename
