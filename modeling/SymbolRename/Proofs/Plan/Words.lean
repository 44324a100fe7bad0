import SymbolRename.Proofs.Lexer.Renaming
import SymbolRename.Proofs.Plan.Steps
import SymbolRename.Proofs.Rewrite.Splice

/-!
# Steps on the words of a text

What the steps of a plan do to the words of code in a text: each step replaces one word,
and over the whole plan every word goes to its target. A word is counted by the one step
that takes it away from its own name.
-/

namespace SymbolRename

/-- What a word becomes when the steps are run in order. -/
def Plan.replayWord (steps : List PlanStep) (w : Bytes) : Bytes :=
  steps.foldl (fun word step => Bytes.replaceWord (bytes step.old) (bytes step.new) word) w

/-- Where a mapping set sends a word: to the new name of the first mapping whose old name
it is, and to itself without one. -/
def Mapping.targetWord (mappings : List Mapping) (w : Bytes) : Bytes :=
  ((mappings.find? fun m => bytes m.old == w).map fun m => bytes m.new).getD w

theorem Bytes.replaceWord_bytes (old new name : String) :
    replaceWord (bytes old) (bytes new) (bytes name) = bytes (if name = old then new else name) := by
  unfold replaceWord
  by_cases h : name = old
  · rw [if_pos (congrArg bytes h), if_pos h]
  · rw [if_neg fun heq => h (bytes_injective heq), if_neg h]

/-- On a name the replayed word is the replayed name. -/
theorem Plan.replayWord_bytes (steps : List PlanStep) (name : String) :
    replayWord steps (bytes name) = bytes (replay steps name) := by
  induction steps generalizing name with
  | nil => rfl
  | cons step rest ih =>
    rw [replay_cons, ← ih, ← Bytes.replaceWord_bytes]
    rfl

/-- A word that is no text is no name, so it stays. -/
theorem Plan.replayWord_of_not_isText {w : Bytes} (h : ¬ Utf8.IsText w) (steps : List PlanStep) :
    replayWord steps w = w := by
  induction steps with
  | nil => rfl
  | cons step rest ih =>
    have hkept : Bytes.replaceWord (bytes step.old) (bytes step.new) w = w :=
      if_neg fun heq => h ⟨step.old, heq⟩
    show replayWord rest (Bytes.replaceWord (bytes step.old) (bytes step.new) w) = w
    rw [hkept, ih]

theorem Plan.replayWord_concat (steps : List PlanStep) (step : PlanStep) (w : Bytes) :
    replayWord (steps ++ [step]) w =
      Bytes.replaceWord (bytes step.old) (bytes step.new) (replayWord steps w) := by
  simp [replayWord]

/-- On a name the target of the word is the target of the name. -/
theorem Mapping.targetWord_bytes (mappings : List Mapping) (name : String) :
    targetWord mappings (bytes name) = bytes (target mappings name) := by
  have hnames : ∀ m : Mapping, (bytes m.old == bytes name) = (m.old == name) := by
    intro m
    by_cases h : m.old = name
    · simp [h]
    · rw [beq_eq_false_iff_ne.mpr h, beq_eq_false_iff_ne.mpr fun heq => h (bytes_injective heq)]
  unfold targetWord target
  simp only [hnames]
  cases mappings.find? (·.old == name) <;> rfl

theorem Mapping.targetWord_of_not_isText {w : Bytes} (h : ¬ Utf8.IsText w)
    (mappings : List Mapping) : targetWord mappings w = w := by
  have hnone : mappings.find? (fun m => bytes m.old == w) = none := by
    refine List.find?_eq_none.mpr fun m _ heq => h ⟨m.old, ?_⟩
    exact (beq_iff_eq.mp heq).symm
  unfold targetWord
  rw [hnone]
  rfl

/-- A safe plan takes every word but its own temporary names to its target. -/
theorem Plan.Safe.replayWord {mappings : List Mapping} {p : Plan} (h : Safe mappings p)
    {w : Bytes} (hw : ∀ name ∈ p.allocated, bytes name ≠ w) :
    Plan.replayWord p.steps w = Mapping.targetWord mappings w := by
  by_cases htext : Utf8.IsText w
  · obtain ⟨name, rfl⟩ := htext
    rw [replayWord_bytes, Mapping.targetWord_bytes,
      h.replay name fun hname => hw name hname rfl]
  · rw [replayWord_of_not_isText htext, Mapping.targetWord_of_not_isText htext]

/-- Steps that write identifiers take words to words. -/
theorem Plan.mapsWords_replayWord {steps : List PlanStep}
    (h : ∀ step ∈ steps, isValidIdentifier step.new = true) :
    Bytes.MapsWords (replayWord steps) := by
  induction steps with
  | nil => exact fun w hw => hw
  | cons step rest ih =>
    intro w hw
    refine ih (fun s hs => h s (List.mem_cons_of_mem step hs)) _ ?_
    show (if w = bytes step.old then bytes step.new else w).IsWord
    split
    · exact Bytes.isWord_of_isValidIdentifier (h step List.mem_cons_self)
    · exact hw

/-! ### Counting -/

/-- A step takes a word exactly when it is the old name of its mapping, and the mapping is
the first with this name. -/
theorem Plan.Safe.replayWord_eq_old_iff {mappings : List Mapping} {p : Plan}
    (h : Safe mappings p) {before after : List PlanStep} {step : PlanStep}
    (hsplit : p.steps = before ++ step :: after) {m : Mapping}
    (hm : mappings[step.origin]? = some m) {w : Bytes}
    (hw : ∀ name ∈ p.allocated, bytes name ≠ w) :
    Plan.replayWord before w = bytes step.old ↔
      w = bytes m.old ∧ Mapping.firstFor mappings m.old = some step.origin := by
  by_cases htext : Utf8.IsText w
  · obtain ⟨name, rfl⟩ := htext
    have hname : name ∉ p.allocated := fun hmem => hw name hmem rfl
    have hpicks := h.picks before step after hsplit name hname
    rw [List.nil_append] at hpicks
    rw [replayWord_bytes]
    constructor
    · intro heq
      have hfirst := hpicks.mp (bytes_injective heq)
      obtain ⟨⟨n, hn, hold⟩, _⟩ := Mapping.firstFor_eq_some_iff.mp hfirst
      obtain rfl := Option.some.inj (hm.symm.trans hn)
      subst hold
      exact ⟨rfl, hfirst⟩
    · rintro ⟨heq, hfirst⟩
      obtain rfl := bytes_injective heq
      exact congrArg bytes (hpicks.mpr hfirst)
  · rw [replayWord_of_not_isText htext]
    exact ⟨fun heq => absurd ⟨_, heq⟩ htext, fun heq => absurd ⟨_, heq.1⟩ htext⟩

/-- How many of the words a step takes. -/
theorem Plan.Safe.count_replayWord {mappings : List Mapping} {p : Plan}
    (h : Safe mappings p) {before after : List PlanStep} {step : PlanStep}
    (hsplit : p.steps = before ++ step :: after) {m : Mapping}
    (hm : mappings[step.origin]? = some m) {words : List Bytes}
    (hwords : ∀ name ∈ p.allocated, bytes name ∉ words) :
    (words.map (Plan.replayWord before)).count (bytes step.old) =
      if Mapping.firstFor mappings m.old = some step.origin then words.count (bytes m.old)
      else 0 := by
  have htakes : ∀ w ∈ words, Plan.replayWord before w = bytes step.old ↔
      w = bytes m.old ∧ Mapping.firstFor mappings m.old = some step.origin := by
    refine fun w hw => h.replayWord_eq_old_iff hsplit hm fun name hname heq => ?_
    exact hwords name hname (heq ▸ hw)
  split
  · rename_i hfirst
    rw [List.count, List.count, List.countP_map]
    refine List.countP_congr fun w hw => ?_
    simpa [hfirst] using htakes w hw
  · rename_i hfirst
    refine List.count_eq_zero.mpr fun hmem => ?_
    obtain ⟨w, hw, heq⟩ := List.mem_map.mp hmem
    exact hfirst ((htakes w hw).mp heq).2

/-- The step takes the old name of this mapping away. -/
def PlanStep.Takes (i : Nat) (old : String) (step : PlanStep) : Prop :=
  step.origin = i ∧ step.old = old

instance (i : Nat) (old : String) : DecidablePred (PlanStep.Takes i old) := fun step => by
  unfold PlanStep.Takes
  infer_instance

/-- The first mapping with an old name has one step that takes it away. -/
theorem Plan.Safe.countP_takes {mappings : List Mapping} {taken : List String} {p : Plan}
    (h : Safe mappings p) (hsound : Sound mappings taken p)
    (hproper : ∀ m ∈ mappings, m.IsProper) {i : Nat} {m : Mapping} (hm : mappings[i]? = some m)
    (hfirst : Mapping.firstFor mappings m.old = some i) :
    p.steps.countP (PlanStep.Takes i m.old) = 1 := by
  obtain ⟨before, step, after, hsplit, horigin, hold, hothers⟩ :=
    h.exists_step hsound hproper hm hfirst
  have hnone : ∀ steps : List PlanStep, (∀ other ∈ steps, other ∈ before ++ after) →
      steps.countP (PlanStep.Takes i m.old) = 0 := by
    intro steps hsteps
    refine List.countP_eq_zero.mpr fun other hother htakes => ?_
    obtain ⟨horigin, hold⟩ := of_decide_eq_true htakes
    exact hothers other (hsteps other hother) horigin hold
  have htakes : PlanStep.Takes i m.old step := ⟨horigin, hold⟩
  rw [hsplit, List.countP_append, List.countP_cons,
    hnone before fun _ => List.mem_append_left after,
    hnone after fun _ => List.mem_append_right before, if_pos (decide_eq_true htakes)]

end SymbolRename
