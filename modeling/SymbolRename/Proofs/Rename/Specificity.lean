import SymbolRename.Proofs.Rename.Selection
import Mathlib.Data.List.Induction
import Mathlib.Data.List.Sort

/-!
# The most specific capture of a position

Captures collapse to one occurrence for each position, of the most specific kind that is captured
there (`Occurrence.collapses_foldl_insert`; the step is `Occurrence.Collapses.insert`). So which
occurrences are selected depends only on which captures there are, not on their order or on how
often each is reported: `Occurrence.select_exact`.
-/

namespace SymbolRename.Occurrence

/-- The occurrence is one of the captures, and none at its position is more specific. -/
structure Wins (captures : List Capture) (o : Occurrence) : Prop where
  captured : ∃ c ∈ captures, ofCapture c = o
  most : ∀ c ∈ captures, (ofCapture c).position = o.position →
    specificity c.kind ≤ specificity o.kind

/-- Captures collapsed to occurrences that ascend, one for each position. -/
structure Collapses (captures : List Capture) (found : List Occurrence) : Prop where
  ascend : found.Pairwise Before
  wins : ∀ o ∈ found, Wins captures o
  covers : ∀ c ∈ captures, ∃ o ∈ found, o.position = (ofCapture c).position

/-- The captures of a name that may be renamed. -/
def usesOf (captures : List Capture) (name : String) : List Capture :=
  captures.filter fun c => c.text == name && !c.kind.isExcluded

theorem mem_usesOf_iff {captures : List Capture} {name : String} {c : Capture} :
    c ∈ usesOf captures name ↔ c ∈ captures ∧ c.text = name ∧ c.kind.isExcluded = false := by
  simp [usesOf]

/-! ### Positions -/

theorem Before.ne {o p : Occurrence} (h : Before o p) : o.position ≠ p.position := by
  intro heq
  have hbefore := Location.before_iff.mp h
  rw [heq] at hbefore
  omega

instance : Std.Irrefl Before := ⟨fun _ h => h.ne rfl⟩

instance : Std.Antisymm Before where
  antisymm o p hop hpo := by
    have hop := Location.before_iff.mp hop
    have hpo := Location.before_iff.mp hpo
    omega

/-! ### One more capture -/

/-- Of two occurrences at one position the more specific one stays. -/
theorem wins_of_mem_insert {o p : Occurrence} {found : List Occurrence}
    (h : found.Pairwise Before) (hp : p ∈ insert o found) :
    p ∈ found ∧ (p.position = o.position → specificity o.kind ≤ specificity p.kind) ∨
      p = o ∧ ∀ q ∈ found, q.position = o.position → specificity q.kind ≤ specificity o.kind := by
  induction found with
  | nil => exact .inr ⟨List.mem_singleton.mp hp, nofun⟩
  | cons first rest ih =>
    obtain ⟨hfirst, hrest⟩ := List.pairwise_cons.mp h
    rw [insert] at hp
    split at hp
    · rename_i hbefore
      -- The position is new: all of these come behind it.
      have hbehind : ∀ q ∈ first :: rest, q.position ≠ o.position := by
        intro q hq
        rcases List.mem_cons.mp hq with rfl | hq
        · exact (Before.ne hbefore).symm
        · have hthere := Location.before_iff.mp (hfirst q hq)
          have hhere := Location.before_iff.mp hbefore
          exact (Before.ne (Location.before_iff.mpr (by omega) : Before o q)).symm
      rcases List.mem_cons.mp hp with rfl | hp
      · exact .inr ⟨rfl, fun q hq heq => absurd heq (hbehind q hq)⟩
      · exact .inl ⟨hp, fun heq => absurd heq (hbehind p hp)⟩
    · split at hp
      · rename_i hsame
        have hother : ∀ q ∈ rest, q.position ≠ o.position := fun q hq heq =>
          (hfirst q hq).ne (hsame.trans heq.symm)
        rcases List.mem_cons.mp hp with heq | hp
        · split at heq
          · rename_i hle
            subst heq
            exact .inl ⟨List.mem_cons_self, fun _ => hle⟩
          · rename_i hnot
            refine .inr ⟨heq, fun q hq hposition => ?_⟩
            rcases List.mem_cons.mp hq with rfl | hq
            · omega
            · exact absurd hposition (hother q hq)
        · exact .inl ⟨List.mem_cons_of_mem first hp, fun heq => absurd heq (hother p hp)⟩
      · rename_i hother
        rcases List.mem_cons.mp hp with rfl | hp
        · exact .inl ⟨List.mem_cons_self, fun heq => absurd heq hother⟩
        · rcases ih hrest hp with ⟨hmem, hle⟩ | ⟨heq, hle⟩
          · exact .inl ⟨List.mem_cons_of_mem first hmem, hle⟩
          · refine .inr ⟨heq, fun q hq hposition => ?_⟩
            rcases List.mem_cons.mp hq with rfl | hq
            · exact absurd hposition hother
            · exact hle q hq hposition

/-- Inserting an occurrence adds its position. -/
theorem mem_positions_insert {o : Occurrence} {found : List Occurrence} {position : Nat × Nat} :
    position ∈ (insert o found).map Occurrence.position ↔
      position = o.position ∨ position ∈ found.map Occurrence.position := by
  induction found with
  | nil => simp [insert]
  | cons first rest ih =>
    rw [insert]
    split
    · exact List.mem_cons
    · split
      · rename_i hsame
        have hkept : (if specificity o.kind ≤ specificity first.kind then first else o).position =
            o.position := by
          split
          · exact hsame
          · rfl
        simp only [List.map_cons, List.mem_cons, hkept, hsame, or_self_left]
      · simp only [List.map_cons, List.mem_cons, ih]
        exact or_left_comm

theorem Collapses.insert {captures : List Capture} {found : List Occurrence}
    (h : Collapses captures found) (c : Capture) :
    Collapses (captures ++ [c]) (Occurrence.insert (ofCapture c) found) := by
  refine ⟨insert_ascends h.ascend, fun o ho => ?_, fun d hd => ?_⟩
  · rcases wins_of_mem_insert h.ascend ho with ⟨ho, hle⟩ | ⟨rfl, hle⟩
    · obtain ⟨⟨d, hd, hcaptured⟩, hmost⟩ := h.wins o ho
      refine ⟨⟨d, List.mem_append_left _ hd, hcaptured⟩, fun e he hposition => ?_⟩
      rcases List.mem_append.mp he with he | he
      · exact hmost e he hposition
      · obtain rfl := List.mem_singleton.mp he
        exact hle hposition.symm
    · refine ⟨⟨c, List.mem_append_right _ (List.mem_singleton.mpr rfl), rfl⟩,
        fun e he hposition => ?_⟩
      rcases List.mem_append.mp he with he | he
      · obtain ⟨q, hq, hat⟩ := h.covers e he
        exact ((h.wins q hq).most e he hat.symm).trans (hle q hq (hat.trans hposition))
      · obtain rfl := List.mem_singleton.mp he
        exact Nat.le_refl _
  · have hposition : (ofCapture d).position ∈
        (Occurrence.insert (ofCapture c) found).map Occurrence.position := by
      rw [mem_positions_insert]
      rcases List.mem_append.mp hd with hd | hd
      · obtain ⟨o, ho, hat⟩ := h.covers d hd
        exact .inr (List.mem_map.mpr ⟨o, ho, hat⟩)
      · obtain rfl := List.mem_singleton.mp hd
        exact .inl rfl
    exact List.mem_map.mp hposition

theorem collapses_foldl_insert (captures : List Capture) :
    Collapses captures
      (captures.foldl (fun found c => Occurrence.insert (ofCapture c) found) []) := by
  induction captures using List.reverseRecOn with
  | nil => exact ⟨.nil, nofun, nofun⟩
  | append_singleton captures c ih =>
    rw [List.foldl_concat]
    exact ih.insert c

/-! ### What is selected -/

/-- Kinds that may be renamed differ in how specific they are. -/
theorem eq_of_specificity_eq {a b : CaptureKind} (ha : a.isExcluded = false)
    (hb : b.isExcluded = false) (h : specificity a = specificity b) : a = b := by
  cases a <;> cases b <;>
    first | rfl | exact absurd ha (by decide) | exact absurd hb (by decide) | exact absurd h (by decide)

section

variable {captures : List Capture} {name : String} {range : Option LineRange}

/-- An occurrence is selected when it wins among the uses of the name, its line is in the range,
and no excluded capture of the name claims its position. -/
theorem mem_select_iff_of_wins {o : Occurrence} (h : Wins (usesOf captures name) o) :
    (∃ p ∈ select captures name range, p.position = o.position) ↔
      range.all (·.contains o.location.line) = true ∧
        ∀ c ∈ captures, c.kind.isExcluded = true → c.text = name →
          (ofCapture c).position ≠ o.position := by
  constructor
  · rintro ⟨p, hp, hposition⟩
    obtain ⟨_, _, _, _, _, hrange⟩ := captured_of_mem_select hp
    have hline : p.location.line = o.location.line := congrArg Prod.fst hposition
    refine ⟨hline ▸ hrange, fun c hc hkind htext heq => ?_⟩
    exact unclaimed_of_mem_select hp hc hkind htext (heq.trans hposition.symm)
  · rintro ⟨hrange, hunclaimed⟩
    obtain ⟨c, hc, rfl⟩ := h.captured
    obtain ⟨hc, htext, hkind⟩ := mem_usesOf_iff.mp hc
    have hrelevant : c ∈ (captures.filter (isRelevant name range)).filter (!·.kind.isExcluded) :=
      List.mem_filter.mpr ⟨List.mem_filter.mpr ⟨hc, isRelevant_iff.mpr ⟨htext, hrange⟩⟩,
        by simp [hkind]⟩
    obtain ⟨p, hp, hposition⟩ := (collapses_foldl_insert _).covers c hrelevant
    refine ⟨p, List.mem_filter.mpr ⟨hp, ?_⟩, hposition⟩
    simp only [Bool.not_eq_true', List.contains_eq_mem, decide_eq_false_iff_not]
    intro hclaimed
    obtain ⟨d, hd, hat⟩ := List.mem_map.mp hclaimed
    obtain ⟨hd, hkind⟩ := List.mem_filter.mp hd
    obtain ⟨hd, hrelevant⟩ := List.mem_filter.mp hd
    exact hunclaimed d hd hkind (isRelevant_iff.mp hrelevant).1 (hat.trans hposition)

/-- A selected occurrence wins among all uses of the name: those out of the range stand on other
lines. -/
theorem wins_of_mem_select {o : Occurrence} (h : o ∈ select captures name range) :
    Wins (usesOf captures name) o := by
  obtain ⟨_, _, _, _, _, hrange⟩ := captured_of_mem_select h
  obtain ⟨⟨c, hc, hcaptured⟩, hmost⟩ :=
    (collapses_foldl_insert _).wins o (List.mem_filter.mp h).1
  obtain ⟨hrelevant, hkind⟩ := List.mem_filter.mp hc
  obtain ⟨hc, hrelevant⟩ := List.mem_filter.mp hrelevant
  refine ⟨⟨c, mem_usesOf_iff.mpr ⟨hc, (isRelevant_iff.mp hrelevant).1, by simpa using hkind⟩,
    hcaptured⟩, fun d hd hposition => hmost d ?_ hposition⟩
  obtain ⟨hd, htext, hkind⟩ := mem_usesOf_iff.mp hd
  have hline : d.location.line = o.location.line := congrArg Prod.fst hposition
  exact List.mem_filter.mpr ⟨List.mem_filter.mpr ⟨hd, isRelevant_iff.mpr ⟨htext, hline ▸ hrange⟩⟩,
    by simp [hkind]⟩

/-- Among uses of one name in one file at most one occurrence wins at a position. -/
theorem Wins.eq {o p : Occurrence} (ho : Wins (usesOf captures name) o)
    (hp : Wins (usesOf captures name) p)
    (hfile : ∀ c ∈ captures, ∀ d ∈ captures, c.location.file = d.location.file)
    (hposition : o.position = p.position) : o = p := by
  obtain ⟨c, hc, rfl⟩ := ho.captured
  obtain ⟨d, hd, rfl⟩ := hp.captured
  have hkind : c.kind = d.kind := eq_of_specificity_eq (mem_usesOf_iff.mp hc).2.2
    (mem_usesOf_iff.mp hd).2.2 (Nat.le_antisymm (hp.most c hc hposition)
      (ho.most d hd hposition.symm))
  obtain ⟨hcmem, hctext, _⟩ := mem_usesOf_iff.mp hc
  obtain ⟨hdmem, hdtext, _⟩ := mem_usesOf_iff.mp hd
  have hlocation : c.location = d.location := by
    obtain ⟨hline, hcolumn⟩ := Prod.mk.inj hposition
    have hsame := hfile c hcmem d hdmem
    cases hcl : c.location
    cases hdl : d.location
    simp only [ofCapture, hcl, hdl] at hline hcolumn hsame
    rw [hline, hcolumn, hsame]
  rw [ofCapture, ofCapture, hkind, hlocation, hctext, hdtext]

/-- The uses of a name are those of any list with the same captures. -/
theorem Wins.congr {captures' : List Capture} {o : Occurrence}
    (h : Wins (usesOf captures name) o) (hsame : ∀ c, c ∈ captures' ↔ c ∈ captures) :
    Wins (usesOf captures' name) o := by
  have huses : ∀ c, c ∈ usesOf captures' name ↔ c ∈ usesOf captures name := fun c => by
    rw [mem_usesOf_iff, mem_usesOf_iff, hsame c]
  obtain ⟨c, hc, hcaptured⟩ := h.captured
  exact ⟨⟨c, (huses c).mpr hc, hcaptured⟩, fun d hd => h.most d ((huses d).mp hd)⟩

/-- Lists with the same captures of one file select the same occurrences. -/
theorem select_subset {captures' : List Capture} (hsame : ∀ c, c ∈ captures' ↔ c ∈ captures)
    (hfile : ∀ c ∈ captures, ∀ d ∈ captures, c.location.file = d.location.file) {o : Occurrence}
    (ho : o ∈ select captures name range) : o ∈ select captures' name range := by
  have hwins := wins_of_mem_select ho
  obtain ⟨hrange, hunclaimed⟩ := (mem_select_iff_of_wins hwins).mp ⟨o, ho, rfl⟩
  obtain ⟨p, hp, hposition⟩ := (mem_select_iff_of_wins (hwins.congr hsame)).mpr
    ⟨hrange, fun c hc => hunclaimed c ((hsame c).mp hc)⟩
  have hwins' := (wins_of_mem_select hp).congr fun c => (hsame c).symm
  rwa [← hwins'.eq hwins hfile hposition]

/-- For all captures of one file, every name and every range: the selected occurrences ascend; a
position is selected exactly when a use of the name stands there, its line is in the range and no
excluded capture of the name stands there; the kind is the most specific of the uses there; and
only which captures there are matters, not their order or how often each is given. -/
theorem select_exact (captures : List Capture)
    (hfile : ∀ c ∈ captures, ∀ d ∈ captures, c.location.file = d.location.file) (name : String)
    (range : Option LineRange) :
    (select captures name range).Pairwise Before ∧
      (∀ position, (∃ o ∈ select captures name range, o.position = position) ↔
        (∃ c ∈ captures, c.kind.isExcluded = false ∧ c.text = name ∧
          (ofCapture c).position = position) ∧
        range.all (·.contains position.1) = true ∧
        ∀ c ∈ captures, c.kind.isExcluded = true → c.text = name →
          (ofCapture c).position ≠ position) ∧
      (∀ o ∈ select captures name range,
        (∃ c ∈ captures, c.kind.isExcluded = false ∧ c.text = name ∧ ofCapture c = o) ∧
        ∀ c ∈ captures, c.kind.isExcluded = false → c.text = name →
          (ofCapture c).position = o.position → c.kind = o.kind ∨
            specificity c.kind < specificity o.kind) ∧
      ∀ captures', (∀ c, c ∈ captures' ↔ c ∈ captures) →
        select captures' name range = select captures name range := by
  have hcollapses := collapses_foldl_insert (usesOf captures name)
  refine ⟨select_ascends captures name range, fun position => ⟨?_, ?_⟩, fun o ho => ?_,
    fun captures' hsame => ?_⟩
  · rintro ⟨o, ho, rfl⟩
    have hwins := wins_of_mem_select ho
    obtain ⟨c, hc, rfl⟩ := hwins.captured
    obtain ⟨hc, htext, hkind⟩ := mem_usesOf_iff.mp hc
    exact ⟨⟨c, hc, hkind, htext, rfl⟩, (mem_select_iff_of_wins hwins).mp ⟨_, ho, rfl⟩⟩
  · rintro ⟨⟨c, hc, hkind, htext, rfl⟩, hrange, hunclaimed⟩
    obtain ⟨o, ho, hposition⟩ := hcollapses.covers c (mem_usesOf_iff.mpr ⟨hc, htext, hkind⟩)
    have hline : o.location.line = c.location.line := congrArg Prod.fst hposition
    rw [← hposition] at hunclaimed ⊢
    exact (mem_select_iff_of_wins (hcollapses.wins o ho)).mpr ⟨hline ▸ hrange, hunclaimed⟩
  · have hwins := wins_of_mem_select ho
    obtain ⟨c, hc, rfl⟩ := hwins.captured
    obtain ⟨hc, htext, hkind⟩ := mem_usesOf_iff.mp hc
    refine ⟨⟨c, hc, hkind, htext, rfl⟩, fun d hd hkind' htext' hposition => ?_⟩
    have hle := hwins.most d (mem_usesOf_iff.mpr ⟨hd, htext', hkind'⟩) hposition
    exact (Nat.eq_or_lt_of_le hle).imp_left (eq_of_specificity_eq hkind' hkind)
  · have hfile' : ∀ c ∈ captures', ∀ d ∈ captures', c.location.file = d.location.file :=
      fun c hc d hd => hfile c ((hsame c).mp hc) d ((hsame d).mp hd)
    exact (select_ascends captures' name range).eq_of_mem_iff
      (select_ascends captures name range) fun o =>
        ⟨select_subset (fun c => (hsame c).symm) hfile', select_subset hsame hfile⟩

/-- A definition, a reference and a comment at three places, given in one order and, with the
reference twice, in another. -/
theorem select_exact_mixed :
    let file : Path := ⟨"a.rs"⟩
    let definition : Capture := ⟨.definition, ⟨file, 1, 3⟩, "run"⟩
    let reference : Capture := ⟨.reference, ⟨file, 1, 3⟩, "run"⟩
    let comment : Capture := ⟨.comment, ⟨file, 2, 0⟩, "run"⟩
    let claimed : Capture := ⟨.reference, ⟨file, 2, 0⟩, "run"⟩
    (∀ c ∈ [definition, reference, comment, claimed],
      ∀ d ∈ [definition, reference, comment, claimed], c.location.file = d.location.file) ∧
    select [definition, reference, comment, claimed] "run" none = [⟨.definition, ⟨file, 1, 3⟩, "run"⟩] ∧
    select [claimed, reference, definition, comment, reference] "run" none =
      [⟨.definition, ⟨file, 1, 3⟩, "run"⟩] := by
  intro file definition reference comment claimed
  have hfile : ∀ c ∈ [definition, reference, comment, claimed],
      ∀ d ∈ [definition, reference, comment, claimed], c.location.file = d.location.file := by
    decide
  have hselect : select [definition, reference, comment, claimed] "run" none =
      [⟨.definition, ⟨file, 1, 3⟩, "run"⟩] := by decide
  obtain ⟨_, _, _, hsame⟩ :=
    select_exact [definition, reference, comment, claimed] hfile "run" none
  refine ⟨hfile, hselect, (hsame _ fun c => ?_).trans hselect⟩
  simp only [List.mem_cons, List.not_mem_nil, or_false]
  tauto

end

end SymbolRename.Occurrence
