import SymbolRename.Proofs.Fallible
import SymbolRename.Proofs.Rewrite.Splice

/-!
# Spans that lie in their lines

Occurrences whose columns lie in their lines have offsets that ascend with their positions,
and whole words at ascending offsets do not overlap. So such occurrences never meet a number that
is too large or spans that are out of order.
-/

namespace SymbolRename

/-- The column lies in its line; of a line that there is not, it can at least be shown. -/
def Location.InLine (content : Bytes) (l : Location) : Prop :=
  l.column ≤ (Rewrite.lineBytes content l.line).length ∨
    (Rewrite.lineStarts content).length < l.line ∧ l.column + 1 < Count.limit

/-- The column lies in its line if there is such a line, and can be shown if there is none. -/
structure Location.WithinLine (content : Bytes) (l : Location) : Prop where
  column : l.line ≠ 0 → l.line ≤ (Rewrite.lineStarts content).length →
    l.column ≤ (Rewrite.lineBytes content l.line).length
  shown : l.column + 1 < Count.limit

instance (content : Bytes) (l : Location) : Decidable (l.WithinLine content) :=
  decidable_of_iff ((l.line ≠ 0 → l.line ≤ (Rewrite.lineStarts content).length →
    l.column ≤ (Rewrite.lineBytes content l.line).length) ∧ l.column + 1 < Count.limit)
    ⟨fun h => ⟨h.1, h.2⟩, fun h => ⟨h.column, h.shown⟩⟩

/-- A column in its line is shown in every text that can be counted. -/
theorem Location.InLine.within {content : Bytes} {l : Location} (h : l.InLine content)
    (hfits : content.length + 1 < Count.limit) : l.WithinLine content := by
  rcases h with hcolumn | ⟨hline, hshown⟩
  · have hlength : (Rewrite.lineBytes content l.line).length ≤ content.length := by
      refine ((List.takeWhile_prefix _).length_le).trans ?_
      rw [List.length_drop]
      exact Nat.sub_le _ _
    exact ⟨fun _ _ => hcolumn, by omega⟩
  · exact ⟨fun _ hle => absurd hle (Nat.not_le.mpr hline), hshown⟩

namespace Rewrite

/-! ### Where lines begin -/

theorem mem_startsAfter {offset start : Nat} {content : Bytes}
    (h : start ∈ startsAfter offset content) :
    ∃ i, start = offset + i + 1 ∧ content[i]? = some Bytes.newline := by
  induction content generalizing offset with
  | nil => exact absurd h List.not_mem_nil
  | cons b rest ih =>
    have hlater : start ∈ startsAfter (offset + 1) rest →
        ∃ i, start = offset + i + 1 ∧ (b :: rest)[i]? = some Bytes.newline := by
      intro hmem
      obtain ⟨i, rfl, hat⟩ := ih hmem
      exact ⟨i + 1, by omega, hat⟩
    rw [startsAfter] at h
    split at h
    · rename_i hb
      rcases List.mem_cons.mp h with rfl | h
      · exact ⟨0, rfl, by rw [hb]; rfl⟩
      · exact hlater h
    · exact hlater h

theorem pairwise_startsAfter (offset : Nat) (content : Bytes) :
    (startsAfter offset content).Pairwise (· < ·) := by
  induction content generalizing offset with
  | nil => exact .nil
  | cons b rest ih =>
    rw [startsAfter]
    split
    · refine List.pairwise_cons.mpr ⟨fun start hstart => ?_, ih (offset + 1)⟩
      obtain ⟨i, rfl, _⟩ := mem_startsAfter hstart
      omega
    · exact ih (offset + 1)

theorem pairwise_lineStarts (content : Bytes) : (lineStarts content).Pairwise (· < ·) := by
  refine List.pairwise_cons.mpr ⟨fun start hstart => ?_, pairwise_startsAfter 0 content⟩
  obtain ⟨i, rfl, _⟩ := mem_startsAfter hstart
  omega

/-- A line after another begins just after a line feed. -/
theorem newline_before_lineStart {content : Bytes} {i j start next : Nat} (hij : i < j)
    (hi : (lineStarts content)[i]? = some start) (hj : (lineStarts content)[j]? = some next) :
    start < next ∧ content[next - 1]? = some Bytes.newline := by
  obtain ⟨hilt, rfl⟩ := List.getElem?_eq_some_iff.mp hi
  obtain ⟨hjlt, rfl⟩ := List.getElem?_eq_some_iff.mp hj
  refine ⟨List.pairwise_iff_getElem.mp (pairwise_lineStarts content) i j hilt hjlt hij, ?_⟩
  obtain ⟨k, rfl⟩ := Nat.exists_eq_succ_of_ne_zero (Nat.ne_of_gt (Nat.zero_lt_of_lt hij))
  have hmem : (lineStarts content)[k + 1] ∈ startsAfter 0 content := List.getElem_mem _
  obtain ⟨m, hm, hat⟩ := mem_startsAfter hmem
  rw [hm]
  simpa using hat

/-- In a line, before its end, there is no line feed. -/
theorem lineBytes_ne_newline {content : Bytes} {line start i : Nat}
    (hstart : (lineStarts content)[line - 1]? = some start)
    (hi : i < (lineBytes content line).length) :
    ∃ b, content[start + i]? = some b ∧ b ≠ Bytes.newline := by
  have hbytes : lineBytes content line = (content.drop start).takeWhile (· != Bytes.newline) := by
    rw [lineBytes, hstart, Option.getD_some]
  rw [hbytes] at hi
  have hget : (content.drop start)[i]? =
      some ((content.drop start).takeWhile (· != Bytes.newline))[i] := by
    obtain ⟨rest, hrest⟩ := List.takeWhile_prefix (· != Bytes.newline) (l := content.drop start)
    have happend : ((content.drop start).takeWhile (· != Bytes.newline) ++ rest)[i]? = _ :=
      List.getElem?_append_left hi
    rwa [hrest, List.getElem?_eq_getElem hi] at happend
  refine ⟨_, by rw [← List.getElem?_drop]; exact hget, ?_⟩
  exact bne_iff_ne.mp (List.mem_takeWhile_imp (p := (· != Bytes.newline)) (List.getElem_mem hi))

/-- A line ends before the content does. -/
theorem lineStart_add_le {content : Bytes} {line start : Nat}
    (hstart : (lineStarts content)[line - 1]? = some start) :
    start + (lineBytes content line).length ≤ content.length := by
  have hlength : (lineBytes content line).length ≤ content.length - start := by
    rw [lineBytes, hstart, Option.getD_some, ← List.length_drop]
    exact List.takeWhile_prefix _ |>.length_le
  have hle : start ≤ content.length := by
    have hmem := List.mem_of_getElem? hstart
    rcases List.mem_cons.mp hmem with rfl | hmem
    · exact Nat.zero_le _
    · obtain ⟨i, rfl, hat⟩ := mem_startsAfter hmem
      have hlt := (List.getElem?_eq_some_iff.mp hat).1
      omega
  omega

/-! ### Offsets of occurrences -/

/-- The occurrence stands at an offset, as a whole word in its line. -/
structure StandsAt (content old : Bytes) (o : Occurrence) (offset : Nat) : Prop where
  line : o.location.line ≠ 0
  start : ∃ start, (lineStarts content)[o.location.line - 1]? = some start ∧
    offset = start + o.location.column
  column : o.location.column ≤ (lineBytes content o.location.line).length
  holds : holds content old offset = true

/-- Where no count overflows, the offset of an occurrence is checked for the name. -/
theorem offsetOf_eq {content : Bytes} {old : String} {o : Occurrence} {start : Nat}
    (hline : o.location.line ≠ 0) (hstart : (lineStarts content)[o.location.line - 1]? = some start)
    (hfits : start + o.location.column + (bytes old).length < Count.limit) :
    offsetOf content (lineStarts content) old o =
      if holds content (bytes old) (start + o.location.column) then
        .ok (start + o.location.column)
      else .error (.mismatch o.location old) := by
  have hoffset : Count.add? start o.location.column = some (start + o.location.column) :=
    Count.add?_eq_some_iff.mpr ⟨rfl, by omega⟩
  have hstop : Count.add? (start + o.location.column) (bytes old).length =
      some (start + o.location.column + (bytes old).length) :=
    Count.add?_eq_some_iff.mpr ⟨rfl, hfits⟩
  unfold offsetOf
  simp only [hline, if_false, hstart, hoffset, hstop, Option.isNone_some, Bool.false_eq_true]

/-- The fault rejects one file, and has a message. -/
def Fault.IsMild (fault : Fault) : Prop := ∃ message, fault.message = .ok message

/-- Spans in their lines are found, or the file is rejected with a message. -/
theorem offsetOf_withinLine {content : Bytes} {old : String}
    (hfits : content.length + (bytes old).length < Count.limit) {o : Occurrence}
    (ho : o.location.WithinLine content) :
    (∃ offset, offsetOf content (lineStarts content) old o = .ok offset ∧
      StandsAt content (bytes old) o offset) ∨
    ∃ fault, offsetOf content (lineStarts content) old o = .error fault ∧ fault.IsMild := by
  have hmild : ∀ fault : Fault,
      fault = .outside o.location ∨ fault = .mismatch o.location old → fault.IsMild := by
    intro fault hfault
    obtain ⟨place, hplace⟩ : ∃ place, o.location.display? = some place := by
      unfold Location.display? Count.add?
      rw [if_pos ho.shown]
      exact ⟨_, rfl⟩
    rcases hfault with rfl | rfl
    · exact ⟨_, by simp only [Fault.message, hplace, Option.elim_some]; rfl⟩
    · exact ⟨_, by simp only [Fault.message, hplace, Option.elim_some]; rfl⟩
  by_cases hline : o.location.line = 0
  · exact .inr ⟨_, by rw [offsetOf, if_pos hline], hmild _ (.inl rfl)⟩
  cases hstart : (lineStarts content)[o.location.line - 1]? with
  | none => exact .inr ⟨_, by rw [offsetOf, if_neg hline, hstart], hmild _ (.inl rfl)⟩
  | some start =>
    have hin : o.location.column ≤ (lineBytes content o.location.line).length := by
      have hlt := (List.getElem?_eq_some_iff.mp hstart).1
      exact ho.column hline (by omega)
    have hend := lineStart_add_le hstart
    rw [offsetOf_eq hline hstart (by omega)]
    cases hholds : holds content (bytes old) (start + o.location.column) with
    | true => exact .inl ⟨_, rfl, hline, ⟨start, hstart, rfl⟩, hin, hholds⟩
    | false => exact .inr ⟨_, rfl, hmild _ (.inr rfl)⟩

/-- Offsets ascend with the positions. -/
theorem StandsAt.lt {content old : Bytes} {o o' : Occurrence} {offset offset' : Nat}
    (h : StandsAt content old o offset) (h' : StandsAt content old o' offset')
    (hbefore : Location.before o.position o'.position = true) : offset < offset' := by
  obtain ⟨start, hstart, rfl⟩ := h.start
  obtain ⟨start', hstart', rfl⟩ := h'.start
  rcases Location.before_iff.mp hbefore with hline | ⟨hline, hcolumn⟩
  · have hline : o.location.line < o'.location.line := hline
    have hne := h.line
    obtain ⟨hlt, hnewline⟩ := newline_before_lineStart (by omega) hstart hstart'
    by_contra hge
    -- The line feed before the later line would stand inside the earlier one.
    have hcolumn := h.column
    obtain ⟨b, hb, hother⟩ := lineBytes_ne_newline (i := start' - 1 - start) hstart (by omega)
    rw [show start + (start' - 1 - start) = start' - 1 by omega, hnewline] at hb
    exact hother (Option.some.inj hb).symm
  · have hline : o.location.line = o'.location.line := hline
    have hcolumn : o.location.column < o'.location.column := hcolumn
    rw [hline, hstart'] at hstart
    obtain rfl := Option.some.inj hstart
    omega

/-- A whole word at a later offset begins behind the earlier one. -/
theorem add_length_le_of_holds {content old : Bytes} (hold : ∀ b ∈ old, isIdentifierByte b = true)
    {offset offset' : Nat} (hlt : offset < offset') (h : holds content old offset = true)
    (h' : holds content old offset' = true) : offset + old.length ≤ offset' := by
  by_contra hover
  simp only [holds, Bool.and_eq_true] at h h'
  obtain ⟨rest, hrest⟩ := Bytes.startsWith_iff.mp h.1.1
  -- The byte before the later word belongs to the earlier one.
  have hget : content[offset' - 1]? = old[offset' - 1 - offset]? := by
    have hdrop : (content.drop offset)[offset' - 1 - offset]? = content[offset' - 1]? := by
      rw [List.getElem?_drop]
      congr 1
      omega
    rw [← hdrop, hrest, List.getElem?_append_left (by omega)]
  have hin : offset' - 1 - offset < old.length := by omega
  have hopens := h'.1.2
  rw [opens, hget, List.getElem?_eq_getElem hin, Option.any_some,
    hold _ (List.getElem_mem hin)] at hopens
  simp only [Bool.not_true, Bool.or_false, beq_iff_eq] at hopens
  omega

/-- Spans that begin behind each other are replaced without crossing. -/
theorem exists_splice {content old : Bytes} (new : Bytes) {cursor : Nat} {offsets : List Nat}
    (hcursor : ∀ offset ∈ offsets, cursor ≤ offset)
    (h : offsets.Pairwise fun a b => a + old.length ≤ b) :
    ∃ rewritten, splice content old new cursor offsets = .ok rewritten := by
  induction offsets generalizing cursor with
  | nil => exact ⟨_, rfl⟩
  | cons offset rest ih =>
    obtain ⟨hbehind, hrest⟩ := List.pairwise_cons.mp h
    obtain ⟨tail, htail⟩ := ih hbehind hrest
    have hnot : ¬ offset < cursor := Nat.not_lt.mpr (hcursor offset List.mem_cons_self)
    refine ⟨slice content cursor offset ++ new ++ tail, ?_⟩
    rw [splice, if_neg hnot, htail]
    rfl

/-- The offsets of occurrences in their lines, unless the file is rejected. -/
theorem mapM_offsetOf_withinLine {content : Bytes} {old : String}
    (hfits : content.length + (bytes old).length < Count.limit) {found : List Occurrence}
    (hfound : ∀ o ∈ found, o.location.WithinLine content) :
    (∃ offsets, found.mapM (offsetOf content (lineStarts content) old) = .ok offsets ∧
      List.Forall₂ (StandsAt content (bytes old)) found offsets) ∨
    ∃ fault, found.mapM (offsetOf content (lineStarts content) old) = .error fault ∧
      fault.IsMild := by
  induction found with
  | nil => exact .inl ⟨[], rfl, .nil⟩
  | cons o rest ih =>
    rw [List.mapM_cons]
    rcases offsetOf_withinLine hfits (hfound o List.mem_cons_self) with
      ⟨offset, hoffset, hstands⟩ | ⟨fault, hfault, hmild⟩
    · rw [hoffset]
      rcases ih fun p hp => hfound p (List.mem_cons_of_mem o hp) with
        ⟨offsets, hoffsets, hall⟩ | ⟨fault, hfault, hmild⟩
      · exact .inl ⟨offset :: offsets, by rw [hoffsets]; rfl, .cons hstands hall⟩
      · exact .inr ⟨fault, by rw [hfault]; rfl, hmild⟩
    · exact .inr ⟨fault, by rw [hfault]; rfl, hmild⟩

/-- At each of the offsets found stands one of the occurrences. -/
theorem exists_standsAt {content old : Bytes} {found : List Occurrence} {offsets : List Nat}
    (h : List.Forall₂ (StandsAt content old) found offsets) {offset : Nat}
    (hoffset : offset ∈ offsets) : ∃ o ∈ found, StandsAt content old o offset := by
  obtain ⟨i, hi, rfl⟩ := List.mem_iff_getElem.mp hoffset
  have hlength := h.length_eq
  exact ⟨found[i], List.getElem_mem _, h.get (hlength ▸ hi) hi⟩

/-- Occurrences that ascend do not overlap. -/
theorem pairwise_standsAt {content old : Bytes} (hold : ∀ b ∈ old, isIdentifierByte b = true)
    {found : List Occurrence} {offsets : List Nat}
    (hall : List.Forall₂ (StandsAt content old) found offsets)
    (hascend : found.Pairwise fun o p => Location.before o.position p.position = true) :
    offsets.Pairwise fun a b => a + old.length ≤ b := by
  induction hall with
  | nil => exact .nil
  | @cons o offset rest offsets hstands hall ih =>
    obtain ⟨hfirst, hrest⟩ := List.pairwise_cons.mp hascend
    refine List.pairwise_cons.mpr ⟨fun offset' hoffset' => ?_, ih hrest⟩
    obtain ⟨p, hp, hstands'⟩ := exists_standsAt hall hoffset'
    exact add_length_le_of_holds hold (hstands.lt hstands' (hfirst p hp)) hstands.holds
      hstands'.holds

end Rewrite

end SymbolRename
