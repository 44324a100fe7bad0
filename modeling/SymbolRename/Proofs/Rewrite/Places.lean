import SymbolRename.Proofs.Rewrite.Lines

/-!
# What a rewrite changes

A rewrite of occurrences that ascend and lie in their lines replaces the spans at their positions
and keeps everything else, or rejects the file with a message (`Rewrite.rewrite_withinLine`). All
lines without a replaced span stay as they are (`Rewrite.Replaced.lineBytes_eq`).
-/

namespace SymbolRename

/-- The position denotes a span of its own line that holds the name, with no byte of an
identifier on either side. -/
structure Location.Denotes (l : Location) (content name : Bytes) : Prop where
  line : l.line ≠ 0 ∧ l.line ≤ (Rewrite.lineStarts content).length
  inside : l.column + name.length ≤ (Rewrite.lineBytes content l.line).length
  holds : Rewrite.slice (Rewrite.lineBytes content l.line) l.column (l.column + name.length) = name
  opens : Rewrite.opens (Rewrite.lineBytes content l.line) l.column = true
  closes : Rewrite.closes (Rewrite.lineBytes content l.line) (l.column + name.length) = true

/-- A valid name has a byte. -/
theorem length_pos_of_isValidIdentifier {name : String} (hname : isValidIdentifier name = true) :
    0 < (bytes name).length := by
  refine List.length_pos_iff.mpr fun hnil => ?_
  rw [isValidIdentifier, hnil] at hname
  cases hname

/-- A valid name has no line feed. -/
theorem newline_not_mem_of_isValidIdentifier {name : String} (hname : isValidIdentifier name = true) :
    Bytes.newline ∉ bytes name := fun hmem =>
  absurd (all_isIdentifierByte hname _ hmem) (by decide)

namespace Rewrite

/-- The texts have the same lines outside of a range. -/
structure AgreeOutside (range : Option LineRange) (content rewritten : Bytes) : Prop where
  lines : (lineStarts rewritten).length = (lineStarts content).length
  outside : ∀ line, line ≠ 0 → range.all (·.contains line) = false →
    lineBytes rewritten line = lineBytes content line

/-- A text in which the spans of a name at some positions are replaced, behind a front that is
given. Everything between the spans is kept. -/
inductive Replaced (old new : Bytes) : Bytes → List (Nat × Nat) → Bytes → Bytes → Prop
  | nil (front rest : Bytes) : Replaced old new front [] rest rest
  | cons {front kept rest rest' : Bytes} {line column : Nat} {places : List (Nat × Nat)}
      (hends : EndsAt (front ++ kept) line column)
      (h : Replaced old new (front ++ kept ++ old) places rest rest') :
      Replaced old new front ((line, column) :: places) (kept ++ old ++ rest)
        (kept ++ new ++ rest')

/-! ### Lines of a text -/

theorem length_startsAfter (offset : Nat) (content : Bytes) :
    (startsAfter offset content).length = content.count Bytes.newline := by
  induction content generalizing offset with
  | nil => rfl
  | cons b rest ih =>
    rw [startsAfter, List.count_cons]
    split
    · rename_i hb
      simp [hb, ih]
    · rename_i hb
      simp [hb, ih]

/-- A text has one line more than it has line feeds. -/
theorem length_lineStarts (content : Bytes) :
    (lineStarts content).length = content.count Bytes.newline + 1 := by
  rw [lineStarts, List.length_cons, length_startsAfter]

theorem startsAfter_succ (offset : Nat) (content : Bytes) :
    startsAfter (offset + 1) content = (startsAfter offset content).map (· + 1) := by
  induction content generalizing offset with
  | nil => rfl
  | cons b rest ih =>
    rw [startsAfter, startsAfter, ih]
    split <;> rfl

/-- The first line goes up to the first line feed. -/
theorem lineBytes_one (content : Bytes) :
    lineBytes content 1 = content.takeWhile (· != Bytes.newline) := rfl

/-- Behind a line feed the lines are counted anew. -/
theorem lineBytes_newline (rest : Bytes) (n : Nat) :
    lineBytes (Bytes.newline :: rest) (n + 2) = lineBytes rest (n + 1) := by
  have hstarts : lineStarts (Bytes.newline :: rest) =
      0 :: (lineStarts rest).map (· + 1) := by
    rw [lineStarts, startsAfter, if_pos rfl, startsAfter_succ]
    rfl
  unfold lineBytes
  rw [hstarts, show n + 2 - 1 = n + 1 from rfl, List.getElem?_cons_succ, List.getElem?_map,
    show n + 1 - 1 = n from rfl]
  cases (lineStarts rest)[n]? with
  | none => simp
  | some start => rfl

/-- Another byte belongs to the first line. -/
theorem lineBytes_other {b : UInt8} (hb : b ≠ Bytes.newline) (rest : Bytes) (n : Nat) :
    lineBytes (b :: rest) (n + 2) = lineBytes rest (n + 2) := by
  have hstarts : startsAfter 0 (b :: rest) = (startsAfter 0 rest).map (· + 1) := by
    rw [startsAfter, if_neg hb, startsAfter_succ]
  unfold lineBytes
  rw [lineStarts, lineStarts, hstarts, show n + 2 - 1 = n + 1 from rfl, List.getElem?_cons_succ,
    List.getElem?_cons_succ, List.getElem?_map]
  cases (startsAfter 0 rest)[n]? with
  | none => simp
  | some start => rfl

/-- The lines that end in a front do not depend on what follows. -/
theorem lineBytes_append_left {a : Bytes} {n : Nat} (hn : n < a.count Bytes.newline)
    (x y : Bytes) : lineBytes (a ++ x) (n + 1) = lineBytes (a ++ y) (n + 1) := by
  induction a generalizing n with
  | nil => exact absurd hn (Nat.not_lt_zero n)
  | cons b a ih =>
    by_cases hb : b = Bytes.newline
    · subst hb
      cases n with
      | zero => rfl
      | succ n =>
        rw [List.count_cons_self] at hn
        rw [List.cons_append, List.cons_append, lineBytes_newline, lineBytes_newline]
        exact ih (by omega)
    · rw [List.count_cons_of_ne hb] at hn
      cases n with
      | zero =>
        have hfirst := ih hn
        rw [lineBytes_one, lineBytes_one] at hfirst
        have hpass : (b != Bytes.newline) = true := bne_iff_ne.mpr hb
        rw [Nat.zero_add, lineBytes_one, lineBytes_one]
        simp only [List.cons_append, List.takeWhile_cons, hpass, if_true, hfirst]
      | succ n =>
        rw [List.cons_append, List.cons_append, lineBytes_other hb, lineBytes_other hb]
        exact ih hn

/-- The lines that begin behind a front do not depend on the front. -/
theorem lineBytes_append_right (a x : Bytes) (n : Nat) :
    lineBytes (a ++ x) (a.count Bytes.newline + n + 2) = lineBytes x (n + 2) := by
  induction a generalizing n with
  | nil => rw [List.nil_append, List.count_nil, Nat.zero_add]
  | cons b a ih =>
    by_cases hb : b = Bytes.newline
    · subst hb
      rw [List.cons_append, List.count_cons_self,
        show a.count Bytes.newline + 1 + n + 2 = (a.count Bytes.newline + n + 1) + 2 by omega,
        lineBytes_newline]
      exact ih n
    · rw [List.cons_append, List.count_cons_of_ne hb, lineBytes_other hb]
      exact ih n

/-! ### Lines of a text with replaced spans -/

variable {old new : Bytes}

/-- The lines of the text behind the front that hold no position stay as they are. -/
theorem Replaced.lineBytes_behind (hold : Bytes.newline ∉ old) (hnew : Bytes.newline ∉ new)
    {front rest rest' : Bytes} {places : List (Nat × Nat)}
    (h : Replaced old new front places rest rest') {n : Nat}
    (hn : (lineStarts front).length + n ∉ places.map Prod.fst) :
    lineBytes rest (n + 1) = lineBytes rest' (n + 1) := by
  induction h generalizing n with
  | nil front rest => rfl
  | @cons front kept rest rest' line column places hends h ih =>
    have hline : line = (lineStarts front).length + kept.count Bytes.newline := by
      rw [← hends.lines, length_lineStarts, length_lineStarts, List.count_append]
      omega
    simp only [List.map_cons, List.mem_cons, not_or] at hn
    rcases Nat.lt_trichotomy n (kept.count Bytes.newline) with hlt | heq | hgt
    · rw [List.append_assoc, List.append_assoc]
      exact lineBytes_append_left hlt _ _
    · exact absurd (hline ▸ heq ▸ rfl) hn.1
    · obtain ⟨m, rfl⟩ := Nat.exists_eq_add_of_lt hgt
      have hskip : ∀ {word : Bytes}, Bytes.newline ∉ word → ∀ tail : Bytes,
          lineBytes (kept ++ word ++ tail) (kept.count Bytes.newline + m + 1 + 1) =
            lineBytes tail (m + 2) := by
        intro word hword tail
        have hcount : (kept ++ word).count Bytes.newline = kept.count Bytes.newline := by
          rw [List.count_append, List.count_eq_zero.mpr hword, Nat.add_zero]
        have hbehind := lineBytes_append_right (kept ++ word) tail m
        rwa [hcount] at hbehind
      rw [hskip hold, hskip hnew]
      refine ih ?_
      have hlines : (lineStarts (front ++ kept ++ old)).length + (m + 1) =
          (lineStarts front).length + (kept.count Bytes.newline + m + 1) := by
        simp only [length_lineStarts, List.count_append, List.count_eq_zero.mpr hold]
        omega
      rw [hlines]
      exact hn.2

/-- The lines without a replaced span stay as they are. -/
theorem Replaced.lineBytes_eq (hold : Bytes.newline ∉ old) (hnew : Bytes.newline ∉ new)
    {content rewritten : Bytes} {places : List (Nat × Nat)}
    (h : Replaced old new [] places content rewritten) {line : Nat} (hline : line ≠ 0)
    (hplaces : line ∉ places.map Prod.fst) :
    lineBytes rewritten line = lineBytes content line := by
  obtain ⟨n, rfl⟩ := Nat.exists_eq_succ_of_ne_zero hline
  refine (h.lineBytes_behind hold hnew ?_).symm
  rwa [show (lineStarts []).length + n = n.succ by rw [Nat.succ_eq_add_one, Nat.add_comm]; rfl]

/-- There are as many lines as before. -/
theorem Replaced.length_lineStarts (hold : Bytes.newline ∉ old) (hnew : Bytes.newline ∉ new)
    {front content rewritten : Bytes} {places : List (Nat × Nat)}
    (h : Replaced old new front places content rewritten) :
    (lineStarts rewritten).length = (lineStarts content).length := by
  simp only [Rewrite.length_lineStarts]
  induction h with
  | nil => rfl
  | cons hends h ih =>
    simp only [List.count_append, List.count_eq_zero.mpr hold, List.count_eq_zero.mpr hnew] at ih ⊢
    omega

/-- Texts that differ in spans on lines of a range agree outside of it. -/
theorem Replaced.agreeOutside {content rewritten : Bytes}
    (hold : Bytes.newline ∉ old) (hnew : Bytes.newline ∉ new) {found : List Occurrence}
    (h : Replaced old new [] (found.map Occurrence.position) content rewritten)
    {range : Option LineRange}
    (hrange : ∀ o ∈ found, range.all (·.contains o.location.line) = true) :
    AgreeOutside range content rewritten := by
  refine ⟨h.length_lineStarts hold hnew, fun line hline hout => ?_⟩
  refine h.lineBytes_eq hold hnew hline fun hmem => ?_
  obtain ⟨position, hposition, rfl⟩ := List.mem_map.mp hmem
  obtain ⟨o, ho, rfl⟩ := List.mem_map.mp hposition
  have hin : range.all (·.contains o.position.1) = true := hrange o ho
  rw [hin] at hout
  cases hout

/-! ### Spans that are spliced -/

/-- The text up to the beginning of a line ends there. -/
theorem endsAt_lineStart {content : Bytes} {line start : Nat} (hline : line ≠ 0)
    (hstart : (lineStarts content)[line - 1]? = some start) :
    EndsAt (content.take start) line 0 := by
  have hle : start ≤ content.length := by
    have hend := lineStart_add_le hstart
    omega
  have hlength : (content.take start).length = start := by
    rw [List.length_take, Nat.min_eq_left hle]
  have hsplit : lineStarts content =
      lineStarts (content.take start) ++ startsAfter start (content.drop start) := by
    have happend := startsAfter_append 0 (content.take start) (content.drop start)
    rw [List.take_append_drop, hlength, Nat.zero_add] at happend
    rw [lineStarts, happend]
    rfl
  -- Lines that begin behind the front begin behind this line.
  have hin : line - 1 < (lineStarts (content.take start)).length := by
    by_contra hout
    rw [hsplit, List.getElem?_append_right (Nat.not_lt.mp hout)] at hstart
    obtain ⟨i, hi, _⟩ := mem_startsAfter (List.mem_of_getElem? hstart)
    omega
  rw [hsplit, List.getElem?_append_left hin] at hstart
  have hlines : (lineStarts (content.take start)).length = line := by
    by_contra hne
    -- The last line of the front would begin behind its end.
    obtain ⟨last, hlast⟩ : ∃ last, (lineStarts (content.take start))[
        (lineStarts (content.take start)).length - 1]? = some last :=
      ⟨_, List.getElem?_eq_getElem (by omega)⟩
    have hbehind := (newline_before_lineStart (by omega) hstart hlast).1
    rcases List.mem_cons.mp (List.mem_of_getElem? hlast) with rfl | hmem
    · omega
    · obtain ⟨i, rfl, hi⟩ := mem_startsAfter hmem
      have hbound := (List.getElem?_eq_some_iff.mp hi).1
      omega
  refine ⟨hlines, ?_, Nat.zero_le _⟩
  rw [List.getLast?_eq_getElem?, hlines, hstart, hlength]
  rfl

/-- The bytes of a line between its beginning and a column. -/
theorem slice_line {content : Bytes} {line start column : Nat}
    (hstart : (lineStarts content)[line - 1]? = some start)
    (hcolumn : column ≤ (lineBytes content line).length) :
    slice content start (start + column) = (lineBytes content line).take column := by
  have hprefix : lineBytes content line <+: content.drop start := by
    rw [lineBytes, hstart, Option.getD_some]
    exact List.takeWhile_prefix _
  obtain ⟨rest, hrest⟩ := hprefix
  rw [slice, Nat.add_sub_cancel_left, ← hrest, List.take_append_of_le_length hcolumn]

theorem newline_not_mem_lineBytes (content : Bytes) (line : Nat) :
    Bytes.newline ∉ lineBytes content line := by
  intro hmem
  have hother := List.mem_takeWhile_imp hmem
  exact bne_iff_ne.mp hother rfl

/-- The text before an occurrence in its line ends at its position. -/
theorem StandsAt.endsAt {content : Bytes} {o : Occurrence} {offset : Nat}
    (h : StandsAt content old o offset) :
    EndsAt (content.take offset) o.location.line o.location.column := by
  obtain ⟨start, hstart, rfl⟩ := h.start
  have hslice := slice_line hstart h.column
  have hsplit : content.take (start + o.location.column) =
      content.take start ++ (lineBytes content o.location.line).take o.location.column := by
    rw [← hslice, slice, Nat.add_sub_cancel_left, List.take_add]
  have hline : Bytes.newline ∉ (lineBytes content o.location.line).take o.location.column :=
    fun hmem => newline_not_mem_lineBytes _ _ (List.mem_of_mem_take hmem)
  have hends := (endsAt_lineStart h.line hstart).append hline
  rwa [← hsplit, List.length_take, Nat.min_eq_left h.column, Nat.zero_add] at hends

/-- Behind the offset of an occurrence its name stands. -/
theorem StandsAt.drop_eq {content : Bytes} {o : Occurrence} {offset : Nat}
    (h : StandsAt content old o offset) :
    content.drop offset = old ++ content.drop (offset + old.length) := by
  have hholds := h.holds
  simp only [Rewrite.holds, Bool.and_eq_true] at hholds
  obtain ⟨rest, hrest⟩ := Bytes.startsWith_iff.mp hholds.1.1
  rw [← List.drop_drop, hrest, List.drop_left]

/-- Spliced spans are replaced. The induction is on the spans; the text before the cursor is the
front. -/
theorem replaced_of_splice {content : Bytes} {found : List Occurrence} {offsets : List Nat}
    (hstands : List.Forall₂ (StandsAt content old) found offsets) {cursor : Nat} {rewritten : Bytes}
    (h : splice content old new cursor offsets = .ok rewritten) :
    Replaced old new (content.take cursor) (found.map Occurrence.position) (content.drop cursor)
      rewritten := by
  induction hstands generalizing cursor rewritten with
  | nil =>
    obtain rfl := Except.ok.inj h
    exact .nil _ _
  | @cons o offset found offsets hstands _ ih =>
    rw [splice] at h
    split at h
    · cases h
    · rename_i hnot
      obtain ⟨tail, htail, h⟩ := bind_eq_ok_iff.mp h
      obtain rfl := Except.ok.inj h
      have hrest := ih htail
      have hfront : content.take cursor ++ slice content cursor offset = content.take offset := by
        rw [slice, ← List.take_add, Nat.add_sub_cancel' (Nat.not_lt.mp hnot)]
      have hkept : content.drop cursor =
          slice content cursor offset ++ old ++ content.drop (offset + old.length) := by
        have hdrop : content.drop offset = (content.drop cursor).drop (offset - cursor) := by
          rw [List.drop_drop, Nat.add_sub_cancel' (Nat.not_lt.mp hnot)]
        rw [List.append_assoc, ← hstands.drop_eq, hdrop, slice, List.take_append_drop]
      have hbehind : content.take offset ++ old = content.take (offset + old.length) := by
        rw [List.take_add, hstands.drop_eq, List.take_left]
      rw [hkept]
      refine .cons (hfront ▸ hstands.endsAt) ?_
      rw [hfront, hbehind]
      exact hrest

/-- Occurrences that ascend and stand in their lines are rewritten. -/
theorem exists_rewrite {content : Bytes} {found : List Occurrence} {offsets : List Nat}
    {old : String} (hold : isValidIdentifier old = true)
    (hstands : List.Forall₂ (StandsAt content (bytes old)) found offsets)
    (hoffsets : found.mapM (offsetOf content (lineStarts content) old) = .ok offsets)
    (hascend : found.Pairwise fun o p => Location.before o.position p.position = true)
    (new : String) :
    ∃ rewritten changes, rewrite content found old new = .ok (rewritten, changes) ∧
      Replaced (bytes old) (bytes new) [] (found.map Occurrence.position) content rewritten := by
  obtain ⟨rewritten, hsplice⟩ := exists_splice (bytes new) (fun offset _ => Nat.zero_le offset)
    (pairwise_standsAt (all_isIdentifierByte hold) hstands hascend)
  refine ⟨rewritten, changesOf content rewritten found, ?_, replaced_of_splice hstands hsplice⟩
  unfold rewrite
  rw [hoffsets]
  simp only [bind, Except.bind, hsplice]
  rfl

/-- The line of an occurrence goes on behind it up to the next line feed. -/
theorem StandsAt.lineBytes_eq {content : Bytes} {o : Occurrence} {offset : Nat}
    (hold : Bytes.newline ∉ old) (h : StandsAt content old o offset) :
    ∃ front rest, lineBytes content o.location.line = front ++ (old ++ rest) ∧
      front.length = o.location.column ∧ front.getLast?.any isIdentifierByte = false ∧
      rest.head?.any isIdentifierByte = false := by
  have hbehind := h.drop_eq
  obtain ⟨start, hstart, rfl⟩ := h.start
  have hholds := h.holds
  simp only [Rewrite.holds, Bool.and_eq_true] at hholds
  obtain ⟨⟨_, hopens⟩, hcloses⟩ := hholds
  have hfront := slice_line hstart h.column
  set front := (lineBytes content o.location.line).take o.location.column with hdef
  set behind := content.drop (start + o.location.column + old.length) with hrest
  have hlength : front.length = o.location.column := by
    rw [hdef, List.length_take, Nat.min_eq_left h.column]
  refine ⟨front, behind.takeWhile (· != Bytes.newline), ?_, hlength, ?_, ?_⟩
  · have hother : ∀ {text : Bytes}, Bytes.newline ∉ text →
        ∀ b ∈ text, (b != Bytes.newline) = true :=
      fun htext b hb => bne_iff_ne.mpr fun heq => htext (heq ▸ hb)
    have hline : Bytes.newline ∉ front :=
      fun hmem => newline_not_mem_lineBytes _ _ (List.mem_of_mem_take hmem)
    have hsplit : content.drop start = front ++ (old ++ behind) := by
      rw [← hfront, ← hbehind, slice, Nat.add_sub_cancel_left, ← List.drop_drop,
        List.take_append_drop]
    rw [lineBytes, hstart, Option.getD_some, hsplit,
      List.takeWhile_append_of_pos (hother hline), List.takeWhile_append_of_pos (hother hold)]
  · cases hlast : front.getLast? with
    | none => rfl
    | some b =>
      -- The byte before the name in its line is the byte before it in the content.
      have hpos : 0 < o.location.column := by
        rw [← hlength]
        exact List.length_pos_iff.mpr fun hnil => by simp [hnil] at hlast
      have hget : content[start + o.location.column - 1]? = some b := by
        rw [List.getLast?_eq_getElem?, hlength, ← hfront, slice, Nat.add_sub_cancel_left,
          List.getElem?_take_of_lt (by omega), List.getElem?_drop] at hlast
        rw [← hlast]
        congr 1
        omega
      rw [opens, hget] at hopens
      have hother : start + o.location.column = 0 ∨ isIdentifierByte b = false := by
        simpa only [Option.any_some, Bool.or_eq_true, beq_iff_eq, Bool.not_eq_true'] using hopens
      exact hother.resolve_left (by omega)
  · have hhead : behind.head?.any isIdentifierByte = false := by
      rw [hrest, List.head?_drop]
      simpa [closes] using hcloses
    rw [List.head?_takeWhile]
    cases hnext : behind.head? with
    | none => rfl
    | some b =>
      rw [hnext] at hhead
      cases hnewline : b != Bytes.newline with
      | false => simp [Option.filter, hnewline]
      | true => simpa [Option.filter, hnewline] using hhead

/-- An occurrence at an offset denotes a span of its line. -/
theorem StandsAt.denotes {content : Bytes} {o : Occurrence} {offset : Nat}
    (hold : Bytes.newline ∉ old) (h : StandsAt content old o offset) :
    o.location.Denotes content old := by
  obtain ⟨front, rest, hline, hcolumn, hfront, hrest⟩ := h.lineBytes_eq hold
  obtain ⟨start, hstart, _⟩ := h.start
  have hlines := (List.getElem?_eq_some_iff.mp hstart).1
  have hne := h.line
  have hholds : Rewrite.holds (front ++ (old ++ rest)) old front.length = true := holds_word hfront hrest
  simp only [Rewrite.holds, Bool.and_eq_true] at hholds
  rw [← hline, hcolumn] at hholds
  refine ⟨⟨hne, by omega⟩, ?_, ?_, hholds.1.2, hholds.2⟩
  · rw [hline, ← hcolumn, List.length_append, List.length_append]
    omega
  · rw [hline, ← hcolumn, slice, List.drop_left, Nat.add_sub_cancel_left, List.take_left]

/-- Rewriting occurrences that ascend and lie in their lines either replaces the spans at their
positions, which hold the name, or rejects the file with a message. -/
theorem rewrite_withinLine {content : Bytes} {old : String} (hold : isValidIdentifier old = true)
    (hfits : content.length + (bytes old).length < Count.limit) {found : List Occurrence}
    (hfound : ∀ o ∈ found, o.location.WithinLine content)
    (hascend : found.Pairwise fun o p => Location.before o.position p.position = true)
    (new : String) :
    (∃ rewritten changes, rewrite content found old new = .ok (rewritten, changes) ∧
      Replaced (bytes old) (bytes new) [] (found.map Occurrence.position) content rewritten ∧
      ∀ o ∈ found, o.location.Denotes content (bytes old)) ∨
    ∃ fault, rewrite content found old new = .error fault ∧ fault.IsMild := by
  rcases mapM_offsetOf_withinLine hfits hfound with
    ⟨offsets, hoffsets, hall⟩ | ⟨fault, hfault, hmild⟩
  · obtain ⟨rewritten, changes, hrewrite, hreplaced⟩ :=
      exists_rewrite hold hall hoffsets hascend new
    refine .inl ⟨rewritten, changes, hrewrite, hreplaced, fun o ho => ?_⟩
    obtain ⟨i, hi, rfl⟩ := List.mem_iff_getElem.mp ho
    exact (hall.get hi (hall.length_eq ▸ hi)).denotes (newline_not_mem_of_isValidIdentifier hold)
  · refine .inr ⟨fault, ?_, hmild⟩
    unfold rewrite
    rw [hfault]
    rfl

end Rewrite

end SymbolRename
