import SymbolRename.Proofs.Rewrite.ChangedLines

/-!
# Rewrites and their changes

A rewrite succeeds exactly when all spans hold the name, and then its changes describe it: who has
the old text and puts the line after each change in the place of the line before it gets the new
text (`Rewrite.rewrite_exact`). A line and what comes of it end with the same carriage returns
(`Rewrite.Replaced.rtakeWhile`), so nothing is lost where a change leaves them out.
-/

namespace SymbolRename

/-- The position is one in a line that there is, and a name that begins there would end in it. -/
structure Location.SpanInside (l : Location) (content name : Bytes) : Prop where
  line : l.line ≠ 0 ∧ l.line ≤ (Rewrite.lineStarts content).length
  inside : l.column + name.length ≤ (Rewrite.lineBytes content l.line).length

instance (l : Location) (content name : Bytes) : Decidable (l.SpanInside content name) :=
  decidable_of_iff ((l.line ≠ 0 ∧ l.line ≤ (Rewrite.lineStarts content).length) ∧
      l.column + name.length ≤ (Rewrite.lineBytes content l.line).length)
    ⟨fun ⟨h, h'⟩ => ⟨h, h'⟩, fun ⟨h, h'⟩ => ⟨h, h'⟩⟩

/-- What a change makes of its line: the carriage returns at the end, which it does not show, stay. -/
def Change.patchLine (content : Bytes) (c : Change) : Bytes :=
  bytes c.after ++ (Rewrite.lineBytes content c.location.line).drop (bytes c.before).length

/-- The text in which the line of each change is put in the place of the line before it. -/
def Change.patch (content : Bytes) (changes : List Change) : Bytes :=
  [Bytes.newline].intercalate (changes.foldl
    (fun lines c => lines.set (c.location.line - 1) (c.patchLine content))
    (content.splitOn Bytes.newline))

namespace Rewrite

/-! ### Spans that are checked -/

section

variable {content : Bytes} {l : Location} {old : String} {o : Occurrence}

/-- A span that holds the name in its line holds it in the text. -/
theorem holds_of_denotes {name : Bytes} {start : Nat} (h : l.Denotes content name)
    (hstart : (lineStarts content)[l.line - 1]? = some start) :
    holds content name (start + l.column) = true := by
  obtain ⟨after, hsplit, hbefore, hafter⟩ := lineBytes_split hstart
  have hend := lineStart_add_le hstart
  have hinside := h.inside
  have hholds := h.holds
  have hopens := h.opens
  have hcloses := h.closes
  generalize lineBytes content l.line = row at hsplit hend hinside hholds hopens hcloses
  -- The text is split around the span.
  have hrow : row = row.take l.column ++ (name ++ row.drop (l.column + name.length)) := by
    have hbehind := List.take_append_drop name.length (row.drop l.column)
    rw [slice, Nat.add_sub_cancel_left] at hholds
    rw [hholds, List.drop_drop] at hbehind
    rw [hbehind, List.take_append_drop]
  have hfront : (content.take start ++ row.take l.column).getLast?.any isIdentifierByte = false := by
    rcases Nat.eq_zero_or_pos l.column with hzero | hpos
    · rw [hzero, List.take_zero, List.append_nil]
      exact any_isIdentifierByte_of_newline hbefore
    · have hne : row.take l.column ≠ [] := by
        refine List.length_pos_iff.mp ?_
        rw [List.length_take]
        omega
      have hlast : (row.take l.column).getLast? = row[l.column - 1]? := by
        rw [List.getLast?_eq_getElem?, List.length_take, Nat.min_eq_left (by omega),
          List.getElem?_take_of_lt (by omega)]
      rw [opens, beq_eq_false_iff_ne.mpr (Nat.ne_of_gt hpos), Bool.false_or, Bool.not_eq_true'] at hopens
      rw [List.getLast?_append_of_ne_nil _ hne, hlast, hopens]
  have hrest : (row.drop (l.column + name.length) ++ after).head?.any isIdentifierByte = false := by
    rw [closes, Bool.not_eq_true', ← List.head?_drop] at hcloses
    cases hdrop : row.drop (l.column + name.length) with
    | nil => exact any_isIdentifierByte_of_newline hafter
    | cons b rest =>
      rw [hdrop] at hcloses
      exact hcloses
  have hwhole : content = (content.take start ++ row.take l.column) ++
      (name ++ (row.drop (l.column + name.length) ++ after)) := by
    conv_lhs => rw [hsplit, hrow]
    simp only [List.append_assoc]
  have hlength : (content.take start ++ row.take l.column).length = start + l.column := by
    rw [List.length_append, List.length_take, List.length_take]
    omega
  have hword := @holds_word _ name _ hfront hrest
  rwa [← hwhole, hlength] at hword

/-- The check of a span in its line tells whether it holds the name. -/
theorem offsetOf_spanInside (hsize : content.length < Count.limit)
    (ho : o.location.SpanInside content (bytes old)) :
    (∃ offset, offsetOf content (lineStarts content) old o = .ok offset ∧
      StandsAt content (bytes old) o offset) ∨
    offsetOf content (lineStarts content) old o = .error (.mismatch o.location old) ∧
      ¬ o.location.Denotes content (bytes old) := by
  obtain ⟨⟨hline, hle⟩, hinside⟩ := ho
  obtain ⟨start, hstart⟩ : ∃ start, (lineStarts content)[o.location.line - 1]? = some start :=
    ⟨_, List.getElem?_eq_getElem (by omega)⟩
  have hend := lineStart_add_le hstart
  rw [offsetOf_eq hline hstart (by omega)]
  cases hholds : holds content (bytes old) (start + o.location.column) with
  | true => exact .inl ⟨_, rfl, hline, ⟨start, hstart, rfl⟩, by omega, hholds⟩
  | false =>
    refine .inr ⟨rfl, fun hdenotes => ?_⟩
    rw [holds_of_denotes hdenotes hstart] at hholds
    cases hholds

/-- All spans hold the name, or the first one that does not is told. -/
theorem mapM_offsetOf_spanInside (hsize : content.length < Count.limit)
    (hold : Bytes.newline ∉ bytes old) {found : List Occurrence}
    (hinside : ∀ o ∈ found, o.location.SpanInside content (bytes old)) :
    (∃ offsets, found.mapM (offsetOf content (lineStarts content) old) = .ok offsets ∧
      List.Forall₂ (StandsAt content (bytes old)) found offsets ∧
      ∀ o ∈ found, o.location.Denotes content (bytes old)) ∨
    ∃ o ∈ found, ¬ o.location.Denotes content (bytes old) ∧
      found.mapM (offsetOf content (lineStarts content) old) =
        .error (.mismatch o.location old) := by
  induction found with
  | nil => exact .inl ⟨[], rfl, .nil, nofun⟩
  | cons o rest ih =>
    rw [List.mapM_cons]
    rcases offsetOf_spanInside hsize (hinside o List.mem_cons_self) with
      ⟨offset, hoffset, hstands⟩ | ⟨hfault, hnot⟩
    · rw [hoffset]
      rcases ih fun p hp => hinside p (List.mem_cons_of_mem o hp) with
        ⟨offsets, hoffsets, hall, hdenote⟩ | ⟨p, hp, hnot, hfault⟩
      · exact .inl ⟨offset :: offsets, by rw [hoffsets]; rfl, .cons hstands hall,
          List.forall_mem_cons.mpr ⟨hstands.denotes hold, hdenote⟩⟩
      · exact .inr ⟨p, List.mem_cons_of_mem o hp, hnot, by rw [hfault]; rfl⟩
    · exact .inr ⟨o, List.mem_cons_self, hnot, by rw [hfault]; rfl⟩

end

/-! ### Texts and their lines -/

/-- The pieces between line feeds are the lines. -/
theorem getElem?_splitOn (content : Bytes) (n : Nat) :
    (content.splitOn Bytes.newline)[n]? =
      if n < (lineStarts content).length then some (lineBytes content (n + 1)) else none := by
  induction content generalizing n with
  | nil =>
    cases n with
    | zero => rfl
    | succ n => rfl
  | cons b rest ih =>
    rw [List.splitOn_eq_splitOnP, List.splitOnP_cons_eq_if_modifyHead, ← List.splitOn_eq_splitOnP,
      length_lineStarts, List.count_cons]
    rw [length_lineStarts] at ih
    by_cases hb : b = Bytes.newline
    · subst hb
      cases n with
      | zero => rfl
      | succ n => simp [ih, lineBytes_newline]
    · obtain ⟨first, more, hrest⟩ :=
        List.exists_cons_of_ne_nil (List.splitOn_ne_nil Bytes.newline rest)
      rw [hrest] at ih ⊢
      cases n with
      | zero =>
        have hfirst := ih 0
        rw [List.getElem?_cons_zero, if_pos (Nat.succ_pos _)] at hfirst
        have hone : lineBytes (b :: rest) 1 = b :: lineBytes rest 1 := by
          rw [lineBytes_one, lineBytes_one, List.takeWhile_cons_of_pos (by simpa using hb)]
        simp [hb, hone, Option.some.inj hfirst]
      | succ n =>
        have hmore := ih (n + 1)
        rw [List.getElem?_cons_succ] at hmore
        simp [hb, hmore, lineBytes_other hb]

theorem splitOn_newline (content : Bytes) : content.splitOn Bytes.newline =
    (List.range (lineStarts content).length).map fun n => lineBytes content (n + 1) := by
  refine List.ext_getElem? fun n => ?_
  rw [getElem?_splitOn, List.getElem?_map]
  split
  · rename_i hlt
    rw [List.getElem?_range hlt]
    rfl
  · rename_i hnot
    rw [List.getElem?_eq_none (by simpa using hnot)]
    rfl

/-- Items that agree with a list put all of it in the place of a list that agrees elsewhere. -/
theorem foldl_set_eq {α β : Type} {place : β → Nat} {value : β → α} {items : List β}
    {lines target : List α} (hlength : target.length = lines.length)
    (hitems : ∀ c ∈ items, target[place c]? = some (value c))
    (hothers : ∀ n, n ∉ items.map place → target[n]? = lines[n]?) :
    items.foldl (fun lines c => lines.set (place c) (value c)) lines = target := by
  induction items generalizing lines with
  | nil => exact (List.ext_getElem? fun n => hothers n List.not_mem_nil).symm
  | cons c rest ih =>
    obtain ⟨hc, hrest⟩ := List.forall_mem_cons.mp hitems
    rw [List.foldl_cons]
    refine ih (by rw [hlength, List.length_set]) hrest fun n hn => ?_
    rw [List.getElem?_set]
    by_cases hsame : place c = n
    · subst hsame
      have hlt := (List.getElem?_eq_some_iff.mp hc).1
      rw [if_pos rfl, if_pos (hlength ▸ hlt), hc]
    · rw [if_neg hsame]
      refine hothers n fun hmem => ?_
      rcases List.mem_cons.mp hmem with heq | hmem
      · exact hsame heq.symm
      · exact hn hmem

/-! ### Lines and what comes of them -/

section

variable {old new front rest rest' : Bytes} {places : List (Nat × Nat)}

/-- A word without such bytes ends what is taken from the end. -/
theorem rtakeWhile_append_word {p : UInt8 → Bool} {word : Bytes} (hne : word ≠ [])
    (hword : ∀ b ∈ word, p b = false) (kept rest : Bytes) :
    (kept ++ word ++ rest).rtakeWhile p = rest.rtakeWhile p := by
  have hwhole := List.rdropWhile_append_rtakeWhile (p := p) (l := kept ++ word ++ rest)
  have hrest := List.rdropWhile_append_rtakeWhile (p := p) (l := rest)
  rw [rdropWhile_append_word hne hword] at hwhole
  conv_rhs at hwhole => rw [← hrest, ← List.append_assoc]
  exact List.append_cancel_left hwhole

/-- Where words were replaced, the same bytes are at the end. -/
theorem Replaced.rtakeWhile {p : UInt8 → Bool} (hne : old ≠ []) (hne' : new ≠ [])
    (hold : ∀ b ∈ old, p b = false) (hnew : ∀ b ∈ new, p b = false)
    (h : Replaced old new front places rest rest') :
    rest'.rtakeWhile p = rest.rtakeWhile p := by
  induction h with
  | nil => rfl
  | cons _ _ ih =>
    rw [rtakeWhile_append_word hne hold, rtakeWhile_append_word hne' hnew, ih]

end

/-- The changes describe a rewrite: exactly the spans of the occurrences are replaced, each has its
change, which shows its line before and after without the carriage returns at the end, and the
changes alone make the new text of the old one. -/
structure Exact (content : Bytes) (found : List Occurrence) (old new : Bytes) (rewritten : Bytes)
    (changes : List Change) : Prop where
  isText : Utf8.IsText rewritten
  replaced : Replaced old new [] (found.map Occurrence.position) content rewritten
  newlines : rewritten.count Bytes.newline = content.count Bytes.newline
  places : (changes.map fun c => (c.location, c.role)) = found.map fun o => (o.location, o.role)
  before : ∀ c ∈ changes,
    bytes c.before = (lineBytes content c.location.line).rdropWhile (· == 0x0d)
  after : ∀ c ∈ changes,
    bytes c.after = (lineBytes rewritten c.location.line).rdropWhile (· == 0x0d)
  patched : Change.patch content changes = rewritten

section

variable {text old new : String} {found : List Occurrence} {rewritten : Bytes}

/-- The line after a change is put in the place of the line before it. -/
theorem patchLine_eq {c : Change}
    (hends : (lineBytes rewritten c.location.line).rtakeWhile (· == 0x0d) =
      (lineBytes (bytes text) c.location.line).rtakeWhile (· == 0x0d))
    (hbefore : bytes c.before = (lineBytes (bytes text) c.location.line).rdropWhile (· == 0x0d))
    (hafter : bytes c.after = (lineBytes rewritten c.location.line).rdropWhile (· == 0x0d)) :
    c.patchLine (bytes text) = lineBytes rewritten c.location.line := by
  have hdrop := congrArg (List.drop (bytes c.before).length) (List.rdropWhile_append_rtakeWhile
    (p := (· == 0x0d)) (l := lineBytes (bytes text) c.location.line))
  rw [← hbefore, List.drop_left] at hdrop
  rw [Change.patchLine, ← hdrop, ← hends, hafter, List.rdropWhile_append_rtakeWhile]

/-- The changes of a text whose spans were replaced describe what was done. -/
theorem Replaced.exact (hold : isValidIdentifier old = true) (hnew : isValidIdentifier new = true)
    (hlines : ∀ o ∈ found, o.location.line ≠ 0 ∧ o.location.line ≤ (lineStarts (bytes text)).length)
    (h : Replaced (bytes old) (bytes new) [] (found.map Occurrence.position) (bytes text) rewritten) :
    Exact (bytes text) found (bytes old) (bytes new) rewritten
      (changesOf (bytes text) rewritten found) := by
  have hne : bytes old ≠ [] := List.length_pos_iff.mp (length_pos_of_isValidIdentifier hold)
  have hne' : bytes new ≠ [] := List.length_pos_iff.mp (length_pos_of_isValidIdentifier hnew)
  have hfeed := newline_not_mem_of_isValidIdentifier hold
  have hfeed' := newline_not_mem_of_isValidIdentifier hnew
  have htext : Utf8.IsText (bytes text) := ⟨text, rfl⟩
  have htext' := h.isText hne (lt_of_isValidIdentifier hold) (lt_of_isValidIdentifier hnew) htext
  have hlength := h.length_lineStarts hfeed hfeed'
  have hbefore : ∀ c ∈ changesOf (bytes text) rewritten found,
      bytes c.before = (lineBytes (bytes text) c.location.line).rdropWhile (· == 0x0d) := by
    intro c hc
    obtain ⟨o, _, rfl⟩ := List.mem_map.mp hc
    exact bytes_lineText htext _
  have hafter : ∀ c ∈ changesOf (bytes text) rewritten found,
      bytes c.after = (lineBytes rewritten c.location.line).rdropWhile (· == 0x0d) := by
    intro c hc
    obtain ⟨o, _, rfl⟩ := List.mem_map.mp hc
    exact bytes_lineText htext' _
  refine ⟨htext', h, ?_, map_place_changesOf _ _ _, hbefore, hafter, ?_⟩
  · rw [Rewrite.length_lineStarts, Rewrite.length_lineStarts] at hlength
    exact Nat.succ.inj hlength
  · unfold Change.patch
    refine (congrArg [Bytes.newline].intercalate (foldl_set_eq ?_ ?_ ?_)).trans
      (List.intercalate_splitOn Bytes.newline)
    · rw [splitOn_newline, splitOn_newline, List.length_map, List.length_map, hlength]
    · intro c hc
      obtain ⟨o, ho, hlocation⟩ : ∃ o ∈ found, o.location = c.location := by
        obtain ⟨o, ho, rfl⟩ := List.mem_map.mp hc
        exact ⟨o, ho, rfl⟩
      obtain ⟨hzero, hle⟩ := hlines o ho
      rw [hlocation] at hzero hle
      obtain ⟨n, hn⟩ := Nat.exists_eq_succ_of_ne_zero hzero
      have hends := (h.line hfeed hfeed' n).rtakeWhile (p := (· == 0x0d)) hne hne'
        (ne_return_of_isValidIdentifier hold) (ne_return_of_isValidIdentifier hnew)
      rw [← Nat.succ_eq_add_one, ← hn] at hends
      rw [getElem?_splitOn, if_pos (by omega), Nat.sub_add_cancel (Nat.pos_of_ne_zero hzero),
        patchLine_eq hends (hbefore c hc) (hafter c hc)]
    · intro n hn
      rw [getElem?_splitOn, getElem?_splitOn, hlength, h.lineBytes_eq hfeed hfeed' n.succ_ne_zero]
      intro hmem
      obtain ⟨position, hposition, hline⟩ := List.mem_map.mp hmem
      obtain ⟨o, ho, rfl⟩ := List.mem_map.mp hposition
      refine hn (List.mem_map.mpr ⟨_, List.mem_map.mpr ⟨o, ho, rfl⟩, ?_⟩)
      have hline : o.location.line = n + 1 := hline
      show o.location.line - 1 = n
      omega

end

/-- For all spans that ascend and lie in their lines: a rewrite succeeds exactly when each of them
holds the name with no identifier byte beside it, and rejects the file because of one that does not
otherwise; and when it succeeds its changes describe it. -/
theorem rewrite_exact {text old new : String} (hsize : (bytes text).length < Count.limit)
    (hproper : Mapping.IsProper ⟨old, new⟩) {found : List Occurrence}
    (hascend : found.Pairwise Occurrence.Before)
    (hinside : ∀ o ∈ found, o.location.SpanInside (bytes text) (bytes old)) :
    ((∃ result, rewrite (bytes text) found old new = .ok result) ↔
        ∀ o ∈ found, o.location.Denotes (bytes text) (bytes old)) ∧
      ((¬ ∀ o ∈ found, o.location.Denotes (bytes text) (bytes old)) →
        ∃ o ∈ found, ¬ o.location.Denotes (bytes text) (bytes old) ∧
          rewrite (bytes text) found old new = .error (.mismatch o.location old)) ∧
      ∀ rewritten changes, rewrite (bytes text) found old new = .ok (rewritten, changes) →
        Exact (bytes text) found (bytes old) (bytes new) rewritten changes := by
  obtain ⟨hold, hnew, _⟩ := hproper
  rcases mapM_offsetOf_spanInside hsize (newline_not_mem_of_isValidIdentifier hold) hinside with
    ⟨offsets, hoffsets, hall, hdenote⟩ | ⟨o, ho, hnot, hfault⟩
  · obtain ⟨rewritten, changes, hrewrite, hreplaced⟩ :=
      exists_rewrite hold hall hoffsets hascend new
    refine ⟨⟨fun _ => hdenote, fun _ => ⟨_, hrewrite⟩⟩, fun hnot => absurd hdenote hnot, ?_⟩
    intro rewritten' changes' hrewrite'
    obtain ⟨rfl, _⟩ := Prod.mk.inj (Except.ok.inj (hrewrite.symm.trans hrewrite'))
    rw [changes_eq_of_rewrite hrewrite']
    exact hreplaced.exact hold hnew fun o ho => (hinside o ho).line
  · have hrejected : rewrite (bytes text) found old new = .error (.mismatch o.location old) := by
      unfold rewrite
      rw [hfault]
      rfl
    rw [hrejected]
    refine ⟨⟨nofun, fun hdenote => absurd (hdenote o ho) hnot⟩, fun _ => ⟨o, ho, hnot, rfl⟩, nofun⟩

/-- Two calls on a line that ends with a carriage return, before a line without a line feed. -/
theorem rewrite_exact_calls :
    let content := bytes "run(run);\r\nrunner\r"
    let calls : List Occurrence :=
      [⟨.reference, ⟨⟨"a.js"⟩, 1, 0⟩, "run"⟩, ⟨.reference, ⟨⟨"a.js"⟩, 1, 4⟩, "run"⟩]
    content.length < Count.limit ∧ Mapping.IsProper ⟨"run", "go"⟩ ∧
      calls.Pairwise Occurrence.Before ∧
      (∀ o ∈ calls, o.location.SpanInside content (bytes "run")) ∧
      ∃ changes, rewrite content calls "run" "go" = .ok (bytes "go(go);\r\nrunner\r", changes) ∧
        Exact content calls (bytes "run") (bytes "go") (bytes "go(go);\r\nrunner\r") changes := by
  intro content calls
  have hsize : content.length < Count.limit := by decide +kernel
  have hproper : Mapping.IsProper ⟨"run", "go"⟩ := ⟨by decide, by decide, by decide⟩
  have hascend : calls.Pairwise Occurrence.Before :=
    List.pairwise_pair.mpr (by decide : Location.before (1, 0) (1, 4) = true)
  have hinside : ∀ o ∈ calls, o.location.SpanInside content (bytes "run") := by decide +kernel
  obtain ⟨⟨rewritten, changes⟩, hrewrite⟩ : ∃ result, rewrite content calls "run" "go" = .ok result :=
    ⟨_, rfl⟩
  have hrewritten : (rewrite content calls "run" "go").toOption.map Prod.fst =
      some (bytes "go(go);\r\nrunner\r") := by decide +kernel
  rw [hrewrite] at hrewritten
  obtain rfl : rewritten = _ := Option.some.inj hrewritten
  exact ⟨hsize, hproper, hascend, hinside, changes, hrewrite,
    (rewrite_exact hsize hproper hascend hinside).2.2 _ _ hrewrite⟩

end Rewrite

end SymbolRename
