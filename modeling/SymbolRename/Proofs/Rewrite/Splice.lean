import SymbolRename.Proofs.Fallible
import SymbolRename.Proofs.Lexer.Hits
import SymbolRename.Rewrite

/-!
# Rewriting replaces the words of code

For the occurrences that the lexical source reports, the rewritten content is the text with
every word of code that is the old name replaced. The proofs go along the pieces of the
text; what has been passed is kept as a front of the content.
-/

namespace SymbolRename

/-- The word that takes the place of a word. -/
def Bytes.replaceWord (old new w : Bytes) : Bytes := if w = old then new else w

/-! ### The changes of a rewrite -/

/-- The changes of a rewrite are those of its occurrences. -/
theorem Rewrite.changes_eq_of_rewrite {content rewritten : Bytes} {found : List Occurrence}
    {old new : String} {changes : List Change}
    (h : rewrite content found old new = .ok (rewritten, changes)) :
    changes = changesOf content rewritten found := by
  obtain ⟨_, _, h⟩ := bind_eq_ok_iff.mp h
  obtain ⟨_, _, h⟩ := bind_eq_ok_iff.mp h
  obtain ⟨rfl, rfl⟩ := Prod.mk.inj (Except.ok.inj h)
  rfl

/-- A change stands where its occurrence does, in the same role. -/
theorem Rewrite.map_place_changesOf (before after : Bytes) (found : List Occurrence) :
    (changesOf before after found).map (fun c => (c.location, c.role)) =
      found.map fun o => (o.location, o.role) := by
  rw [changesOf, List.map_map]
  rfl

theorem Rewrite.changesOf_eq_nil_iff {before after : Bytes} {found : List Occurrence} :
    changesOf before after found = [] ↔ found = [] :=
  List.map_eq_nil_iff

/-! ### From positions to offsets -/

theorem Rewrite.startsAfter_append (offset : Nat) (a b : Bytes) :
    startsAfter offset (a ++ b) = startsAfter offset a ++ startsAfter (offset + a.length) b := by
  induction a generalizing offset with
  | nil => rfl
  | cons x a ih =>
    have hlength : offset + (x :: a).length = offset + 1 + a.length := by
      rw [List.length_cons]
      omega
    rw [List.cons_append, startsAfter, startsAfter, ih, hlength]
    split <;> rfl

theorem Rewrite.startsAfter_eq_nil {offset : Nat} {a : Bytes} (h : Bytes.newline ∉ a) :
    startsAfter offset a = [] := by
  induction a generalizing offset with
  | nil => rfl
  | cons x a ih =>
    have hx : x ≠ Bytes.newline := by
      rintro rfl
      exact h List.mem_cons_self
    rw [startsAfter, if_neg hx]
    exact ih fun hmem => h (List.mem_cons_of_mem x hmem)

/-- The end of a text has this line and column. -/
structure Rewrite.EndsAt (front : Bytes) (line column : Nat) : Prop where
  lines : (lineStarts front).length = line
  start : (lineStarts front).getLast? = some (front.length - column)
  column : column ≤ front.length

theorem Rewrite.EndsAt.nil : EndsAt [] 1 0 := ⟨rfl, rfl, Nat.le_refl _⟩

/-- A line feed ends the line. -/
theorem Rewrite.EndsAt.newline {front : Bytes} {line column : Nat} (h : EndsAt front line column) :
    EndsAt (front ++ [Bytes.newline]) (line + 1) 0 := by
  have hstarts : lineStarts (front ++ [Bytes.newline]) = lineStarts front ++ [front.length + 1] := by
    simp [lineStarts, startsAfter_append, startsAfter]
  refine ⟨by rw [hstarts, List.length_append, h.lines]; rfl, ?_, Nat.zero_le _⟩
  rw [hstarts, List.getLast?_concat]
  simp

/-- Other bytes go on in the line. -/
theorem Rewrite.EndsAt.append {front : Bytes} {line column : Nat} (h : EndsAt front line column)
    {text : Bytes} (htext : Bytes.newline ∉ text) :
    EndsAt (front ++ text) line (column + text.length) := by
  have hstarts : lineStarts (front ++ text) = lineStarts front := by
    simp [lineStarts, startsAfter_append, startsAfter_eq_nil htext]
  have hcolumn := h.column
  refine ⟨hstarts ▸ h.lines, ?_, ?_⟩
  · rw [hstarts, h.start, List.length_append]
    congr 1
    omega
  · rw [List.length_append]
    omega

/-- The line that goes on at the end of a front begins where it begins in the whole text. -/
theorem Rewrite.EndsAt.lineStart {front : Bytes} {line column : Nat} (h : EndsAt front line column)
    (rest : Bytes) :
    line ≠ 0 ∧ (lineStarts (front ++ rest))[line - 1]? = some (front.length - column) := by
  have hpos : 0 < line := by
    rw [← h.lines]
    exact Nat.succ_pos _
  refine ⟨hpos.ne', ?_⟩
  have hstarts : lineStarts (front ++ rest) = lineStarts front ++ startsAfter front.length rest := by
    simp [lineStarts, startsAfter_append]
  have hlast := h.start
  rw [List.getLast?_eq_getElem?, h.lines] at hlast
  rw [hstarts, List.getElem?_append_left (by rw [h.lines]; omega), hlast]

/-- The offsets of the pieces of code that are a name. -/
def Rewrite.offsets (name : Bytes) : Nat → List Lexer.Piece → List Nat
  | _, [] => []
  | offset, p :: ps =>
    let rest := offsets name (offset + p.text.length) ps
    if p.isCode && p.text == name then offset :: rest else rest

/-- A whole word behind a front that ends elsewhere is held at its offset. -/
theorem Rewrite.holds_word {front word rest : Bytes}
    (hfront : front.getLast?.any isIdentifierByte = false)
    (hrest : rest.head?.any isIdentifierByte = false) :
    holds (front ++ (word ++ rest)) word front.length = true := by
  have hstarts : Bytes.startsWith ((front ++ (word ++ rest)).drop front.length) word = true := by
    rw [List.drop_left]
    exact Bytes.startsWith_iff.mpr ⟨rest, rfl⟩
  have hopens : opens (front ++ (word ++ rest)) front.length = true := by
    unfold opens
    cases hlength : front.length with
    | zero => rfl
    | succ n =>
      have hget : (front ++ (word ++ rest))[n]? = front.getLast? := by
        rw [List.getLast?_eq_getElem?, hlength]
        exact List.getElem?_append_left (by omega)
      simp [hget, hfront]
  have hcloses : closes (front ++ (word ++ rest)) (front.length + word.length) = true := by
    unfold closes
    have hget : (front ++ (word ++ rest))[front.length + word.length]? = rest.head? := by
      rw [← List.append_assoc, List.getElem?_append_right (by simp), List.head?_eq_getElem?]
      simp
    simp [hget, hrest]
  rw [holds, hstarts, hopens, hcloses]
  rfl

/-- An occurrence of a name stands as a whole word behind so many bytes of a text. -/
def Rewrite.StandsApartAt (content name : Bytes) (o : Occurrence) (offset : Nat) : Prop :=
  ∃ front rest, content = front ++ (name ++ rest) ∧ offset = front.length ∧
    EndsAt front o.location.line o.location.column ∧
    front.getLast?.any isIdentifierByte = false ∧ rest.head?.any isIdentifierByte = false

/-- An occurrence of a name as a whole word is checked successfully. -/
theorem Rewrite.StandsApartAt.offsetOf {content : Bytes} (hsize : content.length < Count.limit)
    {old : String} {o : Occurrence} {offset : Nat} (h : StandsApartAt content (bytes old) o offset) :
    offsetOf content (lineStarts content) old o = .ok offset := by
  obtain ⟨front, rest, rfl, rfl, hends, hfront, hrest⟩ := h
  obtain ⟨hne, hstart⟩ := hends.lineStart (bytes old ++ rest)
  have hle := hends.column
  rw [List.length_append, List.length_append] at hsize
  have hoffset : Count.add? (front.length - o.location.column) o.location.column =
      some front.length := Count.add?_eq_some_iff.mpr ⟨by omega, by omega⟩
  have hstop : Count.add? front.length (bytes old).length =
      some (front.length + (bytes old).length) :=
    Count.add?_eq_some_iff.mpr ⟨rfl, by omega⟩
  unfold Rewrite.offsetOf
  simp only [hne, if_false, hstart, hoffset, hstop, Option.isNone_some, Bool.false_eq_true,
    holds_word hfront hrest, if_true]

/-- An occurrence that is checked successfully stands at the offset that was found. -/
theorem Rewrite.StandsApartAt.eq_of_offsetOf {content : Bytes} {old : String} {o : Occurrence}
    {offset found : Nat} (h : StandsApartAt content (bytes old) o offset)
    (hfound : Rewrite.offsetOf content (lineStarts content) old o = .ok found) :
    found = offset := by
  obtain ⟨front, rest, rfl, rfl, hends, _, _⟩ := h
  obtain ⟨hne, hstart⟩ := hends.lineStart (bytes old ++ rest)
  have hle := hends.column
  unfold Rewrite.offsetOf at hfound
  simp only [hne, if_false, hstart] at hfound
  cases hoffset : Count.add? (front.length - o.location.column) o.location.column with
  | none =>
    rw [hoffset] at hfound
    cases hfound
  | some offset =>
    have hsum := (Count.add?_eq_some_iff.mp hoffset).1
    rw [hoffset] at hfound
    dsimp only at hfound
    split at hfound
    · cases hfound
    · split at hfound
      · obtain rfl := Except.ok.inj hfound
        omega
      · cases hfound

/-- Every occurrence stands at the offset of its piece. -/
theorem Rewrite.standsApartAt_offsets {content name front : Bytes} {line column : Nat}
    (hends : EndsAt front line column) {ps : List Lexer.Piece} (hcut : Lexer.Cut front.reverse ps)
    (hcontent : content = front ++ Lexer.textOf ps) {found : List Occurrence}
    (hfound : found.map Occurrence.position = Lexer.places name line column ps) :
    List.Forall₂ (StandsApartAt content name) found (offsets name front.length ps) := by
  induction ps generalizing front line column found with
  | nil =>
    obtain rfl : found = [] := by simpa [Lexer.places] using hfound
    exact .nil
  | cons p ps ih =>
    obtain _ | ⟨hline, hcode, hcut⟩ := hcut
    rw [← List.reverse_append] at hcut
    have htext : content = front ++ (p.text ++ Lexer.textOf ps) := hcontent
    -- The line and column behind the piece.
    obtain ⟨line', column', hends', hplaces⟩ : ∃ line' column',
        EndsAt (front ++ p.text) line' column' ∧ Lexer.places name line column (p :: ps) =
          if p.isCode && p.text == name then
            (line, column) :: Lexer.places name line' column' ps
          else Lexer.places name line' column' ps := by
      by_cases hnewline : p.text = [Bytes.newline]
      · refine ⟨line + 1, 0, hnewline ▸ hends.newline, ?_⟩
        rw [Lexer.places, if_pos hnewline]
      · refine ⟨line, column + p.text.length, hends.append (hline.resolve_left hnewline), ?_⟩
        rw [Lexer.places, if_neg hnewline]
    have hrest : ∀ {found : List Occurrence},
        found.map Occurrence.position = Lexer.places name line' column' ps →
        List.Forall₂ (StandsApartAt content name) found
          (offsets name (front.length + p.text.length) ps) := by
      intro found hfound
      rw [← List.length_append]
      exact ih hends' hcut (by rw [htext, List.append_assoc]) hfound
    rw [hplaces] at hfound
    rw [offsets]
    split at hfound
    · rename_i hplace
      rw [if_pos hplace]
      simp only [Bool.and_eq_true, beq_iff_eq] at hplace
      obtain ⟨o, more, rfl, ho, hmore⟩ := List.map_eq_cons_iff.mp hfound
      obtain ⟨hl, hc⟩ := Prod.mk.inj ho
      obtain ⟨_, hbefore, hafter⟩ := hcode hplace.1
      rw [List.head?_reverse] at hbefore
      refine .cons ⟨front, Lexer.textOf ps, ?_, rfl, ?_, hbefore, hafter⟩ (hrest hmore)
      · rw [htext, hplace.2]
      · rw [hl, hc]
        exact hends
    · rename_i hplace
      rw [if_neg hplace]
      exact hrest hfound

/-- The occurrences of a name in a text that is not too large are checked successfully. -/
theorem Rewrite.mapM_offsetOf {content : Bytes} (hsize : content.length < Count.limit)
    {old : String} {found : List Occurrence} {ks : List Nat}
    (h : List.Forall₂ (StandsApartAt content (bytes old)) found ks) :
    found.mapM (offsetOf content (lineStarts content) old) = .ok ks := by
  induction h with
  | nil => rfl
  | cons hstands _ ih =>
    rw [List.mapM_cons, hstands.offsetOf hsize, ih]
    rfl

/-- When the occurrences are checked successfully, they stand at the offsets that are found. -/
theorem Rewrite.eq_of_mapM_offsetOf {content : Bytes} {old : String} {found : List Occurrence}
    {ks offsets : List Nat} (h : List.Forall₂ (StandsApartAt content (bytes old)) found ks)
    (hoffsets : found.mapM (offsetOf content (lineStarts content) old) = .ok offsets) :
    offsets = ks := by
  induction h generalizing offsets with
  | nil => exact (Except.ok.inj hoffsets).symm
  | cons hstands _ ih =>
    rw [List.mapM_cons] at hoffsets
    obtain ⟨k, hk, hoffsets⟩ := bind_eq_ok_iff.mp hoffsets
    obtain ⟨more, hmore, hoffsets⟩ := bind_eq_ok_iff.mp hoffsets
    obtain rfl := Except.ok.inj hoffsets
    rw [hstands.eq_of_offsetOf hk, ih hmore]

theorem Rewrite.slice_front {front : Bytes} {cursor : Nat} (h : cursor ≤ front.length)
    (rest : Bytes) : slice (front ++ rest) cursor front.length = front.drop cursor := by
  have hlength : (front.drop cursor).length = front.length - cursor := List.length_drop
  rw [slice, List.drop_append_of_le_length h, ← hlength, List.take_left]

/-- Replacing the spans at the offsets of the pieces replaces the pieces. -/
theorem Rewrite.splice_offsets {content old new front : Bytes} {cursor : Nat}
    (hcursor : cursor ≤ front.length) {ps : List Lexer.Piece}
    (hcontent : content = front ++ Lexer.textOf ps) :
    splice content old new cursor (offsets old front.length ps) =
      .ok (slice content cursor front.length ++
        Lexer.textOf (ps.map (Lexer.Piece.map (Bytes.replaceWord old new)))) := by
  induction ps generalizing front cursor with
  | nil =>
    obtain rfl : content = front := by simpa [Lexer.textOf] using hcontent
    simp [offsets, splice, slice, Lexer.textOf, List.take_of_length_le]
  | cons p ps ih =>
    have htext : content = (front ++ p.text) ++ Lexer.textOf ps := by
      rw [hcontent, List.append_assoc]
      rfl
    rw [offsets, ← List.length_append]
    split
    · rename_i hplace
      simp only [Bool.and_eq_true, beq_iff_eq] at hplace
      have hrest := ih (Nat.le_refl (front ++ p.text).length) htext
      have hlength : (front ++ p.text).length = front.length + old.length := by
        rw [List.length_append, hplace.2]
      rw [splice, if_neg (by omega), ← hlength, hrest]
      simp [bind, Except.bind, pure, Except.pure, slice, Lexer.textOf, Lexer.Piece.map_text, hplace,
        Bytes.replaceWord]
    · rename_i hplace
      rw [ih (by rw [List.length_append]; omega) htext]
      have hkept : (p.map (Bytes.replaceWord old new)).text = p.text := by
        rw [Lexer.Piece.map_text]
        split
        · rename_i hcode
          have hne : p.text ≠ old := by simpa [hcode] using hplace
          rw [Bytes.replaceWord, if_neg hne]
        · rfl
      have hslice : slice content cursor (front ++ p.text).length =
          slice content cursor front.length ++ p.text := by
        have hle : cursor ≤ (front ++ p.text).length := by
          rw [List.length_append]
          omega
        rw [htext, slice_front hle, List.append_assoc, slice_front hcursor,
          List.drop_append_of_le_length hcursor]
      rw [hslice, List.append_assoc]
      simp only [Lexer.textOf, List.map_cons, List.flatMap_cons, hkept]

/-! ### The rewritten content -/

/-- The tokens of a file of this path. -/
def Path.tokens (path : Path) (content : Bytes) : List Lexer.Piece :=
  Lexer.tokens (Language.ofPath path).syntactics {} [] content

/-- The content of a file of this path with a word of code replaced by another. -/
def Path.rename (path : Path) (old new content : Bytes) : Bytes :=
  Lexer.textOf ((path.tokens content).map (Lexer.Piece.map (Bytes.replaceWord old new)))

theorem Path.textOf_tokens (path : Path) (content : Bytes) :
    Lexer.textOf (path.tokens content) = content := Lexer.textOf_tokens _ _ _ _

theorem Path.cut_tokens (path : Path) (content : Bytes) : Lexer.Cut [] (path.tokens content) :=
  Lexer.cut_tokens (Language.regular_syntactics _) .start _ _

/-- The lexical occurrences of a name stand at the offsets of its words of code. -/
theorem Rewrite.standsApartAt_lexical (path : Path) (d : Disk) (content : String) {old : String}
    (hold : old ≠ "") :
    ∃ found, Source.lexical.occurrences d path content old none = .ok found ∧
      List.Forall₂ (StandsApartAt (bytes content) (bytes old)) found
        (offsets (bytes old) 0 (path.tokens (bytes content))) ∧
      found.length = (Lexer.codes (path.tokens (bytes content))).count (bytes old) := by
  obtain ⟨found, hfound, hplaces⟩ := Source.lexical_occurrences path d content hold
  have hcut : Lexer.Cut ([] : Bytes).reverse (path.tokens (bytes content)) := path.cut_tokens _
  refine ⟨found, hfound, standsApartAt_offsets .nil hcut ?_ hplaces, ?_⟩
  · exact (path.textOf_tokens _).symm
  · rw [← List.length_map (f := Occurrence.position), hplaces, Lexer.length_places]
    rfl

theorem Rewrite.splice_tokens (path : Path) (old new content : Bytes) :
    splice content old new 0 (offsets old 0 (path.tokens content)) =
      .ok (path.rename old new content) :=
  @splice_offsets content old new [] 0 (Nat.le_refl 0) _ (path.textOf_tokens content).symm

/-- Rewriting the lexical occurrences of a name replaces the words of code that are the
name, and reports one change for each. -/
theorem Rewrite.rewrite_lexical (path : Path) (d : Disk) (content : String)
    (hsize : (bytes content).length < Count.limit) {old : String} (hold : old ≠ "") (new : String) :
    ∃ found changes, Source.lexical.occurrences d path content old none = .ok found ∧
      rewrite (bytes content) found old new =
        .ok (path.rename (bytes old) (bytes new) (bytes content), changes) ∧
      found.length = (Lexer.codes (path.tokens (bytes content))).count (bytes old) ∧
      changes.length = found.length := by
  obtain ⟨found, hfound, hstands, hlength⟩ := standsApartAt_lexical path d content hold
  refine ⟨found, changesOf (bytes content) (path.rename (bytes old) (bytes new) (bytes content))
    found, hfound, ?_, hlength, List.length_map _⟩
  unfold rewrite
  rw [mapM_offsetOf hsize hstands]
  simp only [bind, Except.bind, splice_tokens]
  rfl

/-- When the lexical occurrences of a name are rewritten, its words of code are replaced. -/
theorem Rewrite.eq_rename_of_rewrite {path : Path} {d : Disk} {content old new : String}
    (hold : old ≠ "") {found : List Occurrence}
    (hfound : Source.lexical.occurrences d path content old none = .ok found) {rewritten : Bytes}
    {changes : List Change} (h : rewrite (bytes content) found old new = .ok (rewritten, changes)) :
    rewritten = path.rename (bytes old) (bytes new) (bytes content) := by
  obtain ⟨found', hfound', hstands, _⟩ := standsApartAt_lexical path d content hold
  obtain rfl := Except.ok.inj (hfound.symm.trans hfound')
  obtain ⟨offsets, hoffsets, h⟩ := bind_eq_ok_iff.mp h
  obtain ⟨result, hsplice, h⟩ := bind_eq_ok_iff.mp h
  rw [eq_of_mapM_offsetOf hstands hoffsets, splice_tokens] at hsplice
  obtain rfl := Except.ok.inj hsplice
  exact (Prod.mk.inj (Except.ok.inj h)).1.symm

/-- Replacing ASCII words by ASCII words leaves a text a text. -/
theorem Lexer.isText_map {old new front : Bytes} (hne : old ≠ []) (hold : ∀ b ∈ old, b < 0x80)
    (hnew : ∀ b ∈ new, b < 0x80) {ps : List Piece} (h : Utf8.IsText (front ++ textOf ps)) :
    Utf8.IsText (front ++ textOf (ps.map (Piece.map (Bytes.replaceWord old new)))) := by
  induction ps generalizing front with
  | nil => exact h
  | cons p ps ih =>
    simp only [textOf, List.map_cons, List.flatMap_cons, ← List.append_assoc] at h ih ⊢
    refine ih ?_
    rw [Piece.map_text]
    unfold Bytes.replaceWord
    split
    · split
      · rename_i hword
        rw [hword] at h
        exact h.replace hne hold hnew
      · exact h
    · exact h

theorem Lexer.isText_substitute {syn : Syntactics} {old new content : Bytes} (hne : old ≠ [])
    (hold : ∀ b ∈ old, b < 0x80) (hnew : ∀ b ∈ new, b < 0x80) (h : Utf8.IsText content) :
    Utf8.IsText (substitute syn (Bytes.replaceWord old new) content) := by
  rw [← textOf_pieces syn {} [] content] at h
  exact @isText_map old new [] hne hold hnew _ h

end SymbolRename
