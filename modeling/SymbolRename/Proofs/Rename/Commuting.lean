import SymbolRename.Proofs.Rename.Selection
import SymbolRename.Proofs.Rename.Substitution
import SymbolRename.Proofs.Rewrite.Renaming

/-!
# Renaming commutes with the lexer

In a language whose words stand apart, the lexer goes through a renamed file as it went through
the old one: it makes the same moves in the same regions, and only takes the new name where it
took the old one. So the words of code are the renamed ones, each moved by as much as the names
before it in its line, and comments and literals are what they were.
-/

namespace SymbolRename

/-- A move of the lexer: the region in which it is made and the piece that it covers. -/
structure Lexer.Stride where
  mode : Mode
  piece : Piece
deriving DecidableEq, Repr

/-- The stride with its word of code replaced. -/
def Lexer.Stride.map (f : Bytes → Bytes) (p : Stride) : Stride := { p with piece := p.piece.map f }

/-- The moves of the lexer over the rest of a text. -/
def Lexer.strides (syn : Syntactics) (s : State) (before : Bytes) : Bytes → List Stride
  | [] => []
  | b :: rest =>
    let w : Window := ⟨before, b :: rest⟩
    let m := s.move syn b w
    ⟨s.mode, ⟨decide (s.mode = .code) && w.isWordStart, (b :: rest).take m.width⟩⟩ ::
      strides syn (s.after m) (w.advance m.width).before (rest.drop (m.width - 1))
termination_by content => content.length
decreasing_by simp only [List.length_drop, List.length_cons]; omega

/-- A word of code and where it begins. -/
structure Lexer.WordAt where
  line : Nat
  column : Nat
  word : Bytes
deriving DecidableEq, Repr

/-- The words of code among some pieces, from the position where the first piece begins. -/
def Lexer.wordsAt : Nat → Nat → List Piece → List WordAt
  | _, _, [] => []
  | line, column, p :: ps =>
    let rest := if p.text = [Bytes.newline] then wordsAt (line + 1) 0 ps
      else wordsAt line (column + p.text.length) ps
    if p.isCode then ⟨line, column, p.text⟩ :: rest else rest

/-- The moves of the lexer over a file of this path. -/
def Path.strides (path : Path) (content : Bytes) : List Lexer.Stride :=
  Lexer.strides (Language.ofPath path).syntactics {} [] content

/-- The words of code in a file of this path, with their lines and columns. -/
def Path.wordsAt (path : Path) (content : Bytes) : List Lexer.WordAt :=
  Lexer.wordsAt 1 0 ((path.strides content).map Lexer.Stride.piece)

/-- The moves within the comments and literals of a file of this path. -/
def Path.regions (path : Path) (content : Bytes) : List Lexer.Stride :=
  (path.strides content).filter (·.mode ≠ .code)

/-! ### The moves over a renamed text -/

theorem Lexer.map_piece_strides (syn : Syntactics) (s : State) (before content : Bytes) :
    (strides syn s before content).map Stride.piece = pieces syn s before content := by
  fun_induction strides with
  | case1 => simp [pieces]
  | case2 s before b rest w m ih =>
    rw [List.map_cons, ih, pieces]

section

variable {syn : Syntactics} (hsyn : syn.Plain) {f : Bytes → Bytes} {s : Lexer.State}

include hsyn

theorem Lexer.strides_append {t : State} {before text content : Bytes} {b : UInt8}
    (hhead : text.head? = some b) {m : Move} (hmove : t.move syn b ⟨before, text ++ content⟩ = m)
    (hwidth : m.width = text.length) :
    strides syn t before (text ++ content) =
      ⟨t.mode, ⟨m.isWord, text⟩⟩ :: strides syn (t.after m) (text.reverse ++ before) content := by
  obtain ⟨more, rfl⟩ := List.head?_eq_some_iff.mp hhead
  have hword := State.isWord_move hsyn (s := t) (w := ⟨before, b :: more ++ content⟩) rfl
  subst hmove
  rw [hword]
  rw [List.cons_append] at hwidth ⊢
  rw [strides]
  simp [hwidth, Window.advance]

/-- The lexer goes through the new text as it goes through the old one. The induction is on the
old text; the two lexers stand in the same region and behind alike bytes. -/
theorem Lexer.strides_map (hf : Bytes.MapsWords f) (hs : s.Regular) {t : State}
    (h : s.SameRegion t) {before before' content : Bytes}
    (hbehind : Behind syn before before' content) :
    strides syn t before' (textOf ((tokens syn s before content).map (Piece.map f))) =
      (strides syn s before content).map (Stride.map f) := by
  fun_induction strides syn s before content generalizing t before' with
  | case1 => simp [tokens, textOf, strides]
  | case2 s before b rest w m =>
    rename_i ih
    obtain ⟨b', m', hanswered, hnext⟩ :=
      move_map hsyn.regular (hsyn.admits hf) hs h hbehind (m := m) rfl rfl rfl
    have hregular : (s.after m).Regular :=
      hs.after (s.inLine_move hsyn.regular hs rfl).tame
    have hcode : (decide (s.mode = .code) && w.isWordStart) = m.isWord :=
      (State.isWord_move hsyn rfl).symm
    have hstride : (⟨t.mode, ⟨m'.isWord,
        ((⟨m.isWord, (b :: rest).take m.width⟩ : Piece).map f).text⟩⟩ : Stride) =
        (⟨s.mode, ⟨m.isWord, (b :: rest).take m.width⟩⟩ : Stride).map f := by
      rw [hanswered.isWord, h.mode, Stride.map, Stride.mk.injEq, Piece.mk.injEq]
      exact ⟨rfl, (Piece.map_isCode f ⟨m.isWord, (b :: rest).take m.width⟩).symm, rfl⟩
    rw [hcode, tokens_cons]
    show strides syn t before' (((⟨m.isWord, (b :: rest).take m.width⟩ : Piece).map f).text ++ _) = _
    refine (strides_append hsyn hanswered.head hanswered.move hanswered.width).trans ?_
    rw [hstride]
    exact congrArg _ (ih hregular hanswered.region hnext)

theorem Lexer.strides_substitute (hf : Bytes.MapsWords f) (content : Bytes) :
    strides syn {} [] (substitute syn f content) = (strides syn {} [] content).map (Stride.map f) := by
  rw [substitute_eq hsyn]
  exact strides_map hsyn hf .start ⟨rfl, rfl, rfl⟩ ⟨rfl, rfl, .inl rfl⟩

end

/-- Comments and literals are the same when words of code are replaced. -/
theorem Lexer.filter_strides_map (f : Bytes → Bytes) {ps : List Stride}
    (h : ∀ p ∈ ps, p.piece.isCode = true → p.mode = .code) :
    (ps.map (Stride.map f)).filter (·.mode ≠ .code) = ps.filter (·.mode ≠ .code) := by
  induction ps with
  | nil => rfl
  | cons p ps ih =>
    have hrest := ih fun q hq => h q (List.mem_cons_of_mem p hq)
    rw [List.map_cons]
    by_cases hmode : p.mode = .code
    · rw [List.filter_cons_of_neg (by simp [Stride.map, hmode]),
        List.filter_cons_of_neg (by simp [hmode]), hrest]
    · have hkept : p.map f = p := by
        have hcode : p.piece.isCode = false :=
          Bool.eq_false_iff.mpr fun hcode => hmode (h p List.mem_cons_self hcode)
        simp [Stride.map, Piece.map, hcode]
      rw [List.filter_cons_of_pos (by simp [Stride.map, hmode]),
        List.filter_cons_of_pos (by simp [hmode]), hrest, hkept]

/-- A piece of code is a whole word. -/
theorem Lexer.Cut.isWord {before : Bytes} {ps : List Piece} (h : Cut before ps) {p : Piece}
    (hp : p ∈ ps) (hcode : p.isCode = true) : p.text.IsWord := by
  induction h with
  | nil => cases hp
  | cons _ hword _ ih =>
    rcases List.mem_cons.mp hp with rfl | hp
    · exact (hword hcode).1
    · exact ih hp

theorem Lexer.mode_of_isCode (syn : Syntactics) (s : State) (before content : Bytes) :
    ∀ p ∈ strides syn s before content, p.piece.isCode = true → p.mode = .code := by
  fun_induction strides with
  | case1 => nofun
  | case2 s before b rest w m ih =>
    intro p hp hcode
    rcases List.mem_cons.mp hp with rfl | hp
    · exact of_decide_eq_true (Bool.and_eq_true_iff.mp hcode).1
    · exact ih p hp hcode

/-! ### Where the words stand -/

section

variable {old new : Bytes} {line column column' before n : Nat} {ps : List Lexer.Piece}
  {e : Lexer.WordAt}

theorem Lexer.line_le_of_mem_wordsAt (h : e ∈ wordsAt line column ps) : line ≤ e.line := by
  induction ps generalizing line column with
  | nil => cases h
  | cons p ps ih =>
    rw [wordsAt] at h
    have hrest : e ∈ (if p.text = [Bytes.newline] then wordsAt (line + 1) 0 ps
        else wordsAt line (column + p.text.length) ps) → line ≤ e.line := by
      intro h
      split at h
      · exact Nat.le_of_succ_le (ih h)
      · exact ih h
    split at h
    · rcases List.mem_cons.mp h with rfl | h
      · exact Nat.le_refl _
      · exact hrest h
    · exact hrest h

/-- The places of a name are those of the words of code that are the name. -/
theorem Lexer.places_eq (name : Bytes) (line column : Nat) (ps : List Piece) :
    places name line column ps =
      ((wordsAt line column ps).filter (·.word = name)).map fun e => (e.line, e.column) := by
  induction ps generalizing line column with
  | nil => rfl
  | cons p ps ih =>
    have hrest : (if p.text = [Bytes.newline] then places name (line + 1) 0 ps
        else places name line (column + p.text.length) ps) =
        ((if p.text = [Bytes.newline] then wordsAt (line + 1) 0 ps
          else wordsAt line (column + p.text.length) ps).filter (·.word = name)).map
            fun e => (e.line, e.column) := by
      split
      · exact ih _ _
      · exact ih _ _
    rw [places, wordsAt, hrest]
    cases hcode : p.isCode with
    | false => rfl
    | true => by_cases hname : p.text = name <;> simp [hname]

/-- How many words of code that are the name stand in the same line before the `n`-th one. -/
def Lexer.earlier (name : Bytes) (words : List WordAt) (n line : Nat) : Nat :=
  (words.take n).countP fun e => e.line = line && e.word = name

/-- A replaced word is as much longer as the new name is. -/
theorem Bytes.length_replaceWord (old new w : Bytes) :
    (replaceWord old new w).length + (if w = old then 1 else 0) * old.length =
      w.length + (if w = old then 1 else 0) * new.length := by
  unfold replaceWord
  split
  · rename_i hold
    rw [hold, Nat.one_mul, Nat.one_mul, Nat.add_comm]
  · rw [Nat.zero_mul, Nat.zero_mul]

theorem Bytes.IsWord.ne_newline {w : Bytes} (hw : w.IsWord) : w ≠ [newline] := by
  rintro rfl
  cases hw.2 _ List.mem_cons_self

/-- A replaced word moves what comes behind it in its line, and nothing else. In the induction
`before` counts the replaced words of the line so far. -/
theorem Lexer.wordsAt_map (hps : ∀ p ∈ ps, p.isCode = true → p.text.IsWord) (hnew : new.IsWord)
    (h : column' + before * old.length = column + before * new.length)
    (he : (wordsAt line column ps)[n]? = some e) :
    ∃ shifted, (wordsAt line column' (ps.map (Piece.map (Bytes.replaceWord old new))))[n]? =
        some ⟨e.line, shifted, Bytes.replaceWord old new e.word⟩ ∧
      ∃ k, k = (if e.line = line then before else 0) +
          earlier old (wordsAt line column ps) n e.line ∧
        shifted + k * old.length = e.column + k * new.length := by
  induction ps generalizing line column column' before n with
  | nil => cases he
  | cons p ps ih =>
    have hrest : ∀ q ∈ ps, q.isCode = true → q.text.IsWord :=
      fun q hq => hps q (List.mem_cons_of_mem p hq)
    rw [List.map_cons, wordsAt, Piece.map_isCode, Piece.map_text]
    rw [wordsAt] at he
    cases hcode : p.isCode with
    | false =>
      rw [wordsAt, hcode]
      simp only [hcode, Bool.false_eq_true, if_false] at he ⊢
      by_cases hnewline : p.text = [Bytes.newline]
      · simp only [if_pos hnewline] at he ⊢
        have hfresh : 0 + 0 * old.length = 0 + 0 * new.length := by omega
        obtain ⟨shifted, hshifted, k, hk, hshift⟩ := ih hrest hfresh he
        have hbelow := line_le_of_mem_wordsAt (List.mem_of_getElem? he)
        refine ⟨shifted, hshifted, k, ?_, hshift⟩
        rw [hk, if_neg (show e.line ≠ line by omega), ite_self]
      · simp only [if_neg hnewline] at he ⊢
        have hmoved : column' + p.text.length + before * old.length =
            column + p.text.length + before * new.length := by omega
        exact ih hrest hmoved he
    | true =>
      have hword := hps p List.mem_cons_self hcode
      have hreplaced : (Bytes.replaceWord old new p.text).IsWord :=
        Bytes.mapsWords_replaceWord hnew _ hword
      rw [wordsAt, hcode]
      simp only [hcode, if_true, if_neg hword.ne_newline, if_neg hreplaced.ne_newline] at he ⊢
      cases n with
      | zero =>
        obtain rfl := Option.some.inj he
        exact ⟨column', rfl, before, by simp [earlier], h⟩
      | succ n =>
        rw [List.getElem?_cons_succ] at he ⊢
        have hmoved : column' + (Bytes.replaceWord old new p.text).length +
            (before + if p.text = old then 1 else 0) * old.length =
            column + p.text.length + (before + if p.text = old then 1 else 0) * new.length := by
          have hlength := Bytes.length_replaceWord old new p.text
          rw [Nat.add_mul, Nat.add_mul]
          omega
        obtain ⟨shifted, hshifted, k, hk, hshift⟩ := ih hrest hmoved he
        refine ⟨shifted, hshifted, k, ?_, hshift⟩
        rw [hk, earlier, earlier, List.take_succ_cons, List.countP_cons]
        by_cases hsame : e.line = line
        · by_cases hold : p.text = old
          · simp [hsame, hold]
            omega
          · simp [hsame, hold]
        · simp [hsame, Ne.symm hsame]

end

/-! ### Renamed files -/

/-- What a rename makes of a file: its lexical occurrences of the old name are rewritten. A text is
always shorter than what can be counted. -/
def Path.IsRenamed (path : Path) (old new content renamed : String) : Prop :=
  (bytes content).length < Count.limit → ∀ d, ∃ found changes,
    Source.lexical.occurrences d path content old none = .ok found ∧
      Rewrite.rewrite (bytes content) found old new = .ok (bytes renamed, changes)

/-- A renamed file next to the one that it was. -/
structure Path.Commutes (path : Path) (old new content renamed : String) : Prop where
  /-- Every word of code that is the old name is replaced. -/
  replaced : bytes renamed = path.substitute (Bytes.replaceWord (bytes old) (bytes new)) (bytes content)
  rewritten : path.IsRenamed old new content renamed
  /-- The lexer makes the same moves in the same regions, and takes the new name for the old. -/
  strides : path.strides (bytes renamed) =
    (path.strides (bytes content)).map (.map (Bytes.replaceWord (bytes old) (bytes new)))
  codeWords : path.codeWords (bytes renamed) =
    (path.codeWords (bytes content)).map (Bytes.replaceWord (bytes old) (bytes new))
  /-- A word of code keeps its line, and moves by as much as the old names before it in it. -/
  wordsAt : ∀ n e, (path.wordsAt (bytes content))[n]? = some e → ∃ column,
    (path.wordsAt (bytes renamed))[n]? =
        some ⟨e.line, column, Bytes.replaceWord (bytes old) (bytes new) e.word⟩ ∧
      column + Lexer.earlier (bytes old) (path.wordsAt (bytes content)) n e.line * (bytes old).length =
        e.column + Lexer.earlier (bytes old) (path.wordsAt (bytes content)) n e.line *
          (bytes new).length
  /-- Comments and literals are kept. -/
  regions : path.regions (bytes renamed) = path.regions (bytes content)
  /-- The old name is not found any more. -/
  gone : ∀ d range, Source.lexical.occurrences d path renamed old range = .ok []
  /-- A name that was no word of code is renamed back to the old content. -/
  back : bytes new ∉ path.codeWords (bytes content) → path.IsRenamed new old renamed content

section

variable {path : Path} {old new : String}

/-- In the languages whose words stand apart, the rewritten content is the one with the words of
code replaced. -/
theorem Path.isRenamed_of_substitute (hplain : (Language.ofPath path).IsPlain = true)
    (hold : old ≠ "") {content renamed : String}
    (h : bytes renamed = path.substitute (Bytes.replaceWord (bytes old) (bytes new)) (bytes content)) :
    path.IsRenamed old new content renamed := by
  intro hsize d
  obtain ⟨found, changes, hfound, hrewrite, _⟩ := Rewrite.rewrite_lexical path d content hsize hold new
  refine ⟨found, changes, hfound, ?_⟩
  rw [hrewrite, h, substitute, Lexer.substitute_eq (Language.plain_syntactics hplain)]
  rfl

theorem Path.map_piece_strides (path : Path) (content : Bytes) :
    (path.strides content).map Lexer.Stride.piece =
      Lexer.pieces (Language.ofPath path).syntactics {} [] content :=
  Lexer.map_piece_strides _ _ _ _

/-- The occurrences of a name are the words of code that are the name. -/
theorem Source.lexical_occurrences_at (hplain : (Language.ofPath path).IsPlain = true) (d : Disk)
    (content : String) {name : String} (hname : name ≠ "") :
    ∃ found, Source.lexical.occurrences d path content name none = .ok found ∧
      found.map Occurrence.position = ((path.wordsAt (bytes content)).filter
        (·.word = bytes name)).map fun e => (e.line, e.column) := by
  obtain ⟨found, hfound, hplaces⟩ := Source.lexical_occurrences path d content hname
  refine ⟨found, hfound, ?_⟩
  rw [hplaces, Lexer.places_eq, Path.wordsAt, Path.map_piece_strides,
    Lexer.pieces_eq_tokens (Language.plain_syntactics hplain)]

/-- A name that is no word of code has no occurrence. -/
theorem Source.lexical_occurrences_eq_nil (hold : old ≠ "") {content : String}
    (h : bytes old ∉ Lexer.codes (path.tokens (bytes content))) (d : Disk)
    (range : Option LineRange) : Source.lexical.occurrences d path content old range = .ok [] := by
  have hne : bytes old ≠ [] := fun hnil => hold (bytes_eq_nil_iff.mp hnil)
  have hkept := (Lexer.hitsFrom_hits (Language.regular_syntactics (Language.ofPath path))
    (bytes content) hne).kept
  have hplaces : Lexer.places (bytes old) 1 0 (path.tokens (bytes content)) = [] := by
    rw [← List.length_eq_zero_iff, Lexer.length_places]
    exact List.count_eq_zero.mpr h
  have hexcluded : ∀ hit ∈ Lexer.hits (Language.ofPath path).syntactics (bytes content) (bytes old),
      hit.kind.isExcluded = true := by
    intro hit hhit
    have hnone := List.map_eq_nil_iff.mp (hkept.trans hplaces)
    simpa using List.filter_eq_nil_iff.mp hnone hit hhit
  unfold Source.occurrences
  split
  · refine congrArg Except.ok (List.eq_nil_iff_forall_not_mem.mpr fun o ho => ?_)
    obtain ⟨c, hc, _, hkind, _⟩ := Occurrence.captured_of_mem_select ho
    obtain ⟨hit, hhit, rfl⟩ := List.mem_map.mp hc
    rw [hexcluded hit hhit] at hkind
    cases hkind
  · rfl

/-- Renaming commutes with the lexer. In the languages whose words stand apart, every content and
all identifiers have a renamed content, through which the lexer goes as it went through the old
one. -/
theorem Source.lexical_rename_commutes (hplain : (Language.ofPath path).IsPlain = true)
    (content : String) (hold : isValidIdentifier old = true) (hnew : isValidIdentifier new = true)
    (hne : old ≠ new) : ∃ renamed, path.Commutes old new content renamed := by
  have hsyn := Language.plain_syntactics hplain
  have holdWord := Bytes.isWord_of_isValidIdentifier hold
  have hnewWord := Bytes.isWord_of_isValidIdentifier hnew
  have hmaps : Bytes.MapsWords (Bytes.replaceWord (bytes old) (bytes new)) :=
    Bytes.mapsWords_replaceWord hnewWord
  have htext : Utf8.IsText (path.substitute (Bytes.replaceWord (bytes old) (bytes new))
      (bytes content)) :=
    Lexer.isText_substitute holdWord.1 (lt_of_isValidIdentifier hold)
      (lt_of_isValidIdentifier hnew) ⟨content, rfl⟩
  obtain ⟨renamed, hrenamed⟩ := htext
  have hreplaced := hrenamed.symm
  have hstrides : path.strides (bytes renamed) =
      (path.strides (bytes content)).map (.map (Bytes.replaceWord (bytes old) (bytes new))) := by
    rw [hreplaced]
    exact Lexer.strides_substitute hsyn hmaps _
  have hwords : path.codeWords (bytes renamed) =
      (path.codeWords (bytes content)).map (Bytes.replaceWord (bytes old) (bytes new)) := by
    rw [hreplaced]
    exact Lexer.codeWords_substitute hsyn hmaps _
  refine ⟨renamed, hreplaced,
    Path.isRenamed_of_substitute hplain (ne_empty_of_isValidIdentifier hold) hreplaced, hstrides,
    hwords, fun n e he => ?_, ?_, fun d range => ?_, fun hfresh => ?_⟩
  · have hpieces : (path.strides (bytes renamed)).map Lexer.Stride.piece =
        ((path.strides (bytes content)).map Lexer.Stride.piece).map
          (.map (Bytes.replaceWord (bytes old) (bytes new))) := by
      rw [hstrides, List.map_map, List.map_map]
      rfl
    have hcode : ∀ p ∈ (path.strides (bytes content)).map Lexer.Stride.piece,
        p.isCode = true → p.text.IsWord := by
      rw [Path.map_piece_strides, Lexer.pieces_eq_tokens hsyn]
      exact fun p hp => (path.cut_tokens (bytes content)).isWord hp
    have hstart : 0 + 0 * (bytes old).length = 0 + 0 * (bytes new).length := by omega
    obtain ⟨column, hcolumn, k, hk, hshift⟩ := Lexer.wordsAt_map hcode hnewWord hstart he
    rw [ite_self, Nat.zero_add] at hk
    subst hk
    refine ⟨column, ?_, hshift⟩
    rw [Path.wordsAt, hpieces]
    exact hcolumn
  · rw [Path.regions, hstrides]
    exact Lexer.filter_strides_map _ (Lexer.mode_of_isCode _ _ _ _)
  · refine lexical_occurrences_eq_nil (ne_empty_of_isValidIdentifier hold) ?_ d range
    rw [Path.codeWords, Lexer.codeWords_eq hsyn] at hwords
    rw [Path.tokens, hwords]
    intro hmem
    obtain ⟨w, _, hw⟩ := List.mem_map.mp hmem
    unfold Bytes.replaceWord at hw
    split at hw
    · exact hne (bytes_injective hw.symm)
    · exact absurd hw ‹_›
  · refine Path.isRenamed_of_substitute hplain (ne_empty_of_isValidIdentifier hnew) ?_
    rw [hreplaced, Path.substitute, Path.substitute, Lexer.substitute_substitute hsyn hmaps]
    refine (Lexer.substitute_eq_self fun w hw => ?_).symm
    unfold Bytes.replaceWord
    split
    · rename_i heq
      rw [if_pos rfl, heq]
    · have hother : w ≠ bytes new := fun heq => hfresh (heq ▸ hw)
      rw [if_neg hother]

end

/-- A name in code, in an embedded expression, in the text around it and in comments. -/
theorem Source.lexical_rename_commutes_template :
    ∃ renamed, (⟨"a.js"⟩ : Path).Commutes "a" "bc" "a + `${a} a`; a // a\nab(a) /* a */" renamed ∧
      renamed = "bc + `${bc} a`; bc // a\nab(bc) /* a */" := by
  obtain ⟨renamed, hcommutes⟩ := @lexical_rename_commutes ⟨"a.js"⟩ "a" "bc" (by decide +kernel)
    "a + `${a} a`; a // a\nab(a) /* a */" (by decide) (by decide) (by decide)
  exact ⟨renamed, hcommutes, bytes_injective (hcommutes.replaced.trans (by decide +kernel))⟩

end SymbolRename
