import SymbolRename.Proofs.Lexer.Lookahead

/-!
# Replacing words in any language

Where neutral words of code are replaced by neutral words, the lexer of any language cuts the
new text where it cuts the old one: `Lexer.tokens_map`. What begins in the middle of a word or
outside of code is kept up to the end of that word.
-/

namespace SymbolRename

/-- Words become words. -/
def Bytes.MapsWords (f : Bytes → Bytes) : Prop := ∀ w : Bytes, w.IsWord → (f w).IsWord

/-- Words are replaced by words, and only neutral ones by others, which are neutral. -/
structure Syntactics.Admits (syn : Syntactics) (f : Bytes → Bytes) : Prop where
  words : Bytes.MapsWords f
  neutral : ∀ w, w = f w ∨ syn.IsNeutral w ∧ syn.IsNeutral (f w)

section

variable {syn : Syntactics} {f : Bytes → Bytes} {s : Lexer.State}

variable (syn) in
/-- The text with replaced words of code is the same up to the next word. -/
theorem Lexer.sameToWord_tokens (hf : Bytes.MapsWords f) (s : State) (before content : Bytes) :
    Bytes.SameToWord content (textOf ((tokens syn s before content).map (Piece.map f))) := by
  fun_induction tokens with
  | case1 => exact .nil
  | case2 s before b rest w m ih =>
    simp only [List.map_cons, textOf, List.flatMap_cons] at ih ⊢
    rw [Piece.map_text]
    split
    · rename_i hcode
      obtain ⟨_, _, hstart, htext⟩ := State.take_of_isWord hcode
      have htext : (b :: rest).take m.width = w.word := htext
      obtain ⟨hne, hbytes⟩ := hf _ (Window.word_isWord hstart)
      obtain ⟨y, more, hcons⟩ := List.exists_cons_of_ne_nil hne
      have hb := ((Window.isWordStart_iff rfl).mp hstart).1
      rw [htext, hcons, List.cons_append]
      exact .word _ _ hb (hbytes y (hcons ▸ List.mem_cons_self))
    · have happend := ih.append ((b :: rest).take m.width)
      rw [take_append_drop_pred b rest m.width_pos] at happend
      exact happend

/-- A mark that begins with a byte of another sort does not stand here. -/
theorem Lexer.Window.startsWith_eq_false_of_head {p : UInt8 → Bool} {w : Window} {b : UInt8}
    (hhead : w.rest.head? = some b) (hb : p b = true) {mark : Bytes}
    (hmark : mark.head?.any p = false) (hne : mark ≠ []) :
    w.startsWith mark = false := by
  obtain ⟨x, mark, rfl⟩ := List.exists_cons_of_ne_nil hne
  refine Bool.eq_false_iff.mpr fun hstands => ?_
  obtain ⟨more, hmore⟩ := Bytes.startsWith_iff.mp hstands
  rw [hmore] at hhead
  obtain rfl := Option.some.inj hhead
  simp [hb] at hmark

theorem Bytes.IsMark.head {mark : Bytes} (h : mark.IsMark) :
    mark.head?.any isIdentifierByte = false := by
  obtain ⟨x, mark, rfl⟩ := List.exists_cons_of_ne_nil h.1
  simpa using (h.2 x List.mem_cons_self).1

theorem Bytes.IsRegionMark.ne_nil {mark : Bytes} (h : mark.IsRegionMark) : mark ≠ [] := by
  rcases h with h | ⟨h, _⟩
  · exact h.1
  · rintro rfl
    exact h.1 rfl

theorem Bytes.IsRegionMark.head {mark : Bytes} (h : mark.IsRegionMark) :
    mark.head?.any isIdentifierByte = false := by
  have hne := h.ne_nil
  rcases h with h | ⟨h, _⟩
  · exact h.head
  · obtain ⟨x, mark, rfl⟩ := List.exists_cons_of_ne_nil hne
    exact h.head

/-- No block comment opens where none of the openings stands. -/
theorem Lexer.Window.find?_blockComments_eq_none {w : Window}
    (h : ∀ marks ∈ syn.blockComments, w.startsWith marks.1 = false) :
    syn.blockComments.find? (fun (opening, _) => w.startsWith opening) = none :=
  List.find?_eq_none.mpr fun marks hmarks => by simp [h marks hmarks]

/-- No region but a raw literal begins where a word goes on or begins. -/
theorem Lexer.State.regionMove?_eq (hsyn : syn.Regular) {b : UInt8} {w : Window}
    (hhead : w.rest.head? = some b) (hb : isIdentifierByte b = true) :
    regionMove? syn s b w = (if syn.rawLiterals && w.isWordStart then w.rawOpener? else none).map
      fun (letters, hashes) => .openRawLiteral letters hashes := by
  have hblock : ∀ marks ∈ syn.blockComments, w.startsWith marks.1 = false := by
    intro marks hmarks
    have hmark := (hsyn.blockComments marks hmarks).1
    exact Window.startsWith_eq_false_of_head hhead hb hmark.head hmark.ne_nil
  have hline : w.lineComment? syn = none := by
    refine List.find?_eq_none.mpr fun mark hmark => ?_
    have hmark := hsyn.lineComments mark hmark
    simp [Window.startsWith_eq_false_of_head hhead hb hmark.head hmark.1]
  have hliteral : opening? syn w = none := by
    unfold opening?
    rw [List.find?_eq_none.mpr fun lit hlit => ?_, Option.map_none]
    have hmark := hsyn.literals lit hlit
    simp [Window.startsWith_eq_false_of_head hhead hb hmark.head hmark.1]
  unfold regionMove?
  rw [hline, Window.find?_blockComments_eq_none hblock, hliteral]
  simp only [ne_of_isIdentifierByte hb (x := 0x27) rfl, ne_of_isIdentifierByte hb (x := 0x7d) rfl,
    false_and, if_false, Option.map_none]
  cases if syn.rawLiterals && w.isWordStart then w.rawOpener? else none <;> rfl

/-- No region begins within a word of code, and where raw literals are unknown none begins with
a word. -/
theorem Lexer.State.regionMove?_eq_none (hsyn : syn.Regular) {b : UInt8} {w : Window}
    (hhead : w.rest.head? = some b) (hb : isIdentifierByte b = true)
    (hraw : syn.rawLiterals = false ∨ w.isWordStart = false) : regionMove? syn s b w = none := by
  rw [regionMove?_eq hsyn hhead hb]
  rcases hraw with hraw | hraw <;> simp [hraw]

/-- The move takes nothing but bytes of a word. -/
def Lexer.Move.StaysInWord (m : Move) (w : Window) : Prop :=
  ∀ x ∈ w.rest.take m.width, isIdentifierByte x = true

theorem Lexer.Move.StaysInWord.of_one {m : Move} {w : Window} {b : UInt8}
    (hhead : w.rest.head? = some b) (hb : isIdentifierByte b = true) (hm : m.width = 1) :
    m.StaysInWord w := by
  obtain ⟨rest, hrest⟩ := List.head?_eq_some_iff.mp hhead
  intro x hx
  rw [hm, hrest] at hx
  obtain rfl := List.mem_singleton.mp hx
  exact hb

theorem Lexer.Move.StaysInWord.of_within {m : Move} {w : Window} {b : UInt8} {v : Bytes}
    (hhead : w.rest.head? = some b) (hb : isIdentifierByte b = true) (hv : v <+: w.word)
    (hm : m.width = max 1 v.length) : m.StaysInWord w := by
  by_cases hnil : v = []
  · exact .of_one hhead hb (by rw [hm, hnil]; rfl)
  · intro x hx
    have hpos := List.length_pos_iff.mpr hnil
    obtain ⟨more, hmore⟩ := hv.trans (List.takeWhile_prefix _)
    rw [hm, Nat.max_eq_right hpos, ← hmore, List.take_left] at hx
    exact List.mem_takeWhile_imp (hv.subset hx)

/-- Where a word goes on outside of code, or in the middle of a word of code, only bytes of the
word are taken, up to a dollar sign that opens embedded code. -/
theorem Lexer.State.move_inside (hsyn : syn.Regular) (hs : s.Regular) {b : UInt8} {w : Window}
    (hhead : w.rest.head? = some b) (hb : isIdentifierByte b = true)
    (hquiet : s.mode ≠ .code ∨ w.before.head?.any isIdentifierByte = true) :
    (s.move syn b w).StaysInWord w ∨
      ∃ lit rest, s.move syn b w = .openEmbedded lit .dollarBrace ∧
        w.rest = 0x24 :: 0x7b :: rest := by
  have hmark : ∀ {mark : Bytes}, mark.head?.any isIdentifierByte = false → mark ≠ [] →
      ¬ w.startsWith mark = true := fun hword hne =>
    Bool.eq_false_iff.mp (Window.startsWith_eq_false_of_head hhead hb hword hne)
  have hmakes := s.makes_move syn b w
  generalize s.move syn b w = m at hmakes ⊢
  have hinside : s.mode = .code → w.isWordStart = false := fun hmode => by
    simp [Window.isWordStart, hquiet.resolve_left (fun hne => hne hmode)]
  cases hmakes with
  | mention _ _ _ hv => exact .inl (.of_within hhead hb hv rfl)
  | blank | punct | pass | escaped => exact .inl (.of_one hhead hb rfl)
  | @openEmbedded lit mark _ hstands =>
    cases mark with
    | brace => exact absurd hstands (hmark rfl (by decide))
    | dollarBrace =>
      obtain ⟨more, hmore⟩ := Bytes.startsWith_iff.mp hstands
      exact .inr ⟨lit, more, rfl, hmore⟩
  -- The other moves begin with a mark or with a word of code.
  | newline hnewline => exact absurd hnewline (ne_of_isIdentifierByte hb rfl)
  | escape _ hbackslash => exact absurd hbackslash (ne_of_isIdentifierByte hb rfl)
  | bounds hmode hregion =>
    rw [regionMove?_eq_none hsyn hhead hb (.inr (hinside hmode))] at hregion
    cases hregion
  | word hmode _ hstart =>
    rw [hinside hmode] at hstart
    cases hstart
  | doubledBrace _ hstands => exact absurd hstands (hmark rfl (by decide))
  | closeBlockComment hmode hstands =>
    have hclose := hs.comment _ hmode
    exact absurd hstands (hmark hclose.head hclose.ne_nil)
  | closeLiteral hmode hstands =>
    have hlit := hs.literal _ _ hmode
    exact absurd hstands (hmark hlit.head hlit.1)
  | closeRawLiteral _ hcloses => exact absurd hcloses (hmark rfl (List.cons_ne_nil _ _))

/-- Outside of code, or in the middle of a word, the new text begins with the same word. -/
theorem Lexer.samePastWord_tokens (hsyn : syn.Regular) (hf : Bytes.MapsWords f)
    (hs : s.Regular) (before content : Bytes)
    (hquiet : s.mode ≠ .code ∨ before.head?.any isIdentifierByte = true) :
    Bytes.SamePastWord content (textOf ((tokens syn s before content).map (Piece.map f))) := by
  have hsame := sameToWord_tokens syn hf s before content
  fun_induction tokens syn s before content with
  | case1 => exact .other .nil rfl
  | case2 s before b rest w m ih =>
    cases hb : isIdentifierByte b with
    | false => exact .other hsame (by simpa using hb)
    | true =>
      have hnotWord : m.isWord = false := by
        refine Bool.eq_false_iff.mpr fun hword => ?_
        obtain ⟨_, hmode, hstart, _⟩ := State.take_of_isWord hword
        simp [Window.isWordStart, w, hquiet.resolve_left fun hne => hne hmode] at hstart
      have hregular : (s.after m).Regular := hs.after (s.inLine_move hsyn hs rfl).tame
      have hnext := sameToWord_tokens syn hf (s.after m) (w.advance m.width).before
        (rest.drop (m.width - 1))
      have htext : (⟨m.isWord, (b :: rest).take m.width⟩ : Piece).map f =
          ⟨false, (b :: rest).take m.width⟩ := by
        simp [Piece.map, hnotWord]
      simp only [List.map_cons, textOf, List.flatMap_cons, htext] at ih hnext ⊢
      rcases s.move_inside hsyn hs (w := w) rfl hb hquiet with hword | ⟨lit, more, hopens, hmore⟩
      · have hlast : (w.advance m.width).before.head?.any isIdentifierByte = true := by
          have hne : (b :: rest).take m.width ≠ [] := by
            simpa [List.take_eq_nil_iff] using m.width_pos.ne'
          show (((b :: rest).take m.width).reverse ++ before).head?.any isIdentifierByte = true
          rw [head?_reverse_append hne, List.getLast?_eq_some_getLast hne]
          exact hword _ (List.getLast_mem hne)
        have happend := (ih hregular (.inr hlast) hnext).append hword
        rw [take_append_drop_pred b rest m.width_pos] at happend
        exact happend
      · obtain ⟨rfl, rfl⟩ := List.cons.inj (hmore : b :: rest = _)
        have hopens : m = .openEmbedded lit .dollarBrace := hopens
        rw [hopens] at hnext ⊢
        exact .word rfl (.other (.other rfl hnext) rfl)

/-- The new text differs at most by a neutral word, up to the word after it. -/
theorem Lexer.sameButWord_tokens (hsyn : syn.Regular) (hf : syn.Admits f) (hs : s.Regular)
    (before content : Bytes) :
    Bytes.SameButWord syn.IsNeutral content
      (textOf ((tokens syn s before content).map (Piece.map f))) := by
  fun_induction tokens syn s before content with
  | case1 => exact .nil
  | case2 s before b rest w m ih =>
    have hregular : (s.after m).Regular := hs.after (s.inLine_move hsyn hs rfl).tame
    have hsplit := take_append_drop_pred b rest m.width_pos
    simp only [List.map_cons, textOf, List.flatMap_cons] at ih ⊢
    rw [Piece.map_text]
    split
    · rename_i hcode
      obtain ⟨_, _, hstart, htext⟩ := State.take_of_isWord hcode
      have htext : (b :: rest).take m.width = w.word := htext
      have hisWord := Window.word_isWord hstart
      have hword := Bytes.SameButWord.word hisWord (hf.words _ hisWord) (hf.neutral _)
        (State.head?_drop_of_isWord rfl hcode)
        (sameToWord_tokens syn hf.words (s.after m) (w.advance m.width).before
          (rest.drop (m.width - 1)))
      rw [← htext, hsplit] at hword
      exact hword
    · have hne : (b :: rest).take m.width ≠ [] := by
        simpa [List.take_eq_nil_iff] using m.width_pos.ne'
      have happend : Bytes.SameButWord syn.IsNeutral ((b :: rest).take m.width ++ _)
          ((b :: rest).take m.width ++ _) := (ih hregular).append fun hlast => by
        refine samePastWord_tokens hsyn hf.words hregular _ _ (.inr ?_)
        show (((b :: rest).take m.width).reverse ++ before).head?.any isIdentifierByte = true
        rw [head?_reverse_append hne]
        exact hlast
      rw [hsplit] at happend
      exact happend

/-- Inside a comment the new text closes it where the old one does. -/
theorem Lexer.startsWith_close_tokens (hsyn : syn.Regular) (hf : Bytes.MapsWords f)
    (hs : s.Regular) {close : Bytes} (hmode : s.mode = .blockComment close) (before : Bytes)
    (b : UInt8) (rest : Bytes) :
    Bytes.startsWith (textOf ((tokens syn s before (b :: rest)).map (Piece.map f))) close =
      Bytes.startsWith (b :: rest) close := by
  have hclose := hs.comment close hmode
  have hsame := sameToWord_tokens syn hf s before (b :: rest)
  rcases hclose with hmark | ⟨hhead, hword⟩
  · exact (hsame.startsWith_eq fun x hx => (hmark.2 x hx).1).symm
  · obtain ⟨x, word, rfl⟩ : ∃ x word, close = x :: word := by
      cases close with
      | nil => exact absurd rfl hhead.1
      | cons x word => exact ⟨x, word, rfl⟩
    have hbytes : ∀ y ∈ word, isIdentifierByte y = true := hword.2
    obtain ⟨hx, hline⟩ := hhead.2 x List.mem_cons_self
    by_cases hb : b = x
    · subst hb
      have hmove : s.move syn b ⟨before, b :: rest⟩ =
          if Bytes.startsWith (b :: rest) (b :: word) then .closeBlockComment (b :: word)
          else .pass := by
        have hstart : (⟨before, b :: rest⟩ : Window).isWordStart = false := by
          simp [Window.isWordStart, hx]
        unfold State.move
        simp only [if_neg hline, hmode, State.mentionMove, hstart, Bool.false_eq_true, if_false]
        rfl
      rw [tokens_cons]
      split at hmove
      · rename_i hstands
        obtain ⟨more, hmore⟩ := Bytes.startsWith_iff.mp hstands
        rw [hstands, hmove]
        have htake : (b :: rest).take (Move.closeBlockComment (b :: word)).width = b :: word := by
          have hwidth : (Move.closeBlockComment (b :: word)).width = (b :: word).length := by
            simp [Move.width]
          rw [hwidth, hmore, List.take_left]
        show Bytes.startsWith ((b :: rest).take (Move.closeBlockComment (b :: word)).width ++ _)
          (b :: word) = true
        rw [htake]
        exact Bytes.startsWith_iff.mpr ⟨_, rfl⟩
      · have hpast := samePastWord_tokens hsyn hf hs (b :: before) rest
          (.inl (by simp [hmode]))
        rw [hmove]
        show Bytes.startsWith (b :: textOf ((tokens syn s (b :: before) rest).map (Piece.map f)))
          (b :: word) = _
        have hrest : Bytes.startsWith (textOf ((tokens syn s (b :: before) rest).map (Piece.map f)))
            word = Bytes.startsWith rest word := by
          rw [Bool.eq_iff_iff, Bytes.startsWith_word_iff hbytes, Bytes.startsWith_word_iff hbytes,
            hpast.takeWhile_eq]
        simp only [Bytes.startsWith, List.isPrefixOf] at hrest ⊢
        rw [hrest]
    · have hno : ∀ a : Bytes, a.head? ≠ some x → Bytes.startsWith a (x :: word) = false := by
        intro a ha
        refine Bool.eq_false_iff.mpr fun hstands => ?_
        obtain ⟨more, hmore⟩ := Bytes.startsWith_iff.mp hstands
        exact ha (by rw [hmore]; rfl)
      have hhead : (b :: rest).head? ≠ some x := fun heq => hb (Option.some.inj heq)
      rw [hno _ hhead, hno _ fun heq => hhead ((hsame.head_eq_iff hx).mpr heq)]

/-! ### The tokens of the new text -/

theorem Lexer.tokens_append {t : State} {before text content : Bytes} {b : UInt8}
    (hhead : text.head? = some b) {m : Move} (hmove : t.move syn b ⟨before, text ++ content⟩ = m)
    (hwidth : m.width = text.length) :
    tokens syn t before (text ++ content) =
      ⟨m.isWord, text⟩ :: tokens syn (t.after m) (text.reverse ++ before) content := by
  obtain ⟨more, rfl⟩ := List.head?_eq_some_iff.mp hhead
  subst hmove
  rw [List.cons_append, tokens_cons]
  rw [List.cons_append] at hwidth
  simp [hwidth]

/-- What stands before two positions looks alike: the same kind of byte, and the same word or
neutral ones. A neutral word has ended. -/
structure Lexer.Behind (syn : Syntactics) (before before' content : Bytes) : Prop where
  wordBefore : before'.head?.any isIdentifierByte = before.head?.any isIdentifierByte
  solidBefore : before'.head?.any (!Bytes.isBlank ·) = before.head?.any (!Bytes.isBlank ·)
  lastWord : before'.takeWhile isIdentifierByte = before.takeWhile isIdentifierByte ∨
    content.head?.any isIdentifierByte = false ∧
      syn.IsNeutral (before.takeWhile isIdentifierByte).reverse ∧
      syn.IsNeutral (before'.takeWhile isIdentifierByte).reverse

/-- Behind the same text, positions still look alike. -/
theorem Lexer.Behind.append {before before' text content : Bytes} (hne : text ≠ [])
    (h : Behind syn before before' (text ++ content)) :
    Behind syn (text.reverse ++ before) (text.reverse ++ before') content := by
  refine ⟨?_, ?_, .inl ?_⟩
  · rw [head?_reverse_append hne, head?_reverse_append hne]
  · rw [head?_reverse_append hne, head?_reverse_append hne]
  · rw [List.takeWhile_append, List.takeWhile_append]
    split
    · rename_i hall
      rcases h.lastWord with heq | ⟨hend, _⟩
      · rw [heq]
      · obtain ⟨x, text, rfl⟩ := List.exists_cons_of_ne_nil hne
        have hwhole := (List.takeWhile_prefix isIdentifierByte).eq_of_length hall
        have hx : isIdentifierByte x = true :=
          List.mem_takeWhile_imp (hwhole.symm ▸ List.mem_reverse.mpr List.mem_cons_self)
        simp [hx] at hend
    · rfl

/-- Behind a word and the word in its place, positions look alike. -/
theorem Lexer.Behind.word {before before' u v content : Bytes} (hu : u.IsWord) (hv : v.IsWord)
    (hneutral : u = v ∨ syn.IsNeutral u ∧ syn.IsNeutral v)
    (hbefore : before.head?.any isIdentifierByte = false)
    (hbefore' : before'.head?.any isIdentifierByte = false)
    (hend : content.head?.any isIdentifierByte = false) :
    Behind syn (u.reverse ++ before) (v.reverse ++ before') content := by
  have hlast : ∀ {u before : Bytes}, u.IsWord → before.head?.any isIdentifierByte = false →
      (u.reverse ++ before).takeWhile isIdentifierByte = u.reverse := fun hu hbefore =>
    Bytes.takeWhile_word ⟨List.reverse_ne_nil_iff.mpr hu.1, fun x hx =>
      hu.2 x (List.mem_reverse.mp hx)⟩ hbefore
  refine ⟨?_, ?_, ?_⟩
  · rw [head?_reverse_append hu.1, head?_reverse_append hv.1, getLast?_any_of_isWord hu,
      getLast?_any_of_isWord hv]
  · rw [head?_reverse_append hu.1, head?_reverse_append hv.1, getLast?_solid_of_isWord hu,
      getLast?_solid_of_isWord hv]
  · rw [hlast hu hbefore, hlast hv hbefore', List.reverse_reverse, List.reverse_reverse]
    rcases hneutral with rfl | hneutral
    · exact .inl rfl
    · exact .inr ⟨hend, hneutral⟩

/-- In front of texts that are the same but for neutral words, alike positions are akin. -/
theorem Lexer.Behind.akin {before before' content content' : Bytes}
    (h : Behind syn before before' content)
    (hrest : Bytes.SameButWord syn.IsNeutral content content') :
    Window.Akin syn.IsNeutral ⟨before, content⟩ ⟨before', content'⟩ where
  wordBefore := h.wordBefore
  solidBefore := h.solidBefore
  lastWord := h.lastWord.imp (fun heq => congrArg List.reverse heq.symm) And.right
  rest := hrest

/-- In code, a word that opens no region is taken whole. -/
theorem Lexer.State.move_eq_word {t : State} (hmode : t.mode = .code) {b : UInt8} {w : Window}
    (hb : isIdentifierByte b = true) (hregion : regionMove? syn t b w = none)
    (hstart : w.isWordStart = true) : t.move syn b w = .word w.word := by
  unfold move codeMove
  rw [if_neg (ne_of_isIdentifierByte hb (x := Bytes.newline) rfl), hmode]
  simp only [hregion, Option.getD_none, hstart, if_true]

/-- Where one lexer takes a word of code the other takes one too: no region begins at either. -/
theorem Lexer.State.SameRegion.move_eq_word_of_akin (hsyn : syn.Regular) {t : State}
    (h : s.SameRegion t) {w v : Window} (hw : w.Akin syn.IsNeutral v) {b b' : UInt8}
    (hhead : w.rest.head? = some b) (hb' : isIdentifierByte b' = true) {u : Bytes}
    (hmove : s.move syn b w = .word u) : t.move syn b' v = .word v.word := by
  obtain ⟨hmode, hregion, hstart, _⟩ := of_move_word hmove
  have hb := ((Window.isWordStart_iff hhead).mp hstart).1
  have hsame : regionMove? syn t b' v = regionMove? syn s b w :=
    h.regionMove?_eq_of_akin hsyn hw (fun x hx => iff_of_false (ne_of_isIdentifierByte hb' hx)
      (ne_of_isIdentifierByte hb hx)) hhead
  exact move_eq_word (h.mode.trans hmode) hb' (hsame.trans hregion) (hw.isWordStart_eq.trans hstart)

/-- In the new text, `text` and what follows, a lexer in state `t` takes `text` where one in state
`s` makes the move `m`, and then both stand in the same region. -/
structure Lexer.Answered (syn : Syntactics) (s t : State) (before' text after : Bytes) (m : Move)
    (b' : UInt8) (m' : Move) : Prop where
  head : text.head? = some b'
  move : t.move syn b' ⟨before', text ++ after⟩ = m'
  width : m'.width = text.length
  isWord : m'.isWord = m.isWord
  region : (s.after m).SameRegion (t.after m')

/-- Where a word of code is taken, the new word is taken in its place. -/
theorem Lexer.Answered.of_word (hsyn : syn.Regular) {t : State} (h : s.SameRegion t)
    {w : Window} {before' new after : Bytes} (hw : w.Akin syn.IsNeutral ⟨before', new ++ after⟩)
    {b : UInt8} (hhead : w.rest.head? = some b) (hnew : new.IsWord)
    (hafter : after.head?.any isIdentifierByte = false) {u : Bytes}
    (hmove : s.move syn b w = .word u) :
    ∃ b', Answered syn s t before' new after (.word u) b' (.word new) := by
  obtain ⟨b', more, hcons⟩ := List.exists_cons_of_ne_nil hnew.1
  have hb' : isIdentifierByte b' = true := hnew.2 b' (hcons ▸ List.mem_cons_self)
  refine ⟨b', by rw [hcons]; rfl, ?_, ?_, rfl, ⟨h.mode, h.suspended, h.braces⟩⟩
  · rw [h.move_eq_word_of_akin hsyn hw hhead hb' hmove]
    exact congrArg Move.word (Bytes.takeWhile_word hnew hafter)
  · have hpos : 0 < new.length := List.length_pos_iff.mpr hnew.1
    simp only [Move.width]
    omega

/-- In the new text the lexer makes the move that it makes in the old one, or takes the new word
where it takes the old one, and then it stands in the same region and behind alike bytes. -/
theorem Lexer.move_map (hsyn : syn.Regular) (hf : syn.Admits f) (hs : s.Regular) {t : State}
    (h : s.SameRegion t) {before before' rest : Bytes} {b : UInt8}
    (hbehind : Behind syn before before' (b :: rest)) {m : Move}
    (hm : s.move syn b ⟨before, b :: rest⟩ = m) {p : Piece}
    (hp : p = (⟨m.isWord, (b :: rest).take m.width⟩ : Piece).map f) {after : Bytes}
    (hafter : after = textOf ((tokens syn (s.after m) (((b :: rest).take m.width).reverse ++ before)
      (rest.drop (m.width - 1))).map (Piece.map f))) :
    ∃ b' m', Answered syn s t before' p.text after m b' m' ∧
      Behind syn (((b :: rest).take m.width).reverse ++ before) (p.text.reverse ++ before')
        (rest.drop (m.width - 1)) := by
  have hmove : m.InLine ⟨before, b :: rest⟩ := hm ▸ s.inLine_move hsyn hs rfl
  have hsplit := take_append_drop_pred b rest m.width_pos
  have htext : textOf ((tokens syn s before (b :: rest)).map (Piece.map f)) = p.text ++ after := by
    rw [tokens_cons, hm, List.map_cons, ← hp, hafter]
    rfl
  have hbut := sameButWord_tokens hsyn hf hs before (b :: rest)
  rw [htext] at hbut
  cases hcode : m.isWord with
  | true =>
    obtain ⟨hword, _, hstart, hwhole⟩ := State.take_of_isWord (hm.symm ▸ hcode)
    rw [hm] at hword hwhole
    have hwhole : (b :: rest).take m.width = Window.word ⟨before, b :: rest⟩ := hwhole
    have hold := Window.word_isWord hstart
    have hends := State.head?_drop_of_isWord hm hcode
    have hclear := ((Window.isWordStart_iff rfl).mp hstart).2
    have hnewEnds : after.head?.any isIdentifierByte = false := by
      rw [hafter]
      exact (sameToWord_tokens syn hf.words _ _ _).head.symm.trans hends
    have hpiece : p.text = f (Window.word ⟨before, b :: rest⟩) := by
      rw [hp, Piece.map_text, hcode, if_pos rfl, hwhole]
    have hnew : p.text.IsWord := hpiece ▸ hf.words _ hold
    obtain ⟨b', hanswered⟩ := Answered.of_word hsyn h (hbehind.akin hbut) rfl hnew hnewEnds
      (hm.trans hword)
    rw [← hword] at hanswered
    refine ⟨b', _, hanswered, ?_⟩
    rw [hwhole]
    exact .word hold hnew (hpiece ▸ hf.neutral _) hclear (hbehind.wordBefore.trans hclear) hends
  | false =>
    have hpiece : p.text = (b :: rest).take m.width := by
      rw [hp, Piece.map_text, hcode, if_neg Bool.false_ne_true]
    have hwidth : m.width = ((b :: rest).take m.width).length := hmove.length_take.symm
    have hhead : ((b :: rest).take m.width).head? = some b := by
      rw [List.head?_take, if_neg m.width_pos.ne']
      rfl
    have hmove' : t.move syn b ⟨before', p.text ++ after⟩ = m := by
      refine (h.move_eq_of_akin hsyn hs (hbehind.akin hbut) rfl (fun hmode => ?_)
        (fun close hmode => ?_) (hm.symm ▸ hcode)).trans hm
      · exact htext ▸ samePastWord_tokens hsyn hf.words hs before (b :: rest) (.inl hmode)
      · exact htext ▸ startsWith_close_tokens hsyn hf.words hs hmode before b rest
    rw [hpiece] at hmove' ⊢
    refine ⟨b, m, ⟨hhead, hmove', hwidth, rfl, h.after m⟩, ?_⟩
    rw [← hsplit] at hbehind
    exact hbehind.append (List.ne_nil_of_mem (List.mem_of_head? hhead))

/-- The lexer cuts the new text where it cuts the old one. The induction is on the old text;
the two lexers stand in the same region and behind alike bytes. -/
theorem Lexer.tokens_map (hsyn : syn.Regular) (hf : syn.Admits f) (hs : s.Regular) {t : State}
    (h : s.SameRegion t) {before before' content : Bytes}
    (hbehind : Behind syn before before' content) :
    tokens syn t before' (textOf ((tokens syn s before content).map (Piece.map f))) =
      (tokens syn s before content).map (Piece.map f) := by
  fun_induction tokens syn s before content generalizing t before' with
  | case1 => simp [textOf, tokens]
  | case2 s before b rest w m =>
    rename_i ih
    obtain ⟨b', m', hanswered, hnext⟩ := move_map hsyn hf hs h hbehind (m := m) rfl rfl rfl
    have hregular : (s.after m).Regular := hs.after (s.inLine_move hsyn hs rfl).tame
    have hpiece : (⟨m'.isWord, ((⟨m.isWord, (b :: rest).take m.width⟩ : Piece).map f).text⟩ : Piece) =
        (⟨m.isWord, (b :: rest).take m.width⟩ : Piece).map f := by
      rw [hanswered.isWord, Piece.mk.injEq]
      exact ⟨(Piece.map_isCode f ⟨m.isWord, (b :: rest).take m.width⟩).symm, rfl⟩
    show tokens syn t before' (((⟨m.isWord, (b :: rest).take m.width⟩ : Piece).map f).text ++ _) = _
    refine (tokens_append hanswered.head hanswered.move hanswered.width).trans ?_
    rw [hpiece]
    exact congrArg _ (ih hregular hanswered.region hnext)

theorem Lexer.tokens_start_map (hsyn : syn.Regular) (hf : syn.Admits f) (content : Bytes) :
    tokens syn {} [] (textOf ((tokens syn {} [] content).map (Piece.map f))) =
      (tokens syn {} [] content).map (Piece.map f) :=
  tokens_map hsyn hf .start ⟨rfl, rfl, rfl⟩ ⟨rfl, rfl, .inl rfl⟩

end

end SymbolRename
