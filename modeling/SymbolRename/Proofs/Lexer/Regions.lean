import SymbolRename.Proofs.Lexer.Reading

/-!
# Comments and literals are passed over

Up to its end a comment or a literal is read without a word of code: a line comment up to the line
feed, a block comment up to its closing mark, a raw literal up to its quote with as many hash
marks, and a literal in quotes up to the quote that no backslash takes out of the count.
-/

namespace SymbolRename

/-! ### Reading under an invariant -/

section

variable {syn : Syntactics} {rest : Bytes} {s : Lexer.State} {before text : Bytes}

/-- A text is passed over when no move out of the states that an invariant allows takes a word of
code or goes on behind the text. -/
theorem Lexer.exists_passes {P : State → Bytes → Prop}
    (hstep : ∀ {s} before {b more}, P s (b :: more) →
      ∀ m, s.move syn b ⟨before, b :: (more ++ rest)⟩ = m →
        m.isWord = false ∧ m.width ≤ more.length + 1 ∧ P (s.after m) (more.drop (m.width - 1)))
    (h : P s text) : ∃ t, Passes syn rest s before text t ∧ P t [] := by
  induction hn : text.length using Nat.strong_induction_on generalizing s before text with
  | _ n ih =>
    subst hn
    cases text with
    | nil => exact ⟨s, .nil _ _ _ _, h⟩
    | cons b more =>
      obtain ⟨hword, hwidth, hnext⟩ := hstep before h _ rfl
      generalize hm : s.move syn b ⟨before, b :: (more ++ rest)⟩ = m at hword hwidth hnext
      have hpos := m.width_pos
      have hsplit := take_append_drop_pred b more hpos
      obtain ⟨t, hpasses, ht⟩ := @ih _ (by rw [List.length_drop, List.length_cons]; omega) _
        (((b :: more).take m.width).reverse ++ before) _ hnext rfl
      refine ⟨t, ?_, ht⟩
      have hmoved := @Passes.move rest s t syn before _ b m ((b :: more).take m.width) ?_ ?_ ?_ hword hpasses
      · rwa [hsplit] at hmoved
      · obtain ⟨k, hk⟩ := Nat.exists_eq_succ_of_ne_zero hpos.ne'
        rw [hk]
        rfl
      · rw [← List.append_assoc, hsplit]
        exact hm
      · rw [List.length_take, List.length_cons]
        omega

/-- A word that ends in a text is no longer than the text. -/
theorem Lexer.Window.length_word_le (hrest : rest.head?.any isIdentifierByte = false) :
    (Window.word ⟨before, text ++ rest⟩).length ≤ text.length := by
  show ((text ++ rest).takeWhile isIdentifierByte).length ≤ text.length
  rw [List.takeWhile_append]
  split
  · cases rest with
    | nil => simp
    | cons x rest =>
      have hx : isIdentifierByte x = false := by simpa using hrest
      rw [List.takeWhile_cons_of_neg (by simp [hx]), List.append_nil]
  · exact (List.takeWhile_prefix _).length_le

/-- The moves of a region in which words are mentioned take no word of code, and cover a byte or
bytes of a word. -/
theorem Lexer.State.mentionMove_passes (s : State) (kind : CaptureKind) {b : UInt8} {more : Bytes}
    (hrest : rest.head?.any isIdentifierByte = false) {m : Move}
    (hm : m = mentionMove kind ⟨before, b :: (more ++ rest)⟩) :
    m.isWord = false ∧ m.width ≤ more.length + 1 ∧ s.after m = s ∧
      ∀ x ∈ (b :: more).take m.width, x = b ∨ isIdentifierByte x = true := by
  subst hm
  unfold mentionMove
  split
  · rename_i hstart
    have hword := @Window.length_word_le rest before (b :: more) hrest
    rw [List.cons_append, List.length_cons] at hword
    have hwidth : (Move.word (Window.word ⟨before, b :: (more ++ rest)⟩)).width ≤
        (b :: more).length := by
      simp only [Move.width, List.length_cons]
      omega
    refine ⟨rfl, hwidth, rfl, fun x hx => .inr ?_⟩
    have htake := Window.take_word _ hstart
    change ((b :: more) ++ rest).take _ = _ at htake
    rw [List.take_append_of_le_length hwidth] at htake
    exact (Window.word_isWord hstart).2 x (htake ▸ hx)
  · exact ⟨rfl, Nat.le_add_left 1 _, rfl, fun x hx => .inl (List.mem_singleton.mp hx)⟩

/-- A text is passed over in a region that mentions words and goes on after line feeds, as long as
no other move is made there. -/
theorem Lexer.exists_passes_of_mentions (kind : CaptureKind) {mode : Mode} {Q : Bytes → Prop}
    (hrest : rest.head?.any isIdentifierByte = false) (hdrop : ∀ a b, Q (a ++ b) → Q b)
    (hmove : ∀ {s : State} before {b more}, s.mode = mode → Q (b :: more) →
      s.move syn b ⟨before, b :: (more ++ rest)⟩ = .newline ∧ (s.after .newline).mode = mode ∨
        s.move syn b ⟨before, b :: (more ++ rest)⟩ =
          State.mentionMove kind ⟨before, b :: (more ++ rest)⟩)
    (hs : s.mode = mode) (htext : Q text) :
    ∃ t, Passes syn rest s before text t ∧ t.mode = mode := by
  suffices h : ∃ t, Passes syn rest s before text t ∧ t.mode = mode ∧ Q [] by
    obtain ⟨t, hpasses, ht, _⟩ := h
    exact ⟨t, hpasses, ht⟩
  refine exists_passes (P := fun s text => s.mode = mode ∧ Q text) ?_ ⟨hs, htext⟩
  intro s before b more h m hm
  have hlater : Q (more.drop (m.width - 1)) := by
    refine hdrop ((b :: more).take m.width) _ ?_
    rw [take_append_drop_pred b more m.width_pos]
    exact h.2
  rcases hmove before h.1 h.2 with ⟨hnewline, hmode⟩ | hmention
  · obtain rfl := hnewline.symm.trans hm
    exact ⟨rfl, Nat.le_add_left 1 _, hmode, hlater⟩
  · obtain ⟨hword, hwidth, hafter, _⟩ := s.mentionMove_passes kind hrest (hm.symm.trans hmention)
    exact ⟨hword, hwidth, by rw [hafter]; exact h.1, hlater⟩

/-! ### Comments and raw literals -/

/-- A line comment is passed over up to the end of its line. -/
theorem Lexer.passes_lineComment (hs : s.mode = .lineComment)
    (hrest : rest.head?.any isIdentifierByte = false) (htext : Bytes.newline ∉ text) :
    ∃ t, Passes syn rest s before text t ∧ t.mode = .lineComment := by
  refine exists_passes_of_mentions .comment (Q := fun text => Bytes.newline ∉ text) hrest
    (fun a b h hmem => h (List.mem_append_right a hmem)) (fun {s} before {b more} hs h => .inr ?_)
    hs htext
  have hb : b ≠ Bytes.newline := by
    rintro rfl
    exact h List.mem_cons_self
  unfold State.move
  rw [if_neg hb, hs]

/-- A mark whose first byte is not repeated stands in front of itself only where it stands in the
text already. -/
theorem Bytes.startsWith_eq_false_of_contains {x : UInt8} {tail : Bytes} (hx : x ∉ tail)
    {text : Bytes} (h : contains (x :: tail) text = false) (hne : text ≠ []) (rest : Bytes) :
    startsWith (text ++ (x :: (tail ++ rest))) (x :: tail) = false := by
  refine Bool.eq_false_iff.mpr fun hstands => ?_
  rw [startsWith, List.isPrefixOf_iff_prefix] at hstands
  rcases Nat.lt_or_ge text.length (tail.length + 1) with hlt | hge
  · -- The mark would reach into the one behind, whose first byte is then in its tail.
    obtain ⟨y, text, rfl⟩ := List.exists_cons_of_ne_nil hne
    obtain ⟨-, htail⟩ := List.cons_prefix_cons.mp hstands
    rw [List.length_cons] at hlt
    have hget : (text ++ (x :: (tail ++ rest)))[text.length]? = some x := by simp
    have hmem := List.prefix_iff_getElem?.mp htail text.length (by omega)
    rw [List.append_eq, hget] at hmem
    exact hx (Option.some.inj hmem ▸ List.getElem_mem _)
  · obtain ⟨more, hmore⟩ := List.prefix_of_prefix_length_le hstands (List.prefix_append text _) hge
    have hcontains : contains (x :: tail) text = true := contains_iff.mpr ⟨[], more, hmore.symm⟩
    rw [h] at hcontains
    cases hcontains

/-- A region that only its closing mark ends is passed over up to this mark. -/
theorem Lexer.passes_marked (kind : CaptureKind) {mode : Mode} {x : UInt8} {tail : Bytes}
    (hx : x ∉ tail) (hword : isIdentifierByte x = false)
    (hnewline : ∀ s : State, s.mode = mode → (s.after .newline).mode = mode)
    (hmove : ∀ (s : State) (b : UInt8) (w : Window), s.mode = mode → b ≠ Bytes.newline →
      w.startsWith (x :: tail) = false → s.move syn b w = State.mentionMove kind w)
    (hs : s.mode = mode) (htext : Bytes.contains (x :: tail) text = false) :
    ∃ t, Passes syn (x :: (tail ++ rest)) s before text t ∧ t.mode = mode := by
  refine exists_passes_of_mentions kind
    (Q := fun text => Bytes.contains (x :: tail) text = false) (by simpa using hword)
    (fun a b h => ?_) (fun {s} before {b more} hs h => ?_) hs htext
  · refine Bool.eq_false_iff.mpr fun hcontains => ?_
    obtain ⟨u, v, rfl⟩ := Bytes.contains_iff.mp hcontains
    rw [Bytes.contains_iff.mpr ⟨a ++ u, v, by simp only [List.append_assoc]⟩] at h
    cases h
  · by_cases hb : b = Bytes.newline
    · left
      exact ⟨by rw [State.move, if_pos hb], hnewline s hs⟩
    · right
      exact hmove s b _ hs hb (Bytes.startsWith_eq_false_of_contains hx h (List.cons_ne_nil b more) rest)

/-- A block comment is passed over up to the mark that closes it. -/
theorem Lexer.passes_blockComment {x : UInt8} {tail : Bytes} (hx : x ∉ tail)
    (hword : isIdentifierByte x = false) (hs : s.mode = .blockComment (x :: tail))
    (htext : Bytes.contains (x :: tail) text = false) :
    ∃ t, Passes syn (x :: (tail ++ rest)) s before text t ∧ t.mode = .blockComment (x :: tail) := by
  refine passes_marked .comment hx hword (fun s hs => ?_) (fun s b w hs hb hclose => ?_) hs
    htext
  · simp only [State.after, State.afterNewline, hs]
  · unfold State.move
    rw [if_neg hb, hs]
    simp only [hclose, Bool.false_eq_true, if_false]

/-- A raw literal is passed over up to the quote with its hash marks. -/
theorem Lexer.passes_rawLiteral {hashes : Nat} (hs : s.mode = .rawLiteral hashes)
    (htext : Bytes.contains (0x22 :: List.replicate hashes 0x23) text = false) :
    ∃ t, Passes syn (0x22 :: (List.replicate hashes 0x23 ++ rest)) s before text t ∧
      t.mode = .rawLiteral hashes := by
  refine passes_marked .stringLiteral (fun hmem => ?_) rfl (fun s hs => ?_)
    (fun s b w hs hb hclose => ?_) hs htext
  · cases List.eq_of_mem_replicate hmem
  · simp only [State.after, State.afterNewline, hs]
  · unfold State.move
    rw [if_neg hb, hs]
    simp only [Window.closesRaw, hclose, Bool.false_eq_true, if_false]

/-! ### Literals in quotes -/

/-- The text up to the quote that closes a literal; a backslash takes the byte after it out of the
count, and `escaped` says that the first byte is out of the count. -/
def Literal.upTo? (quote : UInt8) (escaped : Bool) : Bytes → Option Bytes
  | [] => none
  | b :: rest =>
    if !escaped && b == quote then some []
    else (upTo? quote (!escaped && b == 0x5c) rest).map (b :: ·)

/-- What is left of a literal up to its quote, when no quote closes it yet. -/
structure Literal.Open (quote : UInt8) (Q : Bool → Bytes → Prop) : Prop where
  here : ∀ {escaped b rest}, Q escaped (b :: rest) → (!escaped && b == quote) = false
  next : ∀ {escaped b rest}, Q escaped (b :: rest) → Q (!escaped && b == 0x5c) rest

/-- Bytes that are no quote and no backslash change nothing. -/
theorem Literal.Open.drop {quote : UInt8} {Q : Bool → Bytes → Prop} (hopen : Open quote Q)
    {word rest : Bytes} (hword : ∀ b ∈ word, b ≠ 0x5c) (h : Q false (word ++ rest)) :
    Q false rest := by
  induction word with
  | nil => exact h
  | cons b word ih =>
    have hnext := hopen.next h
    have hb : (!false && b == 0x5c) = false := by simpa using hword b List.mem_cons_self
    rw [hb] at hnext
    exact ih (fun c hc => hword c (List.mem_cons_of_mem b hc)) hnext

/-- A literal in quotes is passed over while it is open, on its line or, if it may span lines,
also over line feeds. -/
theorem Lexer.passes_literal {lit : Literal} {quote : UInt8} {Q : Bool → Bytes → Prop}
    (hmark : lit.mark = [quote]) (hescapes : lit.escapes = true) (hplain : lit.interpolation = none)
    (hopen : Literal.Open quote Q)
    (hrest : rest.head?.any isIdentifierByte = false) {escaped : Bool}
    (hs : s.mode = .literal lit escaped) (htext : Q escaped text)
    (hline : lit.multiline = true ∨ Bytes.newline ∉ text) :
    ∃ t last, Passes syn rest s before text t ∧ t.mode = .literal lit last ∧ Q last [] := by
  suffices h : ∃ t, Passes syn rest s before text t ∧ ∃ last, t.mode = .literal lit last ∧
      Q last [] ∧ (lit.multiline = true ∨ Bytes.newline ∉ ([] : Bytes)) by
    obtain ⟨t, hpasses, last, ht, hlast, _⟩ := h
    exact ⟨t, last, hpasses, ht, hlast⟩
  refine exists_passes (P := fun s text => ∃ escaped, s.mode = .literal lit escaped ∧
    Q escaped text ∧ (lit.multiline = true ∨ Bytes.newline ∉ text)) ?_ ⟨escaped, hs, htext, hline⟩
  rintro s before b more ⟨escaped, hs, htext, hline⟩ m rfl
  have hhere := hopen.here htext
  have hnext := hopen.next htext
  have hlater : ∀ n, lit.multiline = true ∨ Bytes.newline ∉ more.drop n := fun n =>
    hline.imp_right fun h hmem => h (List.mem_cons_of_mem b ((List.drop_subset n more) hmem))
  by_cases hb : b = Bytes.newline
  · have hmulti : lit.multiline = true := hline.resolve_right fun h => h (hb ▸ List.mem_cons_self)
    have hm : s.move syn b ⟨before, b :: (more ++ rest)⟩ = .newline := by
      rw [State.move, if_pos hb]
    rw [hm]
    refine ⟨rfl, Nat.le_add_left 1 _, false, ?_, ?_, hlater 0⟩
    · simp only [State.after, State.afterNewline, hs, hmulti, if_true]
    · have hbyte : (!escaped && b == 0x5c) = false := by
        rw [hb]
        cases escaped <;> rfl
      rwa [hbyte] at hnext
  · unfold State.move
    rw [if_neg hb, hs]
    cases escaped with
    | true =>
      refine ⟨rfl, Nat.le_add_left 1 _, false, ?_, hnext, hlater 0⟩
      simp only [State.after, hs]
    | false =>
      have hne : b ≠ quote := by
        rintro rfl
        simp at hhere
      have hclose : Window.startsWith ⟨before, b :: (more ++ rest)⟩ lit.mark = false := by
        rw [hmark]
        simp [Window.startsWith, Bytes.startsWith, List.isPrefixOf, hne.symm]
      by_cases hslash : b = 0x5c
      · subst hslash
        simp only [hescapes, and_self, if_true]
        refine ⟨rfl, Nat.le_add_left 1 _, true, ?_, hnext, hlater 0⟩
        simp only [State.after, hs]
      · simp only [hslash, and_false, if_false, hplain, reduceCtorEq, false_and, Option.filter_none,
          hclose, Bool.false_eq_true]
        have hmention : State.literalMove lit ⟨before, b :: (more ++ rest)⟩ =
            State.mentionMove .stringLiteral ⟨before, b :: (more ++ rest)⟩ := by
          simp [State.literalMove, State.mentionMove, hplain]
        rw [hmention]
        obtain ⟨hword, hwidth, hafter, hbytes⟩ := s.mentionMove_passes .stringLiteral hrest rfl
        refine ⟨hword, hwidth, false, by rw [hafter]; exact hs, ?_, hlater _⟩
        refine hopen.drop (fun x hx => ?_) ((take_append_drop_pred b more (Move.width_pos _)).symm ▸ htext)
        rcases hbytes x hx with rfl | hx
        · exact hslash
        · rintro rfl
          cases hx

end

end SymbolRename
