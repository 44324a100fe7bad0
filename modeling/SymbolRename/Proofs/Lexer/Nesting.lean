import SymbolRename.Proofs.Lexer.Hits
import SymbolRename.Proofs.Lexer.Renaming

/-!
# Embedded code nests

The lexer counts braces and keeps the depths at which literals were left for embedded code. In
every language these depths ascend inwards and stay below the current one, so a closing brace in
code ends embedded code exactly when the brace that it matches has begun it, and leads back to
where this one stood: `Lexer.interpolations_nest`. Which brace a closing brace matches is said
without the depths, by the braces that are still open (`Lexer.openBraces`).
-/

namespace SymbolRename

/-! ### The steps of the lexer -/

/-- A step of the lexer: its state, the bytes around its position and the move it makes. -/
structure Lexer.Step where
  state : State
  window : Window
  move : Move
deriving DecidableEq, Repr

/-- The steps in which the rest of a text is read. -/
def Lexer.steps (syn : Syntactics) (s : State) (before : Bytes) : Bytes → List Step
  | [] => []
  | b :: rest =>
    let w : Window := ⟨before, b :: rest⟩
    let m := s.move syn b w
    ⟨s, w, m⟩ :: steps syn (s.after m) (w.advance m.width).before (rest.drop (m.width - 1))
termination_by content => content.length
decreasing_by simp only [List.length_drop, List.length_cons]; omega

/-- The steps in which a file is read. -/
def Path.steps (path : Path) (content : Bytes) : List Lexer.Step :=
  Lexer.steps (Language.ofPath path).syntactics {} [] content

/-- What some steps from a position on report of a name; `found` holds the hits before them,
latest first. -/
def Lexer.reports (name : Bytes) (line column : Nat) (found : List Hit) : List Step → List Hit
  | [] => found.reverse
  | step :: rest =>
    let found := match step.state.report? name step.window step.move with
      | some kind => ⟨kind, line, column⟩ :: found
      | none => found
    match step.move with
    | .newline => reports name (line + 1) 0 found rest
    | m => reports name line (column + m.width) found rest

/-- The lexer reports what its steps report. -/
theorem Lexer.run_eq_reports (syn : Syntactics) (name : Bytes) (s : State) (line column : Nat)
    (found : List Hit) (before content : Bytes) :
    run syn name s line column found before content =
      reports name line column found (steps syn s before content) := by
  fun_induction run syn name s line column found before content with
  | case1 => rw [steps, reports]
  | case2 s line column found before b rest w m found' next hm ih =>
    rw [ih, steps, reports]
    change _ = match m with
      | .newline => reports name (line + 1) 0 found' _
      | m => reports name line (column + m.width) found' _
    rw [hm]
    simp only [← hm]
    rfl
  | case3 s line column found before b rest w m found' next hm ih =>
    rw [ih, steps, reports]
    dsimp only
    split
    · exact absurd ‹_› hm
    · rfl

/-- The step opens a brace: one in code, or that of embedded code. -/
def Lexer.Step.opens (step : Step) : Bool :=
  match step.move with
  | .openEmbedded _ _ => true
  | _ => step.state.mode = .code && step.window.rest.head? == some 0x7b

/-- The step meets a closing brace in code. -/
def Lexer.Step.closes (step : Step) : Bool :=
  step.state.mode = .code && step.window.rest.head? == some 0x7d

/-- The step begins embedded code. -/
def Lexer.Step.embeds (step : Step) : Bool :=
  match step.move with
  | .openEmbedded _ _ => true
  | _ => false

/-- The open braces after one more step: a closing brace takes the innermost one away. -/
def Lexer.nextOpen (innermost : List Step) (step : Step) : List Step :=
  if step.opens then step :: innermost else if step.closes then innermost.tail else innermost

/-- The steps that have opened a brace which is not closed behind some steps, innermost first. -/
def Lexer.openBraces (steps : List Step) : List Step := steps.foldl nextOpen []

/-- The depths at which literals were left ascend inwards and are below the current depth. -/
def Lexer.State.Nested (s : State) : Prop :=
  (s.braces :: s.suspended.map Suspended.depth).Pairwise (· > ·)

instance (s : Lexer.State) : Decidable s.Nested := by
  unfold Lexer.State.Nested
  infer_instance

/-! ### What moves do to braces -/

/-- A brace of either sort. -/
def Bytes.isBrace (b : UInt8) : Bool := b == 0x7b || b == 0x7d

/-- No mark that is looked for in code begins with a brace. -/
structure Syntactics.SparesBraces (syn : Syntactics) : Prop where
  lineComments : ∀ mark ∈ syn.lineComments, mark ≠ [] ∧ mark.head?.any Bytes.isBrace = false
  blockComments : ∀ marks ∈ syn.blockComments,
    marks.1 ≠ [] ∧ marks.1.head?.any Bytes.isBrace = false
  literals : ∀ lit ∈ syn.literals, lit.mark ≠ [] ∧ lit.mark.head?.any Bytes.isBrace = false

theorem Language.sparesBraces_syntactics (l : Language) : l.syntactics.SparesBraces := by
  cases l <;> exact ⟨by decide, by decide, by decide⟩

/-- A move after which the braces and the literals to resume are as before. -/
def Lexer.Move.KeepsBraces (m : Move) : Prop :=
  ∀ s : State, (s.after m).braces = s.braces ∧ (s.after m).suspended = s.suspended

/-- What a step does to the braces: it begins embedded code, it reads a brace of code, it ends
embedded code, or it leaves the braces. -/
inductive Lexer.Step.Turns (step : Step) : Prop
  | embeds {lit : Literal} {mark : Interpolation} (hmove : step.move = .openEmbedded lit mark)
      (hmode : step.state.mode = .literal lit false)
  | opens (hmove : step.move = .punct 0x7b) (hmode : step.state.mode = .code)
      (hhead : step.window.rest.head? = some 0x7b)
  | closes (hmove : step.move = .punct 0x7d) (hmode : step.state.mode = .code)
      (hhead : step.window.rest.head? = some 0x7d) (hends : step.state.embeddedEnds = false)
  | resumes {inner : Suspended} {outer : List Suspended}
      (hmove : step.move = .closeEmbedded inner outer) (hmode : step.state.mode = .code)
      (hhead : step.window.rest.head? = some 0x7d) (hends : step.state.embeddedEnds = true)
      (hsuspended : step.state.suspended = inner :: outer)
  | keeps (hmove : step.move.KeepsBraces) (hopens : step.opens = false)
      (hcloses : step.closes = false)

section

variable {syn : Syntactics} {s : Lexer.State} {b : UInt8} {w : Lexer.Window}

theorem Lexer.Move.keepsBraces_punct (hb : Bytes.isBrace b = false) :
    (Move.punct b).KeepsBraces := by
  simp only [Bytes.isBrace, Bool.or_eq_false_iff, beq_eq_false_iff_ne] at hb
  intro s
  simp only [State.after, State.afterPunct, State.push, State.nest_braces, State.nest_suspended,
    hb.1, hb.2, if_false, and_self]

theorem Lexer.Move.keepsBraces_escape : Move.escape.KeepsBraces := by
  intro s
  simp only [State.after]
  split <;> exact ⟨rfl, rfl⟩

theorem Lexer.Move.keepsBraces_escaped : Move.escaped.KeepsBraces := by
  intro s
  simp only [State.after]
  split <;> exact ⟨rfl, rfl⟩

/-- Where a brace stands in code, no region begins, and embedded code ends if the depth is that
behind its opening brace. -/
theorem Lexer.State.regionMove?_brace (hsyn : syn.SparesBraces) (hhead : w.rest.head? = some b)
    (hb : Bytes.isBrace b = true) :
    regionMove? syn s b w =
      if b = 0x7d ∧ s.embeddedEnds then
        s.suspended.head?.map fun inner => .closeEmbedded inner s.suspended.tail
      else none := by
  have hblock : ∀ marks ∈ syn.blockComments, w.startsWith marks.1 = false := by
    intro marks hmarks
    obtain ⟨hne, hmark⟩ := hsyn.blockComments marks hmarks
    exact Window.startsWith_eq_false_of_head hhead hb hmark hne
  have hline : w.lineComment? syn = none := by
    refine List.find?_eq_none.mpr fun mark hmark => ?_
    obtain ⟨hne, hmark⟩ := hsyn.lineComments mark hmark
    simp [Window.startsWith_eq_false_of_head hhead hb hmark hne]
  have hliteral : opening? syn w = none := by
    unfold opening?
    rw [List.find?_eq_none.mpr fun lit hlit => ?_, Option.map_none]
    obtain ⟨hne, hmark⟩ := hsyn.literals lit hlit
    simp [Window.startsWith_eq_false_of_head hhead hb hmark hne]
  have hquote : b ≠ 0x27 := by
    rintro rfl
    cases hb
  have hstart : w.isWordStart = false := by
    simp only [Bytes.isBrace, Bool.or_eq_true, beq_iff_eq] at hb
    unfold Window.isWordStart
    rw [hhead]
    rcases hb with rfl | rfl <;> rfl
  unfold regionMove?
  rw [hline, Window.find?_blockComments_eq_none hblock, hliteral]
  simp only [hquote, hstart, false_and, Bool.and_false, Bool.false_eq_true, if_false,
    Option.map_none]
  cases s.suspended <;> rfl

/-- The move at a brace of code. -/
theorem Lexer.State.codeMove_brace (hhead : w.rest.head? = some b)
    (hb : Bytes.isBrace b = true) (hregion : regionMove? syn s b w = none) :
    codeMove syn s b w = .punct b := by
  have hstart : w.isWordStart = false ∧ Bytes.isBlank b = false := by
    simp only [Bytes.isBrace, Bool.or_eq_true, beq_iff_eq] at hb
    unfold Window.isWordStart
    rw [hhead]
    rcases hb with rfl | rfl <;> exact ⟨rfl, rfl⟩
  rw [codeMove, hregion, hstart.1, hstart.2]
  rfl

/-- Where no brace of code stands, only an interpolation touches the braces. -/
theorem Lexer.Makes.keepsBraces {m : Move} (h : Makes syn s b w m)
    (hb : s.mode = .code → Bytes.isBrace b = false) :
    m.KeepsBraces ∨ ∃ lit mark, m = .openEmbedded lit mark ∧ s.mode = .literal lit false := by
  cases h with
  | openEmbedded hmode _ => exact .inr ⟨_, _, rfl, hmode⟩
  | punct hmode => exact .inl (Move.keepsBraces_punct (hb hmode))
  | escape => exact .inl Move.keepsBraces_escape
  | escaped => exact .inl Move.keepsBraces_escaped
  | bounds hmode hregion =>
    cases Bounds.of_regionMove? hregion with
    | closeEmbedded hclose _ => cases hclose ▸ hb hmode
    | lineComment | blockComment | charLiteral | loneQuote | rawLiteral | literal =>
      exact .inl fun _ => ⟨rfl, rfl⟩
  | newline | word | blank | mention | pass | closeBlockComment | doubledBrace | closeLiteral
  | closeRawLiteral => exact .inl fun _ => ⟨rfl, rfl⟩

theorem Lexer.Move.KeepsBraces.ne_openEmbedded {m : Move} (h : m.KeepsBraces) (lit : Literal)
    (mark : Interpolation) : m ≠ .openEmbedded lit mark := by
  rintro rfl
  have hbraces := (h {}).1
  simp [State.after, State.afterPunct, State.push, State.nest_braces] at hbraces

theorem Lexer.Step.Turns.of_keeps {step : Step} (hmove : step.move.KeepsBraces)
    (hbrace : step.state.mode = .code → step.window.rest.head?.any Bytes.isBrace = false) :
    step.Turns := by
  have hhead : ∀ x, Bytes.isBrace x = true →
      (step.state.mode = .code && step.window.rest.head? == some x) = false := by
    intro x hx
    refine Bool.eq_false_iff.mpr fun h => ?_
    simp only [Bool.and_eq_true, decide_eq_true_eq, beq_iff_eq] at h
    have hno := hbrace h.1
    rw [h.2, Option.any_some, hx] at hno
    cases hno
  refine .keeps hmove ?_ (hhead 0x7d rfl)
  unfold Step.opens
  split
  · exact absurd ‹_› (hmove.ne_openEmbedded _ _)
  · exact hhead 0x7b rfl

/-- In code a brace opens, closes or ends embedded code. -/
theorem Lexer.State.turns_brace (hsyn : syn.SparesBraces) (hhead : w.rest.head? = some b)
    (hmode : s.mode = .code) (hb : Bytes.isBrace b = true) :
    (⟨s, w, codeMove syn s b w⟩ : Step).Turns := by
  have hregion := regionMove?_brace (s := s) hsyn hhead hb
  have hcases := hb
  simp only [Bytes.isBrace, Bool.or_eq_true, beq_iff_eq] at hcases
  rcases hcases with rfl | rfl
  · rw [if_neg (by simp)] at hregion
    exact .opens (codeMove_brace hhead hb hregion) hmode hhead
  cases hends : s.embeddedEnds with
  | false =>
    rw [hends, if_neg (by simp)] at hregion
    exact .closes (codeMove_brace hhead hb hregion) hmode hhead hends
  | true =>
    rw [hends, if_pos ⟨rfl, rfl⟩] at hregion
    cases hsuspended : s.suspended with
    | nil => simp [embeddedEnds, hsuspended] at hends
    | cons inner outer =>
      rw [hsuspended] at hregion
      refine .resumes ?_ hmode hhead hends hsuspended
      rw [codeMove, hregion]
      rfl

/-- What each step of the lexer does to the braces. -/
theorem Lexer.State.turns_move (hsyn : syn.SparesBraces) (hhead : w.rest.head? = some b) :
    (⟨s, w, s.move syn b w⟩ : Step).Turns := by
  by_cases hbrace : s.mode = .code ∧ Bytes.isBrace b = true
  · obtain ⟨hmode, hb⟩ := hbrace
    have hline : b ≠ Bytes.newline := by
      rintro rfl
      cases hb
    rw [move, if_neg hline, hmode]
    exact turns_brace hsyn hhead hmode hb
  · have hb : s.mode = .code → Bytes.isBrace b = false := fun hmode =>
      Bool.eq_false_iff.mpr fun hb => hbrace ⟨hmode, hb⟩
    rcases (s.makes_move syn b w).keepsBraces hb with hkeeps | ⟨lit, mark, hmove, hmode⟩
    · refine .of_keeps hkeeps fun hmode => ?_
      simp only [hhead, Option.any_some, hb hmode]
    · exact .embeds hmove hmode

end

/-! ### Open braces -/

/-- A state stands within some open braces: its depth and the literals to resume come from the
innermost of them, whose own state stands within the others. -/
inductive Lexer.Within : List Step → State → Prop
  | outside {s : State} (hbraces : s.braces = 0) (hsuspended : s.suspended = []) : Within [] s
  | block {outer : List Step} {opener : Step} {s : State} (h : Within outer opener.state)
      (hmove : opener.move = .punct 0x7b) (hmode : opener.state.mode = .code)
      (hbraces : s.braces = opener.state.braces + 1)
      (hsuspended : s.suspended = opener.state.suspended) : Within (opener :: outer) s
  | embedded {outer : List Step} {opener : Step} {s : State} {lit : Literal}
      {mark : Interpolation} (h : Within outer opener.state)
      (hmove : opener.move = .openEmbedded lit mark)
      (hmode : opener.state.mode = .literal lit false)
      (hbraces : s.braces = opener.state.braces + 1)
      (hsuspended : s.suspended = ⟨lit, opener.state.braces⟩ :: opener.state.suspended) :
      Within (opener :: outer) s

section

variable {innermost : List Lexer.Step} {s t : Lexer.State} {step : Lexer.Step}

theorem Lexer.Within.congr (h : Within innermost s) (hbraces : t.braces = s.braces)
    (hsuspended : t.suspended = s.suspended) : Within innermost t := by
  cases h with
  | outside hb hs => exact .outside (hbraces.trans hb) (hsuspended.trans hs)
  | block h hmove hmode hb hs =>
    exact .block h hmove hmode (hbraces.trans hb) (hsuspended.trans hs)
  | embedded h hmove hmode hb hs =>
    exact .embedded h hmove hmode (hbraces.trans hb) (hsuspended.trans hs)

/-- Within open braces the depths ascend; the induction is on these braces. -/
theorem Lexer.Within.nested (h : Within innermost s) : s.Nested := by
  unfold State.Nested
  induction h with
  | outside _ hsuspended => simp [hsuspended]
  | block _ _ _ hbraces hsuspended ih =>
    rw [List.pairwise_cons] at ih ⊢
    rw [hbraces, hsuspended]
    exact ⟨fun depth hdepth => Nat.lt_succ_of_lt (ih.1 depth hdepth), ih.2⟩
  | embedded _ _ _ hbraces hsuspended ih =>
    rw [hbraces, hsuspended, List.map_cons, List.pairwise_cons]
    refine ⟨fun depth hdepth => ?_, ih⟩
    rcases List.mem_cons.mp hdepth with rfl | hdepth
    · exact Nat.lt_succ_self _
    · exact Nat.lt_succ_of_lt ((List.pairwise_cons.mp ih).1 depth hdepth)

/-- Embedded code does not end where the innermost open brace is one of code. -/
theorem Lexer.Within.embeddedEnds_eq_false {outer : List Step} {opener : Step}
    (h : Within outer opener.state) (hbraces : s.braces = opener.state.braces + 1)
    (hsuspended : s.suspended = opener.state.suspended) : s.embeddedEnds = false := by
  have hnested := h.nested
  unfold State.Nested at hnested
  unfold State.embeddedEnds
  rw [hsuspended, hbraces]
  cases hinner : opener.state.suspended with
  | nil => rfl
  | cons inner rest =>
    rw [hinner, List.map_cons, List.pairwise_cons] at hnested
    have hlt := hnested.1 inner.depth List.mem_cons_self
    simp only [List.head?_cons, Option.any_some, beq_eq_false_iff_ne]
    omega

/-- An opening brace of code adds one to the depth. -/
theorem Lexer.State.after_openBrace (s : State) :
    (s.after (.punct 0x7b)).suspended = s.suspended ∧
      (s.after (.punct 0x7b)).braces = s.braces + 1 := by
  simp [State.after, afterPunct, push, nest_suspended, nest_braces]

/-- A closing brace of code takes one from the depth. -/
theorem Lexer.State.after_closeBrace (s : State) :
    (s.after (.punct 0x7d)).mode = s.mode ∧ (s.after (.punct 0x7d)).suspended = s.suspended ∧
      (s.after (.punct 0x7d)).braces = s.braces - 1 := by
  simp [State.after, afterPunct, push, nest_mode, nest_suspended, nest_braces]

/-- A closing brace in code is one of code, or it ends embedded code. -/
theorem Lexer.Step.Turns.of_closes (h : step.Turns) (hcloses : step.closes = true) :
    step.state.mode = .code ∧
      ((step.move = .punct 0x7d ∧ step.state.embeddedEnds = false) ∨
        ∃ inner outer, step.move = .closeEmbedded inner outer ∧
          step.state.embeddedEnds = true ∧ step.state.suspended = inner :: outer) := by
  have hstands := hcloses
  simp only [Step.closes, Bool.and_eq_true, decide_eq_true_eq, beq_iff_eq] at hstands
  cases h with
  | embeds _ hmode =>
    rw [hmode] at hstands
    cases hstands.1
  | opens _ _ hhead =>
    rw [hhead] at hstands
    cases hstands.2
  | closes hmove _ _ hends => exact ⟨hstands.1, .inl ⟨hmove, hends⟩⟩
  | resumes hmove _ _ hends hsuspended =>
    exact ⟨hstands.1, .inr ⟨_, _, hmove, hends, hsuspended⟩⟩
  | keeps _ _ hno =>
    rw [hcloses] at hno
    cases hno

/-- What a closing brace in code does within some open braces. -/
structure Lexer.Closes (innermost : List Step) (step : Step) : Prop where
  within : Within innermost.tail (step.state.after step.move)
  /-- It ends the embedded code read last exactly when the innermost open brace has begun it. -/
  ends : (∃ inner outer, step.state.suspended = inner :: outer ∧
      step.move = .closeEmbedded inner outer) ↔ ∃ opener ∈ innermost.head?, opener.embeds = true
  /-- It leads back to where the innermost open brace stood. -/
  back : ∀ opener ∈ innermost.head?, opener.state.SameRegion (step.state.after step.move)

/-- A closing brace that leads back to where the innermost open brace stood. -/
theorem Lexer.Closes.of_back {outer : List Step} {opener : Step}
    (h : Within outer opener.state) (hback : opener.state.SameRegion (step.state.after step.move))
    (hends : (∃ inner rest, step.state.suspended = inner :: rest ∧
      step.move = .closeEmbedded inner rest) ↔ opener.embeds = true) :
    Closes (opener :: outer) step := by
  refine ⟨h.congr hback.braces hback.suspended, hends.trans ?_, fun other hother => ?_⟩
  · simp only [List.head?_cons, Option.mem_def, Option.some.injEq, exists_eq_left']
  · obtain rfl := Option.some.inj hother
    exact hback

theorem Lexer.Within.closes (h : Within innermost step.state) (hturns : step.Turns)
    (hcloses : step.closes = true) : Closes innermost step := by
  obtain ⟨hcode, hmoves⟩ := hturns.of_closes hcloses
  cases h with
  | outside hbraces hsuspended =>
    rcases hmoves with ⟨hmove, _⟩ | ⟨_, _, _, _, hinner⟩
    · obtain ⟨_, hkept, hdepth⟩ := step.state.after_closeBrace
      rw [← hmove] at hkept hdepth
      rw [hbraces] at hdepth
      refine ⟨.outside hdepth (hkept.trans hsuspended), ?_, ?_⟩
      · simp [hsuspended]
      · simp
    · rw [hsuspended] at hinner
      cases hinner
  | @block outer opener _ h hmove hmode hbraces hsuspended =>
    rcases hmoves with ⟨hpunct, _⟩ | ⟨_, _, _, hembedded, _⟩
    · obtain ⟨hsame, hkept, hdepth⟩ := step.state.after_closeBrace
      rw [← hpunct] at hsame hkept hdepth
      rw [hbraces, Nat.add_sub_cancel] at hdepth
      refine .of_back h ⟨hsame.trans (hcode.trans hmode.symm), hkept.trans hsuspended, hdepth⟩ ?_
      simp [hpunct, Step.embeds, hmove]
    · rw [h.embeddedEnds_eq_false hbraces hsuspended] at hembedded
      cases hembedded
  | @embedded outer opener _ lit mark h hmove hmode hbraces hsuspended =>
    rcases hmoves with ⟨_, hno⟩ | ⟨inner, rest, hclose, _, hinner⟩
    · simp [State.embeddedEnds, hsuspended, hbraces] at hno
    · obtain ⟨rfl, rfl⟩ := List.cons.inj (hsuspended.symm.trans hinner)
      refine .of_back h ?_ ⟨fun _ => ?_, fun _ => ⟨_, _, hsuspended, hclose⟩⟩
      · rw [hclose]
        exact ⟨hmode.symm, rfl, rfl⟩
      · rw [Step.embeds, hmove]

/-- One more step leads to a state within the open braces behind it. -/
theorem Lexer.Within.next (h : Within innermost step.state) (hturns : step.Turns) :
    Within (nextOpen innermost step) (step.state.after step.move) := by
  unfold nextOpen
  cases hcloses : step.closes with
  | true =>
    obtain ⟨hcode, hmoves⟩ := hturns.of_closes hcloses
    have hopens : step.opens = false := by
      simp only [Step.closes, Bool.and_eq_true, beq_iff_eq] at hcloses
      unfold Step.opens
      rcases hmoves with ⟨hmove, _⟩ | ⟨_, _, hmove, _⟩ <;> simp [hmove, hcloses.2]
    rw [hopens]
    exact (h.closes hturns hcloses).within
  | false =>
    cases hturns with
    | embeds hmove hmode =>
      rw [Step.opens, hmove]
      refine .embedded h hmove hmode ?_ ?_
      · simp [State.after, State.afterPunct, State.push, State.nest_braces]
      · simp [State.after, State.afterPunct, State.push]
    | opens hmove hmode hhead =>
      have hopens : step.opens = true := by
        rw [Step.opens, hmove]
        simp [hmode, hhead]
      obtain ⟨hkept, hdepth⟩ := step.state.after_openBrace
      rw [hopens, hmove]
      exact .block h hmove hmode hdepth hkept
    | closes _ hmode hhead =>
      simp [Step.closes, hmode, hhead] at hcloses
    | resumes _ hmode hhead =>
      simp [Step.closes, hmode, hhead] at hcloses
    | keeps hmove hopens =>
      rw [hopens]
      exact h.congr (hmove _).1 (hmove _).2

end

/-- Every step starts within the braces that are open behind the steps before it; the induction
is on the steps, and the braces that were open before them are generalised. -/
theorem Lexer.within_steps {syn : Syntactics} (hsyn : syn.SparesBraces) {innermost : List Step}
    {s : State} (h : Within innermost s) (before content : Bytes) {done later : List Step}
    {step : Step} (hsteps : steps syn s before content = done ++ step :: later) :
    Within (done.foldl nextOpen innermost) step.state ∧ step.Turns := by
  fun_induction steps syn s before content generalizing innermost done with
  | case1 => simp at hsteps
  | case2 s before b rest w m =>
    rename_i ih
    have hturns : (⟨s, w, m⟩ : Step).Turns := State.turns_move hsyn rfl
    cases done with
    | nil =>
      obtain ⟨rfl, _⟩ := List.cons.inj hsteps
      exact ⟨h, hturns⟩
    | cons first done =>
      obtain ⟨rfl, hrest⟩ := List.cons.inj hsteps
      exact ih (h.next hturns) hrest

/-- Embedded code nests, in every file. The lexer makes the steps of `Path.steps`, and before and
behind each of them the depths at which literals were left ascend inwards and are below the
current depth. A closing brace in code ends the embedded code read last exactly when it matches
the brace that began this code, that is when this brace is the innermost open one. Then the lexer
is back in the literal, at the depth and within the other literals at which it left it, and
likewise it is back where a brace of code stood that is matched. -/
theorem Lexer.interpolations_nest (path : Path) (content : Bytes) :
    (∀ name, run (Language.ofPath path).syntactics name {} 1 0 [] [] content =
      reports name 1 0 [] (path.steps content)) ∧
    ∀ done step later, path.steps content = done ++ step :: later →
      step.state.Nested ∧ (step.state.after step.move).Nested ∧
      (step.closes = true →
        ((∃ inner outer, step.state.suspended = inner :: outer ∧
            step.move = .closeEmbedded inner outer) ↔
          ∃ opener ∈ (openBraces done).head?, opener.embeds = true) ∧
        ∀ opener ∈ (openBraces done).head?,
          opener.state.SameRegion (step.state.after step.move)) := by
  refine ⟨fun name => run_eq_reports _ _ _ _ _ _ _ _, fun done step later hsteps => ?_⟩
  obtain ⟨hwithin, hturns⟩ := within_steps (Language.sparesBraces_syntactics _)
    (.outside rfl rfl) [] content hsteps
  refine ⟨hwithin.nested, (hwithin.next hturns).nested, fun hcloses => ?_⟩
  obtain ⟨_, hends, hback⟩ := hwithin.closes hturns hcloses
  exact ⟨hends, hback⟩

/-- The last brace of a template that holds a block, another template and a comment with a brace
ends the code that its second byte begins. -/
theorem Lexer.interpolations_nest_template :
    let steps := (⟨"a.js"⟩ : Path).steps (bytes "`$\x7b \x7b`$\x7bx\x7d`\x7d /*\x7d*/\x7d`")
    ∃ done opener step later, steps = done ++ step :: later ∧ step.closes = true ∧
      later.length = 1 ∧ opener ∈ (openBraces done).head? ∧ opener.window.before = bytes "`" ∧
      (∃ inner outer, step.state.suspended = inner :: outer ∧
        step.move = .closeEmbedded inner outer) ∧
      step.state.Nested ∧ opener.state.SameRegion (step.state.after step.move) := by
  intro steps
  let opener := steps.get ⟨1, by decide +kernel⟩
  let step := steps.get ⟨14, by decide +kernel⟩
  have hsteps : steps = steps.take 14 ++ step :: steps.drop 15 := by decide +kernel
  have hopener : opener ∈ (openBraces (steps.take 14)).head? := by decide +kernel
  have hcloses : step.closes = true := by decide +kernel
  obtain ⟨hnested, _, hback⟩ := (interpolations_nest _ _).2 _ _ _ hsteps
  obtain ⟨hends, hregion⟩ := hback hcloses
  exact ⟨_, _, _, _, hsteps, hcloses, by decide +kernel, hopener, by decide +kernel,
    hends.mpr ⟨_, hopener, by decide +kernel⟩, hnested, hregion _ hopener⟩

end SymbolRename
