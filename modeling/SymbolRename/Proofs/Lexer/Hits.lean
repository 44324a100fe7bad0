import SymbolRename.Proofs.Lexer.Tokens
import SymbolRename.Proofs.Text.Utf8
import SymbolRename.Source
import Mathlib.Data.List.Nodup

/-!
# Where the lexer finds a name

The lexical source reports a use for every piece of code that is the name, at the line and
column where the piece begins, and these are the occurrences: the other reported uses are
excluded, and no two uses share a position.
-/

namespace SymbolRename

/-- The lines and columns of the pieces of code that are a name, from the position where the
first piece begins. -/
def Lexer.places (name : Bytes) : Nat → Nat → List Piece → List (Nat × Nat)
  | _, _, [] => []
  | line, column, p :: ps =>
    let rest := if p.text = [Bytes.newline] then places name (line + 1) 0 ps
      else places name line (column + p.text.length) ps
    if p.isCode && p.text == name then (line, column) :: rest else rest

theorem Lexer.length_places (name : Bytes) (line column : Nat) (ps : List Piece) :
    (places name line column ps).length = (codes ps).count name := by
  unfold codes
  induction ps generalizing line column with
  | nil => rfl
  | cons p ps ih =>
    unfold places
    cases hcode : p.isCode with
    | false => split <;> simp [hcode, ih]
    | true =>
      by_cases hname : p.text = name
      · split <;> simp [hcode, hname, ih]
      · split <;> simp [hcode, hname, ih]

/-! ### The hits of a run -/

/-- Where a hit stands. -/
def Lexer.Hit.position (h : Hit) : Nat × Nat := (h.line, h.column)

theorem Location.before_iff {a b : Nat × Nat} :
    before a b = true ↔ a.1 < b.1 ∨ (a.1 = b.1 ∧ a.2 < b.2) := by
  simp [before]

/-- A position that does not come before another. -/
def Location.notBefore (a b : Nat × Nat) : Prop := a.1 < b.1 ∨ (a.1 = b.1 ∧ a.2 ≤ b.2)

/-- What is true of the hits of a run from a position on: their positions ascend from
there, and those that are not excluded stand at the places of the name. -/
structure Lexer.HitsFrom (line column : Nat) (places : List (Nat × Nat)) (hits : List Hit) :
    Prop where
  ascend : (hits.map Hit.position).Pairwise fun a b => Location.before a b = true
  from_here : ∀ h ∈ hits, Location.notBefore (line, column) h.position
  kept : (hits.filter (!·.kind.isExcluded)).map Hit.position = places

/-- A use of a word in code is never excluded. -/
theorem Lexer.State.useOf_isExcluded (s : State) (w : Window) :
    (s.useOf w).isExcluded = false := by
  unfold useOf
  split
  · rfl
  · split
    · rfl
    · rfl
    · split
      · rfl
      · split <;> rfl

/-- Hits from a later position on are hits from here on. -/
theorem Lexer.HitsFrom.later {line column line' column' : Nat} {places : List (Nat × Nat)}
    {hits : List Hit} (h : HitsFrom line' column' places hits)
    (hafter : Location.before (line, column) (line', column') = true) :
    HitsFrom line column places hits := by
  refine ⟨h.ascend, fun hit hmem => ?_, h.kept⟩
  have hfrom := h.from_here hit hmem
  rw [Location.before_iff] at hafter
  simp only [Location.notBefore] at hfrom ⊢
  omega

/-- One more hit at this position. -/
theorem Lexer.HitsFrom.cons {line column line' column' : Nat} {places : List (Nat × Nat)}
    {hits : List Hit} (h : HitsFrom line' column' places hits)
    (hafter : Location.before (line, column) (line', column') = true) (kind : CaptureKind) :
    HitsFrom line column (if kind.isExcluded then places else (line, column) :: places)
      (⟨kind, line, column⟩ :: hits) := by
  refine ⟨?_, fun hit hmem => ?_, ?_⟩
  · rw [List.map_cons, List.pairwise_cons]
    refine ⟨fun position hmem => ?_, h.ascend⟩
    obtain ⟨hit, hhit, rfl⟩ := List.mem_map.mp hmem
    have hfrom := h.from_here hit hhit
    rw [Location.before_iff] at hafter ⊢
    simp only [Location.notBefore, Hit.position] at hfrom ⊢
    omega
  · rcases List.mem_cons.mp hmem with rfl | hmem
    · exact .inr ⟨rfl, Nat.le_refl _⟩
    · exact (h.later hafter).from_here hit hmem
  · cases hkind : kind.isExcluded with
    | true => simpa [hkind] using h.kept
    | false => simpa [hkind, Hit.position] using h.kept

/-- The hits of the rest of a run, with the one that is reported here. -/
theorem Lexer.HitsFrom.step {all found : List Hit} {line column line' column' : Nat}
    {places : List (Nat × Nat)} {report : Option CaptureKind} {isPlace : Bool}
    (hrest : ∃ hits, all = (match report with
        | some kind => (⟨kind, line, column⟩ :: found : List Hit)
        | none => found).reverse ++ hits ∧ HitsFrom line' column' places hits)
    (hafter : Location.before (line, column) (line', column') = true)
    (hreport : (report = none ∧ isPlace = false) ∨
      ∃ kind, report = some kind ∧ isPlace = !kind.isExcluded) :
    ∃ hits, all = found.reverse ++ hits ∧
      HitsFrom line column (if isPlace then (line, column) :: places else places) hits := by
  obtain ⟨hits, hall, hhits⟩ := hrest
  rcases hreport with ⟨rfl, rfl⟩ | ⟨kind, rfl, rfl⟩
  · exact ⟨hits, hall, hhits.later hafter⟩
  · refine ⟨⟨kind, line, column⟩ :: hits, by simpa using hall, ?_⟩
    have hcons := hhits.cons hafter kind
    cases hkind : kind.isExcluded with
    | true => simpa [hkind] using hcons
    | false => simpa [hkind] using hcons

/-- What is reported for a name at a move: an excluded use outside of code, another use for
a token of code that is the name, and nothing else. -/
theorem Lexer.State.report_move {syn : Syntactics} {s : State} {b : UInt8} {w : Window} {m : Move}
    (hm : s.move syn b w = m) (htame : m.Tame) (name : Bytes) :
    (s.report? name w m = none ∧ (m.isWord && w.rest.take m.width == name) = false) ∨
    ∃ kind, s.report? name w m = some kind ∧
      (m.isWord && w.rest.take m.width == name) = !kind.isExcluded := by
  cases m with
  | word v =>
    obtain ⟨_, _, hstart, rfl⟩ := of_move_word hm
    rw [w.take_word hstart]
    by_cases hname : w.word = name
    · exact .inr ⟨s.useOf w, by simp [report?, hname], by simp [hname, useOf_isExcluded, Move.isWord]⟩
    · exact .inl ⟨by simp [report?, hname], by simp [hname]⟩
  | mention kind v =>
    have hkind : kind.isExcluded = true := htame
    by_cases hname : v = name
    · exact .inr ⟨kind, by simp [report?, hname], by simp [Move.isWord, hkind]⟩
    · exact .inl ⟨by simp [report?, hname], rfl⟩
  | _ => exact .inl ⟨rfl, rfl⟩

/-- The hits of a run come after those that were found before; they stand at the places of
the name. -/
theorem Lexer.run_tokens {syn : Syntactics} (hsyn : syn.Regular) {s : State} (hs : s.Regular)
    (name : Bytes) (line column : Nat) (found : List Hit) (before content : Bytes) :
    ∃ hits, run syn name s line column found before content = found.reverse ++ hits ∧
      HitsFrom line column (places name line column (tokens syn s before content)) hits := by
  fun_induction run syn name s line column found before content with
  | case1 => exact ⟨[], by simp, .nil, by simp, by simp [places, tokens]⟩
  | case2 s line column found before b rest w m found' next hm =>
    rename_i ih
    have hmove : m.InLine w := s.inLine_move hsyn hs rfl
    have htext : (b :: rest).take m.width = [Bytes.newline] := hmove.take_newline hm
    have hplaces : places name line column (tokens syn s before (b :: rest)) =
        if m.isWord && w.rest.take m.width == name then
          (line, column) :: places name (line + 1) 0 (tokens syn (s.after m) next.before
            (rest.drop (m.width - 1)))
        else places name (line + 1) 0 (tokens syn (s.after m) next.before
          (rest.drop (m.width - 1))) := by
      rw [tokens_cons, places]
      exact if_congr Iff.rfl (congrArg _ (if_pos htext)) (if_pos htext)
    rw [hplaces]
    refine HitsFrom.step (ih (hs.after hmove.tame)) ?_ (s.report_move rfl hmove.tame name)
    exact Location.before_iff.mpr (.inl (Nat.lt_succ_self line))
  | case3 s line column found before b rest w m found' next hm =>
    rename_i ih
    have hmove : m.InLine w := s.inLine_move hsyn hs rfl
    have hlength : ((b :: rest).take m.width).length = m.width := hmove.length_take
    have htext : (b :: rest).take m.width ≠ [Bytes.newline] := fun heq =>
      hmove.covers.line hm (heq ▸ List.mem_singleton.mpr rfl)
    have hplaces : places name line column (tokens syn s before (b :: rest)) =
        if m.isWord && w.rest.take m.width == name then
          (line, column) :: places name line (column + m.width) (tokens syn (s.after m)
            next.before (rest.drop (m.width - 1)))
        else places name line (column + m.width) (tokens syn (s.after m) next.before
          (rest.drop (m.width - 1))) := by
      have hnext : (if (b :: rest).take m.width = [Bytes.newline] then
            places name (line + 1) 0 (tokens syn (s.after m) next.before (rest.drop (m.width - 1)))
          else places name line (column + ((b :: rest).take m.width).length)
            (tokens syn (s.after m) next.before (rest.drop (m.width - 1)))) =
          places name line (column + m.width) (tokens syn (s.after m) next.before
            (rest.drop (m.width - 1))) := by
        rw [if_neg htext, hlength]
      rw [tokens_cons, places]
      exact if_congr Iff.rfl (congrArg _ hnext) hnext
    rw [hplaces]
    refine HitsFrom.step (ih (hs.after hmove.tame)) ?_ (s.report_move rfl hmove.tame name)
    exact Location.before_iff.mpr (.inr ⟨rfl, Nat.lt_add_of_pos_right m.width_pos⟩)

/-! ### Occurrences -/

/-- An occurrence behind all others of a list goes to its end. -/
theorem Occurrence.insert_last {o : Occurrence} {found : List Occurrence}
    (h : ∀ p ∈ found, Location.before p.position o.position = true) :
    insert o found = found ++ [o] := by
  induction found with
  | nil => rfl
  | cons p rest ih =>
    have hp := Location.before_iff.mp (h p List.mem_cons_self)
    have hnot : Location.before o.position p.position = false := by
      refine Bool.eq_false_iff.mpr fun hbefore => ?_
      have ho := Location.before_iff.mp hbefore
      omega
    have hne : p.position ≠ o.position := by
      intro heq
      rw [heq] at hp
      omega
    rw [insert, hnot, if_neg Bool.false_ne_true, if_neg hne,
      ih fun q hq => h q (List.mem_cons_of_mem p hq)]
    rfl

theorem Occurrence.foldl_insert {found : List Occurrence} {captures : List Capture}
    (hfound : ∀ p ∈ found, ∀ c ∈ captures,
      Location.before p.position (ofCapture c).position = true)
    (hascend : (captures.map fun c => (ofCapture c).position).Pairwise
      fun a b => Location.before a b = true) :
    captures.foldl (fun found c => insert (ofCapture c) found) found =
      found ++ captures.map ofCapture := by
  induction captures generalizing found with
  | nil => simp
  | cons c rest ih =>
    rw [List.map_cons, List.pairwise_cons] at hascend
    rw [List.foldl_cons, insert_last fun p hp => hfound p hp c List.mem_cons_self,
      ih (fun p hp d hd => ?_) hascend.2, List.append_assoc]
    · rfl
    · rcases List.mem_append.mp hp with hp | hp
      · exact hfound p hp d (List.mem_cons_of_mem c hd)
      · rw [List.mem_singleton.mp hp]
        exact hascend.1 _ (List.mem_map.mpr ⟨d, hd, rfl⟩)

/-- Of captures whose positions ascend, those that are not excluded are selected. -/
theorem Occurrence.select_of_ascend {captures : List Capture} {name : String}
    (htext : ∀ c ∈ captures, c.text = name)
    (hascend : (captures.map fun c => (ofCapture c).position).Pairwise
      fun a b => Location.before a b = true) :
    select captures name none = (captures.filter (!·.kind.isExcluded)).map ofCapture := by
  have hrelevant : captures.filter (isRelevant name none) = captures := by
    refine List.filter_eq_self.mpr fun c hc => ?_
    simp [isRelevant, htext c hc]
  have hkept : (captures.filter (!·.kind.isExcluded)).foldl
      (fun found c => insert (ofCapture c) found) [] =
      (captures.filter (!·.kind.isExcluded)).map ofCapture := by
    refine foldl_insert (fun p hp => absurd hp List.not_mem_nil) (hascend.sublist ?_)
    exact List.filter_sublist.map _
  unfold select
  simp only [hrelevant, hkept]
  refine List.filter_eq_self.mpr fun o ho => ?_
  obtain ⟨c, hc, rfl⟩ := List.mem_map.mp ho
  obtain ⟨hc, hkind⟩ := List.mem_filter.mp hc
  simp only [Bool.not_eq_true', List.contains_eq_mem, decide_eq_false_iff_not]
  intro hclaimed
  obtain ⟨e, he, hposition⟩ := List.mem_map.mp hclaimed
  obtain ⟨he, hexcluded⟩ := List.mem_filter.mp he
  -- No two captures share a position, so the excluded one is the capture itself.
  have hnodup : (captures.map fun c => (ofCapture c).position).Nodup := by
    refine hascend.imp fun {a b} hbefore heq => ?_
    rw [heq, Location.before_iff] at hbefore
    omega
  obtain rfl := List.inj_on_of_nodup_map hnodup he hc hposition
  rw [hexcluded] at hkind
  cases hkind

/-- The hits of a name in a file ascend, and those that are not excluded stand at its places. -/
theorem Lexer.hitsFrom_hits {syn : Syntactics} (hsyn : syn.Regular) (content : Bytes)
    {name : Bytes} (hname : name ≠ []) :
    HitsFrom 1 0 (places name 1 0 (tokens syn {} [] content)) (hits syn content name) := by
  cases hcontains : Bytes.contains name content with
  | false =>
    have hnone : places name 1 0 (tokens syn {} [] content) = [] := by
      rw [← List.length_eq_zero_iff, length_places, List.count_eq_zero]
      intro hmem
      have hcontained := contains_of_mem_codes hmem
      rw [textOf_tokens, hcontains] at hcontained
      cases hcontained
    have hempty : hits syn content name = [] := by simp [hits, hcontains]
    rw [hnone, hempty]
    exact ⟨.nil, nofun, rfl⟩
  | true =>
    obtain ⟨found, hrun, hfound⟩ := run_tokens hsyn .start name 1 0 [] [] content
    have hhits : hits syn content name = found := by simp [hits, hname, hcontains, hrun]
    rwa [hhits]

/-- The occurrences of a name are the places where it is a word of code. -/
theorem Source.lexical_occurrences (path : Path) (d : Disk) (content : String) {name : String}
    (hname : name ≠ "") :
    ∃ found, Source.lexical.occurrences d path content name none = .ok found ∧
      found.map Occurrence.position = Lexer.places (bytes name) 1 0
        (Lexer.tokens (Language.ofPath path).syntactics {} [] (bytes content)) := by
  have hne : bytes name ≠ [] := fun hnil => hname (bytes_eq_nil_iff.mp hnil)
  have hhits := Lexer.hitsFrom_hits (Language.regular_syntactics (Language.ofPath path))
    (bytes content) hne
  unfold Source.occurrences
  cases hcontains : Bytes.contains (bytes name) (bytes content) with
  | false =>
    refine ⟨[], rfl, ?_⟩
    rw [← hhits.kept]
    simp [Lexer.hits, hcontains]
  | true =>
    have hselect := @Occurrence.select_of_ascend (Lexer.captures path (bytes content) name) name
      (fun c hc => ?_) ?_
    · refine ⟨_, congrArg Except.ok hselect, ?_⟩
      rw [← hhits.kept]
      simp [Lexer.captures, List.filter_map, Function.comp_def, Occurrence.ofCapture,
        Occurrence.position, Lexer.Hit.position]
    · obtain ⟨hit, _, rfl⟩ := List.mem_map.mp hc
      rfl
    · have hpositions : (Lexer.captures path (bytes content) name).map
          (fun c => (Occurrence.ofCapture c).position) =
          (Lexer.hits (Language.ofPath path).syntactics (bytes content) (bytes name)).map
            Lexer.Hit.position := by
        simp [Lexer.captures, Function.comp_def, Occurrence.ofCapture, Occurrence.position,
          Lexer.Hit.position]
      rw [hpositions]
      exact hhits.ascend

end SymbolRename
