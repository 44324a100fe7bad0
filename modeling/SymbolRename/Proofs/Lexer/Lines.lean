import SymbolRename.Proofs.Lexer.Tokens
import SymbolRename.Proofs.Rename.Completion

/-!
# The lexical source stays in its lines

Every use that the lexer reports stands at the end of a front of the text: its line is the
last line of the front and its column the length of that line. So the lexical source fulfils
what renames ask of a source, in every language.
-/

namespace SymbolRename

/-- Each line feed begins a line behind it. -/
theorem Rewrite.mem_startsAfter_of_newline {offset i : Nat} {content : Bytes}
    (h : content[i]? = some Bytes.newline) : offset + i + 1 ∈ startsAfter offset content := by
  induction content generalizing offset i with
  | nil => simp at h
  | cons b rest ih =>
    rw [startsAfter]
    cases i with
    | zero =>
      rw [if_pos (Option.some.inj h)]
      exact List.mem_cons_self
    | succ i =>
      have hlater : offset + 1 + i + 1 ∈ startsAfter (offset + 1) rest := ih h
      rw [show offset + (i + 1) + 1 = offset + 1 + i + 1 by omega]
      split
      · exact List.mem_cons_of_mem _ hlater
      · exact hlater

/-- Behind the beginning of its last line a front has no line feed. -/
theorem Rewrite.EndsAt.newline_not_mem {front : Bytes} {line column : Nat}
    (h : EndsAt front line column) : Bytes.newline ∉ front.drop (front.length - column) := by
  intro hmem
  obtain ⟨i, hi⟩ := List.mem_iff_getElem?.mp hmem
  rw [List.getElem?_drop] at hi
  have hstart : front.length - column + i + 1 ∈ lineStarts front := by
    have hmem := @mem_startsAfter_of_newline 0 _ _ hi
    rw [Nat.zero_add] at hmem
    exact List.mem_cons_of_mem 0 hmem
  -- That line would begin behind the last one.
  obtain ⟨k, hk⟩ := List.mem_iff_getElem?.mp hstart
  have hlast := h.start
  rw [List.getLast?_eq_getElem?] at hlast
  have hklt := (List.getElem?_eq_some_iff.mp hk).1
  rcases Nat.lt_or_ge k ((lineStarts front).length - 1) with hlt | hge
  · have hascend := (newline_before_lineStart hlt hk hlast).1
    omega
  · obtain rfl : k = (lineStarts front).length - 1 := by omega
    have heq := Option.some.inj (hk.symm.trans hlast)
    omega

/-- The column at the end of a front lies in its line. -/
theorem Rewrite.EndsAt.column_le {front : Bytes} {line column : Nat} (h : EndsAt front line column)
    (rest : Bytes) : column ≤ (lineBytes (front ++ rest) line).length := by
  have hstart := (h.lineStart rest).2
  have hline : (front.drop (front.length - column)).takeWhile (· != Bytes.newline) =
      front.drop (front.length - column) := by
    refine List.takeWhile_eq_self_iff.mpr fun b hb => bne_iff_ne.mpr ?_
    rintro rfl
    exact h.newline_not_mem hb
  have hlength : (front.drop (front.length - column)).length = column := by
    have hcolumn := h.column
    rw [List.length_drop]
    omega
  unfold lineBytes
  rw [hstart, Option.getD_some, List.drop_append_of_le_length (Nat.sub_le _ _),
    List.takeWhile_append, if_pos (by rw [hline]), List.length_append, hlength]
  exact Nat.le_add_right _ _

/-- A use that is reported here, or one that was found before. -/
theorem Lexer.mem_reported {report : Option CaptureKind} {line column : Nat} {found : List Hit}
    {hit : Hit} (h : hit ∈ (match report with
      | some kind => (⟨kind, line, column⟩ : Hit) :: found
      | none => found)) : hit ∈ found ∨ (hit.line = line ∧ hit.column = column) := by
  cases report with
  | none => exact .inl h
  | some kind =>
    rcases List.mem_cons.mp h with rfl | h
    · exact .inr ⟨rfl, rfl⟩
    · exact .inl h

/-- Every hit of a run stands at the end of a front of the text. The induction is on the run;
`front` is what was read. -/
theorem Lexer.run_endsAt {syn : Syntactics} (hsyn : syn.Regular) {s : State} (hs : s.Regular)
    (name : Bytes) {line column : Nat} {found : List Hit} {front before content : Bytes}
    (hbefore : before = front.reverse) (hends : Rewrite.EndsAt front line column) {hit : Hit}
    (h : hit ∈ run syn name s line column found before content) :
    hit ∈ found ∨ ∃ first last, first ++ last = front ++ content ∧
      Rewrite.EndsAt first hit.line hit.column := by
  fun_induction run syn name s line column found before content generalizing front with
  | case1 => exact .inl (List.mem_reverse.mp h)
  | case2 s line column found before b rest w m found' next hm =>
    rename_i ih
    have hmove : m.InLine w := s.inLine_move hsyn hs rfl
    have htext : (b :: rest).take m.width = [Bytes.newline] := hmove.take_newline hm
    have hnext : next.before = (front ++ [Bytes.newline]).reverse := by
      show ((b :: rest).take m.width).reverse ++ before = _
      rw [htext, hbefore, List.reverse_append]
    rcases ih (hs.after hmove.tame) hnext hends.newline h with hfound | ⟨first, last, hsplit, hfirst⟩
    · rcases mem_reported hfound with hfound | ⟨hline, hcolumn⟩
      · exact .inl hfound
      · exact .inr ⟨front, b :: rest, rfl, hline ▸ hcolumn ▸ hends⟩
    · refine .inr ⟨first, last, ?_, hfirst⟩
      rw [hsplit, List.append_assoc, ← htext, take_append_drop_pred b rest m.width_pos]
  | case3 s line column found before b rest w m found' next hm =>
    rename_i ih
    have hmove : m.InLine w := s.inLine_move hsyn hs rfl
    have hlength : (w.rest.take m.width).length = m.width := hmove.length_take
    have hnext : next.before = (front ++ (b :: rest).take m.width).reverse := by
      show ((b :: rest).take m.width).reverse ++ before = _
      rw [hbefore, List.reverse_append]
    have hends' : Rewrite.EndsAt (front ++ (b :: rest).take m.width) line (column + m.width) := by
      have happend := hends.append (hmove.covers.line hm)
      rw [hlength] at happend
      exact happend
    rcases ih (hs.after hmove.tame) hnext hends' h with hfound | ⟨first, last, hsplit, hfirst⟩
    · rcases mem_reported hfound with hfound | ⟨hline, hcolumn⟩
      · exact .inl hfound
      · exact .inr ⟨front, b :: rest, rfl, hline ▸ hcolumn ▸ hends⟩
    · refine .inr ⟨first, last, ?_, hfirst⟩
      rw [hsplit, List.append_assoc, take_append_drop_pred b rest m.width_pos]

/-- The lexical source reports columns inside their lines, and never fails. -/
theorem Source.lexical_staysInLines : Source.lexical.StaysInLines := by
  refine ⟨fun hcaptures c hc => .inl ?_, fun hcause => by cases hcause⟩
  obtain rfl := Except.ok.inj hcaptures
  obtain ⟨hit, hhit, rfl⟩ := List.mem_map.mp hc
  unfold Lexer.hits at hhit
  split at hhit
  · exact absurd hhit List.not_mem_nil
  · rcases Lexer.run_endsAt (Language.regular_syntactics _) .start _ rfl .nil hhit with
      hfound | ⟨first, last, hsplit, hends⟩
    · exact absurd hfound List.not_mem_nil
    · have hcolumn := hends.column_le last
      rw [hsplit] at hcolumn
      exact hcolumn

end SymbolRename
