import SymbolRename.Text.Blank
import SymbolRename.Text.Number

/-!
# Reading decimal numerals back

What a number looks like in decimal is read as this number, and neither trimming nor looking for a
mark that is no digit breaks a numeral.
-/

namespace SymbolRename

namespace Count

theorem digit?_of_isDigit {c : Char} (h : c.isDigit = true) :
    digit? c = some (c.toNat - '0'.toNat) := by
  simp only [Char.isDigit, Bool.and_eq_true, decide_eq_true_eq] at h
  unfold digit?
  rw [if_pos]
  exact h

/-- Digits are read one after the other. -/
theorem readDigits_of_isDigit {cs : List Char} (h : ∀ c ∈ cs, c.isDigit = true) (value : Nat) :
    readDigits value cs = some (Nat.ofDigitChars 10 cs value) := by
  induction cs generalizing value with
  | nil => simp [readDigits]
  | cons c rest ih =>
    have hrest : ∀ d ∈ rest, d.isDigit = true := fun d hd => h d (List.mem_cons_of_mem c hd)
    rw [readDigits, digit?_of_isDigit (h c List.mem_cons_self), Option.bind_some, ih hrest]
    simp [Nat.ofDigitChars_cons, Nat.mul_comm]

theorem isDigit_of_mem_toDigits {n : Nat} {c : Char} (h : c ∈ Nat.toDigits 10 n) :
    c.isDigit = true := Nat.isDigit_of_mem_toDigits (by decide) (by decide) h

/-- A numeral without a sign is read digit by digit. -/
theorem read?_of_isDigit {cs : List Char} (hne : cs ≠ []) (h : ∀ c ∈ cs, c.isDigit = true) :
    read? cs = (some (Nat.ofDigitChars 10 cs 0)).filter (· < limit) := by
  obtain ⟨c, rest, rfl⟩ := List.exists_cons_of_ne_nil hne
  have hplus : c ≠ '+' := by
    rintro rfl
    exact absurd (h _ List.mem_cons_self) (by decide)
  unfold read?
  split
  · rename_i heq
    exact absurd (List.cons.inj heq).1 hplus
  · dsimp only
    rw [readDigits_of_isDigit h]
    rfl

/-- A numeral is read as its number. -/
theorem read?_toDigits {n : Nat} (hn : n < limit) : read? (Nat.toDigits 10 n) = some n := by
  rw [read?_of_isDigit Nat.toDigits_ne_nil fun c hc => isDigit_of_mem_toDigits hc,
    Nat.ofDigitChars_ten_toDigits]
  simp [hn]

end Count

namespace Text

theorem not_isBlank_of_isDigit {c : Char} (h : c.isDigit = true) : isBlank c = false := by
  simp only [Char.isDigit, Bool.and_eq_true, decide_eq_true_eq] at h
  have hlow : 48 ≤ c.toNat := h.1
  have hhigh : c.toNat ≤ 57 := h.2
  unfold isBlank
  simp only [Bool.or_eq_false_iff, Bool.and_eq_false_imp, decide_eq_true_eq, decide_eq_false_iff_not,
    beq_eq_false_iff_ne]
  omega

/-- A text that begins and ends with characters that are not blank is not trimmed. -/
theorem trimChars_eq_self {cs : List Char} (hhead : ∀ c ∈ cs.head?, isBlank c = false)
    (hlast : ∀ c ∈ cs.getLast?, isBlank c = false) : trimChars cs = cs := by
  have hkept : ∀ {ds : List Char}, (∀ c ∈ ds.head?, isBlank c = false) →
      ds.dropWhile isBlank = ds := by
    intro ds hds
    cases ds with
    | nil => rfl
    | cons d rest => simp [hds d rfl]
  unfold trimChars dropLeading dropTrailing
  rw [hkept hhead, hkept, List.reverse_reverse]
  rwa [List.head?_reverse]

/-- Trimming takes blanks at the end. -/
theorem trimChars_append_blanks {cs blanks : List Char} (h : ∀ c ∈ blanks, isBlank c = true) :
    trimChars (cs ++ blanks) = trimChars cs := by
  have hnil : blanks.dropWhile isBlank = [] := by
    rw [← List.append_nil blanks, List.dropWhile_append_of_pos h]
    rfl
  unfold trimChars dropTrailing dropLeading
  rw [List.dropWhile_append]
  split
  · rename_i hempty
    rw [List.isEmpty_iff.mp hempty, hnil]
  · rw [List.reverse_append, List.dropWhile_append_of_pos (by simpa using h)]

/-- Trimming takes blanks at the front. -/
theorem trimChars_blanks_append {cs blanks : List Char} (h : ∀ c ∈ blanks, isBlank c = true) :
    trimChars (blanks ++ cs) = trimChars cs := by
  unfold trimChars dropLeading
  rw [List.dropWhile_append_of_pos h]

section

variable {mark : Char} {more : List Char}

/-- A text is split at the first mark; how a mark begins must not be seen before it. -/
theorem splitOnce?_append_mark {before : List Char} (h : mark ∉ before) (after : List Char) :
    splitOnce? (mark :: more) (before ++ (mark :: more ++ after)) = some (before, after) := by
  induction before with
  | nil => simp [splitOnce?]
  | cons c rest ih =>
    obtain ⟨hne, hrest⟩ := not_or.mp (mt List.mem_cons.mpr h)
    have hnot : (mark :: more).isPrefixOf (c :: (rest ++ (mark :: more ++ after))) = false := by
      simp [List.isPrefixOf, hne]
    rw [List.cons_append, splitOnce?, hnot, if_neg Bool.false_ne_true, ih hrest]
    rfl

theorem splitOnce?_append {before : List Char} (h : mark ∉ before) (after : List Char) :
    splitOnce? [mark] (before ++ mark :: after) = some (before, after) :=
  splitOnce?_append_mark h after

theorem splitOnce?_eq_none {cs : List Char} (h : mark ∉ cs) : splitOnce? (mark :: more) cs = none := by
  induction cs with
  | nil => rfl
  | cons c rest ih =>
    obtain ⟨hne, hrest⟩ := not_or.mp (mt List.mem_cons.mpr h)
    have hnot : (mark :: more).isPrefixOf (c :: rest) = false := by simp [List.isPrefixOf, hne]
    rw [splitOnce?, hnot, if_neg Bool.false_ne_true, ih hrest]
    rfl

end

end Text

end SymbolRename
