import SymbolRename.Json.Reader
import Mathlib

/-!
# Reading what was written

A reader reads a text when it takes exactly this text and gives a value, wherever the text
stands; what follows is part of the statement, because readers look ahead. A quoted string
is read back as the string.
-/

namespace SymbolRename

/-- The reader takes the text before `rest` and gives the value. -/
def Json.Reader.Reads {α : Type} (read : Reader α) (text rest : List Char) (v : α) : Prop :=
  ∀ index, ∃ index', read ⟨text ++ rest, index⟩ = .ok v ⟨rest, index'⟩

theorem Json.Reader.Reads.pure {α : Type} (v : α) (rest : List Char) :
    Reads (pure v) [] rest v := fun index => ⟨index, rfl⟩

/-- Readers in a row take texts in a row. -/
theorem Json.Reader.Reads.bind {α β : Type} {read : Reader α} {next : α → Reader β}
    {text more rest : List Char} {v : α} {w : β} (h : Reads read text (more ++ rest) v)
    (h' : Reads (next v) more rest w) : Reads (read >>= next) (text ++ more) rest w := by
  intro index
  obtain ⟨middle, hread⟩ := h index
  obtain ⟨last, hnext⟩ := h' middle
  refine ⟨last, ?_⟩
  rw [List.append_assoc]
  simp only [Bind.bind, EStateM.bind, hread]
  exact hnext

/-- A reader that takes nothing looks at what the next one takes. -/
theorem Json.Reader.Reads.look {α β : Type} {read : Reader α} {next : α → Reader β}
    {text rest : List Char} {v : α} {w : β} (h : Reads read [] (text ++ rest) v)
    (h' : Reads (next v) text rest w) : Reads (read >>= next) text rest w :=
  Reads.bind h h'

/-- What comes after the last reader that takes text only answers. -/
theorem Json.Reader.Reads.answer {α β : Type} {read : Reader α} {next : α → Reader β}
    {text rest : List Char} {v : α} {w : β} (h : Reads read text rest v)
    (h' : Reads (next v) [] rest w) : Reads (read >>= next) text rest w := by
  have hboth := @Reads.bind _ _ _ _ _ [] _ _ _ h h'
  rwa [List.append_nil] at hboth

theorem Json.Reader.reads_next (c : Char) (rest : List Char) : Reads next? [c] rest (some c) :=
  fun index => ⟨index + c.utf8Size, rfl⟩

theorem Json.Reader.reads_skip (c : Char) (rest : List Char) : Reads skip [c] rest () :=
  fun index => ⟨index + c.utf8Size, rfl⟩

/-- Blanks are passed over up to the character that comes next. -/
theorem Json.Reader.reads_peekSolid {blanks : List Char} (hblanks : ∀ b ∈ blanks, isBlank b = true)
    {c : Char} (hc : isBlank c = false) (rest : List Char) :
    Reads peekSolid? blanks (c :: rest) (some c) := by
  intro index
  have htake : (blanks ++ c :: rest).takeWhile isBlank = blanks := by
    rw [List.takeWhile_append_of_pos hblanks, List.takeWhile_cons_of_neg (by simp [hc]),
      List.append_nil]
  have hread : peekSolid? ⟨blanks ++ c :: rest, index⟩ = .ok
      ((blanks ++ c :: rest).drop ((blanks ++ c :: rest).takeWhile isBlank).length).head?
      ⟨(blanks ++ c :: rest).drop ((blanks ++ c :: rest).takeWhile isBlank).length,
        index + ((blanks ++ c :: rest).takeWhile isBlank).length⟩ := rfl
  refine ⟨index + blanks.length, ?_⟩
  rw [hread, htake, List.drop_left]
  rfl

/-- Placing problems does not disturb a reader that has none. -/
theorem Json.Reader.Reads.place {α : Type} {read : Reader α} {text rest : List Char} {v : α}
    (h : Reads read text rest v) : Reads (Reader.place read) text rest v := by
  intro index
  obtain ⟨last, hread⟩ := h index
  refine ⟨last, ?_⟩
  unfold Reader.place
  rw [hread]

/-! ### Strings -/

theorem Json.hexValue?_hexDigit : ∀ n < 16, Reader.hexValue? (hexDigit n) = some n := by
  decide +kernel

/-- Four hexadecimal digits are read as their number. -/
theorem Json.Reader.reads_hexEscape {a b : Nat} (ha : a < 16) (hb : b < 16) (rest : List Char) :
    Reads hexEscape ['0', '0', hexDigit a, hexDigit b] rest (a * 16 + b) := by
  intro index
  have hdigits : ['0', '0', hexDigit a, hexDigit b].mapM hexValue? = some [0, 0, a, b] := by
    have hzero : hexValue? '0' = some 0 := by decide
    simp [hzero, hexValue?_hexDigit a ha, hexValue?_hexDigit b hb]
  have henough : ¬ Count.total
      ((['0', '0', hexDigit a, hexDigit b] ++ rest).map Char.utf8Size) < 4 := by
    have hpos := Char.utf8Size_pos (hexDigit a)
    have hpos' := Char.utf8Size_pos (hexDigit b)
    have hzero : ('0' : Char).utf8Size = 1 := rfl
    simp only [List.cons_append, List.nil_append, List.map_cons, Count.total, hzero]
    omega
  refine ⟨index + 4, ?_⟩
  unfold hexEscape
  simp only [Bind.bind, EStateM.bind, get, getThe, MonadStateOf.get, EStateM.get]
  rw [if_neg henough]
  simp only [List.cons_append, List.nil_append, List.take_succ_cons, List.take_zero, hdigits]
  simp [set, EStateM.set, EStateM.bind, Pure.pure, EStateM.pure, MonadStateOf.set]

/-- A character that is no surrogate is read back from its escape. -/
theorem Json.Reader.reads_unicodeEscape {c : Char} (hc : c.toNat < 32) (rest : List Char) :
    Reads unicodeEscape ['0', '0', hexDigit (c.toNat / 16), hexDigit (c.toNat % 16)] rest c := by
  have hhex := reads_hexEscape (a := c.toNat / 16) (b := c.toNat % 16) (by omega) (by omega) rest
  have hvalue : c.toNat / 16 * 16 + c.toNat % 16 = c.toNat := Nat.div_add_mod' c.toNat 16
  rw [hvalue] at hhex
  unfold unicodeEscape
  refine hhex.answer ?_
  rw [if_neg (by omega), if_pos (by omega), Char.ofNat_toNat]
  exact .pure c rest

/-- One character of a string is read from the way it is written. -/
theorem Json.Reader.Reads.stringRest_cons {fuel : Nat} {read more rest : List Char} {c : Char}
    {v : String} (h : Reads (stringRest fuel (c :: read)) more rest v) :
    Reads (stringRest (fuel + 1) read) (escapeChar c ++ more) rest v := by
  have hescaped : ∀ {text : List Char}, (∀ rest, Reads escape text rest c) →
      Reads (stringRest (fuel + 1) read) ('\\' :: text ++ more) rest v := by
    intro text htext
    have hnext : Reads (escape >>= fun d => stringRest fuel (d :: read)) (text ++ more) rest v :=
      (htext (more ++ rest)).bind h
    exact (reads_next '\\' _).bind hnext
  unfold escapeChar
  split
  · rename_i hc
    exact hescaped fun rest index => ⟨_, by rw [hc]; rfl⟩
  split
  · rename_i hc
    exact hescaped fun rest index => ⟨_, by rw [hc]; rfl⟩
  split
  · rename_i hc
    exact hescaped fun rest index => ⟨_, by rw [hc]; rfl⟩
  split
  · rename_i hc
    exact hescaped fun rest index => ⟨_, by rw [hc]; rfl⟩
  split
  · rename_i hc
    exact hescaped fun rest index => ⟨_, by rw [hc]; rfl⟩
  split
  · rename_i hc
    exact hescaped fun rest index => ⟨_, by rw [hc]; rfl⟩
  split
  · rename_i hc
    exact hescaped fun rest index => ⟨_, by rw [hc]; rfl⟩
  split
  · rename_i hc
    refine hescaped fun rest => ?_
    exact (reads_next 'u' _).bind (reads_unicodeEscape hc rest)
  · rename_i hquote hslash _ _ _ _ _ hc
    refine (reads_next c _).bind ?_
    split
    · rename_i heq
      cases heq
    · rename_i heq
      exact absurd (Option.some.inj heq) hquote
    · rename_i heq
      exact absurd (Option.some.inj heq) hslash
    · rename_i d _ _ heq
      obtain rfl := Option.some.inj heq
      rw [if_neg hc]
      exact h

/-- The rest of a string is read back; the induction is on its characters. -/
theorem Json.Reader.reads_stringRest {cs : List Char} {fuel : Nat} (hfuel : cs.length < fuel)
    (read rest : List Char) :
    Reads (stringRest fuel read) (cs.flatMap escapeChar ++ ['"']) rest
      (String.ofList (read.reverse ++ cs)) := by
  induction cs generalizing fuel read with
  | nil =>
    obtain ⟨fuel, rfl⟩ := Nat.exists_eq_succ_of_ne_zero (Nat.ne_of_gt hfuel)
    rw [List.append_nil]
    exact fun index => ⟨_, rfl⟩
  | cons c cs ih =>
    obtain ⟨fuel, rfl⟩ := Nat.exists_eq_succ_of_ne_zero (Nat.ne_of_gt (Nat.zero_lt_of_lt hfuel))
    rw [List.length_cons] at hfuel
    have hrest := ih (Nat.lt_of_succ_lt_succ hfuel) (c :: read)
    rw [List.reverse_cons, List.append_assoc] at hrest
    rw [List.flatMap_cons, List.append_assoc]
    exact hrest.stringRest_cons

theorem Json.length_le_flatMap_escapeChar (cs : List Char) :
    cs.length ≤ (cs.flatMap escapeChar).length := by
  induction cs with
  | nil => exact Nat.le_refl 0
  | cons c cs ih =>
    have hpos : 1 ≤ (escapeChar c).length := by
      unfold escapeChar
      repeat' split
      all_goals simp
    rw [List.flatMap_cons, List.length_append, List.length_cons]
    omega

/-- A quoted string is read back. -/
theorem Json.Reader.reads_string (s : String) (rest : List Char) :
    Reads string (quote s) rest s := by
  refine (reads_skip '"' _).bind ?_
  intro index
  have hlength := length_le_flatMap_escapeChar s.toList
  have hfuel : s.toList.length < ((s.toList.flatMap escapeChar ++ ['"']) ++ rest).length + 1 := by
    rw [List.length_append, List.length_append]
    omega
  obtain ⟨last, hread⟩ := reads_stringRest hfuel [] rest index
  refine ⟨last, ?_⟩
  rw [List.reverse_nil, List.nil_append, String.ofList_toList] at hread
  exact hread

end SymbolRename
