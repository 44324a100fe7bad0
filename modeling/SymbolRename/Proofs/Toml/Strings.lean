import SymbolRename.Proofs.Toml.Reading
import SymbolRename.Toml.Printer

/-!
# Strings are read back

Whichever of the four ways of writing a string is chosen, the reader gives the string back:
`Toml.Reader.reads_quoted`. On several lines up to two quotes may stand in a row, so what is read there is
described together with the quotes just before it: `Toml.Reader.Spells`.
-/

namespace SymbolRename.Toml

namespace Reader

/-! ### Escapes -/

/-- What stands after the backslash for a character. It does not begin like the end of a line. -/
structure IsEscape (c : Char) (code : List Char) : Prop where
  reads : ∀ rest, Reads escape code rest c
  noBreak : ∀ rest, afterBreak? (code ++ rest) = none

theorem digitIn?_codeDigit : ∀ n < 16, Scalar.digitIn? 16 (codeDigit n) = some n := by
  decide +kernel

/-- Four hexadecimal digits are read as the character with their number. -/
theorem reads_hexEscape {a b : Nat} (ha : a < 16) (hb : b < 16) (rest : List Char) :
    Reads (hexEscape 4) ['0', '0', codeDigit a, codeDigit b] rest (Char.ofNat (a * 16 + b)) := by
  have hdigits : ['0', '0', codeDigit a, codeDigit b].mapM (Scalar.digitIn? 16) =
      some [0, 0, a, b] := by
    have hzero : Scalar.digitIn? 16 '0' = some 0 := by decide
    simp [hzero, digitIn?_codeDigit a ha, digitIn?_codeDigit b hb]
  have hnumber : Scalar.ofDigits 16 [0, 0, a, b] = a * 16 + b := by simp [Scalar.ofDigits]
  have hvalid : (a * 16 + b).isValidChar := .inl (by omega)
  refine Reads.get ?_
  refine Reads.get ?_
  have hset : (set (['0', '0', codeDigit a, codeDigit b] ++ rest |>.drop 4) : Reader PUnit)
      (['0', '0', codeDigit a, codeDigit b] ++ rest) = some (⟨⟩, rest) := rfl
  refine Reads.answer hset ?_
  have htake : (['0', '0', codeDigit a, codeDigit b] ++ rest).take 4 =
    ['0', '0', codeDigit a, codeDigit b] := rfl
  rw [htake, hdigits]
  dsimp only
  rw [hnumber, if_pos ⟨rfl, hvalid⟩]
  exact Reads.pure _ _

/-- A character that is not written as it is is read back from its escape. -/
theorem exists_isEscape_codeOf {c : Char} {isLong : Bool}
    (h : ¬((c = '\n' ∧ isLong = true) ∨ (c ≠ '\t' ∧ c ≠ '\n' ∧ needsCode c = false))) :
    ∃ code, codeOf c = '\\' :: code ∧ IsEscape c code := by
  unfold codeOf
  split
  · exact ⟨['b'], rfl, fun _ => rfl, fun _ => rfl⟩
  · exact ⟨['t'], rfl, fun _ => rfl, fun _ => rfl⟩
  · exact ⟨['n'], rfl, fun _ => rfl, fun _ => rfl⟩
  · exact ⟨['f'], rfl, fun _ => rfl, fun _ => rfl⟩
  · exact ⟨['r'], rfl, fun _ => rfl, fun _ => rfl⟩
  · rename_i htab hfeed _ _
    have hcode : needsCode c = true := by
      by_contra hnone
      exact h (.inr ⟨htab, hfeed, Bool.eq_false_of_not_eq_true hnone⟩)
    have hsmall : c.toNat < 0x80 := by
      simp only [needsCode, Bool.and_eq_true, Bool.or_eq_true, decide_eq_true_eq, beq_iff_eq]
        at hcode
      omega
    have hnumber : c.toNat / 16 * 16 + c.toNat % 16 = c.toNat := Nat.div_add_mod' c.toNat 16
    refine ⟨['u', '0', '0', codeDigit (c.toNat / 16), codeDigit (c.toNat % 16)], rfl,
      fun rest => ?_, fun _ => rfl⟩
    have hread := reads_hexEscape (a := c.toNat / 16) (b := c.toNat % 16) (by omega) (by omega) rest
    rw [hnumber, Char.ofNat_toNat] at hread
    exact (reads_next 'u' _).bind hread

theorem isEscape_quote : IsEscape '"' ['"'] := ⟨fun _ => rfl, fun _ => rfl⟩

theorem isEscape_backslash : IsEscape '\\' ['\\'] := ⟨fun _ => rfl, fun _ => rfl⟩

/-- What needs no code is plain, but for the end of a line. -/
theorem isPlain_of_needsCode {c : Char} (h : needsCode c = false) (hfeed : c ≠ '\n') :
    isPlain c = true := by
  by_cases htab : c = '\t'
  · simp [isPlain, htab]
  · have hrange : ¬(c.toNat < 0x20 ∨ c.toNat = 0x7f) := by
      simpa [needsCode, htab, hfeed] using h
    simp only [isPlain, Bool.or_eq_true, Bool.and_eq_true, decide_eq_true_eq, bne_iff_ne]
    right
    omega

/-! ### Strings on one line -/

section

variable {fuel : Nat} {read more rest : List Char} {c : Char} {v : String}

theorem Reads.basicRest_plain (h : Reads (basicRest fuel (c :: read)) more rest v)
    (hplain : isPlain c = true) (hquote : c ≠ '"') (hslash : c ≠ '\\') :
    Reads (basicRest (fuel + 1) read) (c :: more) rest v := by
  refine (reads_next c _).bind ?_
  split
  · exact absurd rfl hquote
  · exact absurd rfl hslash
  · rw [if_pos hplain]
    exact h

theorem Reads.basicRest_escape {code : List Char} (hcode : IsEscape c code)
    (h : Reads (basicRest fuel (c :: read)) more rest v) :
    Reads (basicRest (fuel + 1) read) ('\\' :: (code ++ more)) rest v := by
  have hnext : Reads (escape >>= fun d => basicRest fuel (d :: read)) (code ++ more) rest v :=
    (hcode.reads _).bind h
  exact (reads_next '\\' _).bind hnext

end

/-- A string between double quotes is read back; the induction is on its characters. -/
theorem reads_basicRest {cs : List Char} {fuel : Nat} (hfuel : cs.length < fuel)
    (read rest : List Char) :
    Reads (basicRest fuel read) (escaped false 0 0 cs ++ ['"']) rest
      (String.ofList (read.reverse ++ cs)) := by
  induction cs generalizing fuel read with
  | nil =>
    obtain ⟨fuel, rfl⟩ := Nat.exists_eq_succ_of_ne_zero (Nat.ne_of_gt hfuel)
    rw [List.append_nil]
    rfl
  | cons c cs ih =>
    obtain ⟨fuel, rfl⟩ := Nat.exists_eq_succ_of_ne_zero (Nat.ne_of_gt (Nat.zero_lt_of_lt hfuel))
    rw [List.length_cons] at hfuel
    have hrest := ih (Nat.lt_of_succ_lt_succ hfuel) (c :: read)
    rw [List.reverse_cons, List.append_assoc] at hrest
    rw [escaped]
    split
    · rename_i hquote
      subst hquote
      have hread := hrest.basicRest_escape isEscape_quote
      exact hread
    · rename_i hquote
      split
      · rename_i hslash
        subst hslash
        have hread := hrest.basicRest_escape isEscape_backslash
        exact hread
      · rename_i hslash
        split
        · rename_i hplain
          obtain ⟨_, hfeed, hcode⟩ := hplain.resolve_left (by simp)
          exact hrest.basicRest_plain (isPlain_of_needsCode hcode hfeed) hquote hslash
        · rename_i hplain
          obtain ⟨code, hcode, hescape⟩ := exists_isEscape_codeOf hplain
          rw [hcode, List.cons_append, List.cons_append, List.append_assoc]
          exact hrest.basicRest_escape hescape

/-! ### Strings on several lines -/

/-- What a string looks like between three quotes: its characters themselves, and between double
quotes also escapes, with at most two quotes in a row, of which `quotes` came just before. -/
inductive Spells (quote : Char) : Nat → List Char → List Char → Prop
  | nil {quotes : Nat} : Spells quote quotes [] []
  | quote {quotes : Nat} {body cs : List Char} (hfew : quotes < 2)
      (hrest : Spells quote (quotes + 1) body cs) :
      Spells quote quotes (quote :: body) (quote :: cs)
  | plain {quotes : Nat} {c : Char} {body cs : List Char} (hne : c ≠ quote)
      (hplain : isPlain c = true ∨ c = '\n') (hslash : c = '\\' → quote ≠ '"')
      (hrest : Spells quote 0 body cs) : Spells quote quotes (c :: body) (c :: cs)
  | escape {quotes : Nat} {c : Char} {code body cs : List Char} (hquote : quote = '"')
      (hcode : IsEscape c code) (hrest : Spells quote 0 body cs) :
      Spells quote quotes ('\\' :: (code ++ body)) (c :: cs)

section

variable {quote : Char} {quotes : Nat} {body cs : List Char}

/-- Either there are only a few quotes, or what comes next is no end. -/
theorem Spells.quotes_cases (h : Spells quote quotes body cs) (hfew : quotes ≤ 2) :
    (∃ count, count + quotes ≤ 2 ∧ body = List.replicate count quote ∧
      cs = List.replicate count quote) ∨
    ∀ rest, ((body ++ rest).takeWhile (· == quote)).length + quotes ≤ 2 := by
  induction h with
  | nil => exact .inl ⟨0, by omega, rfl, rfl⟩
  | quote hless _ ih =>
    rcases ih (by omega) with ⟨count, hcount, rfl, rfl⟩ | hrun
    · exact .inl ⟨count + 1, by omega, rfl, rfl⟩
    · refine .inr fun rest => ?_
      have hle := hrun rest
      rw [List.cons_append, List.takeWhile_cons_of_pos (by simp), List.length_cons]
      omega
  | plain hne _ _ _ _ =>
    refine .inr fun rest => ?_
    rw [List.cons_append, List.takeWhile_cons_of_neg (by simp [hne]), List.length_nil]
    omega
  | escape hquote _ _ _ =>
    refine .inr fun rest => ?_
    rw [List.cons_append, List.takeWhile_cons_of_neg (by simp [hquote]), List.length_nil]
    omega

/-- Fewer than three quotes do not end a string. -/
theorem reads_closing_none {rest : List Char}
    (h : (rest.takeWhile (· == quote)).length < 3) : Reads (closing? quote) [] rest none := by
  refine Reads.get ?_
  rw [List.nil_append, if_pos h]
  exact Reads.pure _ _

/-- Three quotes end a string, with up to two more that belong to it. -/
theorem reads_longRest_end {count : Nat} (hcount : count ≤ 2) (fuel : Nat) (read : List Char)
    {rest : List Char} (hrest : ∀ c ∈ rest.head?, c ≠ quote) :
    Reads (longRest quote (fuel + 1) read) (List.replicate count quote ++ List.replicate 3 quote)
      rest (String.ofList (read.reverse ++ List.replicate count quote)) := by
  have hrun : ((List.replicate (count + 3) quote ++ rest).takeWhile (· == quote)) =
      List.replicate (count + 3) quote := by
    refine takeWhile_append_of_head (by simp) (any_head?_eq_false fun c hc => ?_)
    exact beq_eq_false_iff_ne.mpr (hrest c hc)
  have htaken : min (count + 3) 5 = count + 3 := by omega
  have hclosing : Reads (closing? quote) (List.replicate (count + 3) quote) rest
      (some (List.replicate count quote)) := by
    refine Reads.get ?_
    rw [hrun, List.length_replicate, if_neg (by omega), htaken]
    refine Reads.get ?_
    have hset : (set ((List.replicate (count + 3) quote ++ rest).drop (count + 3)) : Reader PUnit)
        (List.replicate (count + 3) quote ++ rest) = some (⟨⟩, rest) := by
      rw [List.drop_left' (List.length_replicate)]
      rfl
    exact Reads.answer hset (Reads.pure _ _)
  rw [← List.replicate_add]
  exact hclosing.answer (Reads.pure _ _)

section

variable {fuel : Nat} {read more rest : List Char} {c : Char} {v : String}

theorem Reads.longRest_plain (h : Reads (longRest quote fuel (c :: read)) more rest v)
    (hrun : ((c :: more ++ rest).takeWhile (· == quote)).length < 3)
    (hplain : isPlain c = true ∨ c = '\n') (hslash : c = '\\' → quote ≠ '"') :
    Reads (longRest quote (fuel + 1) read) (c :: more) rest v := by
  refine (reads_closing_none hrun).look ?_
  refine (reads_next c _).bind ?_
  split
  · exact h
  · rcases hplain with hplain | hplain
    · exact absurd hplain (by decide)
    · cases hplain
  · rw [if_neg (hslash rfl)]
    exact h
  · rename_i hfeed _ _
    rw [if_pos (hplain.resolve_right hfeed)]
    exact h

theorem Reads.longRest_escape {code : List Char} (hquote : quote = '"') (hcode : IsEscape c code)
    (h : Reads (longRest quote fuel (c :: read)) more rest v) :
    Reads (longRest quote (fuel + 1) read) ('\\' :: (code ++ more)) rest v := by
  have hrun : (('\\' :: (code ++ more) ++ rest).takeWhile (· == quote)).length < 3 := by
    rw [List.cons_append, List.takeWhile_cons_of_neg (by simp [hquote]), List.length_nil]
    omega
  refine (reads_closing_none hrun).look ?_
  refine (reads_next '\\' _).bind ?_
  rw [if_pos hquote]
  refine Reads.get ?_
  rw [List.append_eq, List.append_assoc, hcode.noBreak]
  exact (hcode.reads _).bind h

end

/-- A string on several lines is read back; the induction is on what it looks like. -/
theorem reads_longRest (h : Spells quote quotes body cs) (hfew : quotes ≤ 2)
    (hmark : isPlain quote = true) (hslash : quote ≠ '\\') {fuel : Nat} (hfuel : cs.length < fuel)
    (read : List Char) {rest : List Char} (hrest : ∀ c ∈ rest.head?, c ≠ quote) :
    Reads (longRest quote fuel read) (body ++ List.replicate 3 quote) rest
      (String.ofList (read.reverse ++ cs)) := by
  induction h generalizing fuel read with
  | nil =>
    obtain ⟨fuel, rfl⟩ := Nat.exists_eq_succ_of_ne_zero (Nat.ne_of_gt hfuel)
    exact reads_longRest_end (Nat.zero_le 2) fuel read hrest
  | @quote quotes body cs hless hbody ih =>
    obtain ⟨fuel, rfl⟩ := Nat.exists_eq_succ_of_ne_zero (Nat.ne_of_gt (Nat.zero_lt_of_lt hfuel))
    rcases (Spells.quote hless hbody).quotes_cases hfew with ⟨count, hcount, hall, hsame⟩ | hrun
    · rw [hall, hsame]
      exact reads_longRest_end (by omega) fuel read hrest
    · have hread := ih (by omega) (Nat.lt_of_succ_lt_succ hfuel) (quote :: read)
      rw [List.reverse_cons, List.append_assoc] at hread
      have hshort : ((quote :: (body ++ List.replicate 3 quote) ++ rest).takeWhile
          (· == quote)).length + quotes ≤ 2 := by
        simpa only [List.cons_append, List.append_assoc] using hrun (List.replicate 3 quote ++ rest)
      exact hread.longRest_plain (by omega) (.inl hmark) fun heq => absurd heq hslash
  | @plain quotes c body cs hne hplain hback hbody ih =>
    obtain ⟨fuel, rfl⟩ := Nat.exists_eq_succ_of_ne_zero (Nat.ne_of_gt (Nat.zero_lt_of_lt hfuel))
    have hread := ih (Nat.zero_le 2) (Nat.lt_of_succ_lt_succ hfuel) (c :: read)
    rw [List.reverse_cons, List.append_assoc] at hread
    refine hread.longRest_plain ?_ hplain hback
    rw [List.cons_append, List.takeWhile_cons_of_neg (by simp [hne]), List.length_nil]
    omega
  | @escape quotes c code body cs hquote hcode hbody ih =>
    obtain ⟨fuel, rfl⟩ := Nat.exists_eq_succ_of_ne_zero (Nat.ne_of_gt (Nat.zero_lt_of_lt hfuel))
    have hread := ih (Nat.zero_le 2) (Nat.lt_of_succ_lt_succ hfuel) (c :: read)
    rw [List.reverse_cons, List.append_assoc] at hread
    rw [List.cons_append, List.append_assoc]
    exact hread.longRest_escape hquote hcode

end

/-- A string without codes looks like itself, if no three quotes are in a row. -/
theorem spells_self {quote : Char} (hquote : quote ≠ '"') {cs : List Char}
    (hplain : ∀ c ∈ cs, needsCode c = false) {run best : Nat}
    (hrun : longestRun.go quote run best cs ≤ 2) : Spells quote run cs cs := by
  have hle : ∀ (cs : List Char) (run best : Nat), run ≤ longestRun.go quote run best cs ∧
      best ≤ longestRun.go quote run best cs := by
    intro cs
    induction cs with
    | nil => exact fun run best => ⟨Nat.le_max_left _ _, Nat.le_max_right _ _⟩
    | cons c cs ih =>
      intro run best
      rw [longestRun.go]
      split
      · exact ⟨Nat.le_of_succ_le (ih (run + 1) best).1, (ih (run + 1) best).2⟩
      · have hmax := (ih 0 (max run best)).2
        exact ⟨le_trans (Nat.le_max_left _ _) hmax, le_trans (Nat.le_max_right _ _) hmax⟩
  induction cs generalizing run best with
  | nil => exact .nil
  | cons c cs ih =>
    obtain ⟨hc, hcs⟩ := List.forall_mem_cons.mp hplain
    rw [longestRun.go] at hrun
    split at hrun
    · rename_i heq
      subst heq
      exact .quote (Nat.lt_of_succ_le (le_trans (hle cs (run + 1) best).1 hrun)) (ih hcs hrun)
    · rename_i hne
      refine .plain hne ?_ (fun _ => hquote) (ih hcs hrun |> fun h => ?_)
      · by_cases hfeed : c = '\n'
        · exact .inr hfeed
        · exact .inl (isPlain_of_needsCode hc hfeed)
      · exact h

/-- What is written between three double quotes. -/
theorem spells_escaped (cs : List Char) (quotes : Nat) :
    Spells '"' quotes (escaped true 2 quotes cs) cs := by
  induction cs generalizing quotes with
  | nil => exact .nil
  | cons c cs ih =>
    rw [escaped]
    split
    · rename_i hquote
      subst hquote
      split
      · rename_i hfew
        exact .quote hfew (ih (quotes + 1))
      · have hspells : Spells '"' quotes _ _ := .escape rfl isEscape_quote (ih 0)
        exact hspells
    · rename_i hquote
      split
      · rename_i hslash
        subst hslash
        have hspells : Spells '"' quotes _ _ := .escape rfl isEscape_backslash (ih 0)
        exact hspells
      · rename_i hslash
        split
        · rename_i hplain
          refine .plain hquote ?_ (fun heq => absurd heq hslash) (ih 0)
          rcases hplain with ⟨hfeed, _⟩ | ⟨_, hfeed, hcode⟩
          · exact .inr hfeed
          · exact .inl (isPlain_of_needsCode hcode hfeed)
        · rename_i hplain
          obtain ⟨code, hcode, hescape⟩ := exists_isEscape_codeOf hplain
          rw [hcode, List.cons_append]
          exact .escape rfl hescape (ih 0)

/-! ### The four ways to write a string -/

/-- Double quotes are escaped on one line, so it does not begin with one. -/
theorem head?_escaped {c : Char} {cs : List Char} :
    ∀ d ∈ (escaped false 0 0 (c :: cs)).head?, d ≠ '"' := by
  intro d hd
  rw [escaped] at hd
  split at hd
  · exact Option.some.inj hd ▸ by decide
  · rename_i hquote
    split at hd
    · exact Option.some.inj hd ▸ by decide
    · split at hd
      · exact Option.some.inj hd ▸ hquote
      · rename_i hplain
        obtain ⟨code, hcode, _⟩ := exists_isEscape_codeOf hplain
        rw [hcode] at hd
        exact Option.some.inj hd ▸ by decide

/-- On several lines a string begins with a line feed only if it has one. -/
theorem head?_escaped_long {cs : List Char} (hfeed : '\n' ∉ cs) :
    ∀ d ∈ (escaped true 2 0 cs).head?, d ≠ '\n' ∧ d ≠ '\r' := by
  intro d hd
  cases cs with
  | nil => cases hd
  | cons c cs =>
    rw [escaped] at hd
    split at hd
    · exact Option.some.inj hd ▸ by decide
    · split at hd
      · exact Option.some.inj hd ▸ by decide
      · split at hd
        · rename_i hplain
          obtain rfl := Option.some.inj hd
          have hne : c ≠ '\n' := fun heq => hfeed (heq ▸ List.mem_cons_self)
          obtain ⟨_, _, hcode⟩ := hplain.resolve_left fun h => hne h.1
          refine ⟨hne, ?_⟩
          rintro rfl
          exact absurd hcode (by decide)
        · rename_i hplain
          obtain ⟨code, hcode, _⟩ := exists_isEscape_codeOf hplain
          rw [hcode] at hd
          exact Option.some.inj hd ▸ by decide

theorem length_le_escaped (cs : List Char) (isLong : Bool) (allowed quotes : Nat) :
    cs.length ≤ (escaped isLong allowed quotes cs).length := by
  induction cs generalizing quotes with
  | nil => exact Nat.zero_le _
  | cons c cs ih =>
    rw [escaped]
    split
    · split
      · exact Nat.succ_le_succ (ih _)
      · exact Nat.succ_le_succ (Nat.le_succ_of_le (ih _))
    · split
      · exact Nat.succ_le_succ (Nat.le_succ_of_le (ih _))
      · split
        · exact Nat.succ_le_succ (ih _)
        · rename_i hplain
          obtain ⟨code, hcode, _⟩ := exists_isEscape_codeOf hplain
          have hle := ih 0
          rw [hcode, List.length_append, List.length_cons, List.length_cons]
          omega

theorem reads_basic (cs rest : List Char) :
    Reads basic (escaped false 0 0 cs ++ ['"']) rest (String.ofList cs) := by
  have hle := length_le_escaped cs false 0 0
  refine Reads.get ?_
  have hfuel : cs.length < ((escaped false 0 0 cs ++ ['"']) ++ rest).length + 1 := by
    rw [List.length_append, List.length_append]
    omega
  exact reads_basicRest hfuel [] rest

theorem reads_literalRest {cs : List Char} (h : ∀ c ∈ cs, isPlain c = true ∧ c ≠ '\x27')
    (rest : List Char) : Reads literalRest (cs ++ ['\x27']) rest (String.ofList cs) := by
  have hrun : Reads (takeRun fun c => isPlain c && c != '\x27') cs (['\x27'] ++ rest) cs :=
    reads_takeRun (fun c hc => by simp [h c hc]) (by simp)
  exact hrun.bind ((reads_expect "'" rest).answer (Reads.pure _ _))

/-- A string on several lines is read back, with the line feed that may stand before it. -/
theorem reads_long {quote : Char} (hmark : isPlain quote = true) (hslash : quote ≠ '\\')
    {start body cs : List Char} (h : Spells quote 0 body cs) (hlength : cs.length ≤ body.length)
    (hstart : start = ['\n'] ∨ start = [] ∧
      ∀ d ∈ (body ++ List.replicate 3 quote).head?, d ≠ '\n' ∧ d ≠ '\r')
    {rest : List Char} (hrest : ∀ c ∈ rest.head?, c ≠ quote) :
    Reads (long quote) (start ++ (body ++ List.replicate 3 quote)) rest (String.ofList cs) := by
  have hbody : Reads (do longRest quote ((← get).length + 1) []) (body ++ List.replicate 3 quote)
      rest (String.ofList cs) := by
    refine Reads.get ?_
    have hfuel : cs.length < ((body ++ List.replicate 3 quote) ++ rest).length + 1 := by
      rw [List.length_append, List.length_append]
      omega
    exact reads_longRest h (Nat.zero_le 2) hmark hslash hfuel [] hrest
  rcases hstart with rfl | ⟨rfl, hhead⟩
  · exact (reads_newline _).bind hbody
  · refine (reads_newline_false ?_).look hbody
    have hne : body ++ List.replicate 3 quote ≠ [] := by simp
    rwa [List.nil_append, List.head?_append_of_ne_nil _ hne]

section

variable {text rest : List Char} {s : String} (fuel depth : Nat)

theorem Reads.value_basic (h : Reads basic text rest s)
    (hquotes : "\"\"".toList.isPrefixOf (text ++ rest) = false) :
    Reads (value (fuel + 1) depth) ('"' :: text) rest (.string s) := by
  rw [value]
  have hlong : Reads (take "\"\"\"") [] ('"' :: text ++ rest) false :=
    reads_take_false (by simpa [List.isPrefixOf] using hquotes)
  refine hlong.look ?_
  refine (reads_take "\"" _).bind ?_
  exact h.answer (Reads.pure _ _)

theorem Reads.value_long (h : Reads (long '"') text rest s) :
    Reads (value (fuel + 1) depth) ("\"\"\"".toList ++ text) rest (.string s) := by
  rw [value]
  refine (reads_take "\"\"\"" _).bind ?_
  exact h.answer (Reads.pure _ _)

theorem Reads.value_literal (h : Reads literalRest text rest s)
    (hquotes : "''".toList.isPrefixOf (text ++ rest) = false) :
    Reads (value (fuel + 1) depth) ('\x27' :: text) rest (.string s) := by
  rw [value]
  have hlong : Reads (take "'''") [] ('\x27' :: text ++ rest) false :=
    reads_take_false (by simpa [List.isPrefixOf] using hquotes)
  refine (reads_take_false rfl).look ?_
  refine (reads_take_false rfl).look ?_
  refine hlong.look ?_
  refine (reads_take "'" _).bind ?_
  exact h.answer (Reads.pure _ _)

theorem Reads.value_longLiteral (h : Reads (long '\x27') text rest s) :
    Reads (value (fuel + 1) depth) ("'''".toList ++ text) rest (.string s) := by
  rw [value]
  refine (reads_take_false rfl).look ?_
  refine (reads_take_false rfl).look ?_
  refine (reads_take "'''" _).bind ?_
  exact h.answer (Reads.pure _ _)

end

section

variable {cs start rest : List Char} (fuel depth : Nat)

/-- A string is read back from one line, with escapes. -/
theorem reads_basicText (cs : List Char) (hrest : ∀ c ∈ rest.head?, c ≠ '"') :
    Reads (value (fuel + 1) depth) (['"'] ++ escaped false 0 0 cs ++ ['"']) rest
      (.string (String.ofList cs)) := by
  refine (reads_basic cs rest).value_basic fuel depth ?_
  cases cs with
  | nil =>
    cases rest with
    | nil => rfl
    | cons d rest => simp [escaped, List.isPrefixOf, Ne.symm (hrest d rfl)]
  | cons c cs =>
    have hhead := @head?_escaped c cs
    have hle := length_le_escaped (c :: cs) false 0 0
    cases hescaped : escaped false 0 0 (c :: cs) with
    | nil =>
      rw [hescaped] at hle
      cases hle
    | cons d more =>
      rw [hescaped] at hhead
      simp [List.isPrefixOf, Ne.symm (hhead d rfl)]

/-- A string is read back from several lines, with escapes. -/
theorem reads_longText (hstart : start = ['\n'] ∨ start = [] ∧ '\n' ∉ cs)
    (hrest : ∀ c ∈ rest.head?, c ≠ '"') :
    Reads (value (fuel + 1) depth)
      ("\"\"\"".toList ++ start ++ escaped true 2 0 cs ++ "\"\"\"".toList) rest
      (.string (String.ofList cs)) := by
  have hhead : start = ['\n'] ∨ start = [] ∧
      ∀ d ∈ (escaped true 2 0 cs ++ List.replicate 3 '"').head?, d ≠ '\n' ∧ d ≠ '\r' := by
    refine hstart.imp_right fun ⟨hnil, hfeed⟩ => ⟨hnil, fun d hd => ?_⟩
    rw [List.head?_append] at hd
    cases hescaped : (escaped true 2 0 cs).head? with
    | none =>
      rw [hescaped] at hd
      exact Option.some.inj hd ▸ by decide
    | some c =>
      rw [hescaped] at hd
      exact Option.some.inj hd ▸ head?_escaped_long hfeed c hescaped
  have hread := (reads_long (by decide) (by decide) (spells_escaped cs 0)
    (length_le_escaped cs true 2 0) hhead hrest).value_long fuel depth
  rwa [← List.append_assoc, ← List.append_assoc] at hread

/-- A string is read back from one line that shows its characters. -/
theorem reads_literalText (h : ∀ c ∈ cs, isPlain c = true ∧ c ≠ '\x27') (hne : cs ≠ []) :
    Reads (value (fuel + 1) depth) (['\x27'] ++ cs ++ ['\x27']) rest
      (.string (String.ofList cs)) := by
  refine (reads_literalRest h rest).value_literal fuel depth ?_
  obtain ⟨c, more, rfl⟩ := List.exists_cons_of_ne_nil hne
  simp [List.isPrefixOf, Ne.symm (h c List.mem_cons_self).2]

/-- A string is read back from several lines that show its characters. -/
theorem reads_longLiteralText (hplain : ∀ c ∈ cs, needsCode c = false)
    (hrun : longestRun '\x27' cs ≤ 2) (hstart : start = ['\n'] ∨ start = [] ∧ '\n' ∉ cs)
    (hrest : ∀ c ∈ rest.head?, c ≠ '\x27') :
    Reads (value (fuel + 1) depth) ("'''".toList ++ start ++ cs ++ "'''".toList) rest
      (.string (String.ofList cs)) := by
  have hhead : start = ['\n'] ∨ start = [] ∧
      ∀ d ∈ (cs ++ List.replicate 3 '\x27').head?, d ≠ '\n' ∧ d ≠ '\r' := by
    refine hstart.imp_right fun ⟨hnil, hfeed⟩ => ⟨hnil, fun d hd => ?_⟩
    rw [List.head?_append] at hd
    cases cs with
    | nil => exact Option.some.inj hd ▸ by decide
    | cons c cs =>
      obtain rfl := Option.some.inj hd
      refine ⟨fun heq => hfeed (heq ▸ List.mem_cons_self), ?_⟩
      rintro rfl
      exact absurd (hplain _ List.mem_cons_self) (by decide)
  have hread := (reads_long (by decide) (by decide) (spells_self (by decide) hplain hrun)
    (Nat.le_refl _) hhead hrest).value_longLiteral fuel depth
  rwa [← List.append_assoc, ← List.append_assoc] at hread

/-- A string is read back from the way it is written, whichever that is. -/
theorem reads_quoted (s : String) (hrest : ∀ c ∈ rest.head?, c ≠ '"' ∧ c ≠ '\x27') :
    Reads (value (fuel + 1) depth) (quoted s).toList rest (.string s) := by
  have hdouble : ∀ c ∈ rest.head?, c ≠ '"' := fun c hc => (hrest c hc).1
  have hsingle : ∀ c ∈ rest.head?, c ≠ '\x27' := fun c hc => (hrest c hc).2
  have hstart : (if s.toList.contains '\n' then ['\n'] else []) = ['\n'] ∨
      (if s.toList.contains '\n' then ['\n'] else []) = [] ∧ '\n' ∉ s.toList := by
    split
    · exact .inl rfl
    · rename_i hfeed
      exact .inr ⟨rfl, by simpa using hfeed⟩
  have hbasic := reads_basicText fuel depth s.toList hdouble
  have hlong := reads_longText fuel depth hstart hdouble
  have hcodes : s.toList.any needsCode = false → ∀ c ∈ s.toList, needsCode c = false :=
    fun hnone c hc => by simpa using List.any_eq_false.mp hnone c hc
  rw [String.ofList_toList] at hbasic hlong
  unfold quoted
  dsimp only
  rw [String.toList_ofList]
  split
  · exact hbasic
  rename_i hspecial
  split
  · rename_i hliteral
    simp only [Bool.and_eq_true, Bool.not_eq_true'] at hliteral
    obtain ⟨⟨hnone, hfeed⟩, hquote⟩ := hliteral
    have hplain : ∀ c ∈ s.toList, isPlain c = true ∧ c ≠ '\x27' := by
      intro c hc
      refine ⟨isPlain_of_needsCode (hcodes hnone c hc) ?_, ?_⟩
      · rintro rfl
        simp [hc] at hfeed
      · rintro rfl
        simp [hc] at hquote
    have hne : s.toList ≠ [] := by
      intro hnil
      simp [hnil] at hspecial
    have hread := @reads_literalText _ rest fuel depth hplain hne
    rwa [String.ofList_toList] at hread
  split
  · exact hlong
  split
  · rename_i hliteral
    simp only [Bool.and_eq_true, Bool.not_eq_true', decide_eq_true_eq] at hliteral
    have hread := reads_longLiteralText fuel depth (hcodes hliteral.1) hliteral.2 hstart hsingle
    rwa [String.ofList_toList] at hread
  split
  · rename_i hfeed
    rw [if_pos hfeed] at hlong
    exact hlong
  · exact hbasic

end

end Reader

end SymbolRename.Toml
