import SymbolRename.Proofs.Lexer.Regions

/-!
# Comments are kept

In Rust files no use of a name begins in a block comment up to its first closing mark, and in
Python files none begins in a comment up to the end of its line: `Source.comments_are_kept`. The
first closing mark ends a comment also where comments are nested, and in Python a hash mark opens
one only behind a blank.
-/

namespace SymbolRename

/-- The text of a comment up to the closing mark that balances its opening, where `depth` comments
are open within it. -/
def Bytes.nestedComment? (depth : Nat) : Bytes → Option Bytes
  | [] => none
  | b :: rest =>
    if startsWith (b :: rest) (bytes "/*") then
      (nestedComment? (depth + 1) (rest.drop 1)).map (bytes "/*" ++ ·)
    else if startsWith (b :: rest) (bytes "*/") then
      if depth = 0 then some []
      else (nestedComment? (depth - 1) (rest.drop 1)).map (bytes "*/" ++ ·)
    else (nestedComment? depth rest).map (b :: ·)
termination_by content => content.length
decreasing_by all_goals simp only [List.length_drop, List.length_cons]; omega

/-- The mark that balances a comment without comments in it is the first one. -/
theorem Bytes.exists_of_nestedComment? {tail comment : Bytes}
    (h : nestedComment? 0 tail = some comment) (hflat : contains (bytes "/*") comment = false) :
    ∃ rest, tail = comment ++ (bytes "*/" ++ rest) ∧ contains (bytes "*/") comment = false := by
  generalize hdepth : (0 : Nat) = depth at h
  fun_induction nestedComment? depth tail generalizing comment with
  | case1 => cases h
  | case2 depth b rest hopens ih =>
    obtain ⟨found, _, rfl⟩ := Option.map_eq_some_iff.mp h
    have hcontains : contains (bytes "/*") (bytes "/*" ++ found) = true :=
      contains_iff.mpr ⟨[], found, rfl⟩
    rw [hflat] at hcontains
    cases hcontains
  | case3 b rest _ hcloses =>
    obtain rfl := Option.some.inj h
    obtain ⟨more, hmore⟩ := startsWith_iff.mp hcloses
    exact ⟨more, hmore, rfl⟩
  | case4 depth b rest _ _ hne => exact absurd hdepth.symm hne
  | case5 depth b rest _ hcloses ih =>
    obtain ⟨found, hfound, rfl⟩ := Option.map_eq_some_iff.mp h
    simp only [contains, Bool.or_eq_false_iff] at hflat
    obtain ⟨more, rfl, hfirst⟩ := ih hflat.2 hdepth hfound
    refine ⟨more, rfl, ?_⟩
    simp only [contains, Bool.or_eq_false_iff]
    refine ⟨Bool.eq_false_iff.mpr fun hstands => hcloses ?_, hfirst⟩
    obtain ⟨last, hlast⟩ := startsWith_iff.mp hstands
    refine startsWith_iff.mpr ⟨last ++ (bytes "*/" ++ more), ?_⟩
    rw [← List.cons_append, hlast, List.append_assoc]

section

variable {path : Path} {name : String} {front tail : Bytes} {s : Lexer.State}

/-- In Rust code the opening mark opens a block comment. -/
theorem Lexer.State.move_openBlockComment (hcode : s.mode = .code) (before tail : Bytes) :
    s.move Language.rust.syntactics 0x2f ⟨before, bytes "/*" ++ tail⟩ =
      .openBlockComment (bytes "/*") (bytes "*/") := by
  unfold move
  rw [if_neg (by decide), hcode]
  rfl

/-- In Python code a hash mark opens a comment behind a blank, and else is read on. -/
theorem Lexer.State.move_hash (hcode : s.mode = .code) (before tail : Bytes) :
    s.move Language.python.syntactics 0x23 ⟨before, 0x23 :: tail⟩ =
      if before.head?.all Bytes.isBlank then .openLineComment (bytes "#") else .punct 0x23 := by
  unfold move
  rw [if_neg (by decide), hcode]
  cases before with
  | nil => rfl
  | cons x before =>
    have hmark : bytes "#" = [0x23] := by decide
    have hline : Window.lineComment? ⟨x :: before, 0x23 :: tail⟩ Language.python.syntactics =
        if Bytes.isBlank x then some (bytes "#") else none := by
      cases hx : Bytes.isBlank x <;>
        simp [Window.lineComment?, Language.syntactics, Window.startsWith, Bytes.startsWith, hmark, hx]
    cases hx : Bytes.isBlank x with
    | true => simp [codeMove, regionMove?, hline, hx]
    | false =>
      rw [hx, if_neg Bool.false_ne_true] at hline
      have hregion : regionMove? Language.python.syntactics s 0x23 ⟨x :: before, 0x23 :: tail⟩ = none := by
        rw [regionMove?, hline]
        rfl
      rw [codeMove, hregion]
      simp [hx]
      rfl

/-- The mark that closes a block comment leads back to code. -/
theorem Lexer.passes_closeBlockComment (syn : Syntactics) {close : Bytes} (hclose : close ≠ [])
    (hline : close.head? ≠ some Bytes.newline) (hs : s.mode = .blockComment close)
    (before rest : Bytes) : ∃ t, Passes syn rest s before close t ∧ t.mode = .code := by
  obtain ⟨b, more, rfl⟩ := List.exists_cons_of_ne_nil hclose
  have hmove : s.move syn b ⟨before, b :: more ++ rest⟩ = .closeBlockComment (b :: more) := by
    unfold State.move
    rw [if_neg (by simpa using hline), hs]
    have hstands : Window.startsWith ⟨before, b :: more ++ rest⟩ (b :: more) = true :=
      Bytes.startsWith_iff.mpr ⟨rest, rfl⟩
    simp only [hstands, if_true]
  refine ⟨s.after (.closeBlockComment (b :: more)), ?_, rfl⟩
  exact Passes.of_move rfl hmove rfl rfl

/-- In Rust code a block comment is passed over with its first closing mark. -/
theorem Lexer.passes_rustComment (hcode : s.mode = .code) {comment : Bytes}
    (hfirst : Bytes.contains (bytes "*/") comment = false) (before rest : Bytes) :
    ∃ t, Passes Language.rust.syntactics rest s before (bytes "/*" ++ (comment ++ bytes "*/")) t ∧
      t.mode = .code := by
  have hclosing : bytes "*/" = 0x2a :: [0x2f] := by decide
  have hmove := State.move_openBlockComment hcode before (comment ++ bytes "*/" ++ rest)
  obtain ⟨t, hpasses, ht⟩ := @passes_blockComment Language.rust.syntactics rest
    (s.after (.openBlockComment (bytes "/*") (bytes "*/"))) ((bytes "/*").reverse ++ before) comment
    0x2a [0x2f] (by decide) rfl rfl (hclosing ▸ hfirst)
  obtain ⟨u, hcloses, hu⟩ := passes_closeBlockComment Language.rust.syntactics
    (List.cons_ne_nil 0x2a [0x2f]) (by decide) ht
    (comment.reverse ++ ((bytes "/*").reverse ++ before)) rest
  have hall := hpasses.append hcloses
  rw [← hclosing] at hall
  exact ⟨u, Passes.move _ rfl hmove rfl rfl hall, hu⟩

/-- In Python code a comment behind a blank is passed over up to the end of its line. -/
theorem Lexer.passes_pythonComment (hcode : s.mode = .code) (before : Bytes) {line : Bytes}
    (hbehind : before.head?.all Bytes.isBlank = true)
    (hrest : rest.head?.any isIdentifierByte = false) (hline : Bytes.newline ∉ line) :
    ∃ t, Passes Language.python.syntactics rest s before (0x23 :: line) t := by
  have hmove := State.move_hash hcode before (line ++ rest)
  rw [if_pos hbehind] at hmove
  obtain ⟨t, hpasses, _⟩ := @passes_lineComment Language.python.syntactics rest
    (s.after (.openLineComment (bytes "#"))) ([0x23].reverse ++ before) line rfl hrest hline
  exact ⟨t, Passes.move [0x23] rfl hmove rfl rfl hpasses⟩

/-- In a Rust file no use begins in a block comment of code up to its first closing mark, and code
goes on behind it. -/
theorem Path.noUseIn_rustComment (hlang : Language.ofPath path = .rust) (hne : name ≠ "")
    {comment : Bytes} (hfirst : Bytes.contains (bytes "*/") comment = false)
    (hmeets : path.meetsInCode front (bytes "/*" ++ (comment ++ (bytes "*/" ++ rest))) = true) :
    Lexer.NoUseIn path (front ++ (bytes "/*" ++ (comment ++ (bytes "*/" ++ rest)))) name front.length
        (front.length + comment.length + 4) ∧
      path.meetsInCode (front ++ (bytes "/*" ++ (comment ++ bytes "*/"))) rest = true := by
  obtain ⟨s, hstate, hcode⟩ := Path.meetsInCode_iff.mp hmeets
  obtain ⟨t, hpasses, ht⟩ := Lexer.passes_rustComment hcode hfirst front.reverse rest
  rw [← hlang] at hpasses
  have hstands : bytes "/*" ++ (comment ++ (bytes "*/" ++ rest)) =
      bytes "/*" ++ (comment ++ bytes "*/") ++ rest := by simp only [List.append_assoc]
  rw [hstands] at hstate ⊢
  have hno := hpasses.noUseIn hne hstate
  have hlength : (bytes "/*" ++ (comment ++ bytes "*/")).length = comment.length + 4 := by
    simp only [List.length_append]
    show 2 + (comment.length + 2) = _
    omega
  rw [hlength] at hno
  exact ⟨hno, Path.meetsInCode_iff.mpr ⟨t, hpasses.stateBehind? hstate, ht⟩⟩

/-- In a Python file no use begins in a comment of code behind a blank, up to the end of its
line. -/
theorem Path.noUseIn_pythonComment (hlang : Language.ofPath path = .python) (hne : name ≠ "")
    (hbehind : front.getLast?.all Bytes.isBlank = true)
    (hmeets : path.meetsInCode front (0x23 :: tail) = true) :
    Lexer.NoUseIn path (front ++ 0x23 :: tail) name front.length
      (front.length + 1 + (tail.takeWhile (· != Bytes.newline)).length) := by
  obtain ⟨s, hstate, hcode⟩ := Path.meetsInCode_iff.mp hmeets
  have hends : (tail.dropWhile (· != Bytes.newline)).head?.any isIdentifierByte = false := by
    cases hdrop : tail.dropWhile (· != Bytes.newline) with
    | nil => rfl
    | cons b rest =>
      have hb := List.head_dropWhile_not (· != Bytes.newline) (l := tail) (by simp [hdrop])
      simp only [hdrop, List.head_cons, bne_eq_false_iff_eq] at hb
      subst hb
      rfl
  have hline : Bytes.newline ∉ tail.takeWhile (· != Bytes.newline) := fun hmem => by
    have := List.mem_takeWhile_imp hmem
    simp at this
  obtain ⟨t, hpasses⟩ := Lexer.passes_pythonComment hcode front.reverse
    (List.head?_reverse ▸ hbehind) hends hline
  rw [← hlang] at hpasses
  have hstands : 0x23 :: tail = 0x23 :: tail.takeWhile (· != Bytes.newline) ++
      tail.dropWhile (· != Bytes.newline) := by simp
  rw [hstands] at hstate ⊢
  have hno := hpasses.noUseIn hne hstate
  rw [List.length_cons] at hno
  rwa [Nat.add_assoc, Nat.add_comm 1]

/-- In a Python file code goes on behind a hash mark that stands behind something else. -/
theorem Path.meetsInCode_behind_hash (hlang : Language.ofPath path = .python)
    (hbehind : ¬ front.getLast?.all Bytes.isBlank = true)
    (hmeets : path.meetsInCode front (0x23 :: tail) = true) :
    path.meetsInCode (front ++ [0x23]) tail = true := by
  obtain ⟨s, hstate, hcode⟩ := Path.meetsInCode_iff.mp hmeets
  have hmove := Lexer.State.move_hash hcode front.reverse tail
  rw [List.head?_reverse, if_neg hbehind, ← hlang] at hmove
  have hpasses := @Lexer.Passes.of_move [0x23] tail s _ _ _ _ rfl hmove rfl rfl
  exact Path.meetsInCode_iff.mpr ⟨_, hpasses.stateBehind? hstate, hcode⟩

/-- Where the lexer of a Rust file meets a block comment in code, no use of a name begins in it up
to its first closing mark, and behind this mark the lexer stands in code again; that is the whole
comment when none is nested in it. Where the lexer of a Python file meets a hash mark in code, no
use begins on the rest of the line when a blank or nothing stands before the mark; otherwise the
lexer goes on in code. -/
theorem Source.comments_are_kept (hname : isValidIdentifier name = true) :
    (Language.ofPath path = .rust → path.meetsInCode front (bytes "/*" ++ tail) = true →
      (∀ comment, Bytes.nestedComment? 0 tail = some comment →
        Bytes.contains (bytes "/*") comment = false →
        Lexer.NoUseIn path (front ++ (bytes "/*" ++ tail)) name front.length
          (front.length + comment.length + 4)) ∧
      ∀ comment rest, tail = comment ++ (bytes "*/" ++ rest) →
        Bytes.contains (bytes "*/") comment = false →
        Lexer.NoUseIn path (front ++ (bytes "/*" ++ tail)) name front.length
          (front.length + comment.length + 4) ∧
        path.meetsInCode (front ++ (bytes "/*" ++ (comment ++ bytes "*/"))) rest = true) ∧
    (Language.ofPath path = .python → path.meetsInCode front (0x23 :: tail) = true →
      if front.getLast?.all Bytes.isBlank then
        Lexer.NoUseIn path (front ++ 0x23 :: tail) name front.length
          (front.length + 1 + (tail.takeWhile (· != Bytes.newline)).length)
      else path.meetsInCode (front ++ [0x23]) tail = true) := by
  have hne : name ≠ "" := by
    rintro rfl
    cases hname
  constructor
  · intro hlang hmeets
    refine ⟨fun comment hbalanced hflat => ?_, ?_⟩
    · obtain ⟨rest, rfl, hnone⟩ := Bytes.exists_of_nestedComment? hbalanced hflat
      exact (Path.noUseIn_rustComment hlang hne hnone hmeets).1
    · rintro comment rest rfl hnone
      exact Path.noUseIn_rustComment hlang hne hnone hmeets
  · intro hlang hmeets
    split
    · rename_i hbehind
      exact Path.noUseIn_pythonComment hlang hne hbehind hmeets
    · rename_i hbehind
      exact Path.meetsInCode_behind_hash hlang hbehind hmeets

end

/-- A Rust comment that holds a quote and a line feed, and a Python comment behind a blank. -/
theorem Source.comments_are_kept_two_files :
    Lexer.NoUseIn ⟨"a.rs"⟩ (bytes "foo/* \"\nfoo */foo") "foo" 3 14 ∧
      (⟨"a.rs"⟩ : Path).meetsInCode (bytes "foo/* \"\nfoo */") (bytes "foo") = true ∧
      Lexer.NoUseIn ⟨"a.py"⟩ (bytes "foo # \"foo\nfoo") "foo" 4 10 := by
  have hrust := (@comments_are_kept ⟨"a.rs"⟩ "foo" (bytes "foo") (bytes " \"\nfoo */foo")
    (by decide)).1 (by decide +kernel) (by decide +kernel)
  have hpython := (@comments_are_kept ⟨"a.py"⟩ "foo" (bytes "foo ") (bytes " \"foo\nfoo")
    (by decide)).2 (by decide +kernel) (by decide +kernel)
  have hfirst := hrust.2 (bytes " \"\nfoo ") (bytes "foo") (by decide +kernel) (by decide +kernel)
  exact ⟨hrust.1 (bytes " \"\nfoo ") (by decide +kernel) (by decide +kernel), hfirst.2,
    by rwa [if_pos (by decide)] at hpython⟩

/-- In Rust a name stands behind the first closing mark but within the comment, and in Python it
stands in a comment behind a digit: both are read as code. -/
theorem Source.comments_are_not_all_kept :
    ((⟨"a.rs"⟩ : Path).meetsInCode [] (bytes "/* /* x */ foo */\n") = true ∧
      Bytes.nestedComment? 0 (bytes " /* x */ foo */\n") = some (bytes " /* x */ foo ") ∧
      ¬ Lexer.NoUseIn ⟨"a.rs"⟩ (bytes "/* /* x */ foo */\n") "foo" 0 17) ∧
    (⟨"a.py"⟩ : Path).meetsInCode (bytes "x = 1") (bytes "#foo\n") = true ∧
      ¬ Lexer.NoUseIn ⟨"a.py"⟩ (bytes "x = 1#foo\n") "foo" 5 9 := by
  decide +kernel

end SymbolRename
