/-!
# Blank characters and trimming

The characters with the White_Space property, and the text without those at its
ends.
-/

namespace SymbolRename.Text

/-- The characters that Unicode counts as white space. -/
def isBlank (c : Char) : Bool :=
  let n := c.toNat
  (0x09 ≤ n && n ≤ 0x0d) || n == 0x20 || n == 0x85 || n == 0xa0 || n == 0x1680 ||
    (0x2000 ≤ n && n ≤ 0x200a) || n == 0x2028 || n == 0x2029 || n == 0x202f ||
    n == 0x205f || n == 0x3000

/-- Every ASCII blank is blank. -/
theorem isBlank_of_isWhitespace {c : Char} (h : c.isWhitespace = true) : isBlank c = true := by
  simp only [Char.isWhitespace, Bool.or_eq_true, decide_eq_true_eq] at h
  rcases h with ((h | h) | h) | h <;> subst h <;> decide

/-- The list without the leading members that satisfy `p`. -/
def dropLeading (p : Char → Bool) (cs : List Char) : List Char := cs.dropWhile p

/-- The list without the trailing members that satisfy `p`. -/
def dropTrailing (p : Char → Bool) (cs : List Char) : List Char :=
  (cs.reverse.dropWhile p).reverse

/-- The characters between the blanks at both ends. -/
def trimChars (cs : List Char) : List Char := dropTrailing isBlank (dropLeading isBlank cs)

/-- The text between the blanks at both ends. -/
def trim (s : String) : String := String.ofList (trimChars s.toList)

/-- The text from its first character that is not blank. -/
def trimStart (s : String) : String := String.ofList (dropLeading isBlank s.toList)

/-- An ASCII capital becomes its small letter; other characters stay. -/
def lowerChar (c : Char) : Char := if 'A' ≤ c ∧ c ≤ 'Z' then Char.ofNat (c.toNat + 32) else c

/-- The text with its ASCII capitals made small. -/
def lower (s : String) : String := String.ofList (s.toList.map lowerChar)

/-- The maximal runs of characters that are not separators. -/
def fields (isSeparator : Char → Bool) (cs : List Char) : List (List Char) :=
  go [] cs
where
  /-- Reads on with the current run reversed in `run`. -/
  go (run : List Char) : List Char → List (List Char)
    | [] => flush run
    | c :: rest => if isSeparator c then flush run ++ go [] rest else go (c :: run) rest
  /-- A finished run, unless it is empty. -/
  flush (run : List Char) : List (List Char) := if run.isEmpty then [] else [run.reverse]

/-- The words between blanks. -/
def words (cs : List Char) : List (List Char) := fields isBlank cs

/-- The text before and after the first occurrence of `mark`, which must not be empty. -/
def splitOnce? (mark : List Char) : List Char → Option (List Char × List Char)
  | [] => none
  | c :: rest =>
    if mark.isPrefixOf (c :: rest) then some ([], (c :: rest).drop mark.length)
    else (splitOnce? mark rest).map fun (before, after) => (c :: before, after)

/-- The lines of a text: each ends at a line feed, which it loses together with a
carriage return just before it; nothing after the last line feed is no line. -/
def lines (cs : List Char) : List (List Char) :=
  go [] cs
where
  /-- Reads on with the current line reversed in `line`. -/
  go (line : List Char) : List Char → List (List Char)
    | [] => if line.isEmpty then [] else [line.reverse]
    | c :: rest =>
      if c = '\n' then
        (match line with
          | '\r' :: more => more.reverse
          | _ => line.reverse) :: go [] rest
      else go (c :: line) rest

end SymbolRename.Text
