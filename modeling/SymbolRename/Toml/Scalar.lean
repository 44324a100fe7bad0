import SymbolRename.Text.Number
import SymbolRename.Toml

/-!
# Plain scalars

The values that are written without quotes or brackets: truth values, numbers, dates
and times.
-/

namespace SymbolRename.Toml.Scalar

/-- The value of a digit in a base. -/
def digitIn? (base : Nat) (c : Char) : Option Nat :=
  let value :=
    if '0' ≤ c ∧ c ≤ '9' then some (c.toNat - 48)
    else if 'a' ≤ c ∧ c ≤ 'f' then some (c.toNat - 87)
    else if 'A' ≤ c ∧ c ≤ 'F' then some (c.toNat - 55)
    else none
  value.filter (· < base)

/-- The digits of a run in which single underscores may stand between digits. -/
def ungroup? (base : Nat) : List Char → Option (List Nat)
  | [] => none
  | [c] => (digitIn? base c).map ([·])
  | c :: '_' :: rest => do return (← digitIn? base c) :: (← ungroup? base rest)
  | c :: rest => do return (← digitIn? base c) :: (← ungroup? base rest)

/-- The number with the given digits. -/
def ofDigits (base : Nat) (digits : List Nat) : Nat :=
  digits.foldl (fun n d => n * base + d) 0

/-- A whole number in base ten: no zero leads other digits. -/
def decimal? (cs : List Char) : Option Nat := do
  let digits ← ungroup? 10 cs
  if 1 < digits.length ∧ digits.head? = some 0 then none else some (ofDigits 10 digits)

/-- The sign at the head of a number, and the rest. -/
def splitSign (cs : List Char) : Bool × List Char :=
  match cs with
  | '-' :: rest => (true, rest)
  | '+' :: rest => (false, rest)
  | _ => (false, cs)

/-- The numbers that can be read are those of 128 bits, with a sign or without. -/
def inRange (n : Int) : Bool := -(Nat.pow 2 127 : Int) ≤ n && n < (Nat.pow 2 128 : Int)

/-- A whole number: decimal with a sign, or hexadecimal, octal or binary with a
mark. -/
def integer? (cs : List Char) : Option Int := do
  let n : Int ← match cs with
    | '0' :: 'x' :: rest => (ungroup? 16 rest).map fun ds => Int.ofNat (ofDigits 16 ds)
    | '0' :: 'o' :: rest => (ungroup? 8 rest).map fun ds => Int.ofNat (ofDigits 8 ds)
    | '0' :: 'b' :: rest => (ungroup? 2 rest).map fun ds => Int.ofNat (ofDigits 2 ds)
    | _ =>
      let (isNegative, digits) := splitSign cs
      (decimal? digits).map fun n => if isNegative then -(n : Int) else n
  if inRange n then some n else none

/-- The part before a character that satisfies `p`, and the part after it if there is
one. -/
def cut (p : Char → Bool) (cs : List Char) : List Char × Option (List Char) :=
  match cs.span fun c => !p c with
  | (before, _ :: after) => (before, some after)
  | (before, []) => (before, none)

/-- A number with a fraction, an exponent or both, or one of the special numbers. -/
def isFloat (cs : List Char) : Bool :=
  let unsigned := (splitSign cs).2
  if unsigned = "inf".toList ∨ unsigned = "nan".toList then true
  else
    let (base, exponent) := cut (fun c => c == 'e' || c == 'E') unsigned
    let (whole, fraction) := cut (· == '.') base
    (exponent.isSome || fraction.isSome) && (decimal? whole).isSome &&
      fraction.all (fun f => (ungroup? 10 f).isSome) &&
      exponent.all fun e => (ungroup? 10 (splitSign e).2).isSome

/-! ### Dates and times -/

/-- A number of exactly `count` digits at the head, and the rest. -/
def fixed? (count : Nat) (cs : List Char) : Option (Nat × List Char) :=
  let head := cs.take count
  if head.length = count ∧ head.all Char.isDigit then
    some (ofDigits 10 (head.filterMap (digitIn? 10)), cs.drop count)
  else none

/-- A number of two digits within bounds at the head, and the rest. -/
def two? (low high : Nat) (cs : List Char) : Option (Nat × List Char) :=
  (fixed? 2 cs).filter fun (n, _) => low ≤ n && n ≤ high

/-- The days of a month. -/
def monthLength (year month : Nat) : Nat :=
  if month = 2 then
    if year % 4 = 0 ∧ (year % 100 ≠ 0 ∨ year % 400 = 0) then 29 else 28
  else if month = 4 ∨ month = 6 ∨ month = 9 ∨ month = 11 then 30
  else 31

/-- The text after a date. -/
def afterDate? (cs : List Char) : Option (List Char) := do
  let (year, cs) ← fixed? 4 cs
  let cs ← if cs.head? = some '-' then some cs.tail else none
  let (month, cs) ← two? 1 12 cs
  let cs ← if cs.head? = some '-' then some cs.tail else none
  let (_, cs) ← two? 1 (monthLength year month) cs
  return cs

/-- The text after a fraction of a second, if there is one. -/
def afterFraction? (cs : List Char) : Option (List Char) :=
  match cs with
  | '.' :: rest =>
    if rest.head?.any Char.isDigit then some (rest.dropWhile Char.isDigit) else none
  | _ => some cs

/-- The text after a time of day; the seconds may be left out. -/
def afterTime? (cs : List Char) : Option (List Char) := do
  let (_, cs) ← two? 0 23 cs
  let cs ← if cs.head? = some ':' then some cs.tail else none
  let (_, cs) ← two? 0 59 cs
  match cs with
  | ':' :: rest => afterFraction? (← two? 0 60 rest).2
  | _ => return cs

/-- The text is the end of a moment: nothing, or a time zone. -/
def isZone (cs : List Char) : Bool :=
  match cs with
  | [] => true
  | ['Z'] => true
  | ['z'] => true
  | c :: rest =>
    (c == '+' || c == '-') && ((do
      let (_, cs) ← two? 0 24 rest
      let cs ← if cs.head? = some ':' then some cs.tail else none
      let (_, cs) ← two? 0 59 cs
      return cs.isEmpty : Option Bool) == some true)

/-- A date, a time of day, or a date and a time with or without a zone. -/
def isMoment (cs : List Char) : Bool :=
  match afterDate? cs with
  | some [] => true
  | some (c :: rest) =>
    (c == 'T' || c == 't' || c == ' ') && (afterTime? rest).any isZone
  | none => afterTime? cs == some []

/-- The value of a plain scalar. -/
def parse? (cs : List Char) : Option Toml :=
  if cs = "true".toList then some (.boolean true)
  else if cs = "false".toList then some (.boolean false)
  else match integer? cs with
    | some n => some (.integer n)
    | none =>
      if isFloat cs then some (.float (String.ofList cs))
      else if isMoment cs then some (.moment (String.ofList cs))
      else none

end SymbolRename.Toml.Scalar
