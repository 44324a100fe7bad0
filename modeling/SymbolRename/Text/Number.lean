/-!
# Machine-sized counts

Line numbers, columns and indices are natural numbers below `2 ^ 64`. Reading a
larger one fails, and so does stepping past the last one.
-/

namespace SymbolRename.Count

/-- The first number that is too large to count with. -/
def limit : Nat := Nat.pow 2 64

/-- The value of a decimal digit. -/
def digit? (c : Char) : Option Nat :=
  if '0' ≤ c ∧ c ≤ '9' then some (c.toNat - '0'.toNat) else none

/-- Continues a decimal numeral whose value so far is `value`. -/
def readDigits (value : Nat) : List Char → Option Nat
  | [] => some value
  | c :: rest => (digit? c).bind fun d => readDigits (value * 10 + d) rest

/-- Reads a decimal numeral, with or without a leading `+`, below the limit. -/
def read? (cs : List Char) : Option Nat :=
  let digits := match cs with
    | '+' :: rest => rest
    | _ => cs
  if digits.isEmpty then none
  else (readDigits 0 digits).filter (· < limit)

/-- The sum, if it is below the limit. -/
def add? (a b : Nat) : Option Nat := if a + b < limit then some (a + b) else none

theorem add?_eq_some_iff {a b c : Nat} : add? a b = some c ↔ c = a + b ∧ a + b < limit := by
  unfold add?
  split <;> simp_all [eq_comm]

/-- The sum of some counts, of any size. -/
def total : List Nat → Nat
  | [] => 0
  | n :: rest => n + total rest

theorem total_append {a b : List Nat} : total (a ++ b) = total a + total b := by
  induction a with
  | nil => exact (Nat.zero_add _).symm
  | cons n rest ih =>
    show n + total (rest ++ b) = n + total rest + total b
    rw [ih, Nat.add_assoc]

end SymbolRename.Count
