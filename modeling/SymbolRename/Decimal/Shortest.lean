/-!
# Shortest decimal text of a binary number

A double stands for every real that rounds to it. Its shortest decimal is the one
with the fewest digits among those reals, and of several the nearest one. All
comparisons are made between natural numbers.
-/

namespace SymbolRename.Decimal

/-- A positive decimal: the digits as a number that does not end in zero, and the
power of ten of its first digit. -/
structure Shortest where
  digits : Nat
  exponent : Int
deriving DecidableEq, Repr

/-- A positive double as a fraction, with the ends of its rounding interval over
the same denominator. -/
structure Interval where
  value : Nat
  low : Nat
  high : Nat
  denominator : Nat
  /-- Both ends round to the double as well. -/
  closed : Bool

/-- The rounding interval of the double with these bits, whose sign is ignored. -/
def Interval.ofBits (bits : UInt64) : Interval :=
  let fraction := (bits &&& 0xfffffffffffff).toNat
  let biased := ((bits >>> 52) &&& 0x7ff).toNat
  let m := if biased = 0 then fraction else fraction + Nat.pow 2 52
  let q : Int := (if biased = 0 then 1 else biased : Int) - 1075
  let below := if fraction = 0 ∧ 1 < biased then 1 else 2
  let shift : Nat := (q - 2).toNat
  let scale := Nat.pow 2 shift
  ⟨4 * m * scale, (4 * m - below) * scale, (4 * m + 2) * scale, Nat.pow 2 (2 - q).toNat,
    m % 2 == 0⟩

/-- The number of decimal digits of a positive number. -/
def digitCount (n : Nat) : Nat := (Nat.toDigits 10 n).length

/-- The least `j` from `start` on with `1 ≤ value * 10 ^ j / denominator`. -/
def leadingZeros (value denominator : Nat) : Nat → Nat → Nat
  | 0, start => start
  | fuel + 1, start =>
    if denominator ≤ value * Nat.pow 10 start then start
    else leadingZeros value denominator fuel (start + 1)

/-- The power of ten of the first digit of the value. -/
def Interval.magnitude (v : Interval) : Int :=
  if v.denominator ≤ v.value then (digitCount (v.value / v.denominator) : Int) - 1
  else -(leadingZeros v.value v.denominator 400 1 : Int)

/-- The decimal with `n` digits nearest to the value, if it rounds back: a multiple
of the unit `10 ^ (magnitude - n + 1)`. -/
def Interval.nearest? (v : Interval) (n : Nat) : Option (Nat × Int) :=
  let exponent := v.magnitude - (n : Int) + 1
  let up := Nat.pow 10 exponent.toNat
  let down := Nat.pow 10 (-exponent).toNat
  -- the value is `v.value * down / (v.denominator * up)` units
  let unit := v.denominator * up
  let k := v.value * down / unit
  let inside := fun c : Nat =>
    let x := c * unit
    if v.closed then v.low * down ≤ x && x ≤ v.high * down
    else v.low * down < x && x < v.high * down
  let rest := v.value * down - k * unit
  let first := if 2 * rest < unit ∨ (2 * rest = unit ∧ k % 2 = 0) then k else k + 1
  let second := if first = k then k + 1 else k
  if inside first then some (first, exponent)
  else if inside second then some (second, exponent)
  else none

/-- Moves the zeros at the end of a number into the exponent. -/
def stripZeros : Nat → Nat → Int → Nat × Int
  | 0, digits, exponent => (digits, exponent)
  | fuel + 1, digits, exponent =>
    if digits ≠ 0 ∧ digits % 10 = 0 then stripZeros fuel (digits / 10) (exponent + 1)
    else (digits, exponent)

/-- The shortest decimal of a positive double. -/
def Interval.shortest (v : Interval) : Shortest :=
  let found := ((List.range 17).findSome? fun n => v.nearest? (n + 1)).getD (0, 0)
  let (digits, exponent) := stripZeros 20 found.1 found.2
  ⟨digits, exponent + (digitCount digits : Int) - 1⟩

end SymbolRename.Decimal
