/-!
# Shortest decimals

The decimal with the fewest digits that reads back as a given binary number `m * 2 ^ q`, and among those of that length
the nearest; of two equally near ones the even one.  All comparisons are exact, on fractions of naturals.

* `roundsTo`: which decimals read back as the number.
* `shortest`: the digits and the place of the first one.
-/

namespace BrickScope.Decimal

/-- A positive number `num / den`. -/
structure Fraction where
  num : Nat
  den : Nat

/-- `m * 2 ^ q`. -/
def Fraction.ofBinary (m : Nat) (q : Int) : Fraction :=
  match q with
  | .ofNat n => ⟨m * Nat.pow 2 n, 1⟩
  | .negSucc n => ⟨m, Nat.pow 2 (n + 1)⟩

/-- `c * 10 ^ k`. -/
def Fraction.ofDecimal (c : Nat) (k : Int) : Fraction :=
  match k with
  | .ofNat n => ⟨c * Nat.pow 10 n, 1⟩
  | .negSucc n => ⟨c, Nat.pow 10 (n + 1)⟩

def Fraction.le (a b : Fraction) : Bool := a.num * b.den ≤ b.num * a.den

def Fraction.lt (a b : Fraction) : Bool := a.num * b.den < b.num * a.den

/-- A binary number with the reals that round to it: from a quarter or half a unit below to half a unit above, ends
included when the significand is even.  `narrow` marks the significands at a power of two, whose lower neighbour is at
half the distance. -/
structure Target where
  significand : Nat
  exponent : Int
  narrow : Bool

def Target.value (t : Target) : Fraction := .ofBinary (4 * t.significand) (t.exponent - 2)

def Target.lower (t : Target) : Fraction :=
  .ofBinary (4 * t.significand - (if t.narrow then 1 else 2)) (t.exponent - 2)

def Target.upper (t : Target) : Fraction := .ofBinary (4 * t.significand + 2) (t.exponent - 2)

/-- The decimal reads back as the target. -/
def roundsTo (t : Target) (x : Fraction) : Bool :=
  if t.significand % 2 = 0 then t.lower.le x && x.le t.upper else t.lower.lt x && x.lt t.upper

/-- The least `n ≤ bound` with `den ≤ num * 10 ^ n`. -/
def leadingZeros (num den : Nat) : Nat → Nat
  | 0 => 0
  | bound + 1 => if den ≤ num then 0 else leadingZeros (num * 10) den bound + 1

/-- The place of the first digit: `10 ^ place ≤ x < 10 ^ (place + 1)`. -/
def Fraction.place (x : Fraction) : Int :=
  if x.den ≤ x.num then ((Nat.toDigits 10 (x.num / x.den)).length - 1 : Nat)
  else -(leadingZeros x.num x.den 400 : Nat)

/-- The decimal `c * 10 ^ k` next to `x` from below. -/
def Fraction.floorAt (x : Fraction) (k : Int) : Nat :=
  match k with
  | .ofNat n => x.num / (x.den * Nat.pow 10 n)
  | .negSucc n => x.num * Nat.pow 10 (n + 1) / x.den

/-- Of the two neighbours `c` and `c + 1` on the grid `10 ^ k`: is the upper one nearer, or as near and even? -/
def upperNearer (x : Fraction) (c : Nat) (k : Int) : Bool :=
  let middle := Fraction.ofDecimal (10 * c + 5) (k - 1)
  middle.lt x || (middle.le x && x.le middle && c % 2 = 1)

/-- The decimal on the grid `10 ^ k` that reads back as the target, if there is one. -/
def onGrid? (t : Target) (k : Int) : Option Nat :=
  let c := t.value.floorAt k
  let low := 0 < c && roundsTo t (.ofDecimal c k)
  let high := roundsTo t (.ofDecimal (c + 1) k)
  if low && high then some (if upperNearer t.value c k then c + 1 else c)
  else if low then some c
  else if high then some (c + 1)
  else none

/-- The digits of a number, without the zeros at its end. -/
def trimZeros (c : Nat) : List Char := ((Nat.toDigits 10 c).reverse.dropWhile (· = '0')).reverse

/-- A decimal in scientific form: its digits, and the place of the first one. -/
structure Digits where
  digits : List Char
  place : Int

/-- The shortest decimal of a positive binary number.  Seventeen digits always read back. -/
def shortest (t : Target) : Digits :=
  let place := t.value.place
  match (List.range 17).findSome? fun (n : Nat) => (onGrid? t (place - n)).map fun c => (n, c) with
  | some (n, c) => ⟨trimZeros c, place - n + ((Nat.toDigits 10 c).length - 1 : Nat)⟩
  | none => ⟨[], 0⟩

end BrickScope.Decimal
