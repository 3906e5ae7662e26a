/-!
# Numbers of JSON texts

An integer literal that fits 64 bits stays an integer.  Every other literal denotes a double, computed from the digits
that fit an unsigned 64-bit significand and a power of ten.

* `absorb_le`: the significand never leaves its 64 bits.
-/

namespace BrickScope

/-- A finite binary64 number, given by its bits. -/
structure Double where
  bits : UInt64
  deriving DecidableEq

namespace Double

def isNegative (d : Double) : Bool := 0x8000000000000000 ≤ d.bits.toNat

/-- The bit of a significand that is not stored, above the 52 that are. -/
def leadingBit : Nat := 0x10000000000000

/-- The 52 stored bits of the significand. -/
def fraction (d : Double) : Nat := d.bits.toNat % leadingBit

/-- The 11 stored bits of the exponent. -/
def biasedExponent (d : Double) : Nat := d.bits.toNat / leadingBit % 0x800

/-- The absolute value is `significand * 2 ^ exponent`. -/
def significand (d : Double) : Nat :=
  if d.biasedExponent = 0 then d.fraction else d.fraction + leadingBit

def exponent (d : Double) : Int := (max d.biasedExponent 1 : Nat) - 1075

/-- The double nearest to `10 ^ n`. -/
def powerOfTen (n : Nat) : Float := Float.ofScientific 1 false n

/-- `x / 10 ^ n`, by one division per 308 places as long as something is left. -/
def divideOut (x : Float) (n : Nat) : Float :=
  if n ≤ 308 then x / powerOfTen n
  else if x == 0 then x
  else divideOut (x / powerOfTen 308) (n - 308)
termination_by n

/-- `m * 10 ^ e` for a significand of 64 bits, rounded after each step; `none` when it is too large. -/
def ofParts? (negative : Bool) (m : Nat) (e : Int) : Option Double :=
  let signed (x : Float) : Double := ⟨(if negative then -x else x).toBits⟩
  let x : Float := (UInt64.ofNat m).toFloat
  if m = 0 then some (signed x)
  else match e with
    | .ofNat n =>
      let y := x * powerOfTen n
      if n ≤ 308 && y.isFinite then some (signed y) else none
    | .negSucc n => some (signed (divideOut x (n + 1)))

end Double

inductive Number where
  | int (n : Int)
  | double (d : Double)
  deriving DecidableEq

namespace Number

/-- A number as it is spelled: sign, digits before and after the point, exponent. -/
structure Literal where
  negative : Bool
  whole : List Nat
  fraction : Option (List Nat)
  exponent : Option Int

/-- Append digits to a significand as long as it fits 64 bits, and count those that did. -/
def absorb (m : Nat) : List Nat → Nat × Nat
  | [] => (m, 0)
  | d :: ds =>
    if 10 * m + d < UInt64.size then
      let r := absorb (10 * m + d) ds
      (r.1, r.2 + 1)
    else (m, 0)

theorem absorb_le {m : Nat} (h : m < UInt64.size) (ds : List Nat) : (absorb m ds).1 < UInt64.size := by
  induction ds generalizing m with
  | nil => exact h
  | cons d ds ih =>
    by_cases hd : 10 * m + d < UInt64.size
    · rw [absorb, if_pos hd]
      exact ih hd
    · rw [absorb, if_neg hd]
      exact h

/-- The value of a literal; `none` when it is too large for a double.  Digits before the point that do not fit the
significand count as zeros, digits behind it that do not fit are dropped. -/
def Literal.value? (l : Literal) : Option Number :=
  let (m, n) := absorb 0 l.whole
  let dropped := l.whole.length - n
  match l.fraction, l.exponent, dropped with
  | none, none, 0 =>
    if !l.negative then some (.int m)
    else if 0 < m && m ≤ 0x8000000000000000 then some (.int (-m))
    else (Double.ofParts? true m 0).map .double
  | fraction, exponent, _ =>
    let (m', n') := absorb m (fraction.getD [])
    (Double.ofParts? l.negative m' (dropped - n' + exponent.getD 0)).map .double

/-- A natural number of 64 bits. -/
def toCount? : Number → Option Nat
  | .int n => if 0 ≤ n then some n.toNat else none
  | .double _ => none

end Number

end BrickScope
