/-! # Decimal numbers as written

A numeral is kept digit by digit. It has two readings: the natural number it spells, if it is
unsigned, has neither fraction nor exponent and fits 64 bits; and a float.

For the float, leading digits are gathered as long as the integer they spell fits 64 bits. The
integer is rounded to a float and scaled by a power of ten, in one step where the power is itself a
float. The scaling rounds once more, so the result may miss the nearest float by the last bit.
-/

namespace TripleIndex

/-- Sign, digits before and after the point, and the power of ten behind the exponent mark. -/
structure Decimal where
  negative : Bool := false
  whole : List Nat
  fraction : List Nat := []
  exponent : Option Int := none
deriving DecidableEq, Repr

namespace Decimal

/-- The largest integer that digits are gathered into. -/
def gatherLimit : Nat := UInt64.size - 1

/-- Digits gathered into an integer, and the count of those that no longer fitted. -/
structure Gathered where
  value : Nat
  dropped : Nat := 0
deriving DecidableEq, Repr

/-- Once a digit before the point does not fit, neither do those behind it. -/
def Gathered.whole (g : Gathered) (digit : Nat) : Gathered :=
  if g.dropped = 0 ∧ g.value * 10 + digit ≤ gatherLimit then ⟨g.value * 10 + digit, 0⟩
  else ⟨g.value, g.dropped + 1⟩

def gatherWhole (digits : List Nat) : Gathered := digits.foldl Gathered.whole ⟨0, 0⟩

/-- Gathers digits behind the point until one does not fit. Returns the integer and the count of
digits taken. -/
def gatherFraction (value taken : Nat) : List Nat → Nat × Nat
  | [] => (value, taken)
  | d :: ds =>
    if value * 10 + d ≤ gatherLimit then gatherFraction (value * 10 + d) (taken + 1) ds
    else (value, taken)

def isInteger (d : Decimal) : Bool := d.fraction.isEmpty && d.exponent.isNone

/-- The natural number below 2^64 that the numeral spells. -/
def toUInt64? (d : Decimal) : Option UInt64 :=
  let g := gatherWhole d.whole
  if d.isInteger ∧ !d.negative ∧ g.dropped = 0 then some (UInt64.ofNat g.value) else none

/-- The float nearest to a power of ten. -/
def powerOfTen (n : Nat) : Float := Float.ofScientific 1 false n

/-- Divides by ten to the `n`, by no more than 10^308 at a time. -/
def shrink (x : Float) (n : Nat) : Float :=
  if n ≤ 308 then x / powerOfTen n
  else if x == 0 then x
  else shrink (x / powerOfTen 308) (n - 308)
termination_by n
decreasing_by omega

/-- Multiplies by ten to the `n`, if the result is finite. -/
def grow? (x : Float) (n : Nat) : Option Float :=
  if n ≤ 308 then
    let y := x * powerOfTen n
    if y.isInf then none else some y
  else if x == 0 then some x
  else none

def scale? (x : Float) : Int → Option Float
  | .ofNat n => grow? x n
  | .negSucc n => some (shrink x (n + 1))

/-- The numeral as a float, or `none` where that would be infinite. -/
def toFloat? (d : Decimal) : Option Float :=
  let g := gatherWhole d.whole
  let f := gatherFraction g.value 0 d.fraction
  let power := (g.dropped : Int) - f.2 + d.exponent.getD 0
  (scale? (UInt64.ofNat f.1).toFloat power).map fun x => if d.negative then -x else x

/-- The numeral of a natural number. -/
def ofNat (n : Nat) : Decimal :=
  { whole := (Nat.toDigits 10 n).map fun c => c.toNat - 48 }

end Decimal

end TripleIndex
