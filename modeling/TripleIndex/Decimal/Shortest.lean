/-! # Shortest decimals of a float

A finite float is `m · 2^q`. The reals that round to it form an interval whose ends are halfway to
the neighbours and belong to it when `m` is even. The shortest decimal of the float is the nearest
multiple of the largest power of ten that has a multiple in the interval.
-/

namespace TripleIndex.Decimal

/-- A positive float in units of a quarter of its last place: `value · 2^power`, and the ends of the
interval of reals that round to it. -/
structure Interval where
  low : Nat
  value : Nat
  high : Nat
  power : Int
  closed : Bool
deriving DecidableEq, Repr

/-- What a float's leading bit is worth in units of its last place: 2^52. -/
def leadingBit : Nat := 4503599627370496

/-- Decodes the magnitude of a finite float. The gap below a power of two is half as wide. -/
def Interval.ofBits (bits : UInt64) : Interval :=
  let fraction : Nat := bits.toNat % leadingBit
  let exponent : Nat := bits.toNat / leadingBit % 2048
  let m : Nat := if exponent = 0 then fraction else fraction + leadingBit
  let q : Int := if exponent = 0 then -1074 else Int.ofNat exponent - 1075
  let below := if fraction = 0 ∧ exponent > 1 then 1 else 2
  { low := 4 * m - below, value := 4 * m, high := 4 * m + 2, power := q - 2, closed := m % 2 = 0 }

namespace Interval

/-- The factors that turn a multiple of the interval's unit and a multiple of ten to the `k` into
integers of one scale. -/
def factors (i : Interval) (k : Int) : Nat × Nat :=
  (Nat.pow 2 i.power.toNat * Nat.pow 10 (-k).toNat,
    Nat.pow 2 (-i.power).toNat * Nat.pow 10 k.toNat)

/-- Whether `c · 10^k` lies in the interval. -/
def holds (i : Interval) (k : Int) (c : Nat) : Bool :=
  let f := i.factors k
  let place := c * f.2
  if i.closed then i.low * f.1 ≤ place && place ≤ i.high * f.1
  else i.low * f.1 < place && place < i.high * f.1

/-- The multiple of ten to the `k` in the interval that is nearest to the value; of two equally near
ones the even multiple. -/
def nearest? (i : Interval) (k : Int) : Option Nat :=
  let f := i.factors k
  let c := i.value * f.1 / f.2
  let below := i.value * f.1 - c * f.2
  let above := (c + 1) * f.2 - i.value * f.1
  match c ≠ 0 && i.holds k c, i.holds k (c + 1) with
  | true, true =>
    if below < above then some c
    else if above < below then some (c + 1)
    else if c % 2 = 0 then some c
    else some (c + 1)
  | true, false => some c
  | false, true => some (c + 1)
  | false, false => none

/-- Tries the powers of ten from `k` downward. -/
def search (i : Interval) (k : Int) : Nat → Nat × Int
  | 0 => (0, k)
  | n + 1 =>
    match i.nearest? k with
    | some c => (c, k)
    | none => search i (k - 1) n

end Interval

/-- The shortest decimal `c · 10^k` that reads back as a positive finite float. No float reaches
10^309, and below 10^-343 every grid is finer than the smallest gap. -/
def shortest (bits : UInt64) : Nat × Int := (Interval.ofBits bits).search 309 660

end TripleIndex.Decimal
