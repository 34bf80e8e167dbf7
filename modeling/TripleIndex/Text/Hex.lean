/-! # Hexadecimal digits -/

namespace TripleIndex.Text

/-- The value of a hexadecimal digit of either case. -/
def hexValue? (c : Char) : Option Nat :=
  if '0' ≤ c ∧ c ≤ '9' then some (c.toNat - 48)
  else if 'a' ≤ c ∧ c ≤ 'f' then some (c.toNat - 87)
  else if 'A' ≤ c ∧ c ≤ 'F' then some (c.toNat - 55)
  else none

def isHex (c : Char) : Bool := (hexValue? c).isSome

/-- A number below sixteen as a lower-case digit. -/
def lowerHex (n : Nat) : Char := Nat.digitChar n

/-- A number below sixteen as an upper-case digit. -/
def upperHex (n : Nat) : Char := (Nat.digitChar n).toUpper

/-- Lower-case digits without leading zeros. -/
def hexDigits (n : Nat) : List Char := Nat.toDigits 16 n

/-- Four digits, for a number below 2^16. -/
def fourHex (digit : Nat → Char) (n : Nat) : List Char :=
  [digit (n / 4096 % 16), digit (n / 256 % 16), digit (n / 16 % 16), digit (n % 16)]

end TripleIndex.Text
