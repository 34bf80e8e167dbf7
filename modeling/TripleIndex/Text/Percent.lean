import TripleIndex.Text.Hex
import TripleIndex.Text.Utf8

/-! # Percent-encoding

An octet may be written as a percent sign and two hexadecimal digits. A percent sign without two
digits behind it stands for itself.
-/

namespace TripleIndex.Text.Percent

/-- The octet that two digits spell. -/
def octet? (high low : UInt8) : Option UInt8 := do
  let h ← hexValue? (Char.ofNat high.toNat)
  let l ← hexValue? (Char.ofNat low.toNat)
  return UInt8.ofNat (h * 16 + l)

def decode : List UInt8 → List UInt8
  | 0x25 :: high :: low :: rest =>
    match octet? high low with
    | some b => b :: decode rest
    | none => 0x25 :: decode (high :: low :: rest)
  | b :: rest => b :: decode rest
  | [] => []

/-- Characters that never need encoding in a path. -/
def isUnreserved (c : Char) : Bool := c.isAlphanum || c = '-' || c = '.' || c = '_' || c = '~'

def encodeOctet (b : UInt8) : List Char :=
  let c := Char.ofNat b.toNat
  if b < 0x80 && isUnreserved c then [c]
  else ['%', upperHex (b.toNat / 16), upperHex (b.toNat % 16)]

/-- Octets as text that is safe in any part of a path. -/
def encode (bs : List UInt8) : List Char := bs.flatMap encodeOctet

end TripleIndex.Text.Percent
