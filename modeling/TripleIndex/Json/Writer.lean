import TripleIndex.Decimal.Shortest
import TripleIndex.Text.Hex

/-! # Writing JSON

Compact text: no blanks, members in the order given. A string escapes the quote, the backslash and
the control characters below the space, five of them by a letter; everything else stands for itself.
-/

namespace TripleIndex.Json

open Text

/-- The escape of one character inside a string. -/
def escape (c : Char) : List Char :=
  if c = '"' ∨ c = '\\' then ['\\', c]
  else if c = '\x08' then ['\\', 'b']
  else if c = '\x0c' then ['\\', 'f']
  else if c = '\n' then ['\\', 'n']
  else if c = '\r' then ['\\', 'r']
  else if c = '\t' then ['\\', 't']
  else if c.toNat < 0x20 then ['\\', 'u'] ++ fourHex lowerHex c.toNat
  else [c]

def string (s : String) : List Char := '"' :: s.toList.flatMap escape ++ ['"']

/-- A count of any size. -/
def count (n : Nat) : List Char := Nat.toDigits 10 n

def natural (n : UInt64) : List Char := count n.toNat

def null : List Char := ['n', 'u', 'l', 'l']

/-- The spelling of a decimal `c · 10^k` with `c > 0`: positional with a point if the first digit
stands between 10^-5 and 10^15, otherwise one digit before the point and a signed exponent. -/
def spell (c : Nat) (k : Int) : List Char :=
  let digits := Nat.toDigits 10 c
  let point := (digits.length : Int) + k
  if 0 ≤ k ∧ point ≤ 16 then digits ++ List.replicate k.toNat '0' ++ ['.', '0']
  else if 0 < point ∧ point ≤ 16 then
    digits.take point.toNat ++ '.' :: digits.drop point.toNat
  else if -5 < point ∧ point ≤ 0 then
    ['0', '.'] ++ List.replicate (-point).toNat '0' ++ digits
  else
    let mantissa := match digits with
      | d :: e :: ds => d :: '.' :: e :: ds
      | ds => ds
    let exponent := point - 1
    mantissa ++ ['e', if 0 ≤ exponent then '+' else '-'] ++ Nat.toDigits 10 exponent.natAbs

/-- A float by its shortest decimal; JSON has no word for infinities and the rest but `null`. -/
def float (x : Float) : List Char :=
  if x.isNaN || x.isInf then null
  else
    let bits := x.toBits
    let sign := if bits ≥ 0x8000000000000000 then ['-'] else []
    if bits &&& 0x7FFFFFFFFFFFFFFF = 0 then sign ++ ['0', '.', '0']
    else
      let d := Decimal.shortest bits
      sign ++ spell d.1 d.2

/-- Parts between an opening and a closing mark, separated by commas. -/
def enclosed (opening closing : Char) (parts : List (List Char)) : List Char :=
  opening :: List.intercalate [','] parts ++ [closing]

def array (items : List (List Char)) : List Char := enclosed '[' ']' items

def member (name : String) (value : List Char) : List Char := string name ++ ':' :: value

def object (members : List (List Char)) : List Char := enclosed '\x7b' '\x7d' members

/-- A member that is left out when there is no value. -/
def member? (name : String) : Option (List Char) → List (List Char)
  | none => []
  | some value => [member name value]

/-- A value, or `null`. -/
def nullable {α : Type} (write : α → List Char) : Option α → List Char
  | none => null
  | some a => write a

end TripleIndex.Json
