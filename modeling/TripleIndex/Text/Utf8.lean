/-! # UTF-8

Octets are scanned one at a time into pieces: a character, a run that no character begins with, or
a character cut off by the end of the input. The three readings of octets — strict with the place of
the first fault, lossy, and symbol by symbol — are views of the same pieces.

A faulty run is the longest prefix of a well-formed sequence that the next octet breaks, or the one
octet that begins none; the breaking octet is scanned afresh.
-/

namespace TripleIndex.Text.Utf8

inductive Piece where
  | char (c : Char)
  | invalid (octets : Nat)
  | incomplete (octets : Nat)
deriving DecidableEq, Repr

namespace Piece

/-- Octets that the piece spans. -/
def width : Piece → Nat
  | .char c => c.utf8Size
  | .invalid n | .incomplete n => n

def char? : Piece → Option Char
  | .char c => some c
  | .invalid _ | .incomplete _ => none

end Piece

/-- A sequence under way: octets seen, their payload, octets still needed, and the bounds for the
next one. -/
structure Pending where
  seen : Nat
  value : Nat
  need : Nat
  low : UInt8
  high : UInt8
deriving DecidableEq, Repr

/-- What an octet above ASCII opens. The bounds on the second octet keep out overlong forms,
surrogates and code points above U+10FFFF. -/
def lead (b : UInt8) : Option Pending :=
  if 0xC2 ≤ b ∧ b ≤ 0xDF then some ⟨1, b.toNat - 0xC0, 1, 0x80, 0xBF⟩
  else if b = 0xE0 then some ⟨1, 0, 2, 0xA0, 0xBF⟩
  else if b = 0xED then some ⟨1, 13, 2, 0x80, 0x9F⟩
  else if 0xE1 ≤ b ∧ b ≤ 0xEF then some ⟨1, b.toNat - 0xE0, 2, 0x80, 0xBF⟩
  else if b = 0xF0 then some ⟨1, 0, 3, 0x90, 0xBF⟩
  else if 0xF1 ≤ b ∧ b ≤ 0xF3 then some ⟨1, b.toNat - 0xF0, 3, 0x80, 0xBF⟩
  else if b = 0xF4 then some ⟨1, 4, 3, 0x80, 0x8F⟩
  else none

/-- Pieces found so far, latest first, and the sequence under way. -/
structure Scan where
  pieces : List Piece
  pending : Option Pending
deriving DecidableEq, Repr

namespace Scan

def empty : Scan := ⟨[], none⟩

/-- Scans an octet that begins a piece. -/
def start (pieces : List Piece) (b : UInt8) : Scan :=
  if b < 0x80 then ⟨.char (Char.ofNat b.toNat) :: pieces, none⟩
  else match lead b with
    | some p => ⟨pieces, some p⟩
    | none => ⟨.invalid 1 :: pieces, none⟩

def step (s : Scan) (b : UInt8) : Scan :=
  match s.pending with
  | none => start s.pieces b
  | some p =>
    if p.low ≤ b ∧ b ≤ p.high then
      let value := p.value * 64 + (b.toNat - 0x80)
      if p.need ≤ 1 then ⟨.char (Char.ofNat value) :: s.pieces, none⟩
      else ⟨s.pieces, some ⟨p.seen + 1, value, p.need - 1, 0x80, 0xBF⟩⟩
    else start (.invalid p.seen :: s.pieces) b

def finish (s : Scan) : List Piece :=
  match s.pending with
  | none => s.pieces.reverse
  | some p => (.incomplete p.seen :: s.pieces).reverse

end Scan

def pieces (bs : List UInt8) : List Piece := (bs.foldl Scan.step Scan.empty).finish

/-- Where a run of octets stops being text: the octet index, and the length of the faulty run, or
`none` when the input ends inside a character. -/
structure Fault where
  index : Nat
  length : Option Nat
deriving DecidableEq, Repr

namespace Fault

def message (f : Fault) : String :=
  match f.length with
  | some n => "invalid utf-8 sequence of " ++ n.repr ++ " bytes from index " ++ f.index.repr
  | none => "incomplete utf-8 byte sequence from index " ++ f.index.repr

end Fault

/-- The first fault in a list of pieces whose first octet has the given index. -/
def firstFault (index : Nat) : List Piece → Option Fault
  | [] => none
  | .char c :: ps => firstFault (index + c.utf8Size) ps
  | .invalid n :: _ => some ⟨index, some n⟩
  | .incomplete _ :: _ => some ⟨index, none⟩

/-- The characters of well-formed octets, or the first fault. -/
def decode (bs : List UInt8) : Except Fault (List Char) :=
  let ps := pieces bs
  match firstFault 0 ps with
  | some f => .error f
  | none => .ok (ps.filterMap Piece.char?)

/-- Every faulty run reads as U+FFFD. -/
def decodeLossy (bs : List UInt8) : List Char :=
  (pieces bs).map fun p => p.char?.getD '\uFFFD'

/-- Characters, with `none` for a faulty run. -/
def symbols (bs : List UInt8) : List (Option Char) := (pieces bs).map Piece.char?

def encode (cs : List Char) : List UInt8 := cs.flatMap String.utf8EncodeChar

@[simp] theorem encode_nil : encode [] = [] := rfl

@[simp] theorem encode_append (cs ds : List Char) : encode (cs ++ ds) = encode cs ++ encode ds := by
  simp [encode]

/-- The octets of a string. -/
def ofString (s : String) : List UInt8 := encode s.toList

end TripleIndex.Text.Utf8
