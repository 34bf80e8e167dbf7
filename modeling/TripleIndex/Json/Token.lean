import TripleIndex.Decimal.Basic
import TripleIndex.Text.Hex

/-! # Tokens of JSON

A machine reads a text symbol by symbol and emits tokens. It knows the grammar of words, numbers and
strings; how tokens nest is no concern of it. A symbol is a character, or `none` where octets are no
text: such a symbol may stand in a string, which is then unreadable, and nowhere else.

A number ends at the first symbol that cannot belong to it, so it is emitted one symbol late. Behind
a malformed spot nothing is emitted any more.
-/

namespace TripleIndex.Json

open Text

inductive Token where
  | openObject
  | closeObject
  | openArray
  | closeArray
  | colon
  | comma
  | null
  | bool (b : Bool)
  | number (d : Decimal)
  /-- The contents of a string, or `none` if they are not text. -/
  | string (s : Option String)
  | malformed
deriving DecidableEq, Repr

/-! ## Numbers -/

/-- The part of a number that the symbols so far have reached. -/
inductive NumberPart where
  | sign
  | zero
  | whole
  | point
  | fraction
  | mark
  | markSign
  | exponent
deriving DecidableEq, Repr

/-- A number under way; digits are held last first. -/
structure NumberDraft where
  part : NumberPart
  negative : Bool := false
  whole : List Nat := []
  fraction : List Nat := []
  exponentNegative : Bool := false
  exponent : List Nat := []
deriving DecidableEq, Repr

def digit? (c : Char) : Option Nat := if c.isDigit then some (c.toNat - 48) else none

namespace NumberDraft

inductive Step where
  | more (d : NumberDraft)
  | finished
  | malformed
deriving DecidableEq, Repr

def addWhole (d : NumberDraft) (n : Nat) : NumberDraft :=
  { d with part := .whole, whole := n :: d.whole }

def addFraction (d : NumberDraft) (n : Nat) : NumberDraft :=
  { d with part := .fraction, fraction := n :: d.fraction }

def addExponent (d : NumberDraft) (n : Nat) : NumberDraft :=
  { d with part := .exponent, exponent := n :: d.exponent }

/-- A point or an exponent mark behind the digits, or the end of the number. -/
def behindDigits (d : NumberDraft) (point : Bool) (c : Char) : Step :=
  if c = '.' ∧ point then .more { d with part := .point }
  else if c = 'e' ∨ c = 'E' then .more { d with part := .mark }
  else .finished

/-- A digit that has to follow. -/
def required (c : Char) (add : Nat → NumberDraft) : Step :=
  match digit? c with
  | some n => .more (add n)
  | none => .malformed

/-- No digit follows a leading zero, and at least one follows the point and the mark. -/
def step (d : NumberDraft) (c : Char) : Step :=
  match d.part with
  | .sign =>
    if c = '0' then .more { d with part := .zero, whole := [0] } else required c d.addWhole
  | .zero => if c.isDigit then .malformed else d.behindDigits true c
  | .whole =>
    match digit? c with
    | some n => .more (d.addWhole n)
    | none => d.behindDigits true c
  | .point => required c d.addFraction
  | .fraction =>
    match digit? c with
    | some n => .more (d.addFraction n)
    | none => d.behindDigits false c
  | .mark =>
    if c = '+' then .more { d with part := .markSign }
    else if c = '-' then .more { d with part := .markSign, exponentNegative := true }
    else required c d.addExponent
  | .markSign => required c d.addExponent
  | .exponent =>
    match digit? c with
    | some n => .more (d.addExponent n)
    | none => .finished

/-- Whether the number may end here. -/
def isComplete (d : NumberDraft) : Bool :=
  match d.part with
  | .zero | .whole | .fraction | .exponent => true
  | .sign | .point | .mark | .markSign => false

/-- The integer that digits, last first, spell. -/
def valueOf (digits : List Nat) : Nat := digits.reverse.foldl (fun n d => n * 10 + d) 0

def decimal (d : NumberDraft) : Decimal where
  negative := d.negative
  whole := d.whole.reverse
  fraction := d.fraction.reverse
  exponent :=
    if d.exponent.isEmpty then none
    else
      let n : Int := Int.ofNat (valueOf d.exponent)
      some (if d.exponentNegative then -n else n)

end NumberDraft

/-! ## Strings -/

/-- A string under way: characters, last first; the first half of a surrogate pair, if it has just
been read; and whether all of it is text so far. -/
structure StringDraft where
  chars : List Char := []
  half : Option Nat := none
  readable : Bool := true
deriving DecidableEq, Repr

namespace StringDraft

def addChar (d : StringDraft) (c : Char) : StringDraft :=
  ⟨c :: d.chars, none, d.readable && d.half.isNone⟩

def addUnreadable (d : StringDraft) : StringDraft := ⟨d.chars, none, false⟩

/-- Adds an escaped UTF-16 unit. A first half has to be followed by a second half at once, and a
second half stands nowhere else. -/
def addUnit (d : StringDraft) (n : Nat) : StringDraft :=
  let isSecond := 0xDC00 ≤ n && n ≤ 0xDFFF
  match d.half with
  | some h =>
    if isSecond then
      ⟨Char.ofNat ((h - 0xD800) * 0x400 + (n - 0xDC00) + 0x10000) :: d.chars, none, d.readable⟩
    else d.addUnreadable
  | none =>
    if 0xD800 ≤ n && n ≤ 0xDBFF then ⟨d.chars, some n, d.readable⟩
    else if isSecond then d.addUnreadable
    else d.addChar (Char.ofNat n)

def contents (d : StringDraft) : Option String :=
  if d.readable && d.half.isNone then some (String.ofList d.chars.reverse) else none

end StringDraft

/-- The character that a letter behind the backslash stands for. -/
def unescape? (c : Char) : Option Char :=
  if c = '"' ∨ c = '\\' ∨ c = '/' then some c
  else if c = 'b' then some '\x08'
  else if c = 'f' then some '\x0c'
  else if c = 'n' then some '\n'
  else if c = 'r' then some '\r'
  else if c = 't' then some '\t'
  else none

/-! ## The machine -/

inductive Mode where
  | between
  /-- Letters that a word still needs, and the token it becomes. -/
  | word (left : List Char) (token : Token)
  | number (d : NumberDraft)
  | string (d : StringDraft)
  | escape (d : StringDraft)
  /-- Digits that an escaped unit still needs, and their value so far. -/
  | unit (d : StringDraft) (left : Nat) (value : Nat)
  | dead
deriving DecidableEq, Repr

namespace Mode

/-- Tokens that a symbol completes, and what comes next. -/
abbrev Step := List Token × Mode

def fail : Step := ([.malformed], .dead)

def isSpace (c : Char) : Bool := c = ' ' || c = '\t' || c = '\n' || c = '\r'

/-- A character that stands between tokens or begins one. -/
def start (c : Char) : Step :=
  if isSpace c then ([], .between)
  else if c = '\x7b' then ([.openObject], .between)
  else if c = '\x7d' then ([.closeObject], .between)
  else if c = '[' then ([.openArray], .between)
  else if c = ']' then ([.closeArray], .between)
  else if c = ':' then ([.colon], .between)
  else if c = ',' then ([.comma], .between)
  else if c = '"' then ([], .string {})
  else if c = 't' then ([], .word ['r', 'u', 'e'] (.bool true))
  else if c = 'f' then ([], .word ['a', 'l', 's', 'e'] (.bool false))
  else if c = 'n' then ([], .word ['u', 'l', 'l'] .null)
  else if c = '-' then ([], .number { part := .sign, negative := true })
  else if c = '0' then ([], .number { part := .zero, whole := [0] })
  else match digit? c with
    | some n => ([], .number { part := .whole, whole := [n] })
    | none => fail

def stepWord (left : List Char) (token : Token) (c : Char) : Step :=
  match left with
  | [] => fail
  | l :: left =>
    if c = l then
      if left.isEmpty then ([token], .between) else ([], .word left token)
    else fail

def stepNumber (d : NumberDraft) (c : Char) : Step :=
  match d.step c with
  | .more d => ([], .number d)
  | .finished => let next := start c; (.number d.decimal :: next.1, next.2)
  | .malformed => fail

def stepString (d : StringDraft) (c : Char) : Step :=
  if c = '"' then ([.string d.contents], .between)
  else if c = '\\' then ([], .escape d)
  else if c.toNat < 0x20 then fail
  else ([], .string (d.addChar c))

def stepEscape (d : StringDraft) (c : Char) : Step :=
  if c = 'u' then ([], .unit d 4 0)
  else match unescape? c with
    | some e => ([], .string (d.addChar e))
    | none => fail

def stepUnit (d : StringDraft) (left value : Nat) (c : Char) : Step :=
  match hexValue? c with
  | none => fail
  | some n =>
    let value := value * 16 + n
    if left ≤ 1 then ([], .string (d.addUnit value)) else ([], .unit d (left - 1) value)

/-- Octets that are no text: they end a number, and are otherwise admitted in strings only. -/
def stepUnreadable : Mode → Step
  | .string d => ([], .string d.addUnreadable)
  | .number d => if d.isComplete then ([.number d.decimal, .malformed], .dead) else fail
  | .dead => ([], .dead)
  | .between | .word .. | .escape _ | .unit .. => fail

def step (m : Mode) : Option Char → Step
  | none => m.stepUnreadable
  | some c =>
    match m with
    | .between => start c
    | .word left token => stepWord left token c
    | .number d => stepNumber d c
    | .string d => stepString d c
    | .escape d => stepEscape d c
    | .unit d left value => stepUnit d left value c
    | .dead => ([], .dead)

/-- Tokens that the end of the text completes. -/
def finish : Mode → List Token
  | .between | .dead => []
  | .number d => if d.isComplete then [.number d.decimal] else [.malformed]
  | .word .. | .string _ | .escape _ | .unit .. => [.malformed]

end Mode

/-- The machine with the tokens it has emitted, latest first. -/
structure Tokenizer where
  tokens : List Token := []
  mode : Mode := .between

namespace Tokenizer

def step (t : Tokenizer) (s : Option Char) : Tokenizer :=
  let next := t.mode.step s
  ⟨next.1.reverse ++ t.tokens, next.2⟩

def finish (t : Tokenizer) : List Token := t.tokens.reverse ++ t.mode.finish

end Tokenizer

def tokens (symbols : List (Option Char)) : List Token :=
  (symbols.foldl Tokenizer.step {}).finish

end TripleIndex.Json
