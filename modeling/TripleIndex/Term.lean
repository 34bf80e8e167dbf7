import TripleIndex.Text.Hex
import Std.Data.TreeMap

/-! # Terms and triples

A term is an IRI or a literal; the same text as either is two different terms. A triple is three
terms; a statement is a triple as somebody spelled it, before its texts have been resolved.
-/

namespace TripleIndex

open Text

inductive Term where
  | iri (value : String)
  | literal (value : String)
deriving DecidableEq, Repr, Inhabited

namespace Term

/-- The text without its kind. -/
def value : Term → String
  | .iri v | .literal v => v

def isIri : Term → Bool
  | .iri _ => true
  | .literal _ => false

/-- IRIs come first. -/
def rank : Term → Nat
  | .iri _ => 0
  | .literal _ => 1

@[simp] theorem value_iri (v : String) : (iri v).value = v := rfl
@[simp] theorem value_literal (v : String) : (literal v).value = v := rfl
@[simp] theorem rank_iri (v : String) : (iri v).rank = 0 := rfl
@[simp] theorem rank_literal (v : String) : (literal v).rank = 1 := rfl

/-- By kind, then by code points. -/
instance : Ord Term := ⟨compareLex (compareOn rank) (compareOn value)⟩

theorem compare_def (s t : Term) :
    compare s t = (compare s.rank t.rank).then (compare s.value t.value) := rfl

theorem ext_rank_value {s t : Term} (hr : s.rank = t.rank) (hv : s.value = t.value) : s = t := by
  cases s <;> cases t <;> simp_all

instance : Std.TransOrd Term :=
  inferInstanceAs (Std.TransCmp (compareLex (compareOn rank) (compareOn value)))

instance : Std.LawfulEqOrd Term where
  eq_of_compare {s t} h := by
    rw [compare_def, Ordering.then_eq_eq] at h
    exact ext_rank_value (Std.LawfulEqOrd.eq_of_compare h.1) (Std.LawfulEqOrd.eq_of_compare h.2)

/-- A character inside a displayed literal: the usual escapes, printable ASCII as it is, and every
other character by its code point between braces. -/
def displayChar (c : Char) : List Char :=
  if c = '\t' then ['\\', 't']
  else if c = '\r' then ['\\', 'r']
  else if c = '\n' then ['\\', 'n']
  else if c = '\'' ∨ c = '"' ∨ c = '\\' then ['\\', c]
  else if 0x20 ≤ c.toNat ∧ c.toNat ≤ 0x7E then [c]
  else ['\\', 'u', '\x7b'] ++ hexDigits c.toNat ++ ['\x7d']

/-- An IRI between angle brackets, a literal between quotes. -/
def display : Term → List Char
  | .iri v => '<' :: v.toList ++ ['>']
  | .literal v => '"' :: v.toList.flatMap displayChar ++ ['"']

end Term

structure Triple where
  subject : Term
  predicate : Term
  object : Term
deriving DecidableEq, Repr, Inhabited

namespace Triple

/-- The terms and a full stop, separated by spaces. -/
def display (t : Triple) : List Char :=
  t.subject.display ++ ' ' :: t.predicate.display ++ ' ' :: t.object.display ++ [' ', '.']

end Triple

structure Statement where
  subject : String
  predicate : String
  object : String
deriving DecidableEq, Repr, Inhabited

end TripleIndex
