import TripleIndex.Identifier

/-! # Filters

A filter trims a list of identifiers by the prefix of their renderings, then by their number, then
by a budget of tokens. A bound that is absent, empty or zero does not trim.
-/

namespace TripleIndex

structure Filter where
  pre : Option String := none
  limit : Option UInt64 := none
  maxTokens : Option UInt64 := none
deriving DecidableEq, Repr, Inhabited

/-- A sum that stops at the largest count. -/
def addTokens (a b : UInt64) : UInt64 :=
  if a.toNat + b.toNat < UInt64.size then a + b else UInt64.ofNat (UInt64.size - 1)

/-- The identifiers before the first one that takes the running sum over the budget. -/
def withinBudget (budget : UInt64) (spent : UInt64) : List Identifier → List Identifier
  | [] => []
  | i :: is =>
    let spent := addTokens spent i.tokenCount
    if spent ≤ budget then i :: withinBudget budget spent is else []

namespace Filter

def byPrefix (pre : Option String) (is : List Identifier) : List Identifier :=
  match pre with
  | none => is
  | some p => is.filter fun i => p.toList.isPrefixOf i.path

def byLimit (limit : Option UInt64) (is : List Identifier) : List Identifier :=
  match limit with
  | none => is
  | some n => if n = 0 then is else is.take n.toNat

def byTokens (budget : Option UInt64) (is : List Identifier) : List Identifier :=
  match budget with
  | none => is
  | some n => if n = 0 then is else withinBudget n 0 is

def apply (f : Filter) (is : List Identifier) : List Identifier :=
  byTokens f.maxTokens (byLimit f.limit (byPrefix f.pre is))

end Filter

end TripleIndex
