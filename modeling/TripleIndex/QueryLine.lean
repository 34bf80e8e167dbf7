import TripleIndex.Text.Blank
import TripleIndex.Text.Utf8
import TripleIndex.Term

/-! # Query lines

A line asks a query by three terms, subject, predicate and object, with blanks between them. Between
double quotes a blank does not end a term. Terms keep their quotes, so that a quoted text can be
told from a bare one.
-/

namespace TripleIndex

open Text

namespace QueryLine

/-- Why a line asks nothing. -/
inductive Fault where
  | notText (fault : Utf8.Fault)
  | empty
  | openQuote
  | termCount (found : Nat)
deriving DecidableEq, Repr

namespace Fault

def message : Fault → String
  | .notText f => "line must be a string: " ++ f.message
  | .empty => "line cannot be empty"
  | .openQuote => "Unterminated quoted string"
  | .termCount n => "Expected 3 parts (subject predicate object), got " ++ n.repr

end Fault

/-! ## Terms

A term is one or more runs without a gap. A bare run has neither blanks nor quotes; a quoted run is
whatever stands between two quotes, and has both of them. -/

/-- A character that may stand in a term outside quotes. -/
def isBare (c : Char) : Bool := !isBlank c && c != '"'

/-- Cuts off the run in front of a text, as long as it goes. -/
def cutRun? : List Char → Option (List Char × List Char)
  | [] => none
  | c :: cs =>
    if c = '"' then
      match cs.dropWhile (· ≠ '"') with
      | [] => none
      | mark :: rest => some (c :: cs.takeWhile (· ≠ '"') ++ [mark], rest)
    else if isBare c then some (c :: cs.takeWhile isBare, cs.dropWhile isBare)
    else none

theorem append_of_cutRun? {cs run rest : List Char} (h : cutRun? cs = some (run, rest)) :
    run ≠ [] ∧ run ++ rest = cs := by
  cases cs with
  | nil => cases h
  | cons c cs =>
    rw [cutRun?] at h
    split at h
    · split at h
      · cases h
      · rename_i mark behind hdrop
        cases h
        refine ⟨by simp, ?_⟩
        rw [List.append_assoc, List.cons_append, List.singleton_append, ← hdrop,
          List.takeWhile_append_dropWhile]
    · split at h
      · cases h
        exact ⟨by simp, by rw [List.cons_append, List.takeWhile_append_dropWhile]⟩
      · cases h

theorem length_lt_of_cutRun? {cs : List Char} {r : List Char × List Char}
    (h : cutRun? cs = some r) : r.2.length < cs.length := by
  obtain ⟨hrun, hcs⟩ := append_of_cutRun? h
  have hpos := List.length_pos_iff.mpr hrun
  rw [← hcs, List.length_append]
  omega

/-- Cuts off the term in front of a text, which is empty where none begins. -/
def cutTerm (cs : List Char) : List Char × List Char :=
  match _h : cutRun? cs with
  | none => ([], cs)
  | some r =>
    let more := cutTerm r.2
    (r.1 ++ more.1, more.2)
termination_by cs.length
decreasing_by exact length_lt_of_cutRun? _h

theorem append_cutTerm (cs : List Char) : (cutTerm cs).1 ++ (cutTerm cs).2 = cs := by
  fun_induction cutTerm cs with
  | case1 cs h => rfl
  | case2 cs r h more ih => rw [List.append_assoc, ih, (append_of_cutRun? h).2]

theorem length_cutTerm_lt {cs : List Char} (h : (cutTerm cs).1 ≠ []) :
    (cutTerm cs).2.length < cs.length := by
  have hlength := congrArg List.length (append_cutTerm cs)
  have hpos := List.length_pos_iff.mpr h
  rw [List.length_append] at hlength
  omega

/-- The terms of a text from its front to its end. A character that begins none is passed over. -/
def terms (cs : List Char) : List (List Char) :=
  match cs with
  | [] => []
  | c :: rest =>
    let cut := cutTerm (c :: rest)
    if _h : cut.1 = [] then terms rest else cut.1 :: terms cut.2
termination_by cs.length
decreasing_by
  · exact Nat.lt_succ_self _
  · exact length_cutTerm_lt _h

/-! ## Lines -/

/-- A line of blanks is empty; otherwise an odd quote is reported before a wrong count of terms. -/
def parse (line : String) : Except Fault Statement :=
  let cs := trim line.toList
  if cs.isEmpty then .error .empty
  else if cs.count '"' % 2 ≠ 0 then .error .openQuote
  else
    match terms cs with
    | [s, p, o] => .ok ⟨String.ofList s, String.ofList p, String.ofList o⟩
    | ts => .error (.termCount ts.length)

/-- Parses a line that arrives as octets. -/
def parseOctets (line : List UInt8) : Except Fault Statement :=
  match Utf8.decode line with
  | .ok cs => parse (String.ofList cs)
  | .error f => .error (.notText f)

end QueryLine

end TripleIndex
