/-! # Lines

A text is cut behind every line feed. The feed and one carriage return right before it do not
belong to the line; what follows the last feed is a line of its own unless it is empty, and keeps
its carriage returns. The cut works on characters and on octets alike, so the two marks are
parameters.
-/

namespace TripleIndex.Text

variable {α : Type} [DecidableEq α]

/-- The lines completed so far, latest first, and the open line, last symbol first. -/
structure LineCut (α : Type) where
  lines : List (List α)
  line : List α

namespace LineCut

def empty : LineCut α := ⟨[], []⟩

/-- Drops the return in front of the feed from a line held in reverse. -/
def withoutReturn (ret : α) : List α → List α
  | [] => []
  | a :: line => if a = ret then line else a :: line

def step (feed ret : α) (cut : LineCut α) (a : α) : LineCut α :=
  if a = feed then ⟨(withoutReturn ret cut.line).reverse :: cut.lines, []⟩
  else ⟨cut.lines, a :: cut.line⟩

def finish (cut : LineCut α) : List (List α) :=
  match cut.line with
  | [] => cut.lines.reverse
  | line => (line.reverse :: cut.lines).reverse

end LineCut

/-- The lines of a sequence of symbols. -/
def linesOf (feed ret : α) (as : List α) : List (List α) :=
  (as.foldl (LineCut.step feed ret) LineCut.empty).finish

/-- The lines of a text. -/
def lines (cs : List Char) : List (List Char) := linesOf '\n' '\r' cs

/-- The lines of a run of octets. -/
def octetLines (bs : List UInt8) : List (List UInt8) := linesOf 10 13 bs

end TripleIndex.Text
