import TripleIndex.Text.Lines
import Mathlib.Data.List.Induction

/-!
# Lines of a text that grows

A text is the lines that a feed has closed and the open line behind the last feed.  What is appended
goes on with the open line; the closed ones stay as they are.
-/

namespace TripleIndex.Text

variable {α : Type} [DecidableEq α]

/-- The lines that a feed has closed. -/
def closedLines (feed ret : α) (as : List α) : List (List α) :=
  (as.foldl (LineCut.step feed ret) .empty).lines.reverse

/-- What stands behind the last feed. -/
def openLine (feed : α) (as : List α) : List α := (as.reverse.takeWhile (· ≠ feed)).reverse

namespace LineCut

variable {feed ret : α}

theorem foldl_step_of_notMem {as : List α} (h : feed ∉ as) (cut : LineCut α) :
    as.foldl (step feed ret) cut = ⟨cut.lines, as.reverse ++ cut.line⟩ := by
  induction as generalizing cut with
  | nil => rfl
  | cons a as ih =>
    obtain ⟨ha, has⟩ := not_or.mp (List.mem_cons.not.mp h)
    rw [List.foldl_cons, step, if_neg (Ne.symm ha), ih has]
    simp

theorem line_foldl_step (as : List α) :
    (as.foldl (step feed ret) .empty).line = as.reverse.takeWhile (· ≠ feed) := by
  induction as using List.reverseRecOn with
  | nil => rfl
  | append_singleton as a ih =>
    rw [List.foldl_append, List.foldl_cons, List.foldl_nil, step, List.reverse_append,
      List.reverse_singleton, List.singleton_append, List.takeWhile_cons]
    by_cases h : a = feed
    · simp [h]
    · simp [h, ih]

/-- Lines that have been completed do not matter to those behind them. -/
theorem foldl_step_append (as : List α) (lines done : List (List α)) (line : List α) :
    as.foldl (step feed ret) ⟨lines ++ done, line⟩ =
      ⟨(as.foldl (step feed ret) ⟨lines, line⟩).lines ++ done,
        (as.foldl (step feed ret) ⟨lines, line⟩).line⟩ := by
  induction as generalizing lines line with
  | nil => rfl
  | cons a as ih =>
    rw [List.foldl_cons, List.foldl_cons, step, step]
    split
    · exact ih (_ :: lines) []
    · exact ih lines (a :: line)

theorem withoutReturn_of_getLast? {line : List α} {last : α} (h : line.getLast? = some last)
    (hlast : last ≠ ret) : (withoutReturn ret line.reverse).reverse = line := by
  obtain ⟨init, rfl⟩ := List.getLast?_eq_some_iff.mp h
  simp [withoutReturn, hlast]

theorem withoutReturn_append_return (line : List α) :
    (withoutReturn ret (line ++ [ret]).reverse).reverse = line := by
  simp [withoutReturn]

end LineCut

variable {feed ret : α}

/-- The first line is cut off, and what follows is cut as if it stood alone. -/
theorem linesOf_line_append {line : List α} (h : feed ∉ line) (as : List α) :
    linesOf feed ret (line ++ feed :: as) =
      (LineCut.withoutReturn ret line.reverse).reverse :: linesOf feed ret as := by
  have hline : line.foldl (LineCut.step feed ret) .empty = ⟨[], line.reverse⟩ := by
    rw [LineCut.foldl_step_of_notMem h]
    exact congrArg (LineCut.mk []) (List.append_nil _)
  have hrest : as.foldl (LineCut.step feed ret)
      ⟨[] ++ [(LineCut.withoutReturn ret line.reverse).reverse], []⟩ = _ :=
    LineCut.foldl_step_append as [] _ []
  rw [linesOf, List.foldl_append, hline, List.foldl_cons, LineCut.step, if_pos rfl,
    ← List.nil_append [_], hrest, linesOf, LineCut.empty]
  cases h : (as.foldl (LineCut.step feed ret) ⟨[], []⟩).line <;> simp [LineCut.finish, h]

theorem linesOf_of_notMem {line : List α} (h : feed ∉ line) :
    linesOf feed ret line = if line = [] then [] else [line] := by
  rw [linesOf, LineCut.foldl_step_of_notMem h]
  cases line using List.reverseRecOn with
  | nil => rfl
  | append_singleton init a => simp [LineCut.empty, LineCut.finish]

/-- A text behind its closed lines. -/
theorem foldl_step_eq (as : List α) :
    as.foldl (LineCut.step feed ret) .empty =
      ⟨(closedLines feed ret as).reverse, (openLine feed as).reverse⟩ := by
  rw [closedLines, openLine, List.reverse_reverse, List.reverse_reverse, ← LineCut.line_foldl_step]

theorem linesOf_eq (as : List α) :
    linesOf feed ret as =
      closedLines feed ret as ++ if openLine feed as = [] then [] else [openLine feed as] := by
  rw [linesOf, foldl_step_eq, LineCut.finish]
  cases h : (openLine feed as).reverse with
  | nil => simp [List.reverse_eq_nil_iff.mp h]
  | cons a l =>
    have hne : openLine feed as ≠ [] := fun he ↦ by rw [he] at h; cases h
    change ((a :: l).reverse :: (closedLines feed ret as).reverse).reverse = _
    rw [if_neg hne, ← h, List.reverse_reverse, List.reverse_cons, List.reverse_reverse]

/-- A line appended to a text continues its open line, and closes it. -/
theorem foldl_step_append_line (as : List α) {line : List α} (hfeed : feed ∉ line) (last : α)
    (hlast : last ≠ ret) (hend : line.getLast? = some last) :
    (as ++ line ++ [feed]).foldl (LineCut.step feed ret) .empty =
      ⟨(openLine feed as ++ line) :: (closedLines feed ret as).reverse, []⟩ := by
  obtain ⟨init, rfl⟩ := List.getLast?_eq_some_iff.mp hend
  rw [List.foldl_append, List.foldl_append, foldl_step_eq, LineCut.foldl_step_of_notMem hfeed,
    List.foldl_cons, List.foldl_nil, LineCut.step, if_pos rfl]
  simp [LineCut.withoutReturn, hlast]

theorem linesOf_append_line (as : List α) {line : List α} (hfeed : feed ∉ line) (last : α)
    (hlast : last ≠ ret) (hend : line.getLast? = some last) :
    linesOf feed ret (as ++ line ++ [feed]) =
      closedLines feed ret as ++ [openLine feed as ++ line] := by
  rw [linesOf, foldl_step_append_line as hfeed last hlast hend, LineCut.finish]
  simp

/-- Behind a line that is closed, a text is cut as if it stood alone. -/
theorem linesOf_append {as : List α} (h : openLine feed as = []) (bs : List α) :
    linesOf feed ret (as ++ bs) = linesOf feed ret as ++ linesOf feed ret bs := by
  have hframe :
      bs.foldl (LineCut.step feed ret) ⟨[] ++ (closedLines feed ret as).reverse, []⟩ = _ :=
    LineCut.foldl_step_append bs [] _ []
  rw [linesOf_eq as, h, if_pos rfl, List.append_nil, linesOf, List.foldl_append, foldl_step_eq, h,
    List.reverse_nil, ← List.nil_append (closedLines feed ret as).reverse, hframe, linesOf,
    LineCut.empty]
  cases hline : (bs.foldl (LineCut.step feed ret) ⟨[], []⟩).line <;>
    simp [LineCut.finish, hline]

theorem openLine_eq_nil_iff {as : List α} :
    openLine feed as = [] ↔ as = [] ∨ as.getLast? = some feed := by
  cases as using List.reverseRecOn with
  | nil => simp [openLine]
  | append_singleton init a => by_cases h : a = feed <;> simp [openLine, h]

theorem openLine_append_feed (as : List α) : openLine feed (as ++ [feed]) = [] := by
  simp [openLine]

/-- Every feed closes a line. -/
theorem length_lines_foldl_step (as : List α) (cut : LineCut α) :
    (as.foldl (LineCut.step feed ret) cut).lines.length = cut.lines.length + as.count feed := by
  induction as generalizing cut with
  | nil => rfl
  | cons a as ih =>
    rw [List.foldl_cons, ih, LineCut.step]
    by_cases ha : a = feed
    · subst ha
      rw [if_pos rfl, List.count_cons_self, List.length_cons]
      omega
    · rw [if_neg ha, List.count_cons_of_ne ha]

theorem length_linesOf (as : List α) :
    (linesOf feed ret as).length = as.count feed + if openLine feed as = [] then 0 else 1 := by
  rw [linesOf_eq, List.length_append, closedLines, List.length_reverse, length_lines_foldl_step]
  split <;> simp [LineCut.empty]

end TripleIndex.Text
