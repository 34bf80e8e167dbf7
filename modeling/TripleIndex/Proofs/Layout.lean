import TripleIndex.Proofs.Log

/-!
# Logs as they may be laid out

A log need not look as the writer leaves it.  The lines may end with a carriage return and a feed,
and blank lines may stand anywhere (`Log.LaidOut`).  However its records are laid out, the log is
read as the entries that have been written, field by field.

That a record is the text of one line, which is not blank, is all that reading a line needs to know
about JSON.
-/

namespace TripleIndex.Log

open Text

/-- What ends a line. -/
inductive LineEnd where
  | feed
  | returnFeed
deriving DecidableEq, Repr

namespace LineEnd

def text : LineEnd → List Char
  | .feed => ['\n']
  | .returnFeed => ['\r', '\n']

end LineEnd

/-- A text that lists the records of some entries, in order, each on a line of its own.  In between
there may be lines that hold nothing but blanks, and so may the end that no feed closes. -/
inductive LaidOut : List Entry → List Char → Prop where
  | rest {blanks : List Char} (hblank : allBlank blanks = true) (hfeed : '\n' ∉ blanks) :
      LaidOut [] blanks
  | blankLine {es : List Entry} {cs blanks : List Char} (hblank : allBlank blanks = true)
      (hfeed : '\n' ∉ blanks) (last : LineEnd) (h : LaidOut es cs) :
      LaidOut es (blanks ++ last.text ++ cs)
  | record {es : List Entry} {cs : List Char} (e : Entry) (last : LineEnd) (h : LaidOut es cs) :
      LaidOut (e :: es) (e.record ++ last.text ++ cs)

/-- The writer lays entries out without any blank line. -/
theorem laidOut_flatMap_line (es : List Entry) : LaidOut es (es.flatMap line) := by
  induction es with
  | nil => exact .rest rfl List.not_mem_nil
  | cons e es ih => exact .record e .feed ih

/-! ## One line -/

theorem recordLines_of_notMem {blanks : List Char} (hblank : allBlank blanks = true)
    (hfeed : '\n' ∉ blanks) : recordLines blanks = [] := by
  rw [recordLines, lines, linesOf_of_notMem hfeed]
  split
  · rfl
  · simp [hblank]

/-- The first line of a text, without what ends it. -/
theorem lines_line_append {l : List Char} (hfeed : '\n' ∉ l) (last : LineEnd) (cs : List Char) :
    ∃ first, lines (l ++ last.text ++ cs) = first :: lines cs ∧
      (first = l ∨ first ++ ['\r'] = l ∧ last = .feed) := by
  cases last with
  | feed =>
    have hcut : linesOf '\n' '\r' (l ++ '\n' :: cs) = _ := linesOf_line_append hfeed cs
    refine ⟨_, by rw [LineEnd.text, List.append_assoc]; exact hcut, ?_⟩
    cases l using List.reverseRecOn with
    | nil => exact .inl rfl
    | append_singleton init a =>
      by_cases ha : a = '\r'
      · subst ha
        rw [LineCut.withoutReturn_append_return]
        exact .inr ⟨rfl, rfl⟩
      · exact .inl (LineCut.withoutReturn_of_getLast? (by simp) ha)
  | returnFeed =>
    have hreturn : '\n' ∉ l ++ ['\r'] := by simp [hfeed]
    have hcut : linesOf '\n' '\r' (l ++ ['\r'] ++ '\n' :: cs) = _ := linesOf_line_append hreturn cs
    rw [LineCut.withoutReturn_append_return] at hcut
    have htext : l ++ LineEnd.returnFeed.text ++ cs = l ++ ['\r'] ++ '\n' :: cs := by
      simp [LineEnd.text]
    rw [htext]
    exact ⟨l, hcut, .inl rfl⟩

theorem recordLines_blankLine {blanks : List Char} (hblank : allBlank blanks = true)
    (hfeed : '\n' ∉ blanks) (last : LineEnd) (cs : List Char) :
    recordLines (blanks ++ last.text ++ cs) = recordLines cs := by
  obtain ⟨first, hlines, hfirst⟩ := lines_line_append hfeed last cs
  have hblank' : allBlank first = true := by
    rcases hfirst with rfl | ⟨rfl, -⟩
    · exact hblank
    · rw [allBlank_append, Bool.and_eq_true] at hblank
      exact hblank.1
  rw [recordLines, hlines, List.filter_cons_of_neg (by simp [hblank'])]
  rfl

/-- A line that is not blank is a record line.  What ends with a carriage return would lose it. -/
theorem recordLines_line {l : List Char} (hblank : allBlank l = false) (hfeed : '\n' ∉ l)
    (hreturn : l.getLast? ≠ some '\r') (last : LineEnd) (cs : List Char) :
    recordLines (l ++ last.text ++ cs) = l :: recordLines cs := by
  obtain ⟨first, hlines, hfirst⟩ := lines_line_append hfeed last cs
  obtain rfl : first = l := by
    rcases hfirst with h | ⟨h, -⟩
    · exact h
    · rw [← h] at hreturn
      exact (hreturn List.getLast?_concat).elim
  rw [recordLines, hlines, List.filter_cons_of_pos (by simpa using hblank)]
  rfl

theorem recordLines_record (e : Entry) (last : LineEnd) (cs : List Char) :
    recordLines (e.record ++ last.text ++ cs) = e.record :: recordLines cs := by
  have hblank : allBlank e.record = false := allBlank_append_record [] e
  have hlast : e.record.getLast? = some '\x7d' := Json.getLast?_object _
  refine recordLines_line hblank (Entry.feed_notMem_record e) ?_ last cs
  rw [hlast]
  decide

/-- However records are laid out, they are the lines that are not blank. -/
theorem recordLines_of_laidOut {es : List Entry} {cs : List Char} (h : LaidOut es cs) :
    recordLines cs = es.map Entry.record := by
  induction h with
  | rest hblank hfeed => exact recordLines_of_notMem hblank hfeed
  | blankLine hblank hfeed last _ ih => exact (recordLines_blankLine hblank hfeed last _).trans ih
  | record e last _ ih => rw [recordLines_record, ih, List.map_cons]

theorem readLine_record {e : Entry} (he : e.identifier.score = none) :
    readLine Entry.reader e.record = .ok e := by
  have h := readLine_append_record (l := []) he (.inl rfl)
  rwa [List.nil_append, List.all_nil, if_pos rfl] at h

/-! ## The whole log -/

/-- However records are laid out, they are read as the entries that they are records of. -/
theorem read_of_laidOut {es : List Entry} {cs : List Char} (h : LaidOut es cs)
    (hes : ∀ e ∈ es, e.identifier.score = none) :
    read Entry.reader (Utf8.encode cs) = .ok es := by
  refine read_eq_ok_iff.mpr ⟨cs, Utf8.decode_encode cs, ?_⟩
  induction h with
  | rest hblank hfeed =>
    rw [recordLines_of_notMem hblank hfeed]
    rfl
  | blankLine hblank hfeed last _ ih =>
    rw [recordLines_blankLine hblank hfeed]
    exact ih hes
  | record e last _ ih =>
    obtain ⟨he, hes⟩ := List.forall_mem_cons.mp hes
    rw [recordLines_record, List.mapM_cons, readLine_record he, ih hes]
    rfl

/-- Entries whose fields hold what JSON has to escape, and what counts as no parent. -/
def awkward : List Entry := [
  ⟨"\"\\\n\r\x01\u2028",
    { kind := "M\n", name := "λ\t", parent := some "", tokens := some 18446744073709551615 },
    [⟨"\"", "", "\r\n"⟩, ⟨"\u0085", "\x7f", "\\"⟩]⟩,
  ⟨"", { kind := "", name := "", parent := some "undefined" }, []⟩,
  ⟨"M.x", { kind := "M", name := "x" }, [⟨"a", "b", "c"⟩]⟩]

/-- Their records between blank lines of several kinds, the last of which is not closed. -/
def awkwardText : List Char :=
  ['\u00A0', '\r'] ++ ['\r', '\n'] ++ (awkward[0].record ++ ['\r', '\n'] ++
    (awkward[1].record ++ ['\n'] ++ ([] ++ ['\n'] ++ ([] ++ ['\r', '\n'] ++
      (awkward[2].record ++ ['\n'] ++ ['\u3000', '\t', '\r'])))))

theorem laidOut_awkward : LaidOut awkward awkwardText :=
  .blankLine (by decide) (by decide) .returnFeed (.record _ .returnFeed (.record _ .feed
    (.blankLine rfl (by decide) .feed (.blankLine rfl (by decide) .returnFeed
      (.record _ .feed (.rest (by decide) (by decide)))))))

theorem read_awkwardText :
    LaidOut awkward awkwardText ∧ (∀ e ∈ awkward, e.identifier.score = none) ∧
      read Entry.reader (Utf8.encode awkwardText) = .ok awkward := by
  have hes : ∀ e ∈ awkward, e.identifier.score = none := by
    simp [awkward]
  exact ⟨laidOut_awkward, hes, read_of_laidOut laidOut_awkward hes⟩

end TripleIndex.Log
