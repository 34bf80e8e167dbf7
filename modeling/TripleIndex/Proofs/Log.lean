import TripleIndex.Log
import TripleIndex.Proofs.Lines
import TripleIndex.Proofs.Record
import TripleIndex.Proofs.Utf8

/-!
# Logs that grow

What an entry adds to a log is one line.  It is read as a record of its own exactly if the log ends
between two lines, that is, if its open line holds nothing but blanks of JSON (`read_append`).

If the open line holds a record, the new one goes on with this line and makes it malformed; the same
happens behind a blank that JSON does not know, which reading the log has passed over.
-/

namespace TripleIndex.Log

open Text

/-! ## The line of an entry -/

theorem decode_append_octets {octets : List UInt8} {cs : List Char}
    (h : Utf8.decode octets = .ok cs) (e : Entry) :
    Utf8.decode (octets ++ Log.octets e) = .ok (cs ++ line e) :=
  Utf8.decode_append h (Utf8.decode_encode (line e))

theorem record_eq (e : Entry) : ∃ rest, e.record = '\x7b' :: rest := ⟨_, rfl⟩

theorem allBlank_append_record (cs : List Char) (e : Entry) :
    allBlank (cs ++ e.record) = false := by
  obtain ⟨rest, h⟩ := record_eq e
  rw [allBlank_append, h]
  exact Bool.and_false _

/-- A line that a record stands in is no blank one. -/
theorem filter_append_record (cs : List Char) (e : Entry) :
    [cs ++ e.record].filter (fun l ↦ !allBlank l) = [cs ++ e.record] := by
  rw [List.filter_cons, allBlank_append_record]
  rfl

theorem recordLines_append_line (cs : List Char) (e : Entry) :
    recordLines (cs ++ line e) =
      (closedLines '\n' '\r' cs).filter (fun l ↦ !allBlank l) ++
        [openLine '\n' cs ++ e.record] := by
  have hlines : linesOf '\n' '\r' (cs ++ e.record ++ ['\n']) =
      closedLines '\n' '\r' cs ++ [openLine '\n' cs ++ e.record] :=
    linesOf_append_line cs (Entry.feed_notMem_record e) '\x7d' (by decide)
      (Json.getLast?_object _)
  rw [recordLines, line, ← List.append_assoc, lines, hlines, List.filter_append,
    filter_append_record]

theorem recordLines_eq (cs : List Char) :
    recordLines cs = (closedLines '\n' '\r' cs).filter (fun l ↦ !allBlank l) ++
      if allBlank (openLine '\n' cs) then [] else [openLine '\n' cs] := by
  rw [recordLines, lines, linesOf_eq, List.filter_append]
  by_cases h : openLine '\n' cs = []
  · simp [h]
  · cases hb : allBlank (openLine '\n' cs) <;> simp [h, hb]

/-! ## Logs that end between two lines -/

/-- Behind the last line feed of the text there are only blanks of JSON. -/
def endsBetweenLines (octets : List UInt8) : Bool :=
  match Utf8.decode octets with
  | .ok cs => (openLine '\n' cs).all Json.Mode.isSpace
  | .error _ => false

theorem endsBetweenLines_eq {octets : List UInt8} {cs : List Char}
    (h : Utf8.decode octets = .ok cs) :
    endsBetweenLines octets = (openLine '\n' cs).all Json.Mode.isSpace := by
  rw [endsBetweenLines, h]

theorem endsBetweenLines_append {octets : List UInt8} {cs : List Char}
    (h : Utf8.decode octets = .ok cs) (e : Entry) :
    endsBetweenLines (octets ++ Log.octets e) = true := by
  rw [endsBetweenLines_eq (decode_append_octets h e), line, ← List.append_assoc,
    openLine_append_feed]
  rfl

theorem isBlank_of_isSpace {c : Char} (h : Json.Mode.isSpace c = true) : isBlank c = true := by
  simp only [Json.Mode.isSpace, Bool.or_eq_true, decide_eq_true_eq] at h
  rcases h with ((rfl | rfl) | rfl) | rfl <;> decide

theorem allBlank_of_all_isSpace {cs : List Char} (h : cs.all Json.Mode.isSpace = true) :
    allBlank cs = true :=
  List.all_eq_true.mpr fun c hc ↦ isBlank_of_isSpace (List.all_eq_true.mp h c hc)

/-! ## Reading -/

theorem mapM_append_eq_ok_iff {ε α β : Type} {f : α → Except ε β} {ls ms : List α} {bs : List β} :
    (ls ++ ms).mapM f = .ok bs ↔
      ∃ cs ds, ls.mapM f = .ok cs ∧ ms.mapM f = .ok ds ∧ bs = cs ++ ds := by
  rw [List.mapM_append]
  constructor
  · intro h
    cases hls : ls.mapM f with
    | error e => rw [hls] at h; cases h
    | ok cs =>
      cases hms : ms.mapM f with
      | error e => rw [hls, hms] at h; cases h
      | ok ds => rw [hls, hms] at h; cases h; exact ⟨cs, ds, rfl, rfl, rfl⟩
  · rintro ⟨cs, ds, hcs, hds, rfl⟩
    rw [hcs, hds]
    rfl

theorem read_eq_ok_iff {α : Type} {reader : Json.Reader α} {octets : List UInt8} {as : List α} :
    read reader octets = .ok as ↔
      ∃ cs, Utf8.decode octets = .ok cs ∧ (recordLines cs).mapM (readLine reader) = .ok as := by
  rw [read]
  cases Utf8.decode octets <;> simp

theorem readLine_of_ok {l : List Char} {e : Entry} (h : Json.decode Entry.reader l = .ok e) :
    readLine Entry.reader l = .ok e := by
  rw [readLine, h]

theorem readLine_of_ne_ok {l : List Char} (h : ∀ e, Json.decode Entry.reader l ≠ .ok e) :
    readLine Entry.reader l = .error .serialization := by
  rw [readLine]
  cases hl : Json.decode Entry.reader l with
  | ok e => exact (h e hl).elim
  | error f => rfl

theorem decode_of_mapM {l : List Char} {es : List Entry}
    (h : [l].mapM (readLine Entry.reader) = .ok es) :
    ∃ e, Json.decode Entry.reader l = .ok e := by
  cases hl : Json.decode Entry.reader l with
  | ok e => exact ⟨e, rfl⟩
  | error f =>
    rw [List.mapM_cons, readLine, hl] at h
    cases h

/-- A record behind a line that the log has been read with: only blanks of JSON let it stand for
itself. -/
theorem readLine_append_record {l : List Char} {e : Entry} (he : e.identifier.score = none)
    (hl : allBlank l = true ∨ ∃ f, Json.decode Entry.reader l = .ok f) :
    readLine Entry.reader (l ++ e.record) =
      if l.all Json.Mode.isSpace then .ok e else .error .serialization := by
  have hclosed : ∀ t f, Entry.reader t = .ok f → t.isClosed = true :=
    fun t f ↦ Json.Reader.isClosed_of_record
  cases hspace : l.all Json.Mode.isSpace with
  | true =>
    exact readLine_of_ok
      ((Json.decode_append_of_closes hspace (Entry.closes_record he)).trans (Entry.reader_tree he))
  | false =>
    refine readLine_of_ne_ok fun f hf ↦ ?_
    rcases hl with hblank | ⟨g, hg⟩
    · have hspoiled := Json.Reading.spoiled_run_of_allBlank hblank hspace (.reading [] .value)
      exact Json.decode_append_ne_ok hclosed hspoiled e.record f hf
    · obtain ⟨rest, hrest⟩ := record_eq e
      rw [hrest] at hf
      exact Json.decode_append_brace_ne_ok hclosed hg rest f hf

theorem mapM_append_singleton {ls : List (List Char)} {es : List Entry}
    (h : ls.mapM (readLine Entry.reader) = .ok es) (l : List Char) :
    (ls ++ [l]).mapM (readLine Entry.reader) =
      (readLine Entry.reader l).map fun e ↦ es ++ [e] := by
  rw [List.mapM_append, h, List.mapM_cons, List.mapM_nil]
  cases readLine Entry.reader l <;> rfl

/-- A log takes up the record of an entry if it ends between two lines.  Any other log becomes
unreadable. -/
theorem read_append {octets : List UInt8} {es : List Entry} {e : Entry}
    (h : read Entry.reader octets = .ok es) (he : e.identifier.score = none) :
    read Entry.reader (octets ++ Log.octets e) =
      if endsBetweenLines octets then .ok (es ++ [e]) else .error .serialization := by
  obtain ⟨cs, hcs, hes⟩ := read_eq_ok_iff.mp h
  rw [recordLines_eq] at hes
  obtain ⟨fs, gs, hfs, hgs, rfl⟩ := mapM_append_eq_ok_iff.mp hes
  have hopen : allBlank (openLine '\n' cs) = true ∨
      ∃ f, Json.decode Entry.reader (openLine '\n' cs) = .ok f := by
    cases hb : allBlank (openLine '\n' cs) with
    | true => exact .inl rfl
    | false =>
      rw [hb] at hgs
      exact .inr (decode_of_mapM hgs)
  -- The closed lines are read as before, and the line that was open is the one that counts.
  rw [read, decode_append_octets hcs e]
  dsimp only
  rw [recordLines_append_line cs e, mapM_append_singleton hfs, readLine_append_record he hopen,
    endsBetweenLines_eq hcs]
  cases hspace : (openLine '\n' cs).all Json.Mode.isSpace with
  | true =>
    rw [allBlank_of_all_isSpace hspace] at hgs
    obtain rfl : [] = gs := Except.ok.inj hgs
    simp [Except.map]
  | false => rfl

end TripleIndex.Log
