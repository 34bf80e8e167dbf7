import TripleIndex.Proofs.Loading

/-!
# Logs put together

A log that is empty or ends with a line feed can be followed by any octets: both parts are read as
if they stood alone, and the whole is refused exactly if one of them is (`Log.read_append_iff`).

The octets have to be text, and this is decided by scanning all of them, before lines are cut.  A
scan is never under way in a character behind an ASCII octet, whatever stands in front of it, since
only octets above ASCII go on with one.  So it begins anew behind a line feed
(`Text.Utf8.pieces_append`), and so do the lines with their carriage returns and blanks.
-/

namespace TripleIndex

namespace Text.Utf8.Scan

/-! ## Scanning behind ASCII octets -/

/-- The octet that goes on with a sequence is not ASCII. -/
def GoesOnHigh (s : Scan) : Prop := ∀ p ∈ s.pending, 0x80 ≤ p.low

theorem low_of_lead {b : UInt8} {p : Pending} (h : lead b = some p) : 0x80 ≤ p.low := by
  unfold lead at h
  split_ifs at h
  all_goals
    cases h
    dsimp only
    decide

theorem goesOnHigh_of_none (ps : List Piece) : GoesOnHigh ⟨ps, none⟩ :=
  fun _ hp ↦ (Option.not_mem_none _ hp).elim

theorem goesOnHigh_start (ps : List Piece) (b : UInt8) : (start ps b).GoesOnHigh := by
  rw [start]
  split
  · exact goesOnHigh_of_none _
  · cases hlead : lead b with
    | none => exact goesOnHigh_of_none _
    | some p =>
      rintro _ ⟨⟩
      exact low_of_lead hlead

theorem goesOnHigh_step (s : Scan) (b : UInt8) : (s.step b).GoesOnHigh := by
  rw [step]
  split
  · exact goesOnHigh_start _ b
  · rename_i p _
    split
    · dsimp only
      split
      · exact goesOnHigh_of_none _
      · rintro _ ⟨⟩
        exact UInt8.le_refl _
    · exact goesOnHigh_start _ b

theorem goesOnHigh_scan (bs : List UInt8) : (bs.foldl step empty).GoesOnHigh := by
  cases bs using List.reverseRecOn with
  | nil => exact goesOnHigh_of_none _
  | append_singleton bs b =>
    rw [List.foldl_append]
    exact goesOnHigh_step _ b

theorem pending_start_of_ascii (ps : List Piece) {b : UInt8} (hb : b < 0x80) :
    (start ps b).pending = none := by
  rw [start, if_pos hb]

/-- An ASCII octet breaks the sequence under way, and is a character itself. -/
theorem GoesOnHigh.pending_step {s : Scan} (h : s.GoesOnHigh) {b : UInt8} (hb : b < 0x80) :
    (s.step b).pending = none := by
  rw [step]
  split
  · exact pending_start_of_ascii _ hb
  · rename_i p hp
    have hlow : ¬ p.low ≤ b := UInt8.not_le.mpr (UInt8.lt_of_lt_of_le hb (h p hp))
    rw [if_neg fun hin ↦ hlow hin.1]
    exact pending_start_of_ascii _ hb

end Text.Utf8.Scan

namespace Log

open Text

/-! ## Reading behind closed logs -/

variable {α : Type} {octets : List UInt8}

/-- No character is under way where a closed log ends, be it text or not. -/
theorem IsClosed.pending_scan (h : IsClosed octets) :
    (octets.foldl Utf8.Scan.step .empty).pending = none := by
  rcases h with rfl | h
  · rfl
  · obtain ⟨init, rfl⟩ := List.getLast?_eq_some_iff.mp h
    rw [List.foldl_append]
    exact (Utf8.Scan.goesOnHigh_scan init).pending_step (by decide)

theorem IsClosed.openLine_of_decode (h : IsClosed octets) {cs : List Char}
    (hcs : Utf8.decode octets = .ok cs) : openLine '\n' cs = [] := by
  rw [Utf8.decode_eq_ok_iff_eq_encode.mp hcs] at h
  exact openLine_of_isClosed h

/-- What is read of a log with a closed beginning is read of its two parts. -/
theorem IsClosed.exists_of_read_append (h : IsClosed octets) {more : List UInt8}
    {reader : Json.Reader α} {cs : List α} (hread : read reader (octets ++ more) = .ok cs) :
    ∃ as bs, read reader octets = .ok as ∧ read reader more = .ok bs ∧ cs = as ++ bs := by
  obtain ⟨text, htext, hrecords⟩ := read_eq_ok_iff.mp hread
  obtain ⟨ls, ms, hls, hms, rfl⟩ := (Utf8.decode_append_eq_ok_iff h.pending_scan).mp htext
  rw [recordLines_append (h.openLine_of_decode hls)] at hrecords
  obtain ⟨as, bs, has, hbs, rfl⟩ := mapM_append_eq_ok_iff.mp hrecords
  exact ⟨as, bs, read_eq_ok_iff.mpr ⟨ls, hls, has⟩, read_eq_ok_iff.mpr ⟨ms, hms, hbs⟩, rfl⟩

/-- A log is empty or ends with a line feed, and other octets follow.  All of it is read exactly if
both parts are, as the records of the first part and then those of the second.  The same holds of
being text, of the lines without what ends them, and of the lines that are not blank. -/
theorem read_append_iff (hclosed : IsClosed octets) (more : List UInt8) (reader : Json.Reader α) :
    ((∃ cs, read reader (octets ++ more) = .ok cs) ↔
      (∃ as, read reader octets = .ok as) ∧ ∃ bs, read reader more = .ok bs) ∧
    (∀ as bs, read reader octets = .ok as → read reader more = .ok bs →
      read reader (octets ++ more) = .ok (as ++ bs)) ∧
    (∀ text, Utf8.decode (octets ++ more) = .ok text ↔
      ∃ cs ds, Utf8.decode octets = .ok cs ∧ Utf8.decode more = .ok ds ∧ text = cs ++ ds) ∧
    ∀ cs ds, Utf8.decode octets = .ok cs →
      lines (cs ++ ds) = lines cs ++ lines ds ∧
        recordLines (cs ++ ds) = recordLines cs ++ recordLines ds := by
  refine ⟨⟨?_, ?_⟩, ?_, ?_, ?_⟩
  · rintro ⟨cs, hread⟩
    obtain ⟨as, bs, has, hbs, -⟩ := hclosed.exists_of_read_append hread
    exact ⟨⟨as, has⟩, bs, hbs⟩
  · rintro ⟨⟨as, has⟩, bs, hbs⟩
    exact ⟨as ++ bs, read_append_of_isClosed hclosed has hbs⟩
  · exact fun as bs has hbs ↦ read_append_of_isClosed hclosed has hbs
  · exact fun text ↦ Utf8.decode_append_eq_ok_iff hclosed.pending_scan
  · intro cs ds hcs
    have hopen := hclosed.openLine_of_decode hcs
    exact ⟨linesOf_append hopen ds, recordLines_append hopen ds⟩

/-- Fields with characters of more than one octet, and with what ends a line. -/
def accented : Entry :=
  ⟨"M.é", { kind := "M", name := "é", tokens := some 3 }, [⟨"ex:é", "type", "\r\n"⟩]⟩

def unnamed : Entry := ⟨"", { kind := "", name := "" }, []⟩

/-- A line of blanks and a record, with more than one carriage return. -/
def firstPart : List Char :=
  ['\u00A0', '\r'] ++ ['\r', '\n'] ++ (accented.record ++ ['\r', '\n'] ++ [])

/-- A record between a line that only has a carriage return and blanks that no feed closes. -/
def secondPart : List Char :=
  [] ++ ['\r', '\n'] ++ (unnamed.record ++ ['\n'] ++ ['\u3000', '\t', '\r'])

theorem laidOut_firstPart : LaidOut [accented] firstPart :=
  .blankLine (by decide) (by decide) .returnFeed
    (.record _ .returnFeed (.rest rfl List.not_mem_nil))

theorem laidOut_secondPart : LaidOut [unnamed] secondPart :=
  .blankLine rfl List.not_mem_nil .returnFeed
    (.record _ .feed (.rest (by decide) (by decide)))

/-- The parts are read one behind the other, whereas an octet in front of the second one that goes
on with no character spoils the whole. -/
theorem read_append_iff_parts :
    IsClosed (Utf8.encode firstPart) ∧
      read Entry.reader (Utf8.encode firstPart ++ Utf8.encode secondPart) =
        .ok [accented, unnamed] ∧
      ¬ ∃ es, read Entry.reader
        (Utf8.encode firstPart ++ (0xA9 :: Utf8.encode secondPart)) = .ok es := by
  have hclosed : IsClosed (Utf8.encode firstPart) := .inr (by decide +kernel)
  have hfirst := read_of_laidOut laidOut_firstPart (by simp [accented])
  have hsecond := read_of_laidOut laidOut_secondPart (by simp [unnamed])
  have hspoilt : read Entry.reader (0xA9 :: Utf8.encode secondPart) =
      .error (.storage (.notText ⟨0, some 1⟩)) := by
    have hfault : Utf8.decode (0xA9 :: Utf8.encode secondPart) = .error ⟨0, some 1⟩ := by
      decide +kernel
    rw [read, hfault]
  refine ⟨hclosed, (read_append_iff hclosed _ _).2.1 _ _ hfirst hsecond, ?_⟩
  rw [(read_append_iff hclosed _ _).1, hspoilt]
  rintro ⟨-, es, hes⟩
  cases hes

end Log

end TripleIndex
