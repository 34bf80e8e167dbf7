import TripleIndex.Http.Service
import TripleIndex.Proofs.Layout

/-!
# Records of submissions

A submission is written down as its identifier and its statements.  The record is read from a file
that holds it as its only line (`Submission.read_record`), and from the body of a request
(`Http.readBody_filing`).  A body has a limit that a file has not, and a record is at least as long
as any text in it (`Submission.length_subject_le`).
-/

namespace TripleIndex

open Text

namespace Submission

def record (u : Submission) : List Char :=
  Json.object [Json.member "identifier" u.identifier.record,
    Json.member "triples" (Json.array (u.statements.map Statement.record))]

/-- What the record of a submission says. -/
def tree (u : Submission) : Json.Tree :=
  .object [(some "identifier", u.identifier.tree),
    (some "triples", .array (u.statements.map Statement.tree) true)] true

variable {u : Submission}

theorem closes_record (h : u.identifier.score = none) : Json.Closes u.record u.tree := by
  have hstatements : List.Forall₂ Json.Spells (u.statements.map Statement.record)
      (u.statements.map Statement.tree) := by
    rw [List.forall₂_map_left_iff, List.forall₂_map_right_iff, List.forall₂_same]
    exact fun s _ ↦ s.closes_record.spells
  exact Json.closes_object (.cons ((Identifier.closes_record h).spells.adds_member _)
    (.cons ((Json.closes_array hstatements).spells.adds_member _) .nil))

theorem reader_tree (h : u.identifier.score = none) : reader u.tree = .ok u := by
  have hstatements : Json.Reader.list Statement.reader
      (.array (u.statements.map Statement.tree) true) = .ok u.statements :=
    Json.Reader.list_map Statement.reader_tree u.statements
  refine Json.Reader.record_object (d := ⟨u.identifier, u.statements⟩) ?_ rfl
  rw [Json.Reader.members_cons rfl rfl (Json.Reader.read_field (Identifier.reader_tree h)),
    Json.Reader.members_cons rfl rfl (Json.Reader.read_field hstatements)]
  rfl

theorem feed_notMem_record (u : Submission) : '\n' ∉ u.record := by
  refine Json.feed_notMem_object ?_
  have harray : '\n' ∉ Json.array (u.statements.map Statement.record) :=
    Json.feed_notMem_array (by simp [Statement.feed_notMem_record])
  simp [Json.feed_notMem_member, Identifier.feed_notMem_record, harray]

theorem decode_record (h : u.identifier.score = none) :
    Json.decode reader u.record = .ok u := by
  have hclosed : Json.decode reader ([] ++ u.record) = .ok u :=
    (Json.decode_append_of_closes rfl (closes_record h)).trans (reader_tree h)
  rwa [List.nil_append] at hclosed

/-- A file that holds the record as its only line is read as the one submission. -/
theorem read_record (h : u.identifier.score = none) (last : Log.LineEnd) :
    Log.read reader (Utf8.encode (u.record ++ last.text)) = .ok [u] := by
  have hlines : Log.recordLines (u.record ++ last.text ++ []) = [u.record] := by
    have hlast : u.record.getLast? = some '\x7d' := Json.getLast?_object _
    refine Log.recordLines_line rfl u.feed_notMem_record ?_ last []
    rw [hlast]
    decide
  rw [List.append_nil] at hlines
  rw [Log.read, Utf8.decode_encode]
  simp only [hlines]
  rw [List.mapM_cons, Log.readLine, decode_record h]
  rfl

end Submission

/-! ## Lengths -/

theorem length_le_flatMap {α β : Type} {f : α → List β} (h : ∀ a, f a ≠ []) {as : List α} :
    as.length ≤ (as.flatMap f).length := by
  induction as with
  | nil => exact Nat.le_refl 0
  | cons a as ih =>
    rw [List.flatMap_cons, List.length_cons, List.length_append, Nat.add_comm]
    exact Nat.add_le_add (List.length_pos_iff.mpr (h a)) ih

namespace Json

theorem infix_intercalate {p : List Char} {parts : List (List Char)} (h : p ∈ parts) :
    p <:+: List.intercalate [','] parts := by
  induction parts with
  | nil => cases h
  | cons q qs ih =>
    cases qs with
    | nil =>
      obtain rfl := List.mem_singleton.mp h
      exact ⟨[], [], by rw [List.intercalate_singleton, List.nil_append, List.append_nil]⟩
    | cons _ _ =>
      rw [List.intercalate_cons_cons]
      rcases List.mem_cons.mp h with rfl | h
      · exact ⟨[], _, (List.append_assoc _ _ _).symm⟩
      · exact (ih h).trans (List.suffix_append _ _).isInfix

theorem infix_enclosed (opening closing : Char) {p : List Char} {parts : List (List Char)}
    (h : p ∈ parts) : p <:+: enclosed opening closing parts :=
  (infix_intercalate h).trans ⟨[opening], [closing], rfl⟩

theorem infix_member (name : String) (value : List Char) : value <:+: member name value :=
  ((List.suffix_cons _ _).trans (List.suffix_append _ _)).isInfix

theorem infix_object {name : String} {value : List Char} {members : List (List Char)}
    (h : member name value ∈ members) : value <:+: object members :=
  (infix_member name value).trans (infix_enclosed _ _ h)

theorem length_le_string (s : String) : s.toList.length ≤ (string s).length :=
  calc s.toList.length ≤ (s.toList.flatMap escape).length := by
        refine length_le_flatMap fun c ↦ ?_
        simp only [escape]
        split_ifs <;> simp
    _ ≤ (string s).length := List.IsInfix.length_le ⟨['"'], ['"'], rfl⟩

end Json

/-- A record is no shorter than the subject of any of its statements. -/
theorem Submission.length_subject_le {u : Submission} {s : Statement} (hs : s ∈ u.statements) :
    s.subject.toList.length ≤ (Utf8.encode u.record).length := by
  have hsubject : Json.string s.subject <:+: s.record := Json.infix_object (.head _)
  have hstatement : s.record <:+: Json.array (u.statements.map Statement.record) :=
    Json.infix_enclosed _ _ (List.mem_map_of_mem hs)
  have hstatements : Json.array (u.statements.map Statement.record) <:+: u.record :=
    Json.infix_object (.tail _ (.head _))
  calc s.subject.toList.length
    _ ≤ (Json.string s.subject).length := Json.length_le_string _
    _ ≤ u.record.length := ((hsubject.trans hstatement).trans hstatements).length_le
    _ ≤ (Utf8.encode u.record).length := length_le_flatMap fun _ ↦ String.utf8EncodeChar_ne_nil

/-! ## Bodies -/

namespace Http

/-- A request that posts the record of a submission. -/
def Request.filing (u : Submission) : Request where
  method := "POST"
  target := "/api/graph/items".toList
  contentType := some "application/json".toList
  body := Utf8.encode u.record

/-- What a text is read as, it is read as in a body, if that is not too large. -/
theorem readBody_of_decode {α : Type} {reader : Json.Reader α} {r : Request} {cs : List Char}
    {a : α} (hjson : r.contentType.any MediaType.isJson = true) (hbody : r.body = Utf8.encode cs)
    (hsize : r.body.length ≤ bodyLimit) (h : Json.decode reader cs = .ok a) :
    readBody reader r = .ok a := by
  obtain ⟨t, hrun, ht⟩ := Json.decode_eq_ok_iff.mp h
  have hfirst : Json.decodeFirst reader r.body = .ok a := by
    rw [Json.decodeFirst, hbody, Utf8.symbols_encode, Json.read_map_some, hrun]
    exact ht
  rw [readBody, hjson, hfirst, if_neg (Nat.not_lt.mpr hsize)]
  rfl

theorem readBody_filing {u : Submission} (h : u.identifier.score = none)
    (hsize : (Utf8.encode u.record).length ≤ bodyLimit) :
    readBody Submission.reader (.filing u) = .ok u :=
  readBody_of_decode (r := .filing u) rfl rfl hsize (Submission.decode_record h)

end Http

end TripleIndex
