import TripleIndex.Proofs.TripleStore
import Mathlib.Data.List.Induction

/-!
# Looking triples up in a store that changes

A store is changed by inserting triples and by clearing it.  What it holds then is what has been
inserted since it was last cleared (`TripleStore.holds_run`): one change keeps it so, whichever it
is.

Looking triples up by the posting lists is looking at all of them (`TripleStore.query_run`).  On the
way nothing is lost: posting lists point to rows that are there, and every row has its triple
(`TripleStore.Sound`).
-/

namespace TripleIndex

namespace Postings

/-- Posting lists point to rows that are there. -/
theorem Lists.lt_size {p : Postings} {column : Row → UInt32} {rows : Array Row}
    (h : p.Lists column rows) {id : UInt32} {k : Nat} (hk : k ∈ p.find id) : k < rows.size := by
  rw [← Array.mem_toList_iff, h id, placesOf, List.mem_map] at hk
  obtain ⟨r, hr, rfl⟩ := hk
  obtain ⟨hlt, -⟩ := List.getElem?_eq_some_iff.mp
    (List.mem_zipIdx_iff_getElem?.mp (List.mem_of_mem_filter hr))
  exact hlt

end Postings

namespace TripleStore

/-! ## Changes -/

/-- What can be done to a store. -/
inductive Change where
  | insert (t : Triple)
  | addTriple (subject predicate object : Term)
  | clear
deriving DecidableEq, Repr

namespace Change

/-- The triple that a change inserts. -/
def triple? : Change → Option Triple
  | insert t => some t
  | addTriple s p o => some ⟨s, p, o⟩
  | clear => none

/-- The triples that have been inserted since the last clear, in order and as often. -/
def inserted (changes : List Change) : List Triple :=
  (changes.reverse.takeWhile (· ≠ clear)).reverse.filterMap triple?

theorem inserted_append_clear (changes : List Change) : inserted (changes ++ [clear]) = [] := by
  simp [inserted]

theorem inserted_append_of_triple? {c : Change} {t : Triple} (h : c.triple? = some t)
    (changes : List Change) : inserted (changes ++ [c]) = inserted changes ++ [t] := by
  have hc : c ≠ clear := by
    rintro rfl
    cases h
  simp [inserted, hc, h]

end Change

def apply (s : TripleStore) : Change → TripleStore
  | .insert t => s.insert t
  | .addTriple subject predicate object => s.addTriple subject predicate object
  | .clear => s.clear

/-- The store behind some changes. -/
def run (s : TripleStore) (changes : List Change) : TripleStore := changes.foldl apply s

theorem run_append_singleton (s : TripleStore) (changes : List Change) (c : Change) :
    s.run (changes ++ [c]) = (s.run changes).apply c := by
  rw [run, List.foldl_append]
  rfl

/-- One change keeps the store in step with what has been inserted since the last clear. -/
theorem Holds.apply {s : TripleStore} {changes : List Change}
    (h : s.Holds (Change.inserted changes)) (c : Change) :
    (s.apply c).Holds (Change.inserted (changes ++ [c])) := by
  cases c with
  | insert t =>
    rw [Change.inserted_append_of_triple? rfl]
    exact h.insert t
  | addTriple subject predicate object =>
    rw [Change.inserted_append_of_triple? rfl]
    exact h.insert ⟨subject, predicate, object⟩
  | clear =>
    rw [Change.inserted_append_clear]
    exact holds_empty

theorem holds_run (changes : List Change) :
    (empty.run changes).Holds (Change.inserted changes) := by
  induction changes using List.reverseRecOn with
  | nil => exact holds_empty
  | append_singleton changes c ih =>
    rw [run_append_singleton]
    exact ih.apply c

/-! ## Looking up -/

/-- Posting lists point to rows that are there, and every row has its triple. -/
structure Sound (s : TripleStore) : Prop where
  bySubject : ∀ id, ∀ k ∈ s.bySubject.find id, k < s.rows.size
  byPredicate : ∀ id, ∀ k ∈ s.byPredicate.find id, k < s.rows.size
  byObject : ∀ id, ∀ k ∈ s.byObject.find id, k < s.rows.size
  decodes : ∀ r ∈ s.rows, ∃ t, s.dictionary.decodeRow? r = some t

theorem Holds.sound {s : TripleStore} {ts : List Triple} (h : s.Holds ts)
    (hcard : (termsOf ts).card ≤ Dictionary.capacity) : s.Sound where
  bySubject _ _ hk := h.bySubject.lt_size hk
  byPredicate _ _ hk := h.byPredicate.lt_size hk
  byObject _ _ hk := h.byObject.lt_size hk
  decodes := by
    intro r hr
    have hmem : s.dictionary.decodeRow? r ∈ s.rows.toList.map s.dictionary.decodeRow? :=
      List.mem_map_of_mem (Array.mem_toList_iff.mpr hr)
    rw [h.decode_rows hcard] at hmem
    obtain ⟨t, -, ht⟩ := List.mem_map.mp hmem
    exact ⟨t, ht.symm⟩

/-- Behind every run of changes a query finds what a look at every triple finds that has been
inserted since the last clear, and nothing is lost on the way. -/
theorem query_run {changes : List Change}
    (hcard : (termsOf (Change.inserted changes)).card ≤ Dictionary.capacity) (p : TermPattern) :
    (empty.run changes).query p = (Change.inserted changes).filter (p.Matches ·) ∧
      (empty.run changes).Sound :=
  ⟨(holds_run changes).query_eq hcard p, (holds_run changes).sound hcard⟩

/-- A store that is cleared and then filled with the same words, as IRIs and as literals, at several
positions and twice. -/
def refilled : List Change := [
  .insert ⟨.iri "a", .iri "p", .literal "b"⟩,
  .clear,
  .addTriple (.iri "b") (.iri "p") (.literal "b"),
  .insert ⟨.iri "b", .iri "b", .iri "b"⟩,
  .insert ⟨.literal "b", .iri "p", .iri "b"⟩,
  .addTriple (.iri "b") (.iri "p") (.literal "b")]

theorem query_run_refilled :
    (termsOf (Change.inserted refilled)).card ≤ Dictionary.capacity ∧
      (empty.run refilled).query { subject := some (.iri "b"), predicate := some (.iri "p") } =
        (Change.inserted refilled).filter
          (TermPattern.Matches { subject := some (.iri "b"), predicate := some (.iri "p") } ·) ∧
      (Change.inserted refilled).filter
          (TermPattern.Matches { subject := some (.iri "b"), predicate := some (.iri "p") } ·) =
        [⟨.iri "b", .iri "p", .literal "b"⟩, ⟨.iri "b", .iri "p", .literal "b"⟩] := by
  have hcard : (termsOf (Change.inserted refilled)).card ≤ Dictionary.capacity := by
    decide +kernel
  exact ⟨hcard, (query_run hcard _).1, by decide +kernel⟩

end TripleStore

end TripleIndex
