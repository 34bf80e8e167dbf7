import TripleIndex.Proofs.Dictionary
import TripleIndex.TripleStore
import Mathlib.Data.List.Forall2

/-!
# What triple stores hold

A store holds a list of triples when its rows are the rows of these triples, its dictionary knows
their terms and no others, and its posting lists say where each number stands.  Inserting keeps this
up, one triple at a time (`TripleStore.Holds.insert`).

A query answers from the shortest posting list of its bound positions.  Whichever list that is, the
answer is what looking at every triple gives (`TripleStore.Holds.query_eq`), provided that the
numbers suffice for the terms.
-/

namespace TripleIndex

namespace TermPattern

/-- A position that is bound has the term asked for. -/
def Matches (p : TermPattern) (t : Triple) : Prop :=
  (∀ s ∈ p.subject, t.subject = s) ∧ (∀ s ∈ p.predicate, t.predicate = s) ∧
    (∀ s ∈ p.object, t.object = s)

instance (p : TermPattern) (t : Triple) : Decidable (p.Matches t) :=
  inferInstanceAs (Decidable (_ ∧ _ ∧ _))

end TermPattern

/-! ## Posting lists -/

/-- The places in a list of rows where a column has a number, in order. -/
def placesOf (column : Row → UInt32) (rows : List Row) (id : UInt32) : List Nat :=
  (rows.zipIdx.filter fun r ↦ column r.1 = id).map (·.2)

theorem placesOf_append_singleton (column : Row → UInt32) (rows : List Row) (r : Row)
    (id : UInt32) : placesOf column (rows ++ [r]) id =
      placesOf column rows id ++ if column r = id then [rows.length] else [] := by
  simp only [placesOf, List.zipIdx_append, List.filter_append, List.map_append, Nat.zero_add,
    List.zipIdx_singleton]
  split <;> simp_all

/-- Looking up the places of a number yields the rows that have it. -/
theorem filterMap_placesOf (column : Row → UInt32) (rows : List Row) (id : UInt32) :
    (placesOf column rows id).filterMap (rows[·]?) = rows.filter (column · = id) := by
  have hsome : ∀ r ∈ rows.zipIdx.filter (fun r ↦ column r.1 = id), rows[r.2]? = some r.1 :=
    fun r hr ↦ List.mem_zipIdx_iff_getElem?.mp (List.mem_of_mem_filter hr)
  calc (placesOf column rows id).filterMap (rows[·]?)
      = (rows.zipIdx.filter fun r ↦ column r.1 = id).filterMap fun r ↦ some r.1 := by
        rw [placesOf, List.filterMap_map]
        exact List.filterMap_congr hsome
    _ = (rows.zipIdx.map Prod.fst).filter (column · = id) := by
        rw [List.filterMap_eq_map', List.filter_map]
        rfl
    _ = rows.filter (column · = id) := by rw [List.zipIdx_map_fst]

namespace Postings

/-- The posting lists give the places of every number in a column. -/
def Lists (p : Postings) (column : Row → UInt32) (rows : Array Row) : Prop :=
  ∀ id, (p.find id).toList = placesOf column rows.toList id

theorem lists_empty (column : Row → UInt32) : Lists ∅ column #[] := by
  intro id
  simp [find, placesOf]

theorem find_push (p : Postings) (id k : UInt32) (position : Nat) :
    (p.push id position).find k = if id = k then (p.find k).push position else p.find k := by
  simp only [push, find, Std.TreeMap.getD_insert, Std.LawfulEqCmp.compare_eq_iff_eq]
  split <;> simp_all

theorem Lists.push {p : Postings} {column : Row → UInt32} {rows : Array Row}
    (h : p.Lists column rows) (r : Row) :
    (p.push (column r) rows.size).Lists column (rows.push r) := by
  intro id
  rw [find_push, Array.toList_push, placesOf_append_singleton, ← h id]
  split <;> simp

end Postings

namespace RowPattern

theorem holds_iff {p : RowPattern} {r : Row} : p.holds r = true ↔
    admits p.subject r.subject ∧ admits p.predicate r.predicate ∧ admits p.object r.object := by
  simp [holds, and_assoc]

theorem eq_of_admits {id k : UInt32} (h : admits (some k) id = true) : id = k := by
  simpa [admits] using h

end RowPattern

theorem shortestOf_mem {α : Type} {ls : List (Array α)} {l : Array α} (h : shortestOf ls = some l) :
    l ∈ ls := by
  induction ls generalizing l with
  | nil => cases h
  | cons m ms ih =>
    rw [shortestOf] at h
    split at h
    · cases h
      exact List.mem_cons_self
    · rename_i k hk
      split at h <;> cases h
      · exact List.mem_cons_self
      · exact List.mem_cons_of_mem _ (ih hk)

namespace TripleStore

/-- The store holds a list of triples. -/
structure Holds (s : TripleStore) (ts : List Triple) : Prop where
  valid : s.dictionary.Valid
  mem_terms : ∀ t, t ∈ s.dictionary.terms ↔ t ∈ termsOf ts
  rows : List.Forall₂ (fun t r ↦ s.dictionary.rowOf? t = some r) ts s.rows.toList
  bySubject : s.bySubject.Lists Row.subject s.rows
  byPredicate : s.byPredicate.Lists Row.predicate s.rows
  byObject : s.byObject.Lists Row.object s.rows

theorem holds_empty : empty.Holds [] where
  valid := Dictionary.valid_empty
  mem_terms t := by simp [empty, Dictionary.empty, termsOf]
  rows := .nil
  bySubject := Postings.lists_empty _
  byPredicate := Postings.lists_empty _
  byObject := Postings.lists_empty _

variable {s : TripleStore} {ts : List Triple}

theorem Holds.insert (h : s.Holds ts) (t : Triple) : (s.insert t).Holds (ts ++ [t]) where
  valid := h.valid.encodeTriple t
  mem_terms u := by
    rw [TripleStore.insert, Dictionary.mem_terms_encodeTriple h.valid, h.mem_terms, termsOf_append,
      Finset.mem_union]
    simp [termsOf]
  rows := by
    have hold := h.rows.imp fun _ _ hr ↦ (s.dictionary.extends_encodeTriple t).rowOf? hr
    rw [TripleStore.insert, Array.toList_push]
    exact List.rel_append hold (.cons (s.dictionary.rowOf?_encodeTriple t) .nil)
  bySubject := h.bySubject.push _
  byPredicate := h.byPredicate.push _
  byObject := h.byObject.push _

theorem insertMany_append (s : TripleStore) (ts us : List Triple) :
    s.insertMany (ts ++ us) = (s.insertMany ts).insertMany us := List.foldl_append

theorem Holds.insertMany (h : s.Holds ts) (us : List Triple) :
    (s.insertMany us).Holds (ts ++ us) := by
  induction us generalizing s ts with
  | nil => simpa [TripleStore.insertMany] using h
  | cons u us ih =>
    rw [← List.singleton_append, ← List.append_assoc]
    exact ih (h.insert u)

theorem Holds.size_eq (h : s.Holds ts) : s.size = ts.length := by
  rw [h.rows.length_eq]
  rfl

theorem Holds.termCount_eq (h : s.Holds ts) : s.termCount = (termsOf ts).card := by
  have hset : s.dictionary.terms.toList.toFinset = termsOf ts := by
    ext t
    rw [List.mem_toFinset, ← h.mem_terms, Array.mem_toList_iff]
  rw [termCount, h.valid.size_eq_card, hset]

theorem Holds.lookup?_isSome_iff (h : s.Holds ts) (t : Term) :
    (s.dictionary.lookup? t).isSome ↔ t ∈ termsOf ts := by
  rw [h.valid.lookup?_isSome_iff, h.mem_terms]

theorem Holds.size_dictionary_le (h : s.Holds ts)
    (hcard : (termsOf ts).card ≤ Dictionary.capacity) :
    s.dictionary.size ≤ Dictionary.capacity := by
  rw [← h.termCount_eq] at hcard
  exact hcard

/-! ## Decoding -/

theorem map_decodeRow? {d : Dictionary} (hd : d.Valid) (hsize : d.size ≤ Dictionary.capacity)
    {us : List Triple} {rs : List Row}
    (h : List.Forall₂ (fun t r ↦ d.rowOf? t = some r) us rs) :
    rs.map d.decodeRow? = us.map some := by
  induction h with
  | nil => rfl
  | cons hr _ ih => rw [List.map_cons, List.map_cons, hd.decodeRow?_of_rowOf? hsize hr, ih]

theorem filterMap_decodeRow? {d : Dictionary} (hd : d.Valid) (hsize : d.size ≤ Dictionary.capacity)
    {us : List Triple} {rs : List Row}
    (h : List.Forall₂ (fun t r ↦ d.rowOf? t = some r) us rs) :
    rs.filterMap d.decodeRow? = us := by
  have hmap := congrArg (List.filterMap id) (map_decodeRow? hd hsize h)
  simpa using hmap

/-- The rows say what was inserted, in the order of insertion and as often. -/
theorem Holds.decode_rows (h : s.Holds ts) (hcard : (termsOf ts).card ≤ Dictionary.capacity) :
    s.rows.toList.map s.dictionary.decodeRow? = ts.map some :=
  map_decodeRow? h.valid (h.size_dictionary_le hcard) h.rows

/-! ## Queries -/

/-- Rows that are looked at and kept are those that a look at every row keeps. -/
theorem Holds.filter_candidates (h : s.Holds ts) (p : RowPattern) :
    (s.candidates p).filter p.holds = s.rows.toList.filter p.holds := by
  rw [candidates]
  split
  · rename_i list hlist
    have key : ∀ (wanted : Option UInt32) (postings : Postings) (column : Row → UInt32),
        postings.Lists column s.rows → wanted.map postings.find = some list →
        (∀ r, p.holds r = true → RowPattern.admits wanted (column r) = true) →
        (list.toList.filterMap fun i ↦ s.rows[i]?).filter p.holds =
          s.rows.toList.filter p.holds := by
      intro wanted postings column hlists hw hadmits
      obtain ⟨id, rfl, rfl⟩ := Option.map_eq_some_iff.mp hw
      simp only [← Array.getElem?_toList, hlists id, filterMap_placesOf, List.filter_filter]
      refine List.filter_congr fun r _ ↦ ?_
      by_cases hr : p.holds r = true
      · simp [hr, RowPattern.eq_of_admits (hadmits r hr)]
      · simp [hr]
    have hmem := shortestOf_mem hlist
    simp only [postings, List.mem_filterMap, List.mem_cons, List.not_mem_nil, or_false, id_eq,
      exists_eq_right] at hmem
    rcases hmem with hw | hw | hw
    · exact key _ _ _ h.bySubject hw.symm fun r hr ↦ (RowPattern.holds_iff.mp hr).1
    · exact key _ _ _ h.byPredicate hw.symm fun r hr ↦ (RowPattern.holds_iff.mp hr).2.1
    · exact key _ _ _ h.byObject hw.symm fun r hr ↦ (RowPattern.holds_iff.mp hr).2.2
  · rfl

/-- A term that the dictionary does not know is at no position of a triple that it does. -/
theorem ne_of_bind?_eq_none {d : Dictionary} {wanted : Option Term} (h : bind? d wanted = none)
    {t : Term} {id : UInt32} (ht : d.lookup? t = some id) : ¬ ∀ s ∈ wanted, t = s := by
  cases wanted with
  | none => cases h
  | some s =>
    rw [bind?, Option.map_eq_none_iff] at h
    intro hs
    rw [hs s rfl, h] at ht
    cases ht

/-- Comparing numbers is comparing terms. -/
theorem admits_bind?_iff {d : Dictionary} (hd : d.Valid) (hsize : d.size ≤ Dictionary.capacity)
    {wanted : Option Term} {w : Option UInt32} (hw : bind? d wanted = some w) {t : Term}
    {id : UInt32} (ht : d.lookup? t = some id) :
    RowPattern.admits w id = true ↔ ∀ s ∈ wanted, t = s := by
  cases wanted with
  | none =>
    cases hw
    simp [RowPattern.admits]
  | some s =>
    rw [bind?, Option.map_eq_some_iff] at hw
    obtain ⟨k, hk, rfl⟩ := hw
    simp only [RowPattern.admits, decide_eq_true_eq, Option.mem_some_iff, forall_eq']
    constructor
    · rintro rfl
      exact hd.eq_of_lookup?_eq hsize ht hk
    · rintro rfl
      rw [ht] at hk
      exact Option.some.inj hk

theorem rowPattern?_eq_some_iff {p : TermPattern} {rp : RowPattern} :
    s.rowPattern? p = some rp ↔ bind? s.dictionary p.subject = some rp.subject ∧
      bind? s.dictionary p.predicate = some rp.predicate ∧
      bind? s.dictionary p.object = some rp.object := by
  cases rp
  simp only [rowPattern?, Option.bind_eq_bind, Option.bind_eq_some_iff, Option.pure_def,
    Option.some.injEq, RowPattern.mk.injEq]
  constructor
  · rintro ⟨_, hs, _, hp, _, ho, rfl, rfl, rfl⟩
    exact ⟨hs, hp, ho⟩
  · rintro ⟨hs, hp, ho⟩
    exact ⟨_, hs, _, hp, _, ho, rfl, rfl, rfl⟩

theorem holds_rowPattern?_iff (hd : s.dictionary.Valid)
    (hsize : s.dictionary.size ≤ Dictionary.capacity) {p : TermPattern} {rp : RowPattern}
    (hrp : s.rowPattern? p = some rp) {t : Triple} {r : Row}
    (ht : s.dictionary.rowOf? t = some r) : p.Matches t ↔ rp.holds r = true := by
  obtain ⟨hs, hp, ho⟩ := rowPattern?_eq_some_iff.mp hrp
  obtain ⟨hts, htp, hto⟩ := Dictionary.rowOf?_eq_some_iff.mp ht
  rw [RowPattern.holds_iff, admits_bind?_iff hd hsize hs hts, admits_bind?_iff hd hsize hp htp,
    admits_bind?_iff hd hsize ho hto, TermPattern.Matches]

/-- A pattern with an unknown term matches nothing. -/
theorem not_matches_of_rowPattern?_eq_none {p : TermPattern} (hrp : s.rowPattern? p = none)
    {t : Triple} {r : Row} (ht : s.dictionary.rowOf? t = some r) : ¬ p.Matches t := by
  obtain ⟨hts, htp, hto⟩ := Dictionary.rowOf?_eq_some_iff.mp ht
  rintro ⟨hs, hp, ho⟩
  cases hbs : bind? s.dictionary p.subject with
  | none => exact ne_of_bind?_eq_none hbs hts hs
  | some _ =>
    cases hbp : bind? s.dictionary p.predicate with
    | none => exact ne_of_bind?_eq_none hbp htp hp
    | some _ =>
      cases hbo : bind? s.dictionary p.object with
      | none => exact ne_of_bind?_eq_none hbo hto ho
      | some _ => simp [rowPattern?, hbs, hbp, hbo] at hrp

/-- A query answers with the matching triples, in the order of insertion and as often. -/
theorem Holds.query_eq (h : s.Holds ts) (hcard : (termsOf ts).card ≤ Dictionary.capacity)
    (p : TermPattern) : s.query p = ts.filter (p.Matches ·) := by
  have hsize := h.size_dictionary_le hcard
  cases hrp : s.rowPattern? p with
  | none =>
    have hnone : List.Forall₂ (fun t r ↦ s.dictionary.rowOf? t = some r)
        (ts.filter (p.Matches ·)) (s.rows.toList.filter fun _ ↦ false) :=
      List.rel_filter (fun t r ht ↦ by
        simpa using not_matches_of_rowPattern?_eq_none hrp ht) h.rows
    rw [List.filter_false, List.forall₂_nil_right_iff] at hnone
    rw [query, hrp, hnone]
  | some rp =>
    have hrows : List.Forall₂ (fun t r ↦ s.dictionary.rowOf? t = some r)
        (ts.filter (p.Matches ·)) (s.rows.toList.filter rp.holds) :=
      List.rel_filter (fun t r ht ↦ by
        simpa using holds_rowPattern?_iff h.valid hsize hrp ht) h.rows
    rw [query, hrp]
    dsimp only
    rw [h.filter_candidates, filterMap_decodeRow? h.valid hsize hrows]

end TripleStore

end TripleIndex
