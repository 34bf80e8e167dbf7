import TripleIndex.Proofs.Dictionary
import Mathlib.Data.List.Induction

/-!
# Numbers in use

A dictionary is asked to encode terms and triples, to look terms up, to decode numbers and rows, and
to forget everything.  Between two clears it numbers the terms in the order of their first encoding
and without a gap, and what it has issued keeps its meaning (`Dictionary.numbering_after`).

What has been issued is read off the replies of the run.  A reply does not say whether its number is
a new one, so repeated numbers are part of it; a triple counts as the encoding of its terms, subject
first, of which some may be equal.
-/

namespace TripleIndex

/-! ## First occurrences -/

section FirstOccurrences

variable {α β : Type} [DecidableEq α] [DecidableEq β]

theorem eraseDups_append_singleton (as : List α) (a : α) :
    (as ++ [a]).eraseDups = if a ∈ as then as.eraseDups else as.eraseDups ++ [a] := by
  rw [List.eraseDups_append]
  split <;> rename_i h <;> simp [List.removeAll, List.eraseDups_cons, h]

/-- What tells the members of a list apart keeps their order. -/
theorem eraseDups_map {f : α → β} {as : List α} (hf : ∀ a ∈ as, ∀ b ∈ as, f a = f b → a = b) :
    (as.map f).eraseDups = as.eraseDups.map f := by
  induction as using List.reverseRecOn with
  | nil => rfl
  | append_singleton as a ih =>
    have hmem : f a ∈ as.map f ↔ a ∈ as := by
      rw [List.mem_map]
      constructor
      · rintro ⟨b, hb, hab⟩
        rwa [← hf b (List.mem_append_left _ hb) a List.mem_concat_self hab]
      · exact fun ha ↦ ⟨a, ha, rfl⟩
    have hih := ih fun b hb c hc ↦ hf b (List.mem_append_left _ hb) c (List.mem_append_left _ hc)
    rw [List.map_append, List.map_singleton, eraseDups_append_singleton,
      eraseDups_append_singleton, hih]
    by_cases ha : a ∈ as
    · rw [if_pos ha, if_pos (hmem.mpr ha)]
    · rw [if_neg ha, if_neg (hmem.not.mpr ha), List.map_append, List.map_singleton]

/-- The places of the members of a list, in their order. -/
theorem map_idxOf_self {as : List α} (h : as.Nodup) :
    as.map (as.idxOf ·) = List.range as.length := by
  refine List.ext_getElem (by simp) fun k hk _ ↦ ?_
  rw [List.getElem_map, List.getElem_range, h.idxOf_getElem]

end FirstOccurrences

namespace Dictionary

/-! ## Requests and replies -/

/-- What can be asked of a dictionary. -/
inductive Request where
  | encode (t : Term)
  | encodeTriple (t : Triple)
  | lookup (t : Term)
  | decode (id : UInt32)
  | decodeRow (r : Row)
  | clear
deriving DecidableEq

namespace Request

/-- What a request is replied to with. -/
abbrev Reply : Request → Type
  | encode _ => UInt32
  | encodeTriple _ => Row
  | lookup _ => Option UInt32
  | decode _ => Option Term
  | decodeRow _ => Option Triple
  | clear => Unit

/-- The terms that a request encodes. -/
def terms : Request → List Term
  | encode t => [t]
  | encodeTriple t => t.terms
  | lookup _ | decode _ | decodeRow _ | clear => []

/-- The numbers in the reply to an encoding, each beside its term. -/
def numbers : (q : Request) → q.Reply → List (Term × UInt32)
  | encode t, id => [(t, id)]
  | encodeTriple t, r =>
    [(t.subject, r.subject), (t.predicate, r.predicate), (t.object, r.object)]
  | lookup _, _ | decode _, _ | decodeRow _, _ | clear, _ => []

/-- The row in the reply to the encoding of a triple, beside the triple. -/
def rows : (q : Request) → q.Reply → List (Triple × Row)
  | encodeTriple t, r => [(t, r)]
  | encode _, _ | lookup _, _ | decode _, _ | decodeRow _, _ | clear, _ => []

theorem map_numbers (q : Request) (r : q.Reply) : (q.numbers r).map (·.1) = q.terms := by
  cases q <;> rfl

end Request

def answer (d : Dictionary) : (q : Request) → q.Reply × Dictionary
  | .encode t => d.encode t
  | .encodeTriple t => d.encodeTriple t
  | .lookup t => (d.lookup? t, d)
  | .decode id => (d.decode? id, d)
  | .decodeRow r => (d.decodeRow? r, d)
  | .clear => ((), d.clear)

/-- The dictionary behind some requests. -/
def after (d : Dictionary) (qs : List Request) : Dictionary :=
  qs.foldl (fun d q ↦ (d.answer q).2) d

/-- A request with its reply. -/
abbrev Event : Type := (q : Request) × q.Reply

/-- The requests of a run with their replies. -/
def trace (d : Dictionary) : List Request → List Event
  | [] => []
  | q :: qs => ⟨q, (d.answer q).1⟩ :: (d.answer q).2.trace qs

theorem after_append_singleton (d : Dictionary) (qs : List Request) (q : Request) :
    d.after (qs ++ [q]) = ((d.after qs).answer q).2 := by
  rw [after, List.foldl_append]
  rfl

theorem trace_append_singleton (d : Dictionary) (qs : List Request) (q : Request) :
    d.trace (qs ++ [q]) = d.trace qs ++ [⟨q, ((d.after qs).answer q).1⟩] := by
  induction qs generalizing d with
  | nil => rfl
  | cons p qs ih => rw [List.cons_append, trace, trace, ih, List.cons_append]; rfl

/-! ## What has been issued -/

namespace Event

/-- What has happened since the last clear. -/
def sinceClear (es : List Event) : List Event := (es.reverse.takeWhile (·.1 ≠ .clear)).reverse

/-- The terms that have been encoded since the last clear, in order and as often. -/
def encoded (es : List Event) : List Term := (sinceClear es).flatMap (·.1.terms)

/-- The numbers that have been issued since the last clear, each beside its term. -/
def issued (es : List Event) : List (Term × UInt32) :=
  (sinceClear es).flatMap fun e ↦ e.1.numbers e.2

/-- The rows that have been issued since the last clear, each beside its triple. -/
def issuedRows (es : List Event) : List (Triple × Row) :=
  (sinceClear es).flatMap fun e ↦ e.1.rows e.2

theorem sinceClear_append_clear (es : List Event) (r : Request.clear.Reply) :
    sinceClear (es ++ [⟨.clear, r⟩]) = [] := by
  simp [sinceClear]

theorem sinceClear_append_singleton (es : List Event) {e : Event} (he : e.1 ≠ .clear) :
    sinceClear (es ++ [e]) = sinceClear es ++ [e] := by
  simp [sinceClear, he]

theorem map_issued (es : List Event) : (issued es).map (·.1) = encoded es := by
  simp only [issued, encoded, List.map_flatMap, Request.map_numbers]

end Event

open Event

variable {d : Dictionary} {es : List Event} {ts : List Term}

/-! ## One request -/

theorem terms_encode (h : d.Valid) (hts : d.terms.toList = ts.eraseDups) (t : Term) :
    (d.encode t).2.terms.toList = (ts ++ [t]).eraseDups := by
  have hmem : t ∈ d.terms ↔ t ∈ ts := by rw [← Array.mem_toList_iff, hts, List.mem_eraseDups]
  rw [eraseDups_append_singleton, ← hts]
  cases ht : d.lookup? t with
  | some id =>
    rw [encode_of_lookup? ht, if_pos (hmem.mp ((h.lookup?_isSome_iff t).mp (by rw [ht]; rfl)))]
  | none =>
    have hnot : t ∉ ts := by rw [← hmem, ← h.lookup?_isSome_iff, ht]; simp
    rw [encode_of_lookup?_eq_none ht, if_neg hnot, Array.toList_push]

theorem Valid.answer (h : d.Valid) (q : Request) : (d.answer q).2.Valid := by
  cases q with
  | encode t => exact h.encode t
  | encodeTriple t => exact h.encodeTriple t
  | lookup _ | decode _ | decodeRow _ => exact h
  | clear => exact valid_empty

theorem terms_answer (h : d.Valid) (hts : d.terms.toList = ts.eraseDups) {q : Request}
    (hq : q ≠ .clear) : (d.answer q).2.terms.toList = (ts ++ q.terms).eraseDups := by
  cases q with
  | encode t => exact terms_encode h hts t
  | encodeTriple t =>
    have hs := terms_encode h hts t.subject
    have hp := terms_encode (h.encode _) hs t.predicate
    have ho := terms_encode ((h.encode _).encode _) hp t.object
    rw [List.append_assoc, List.append_assoc] at ho
    exact ho
  | lookup _ | decode _ | decodeRow _ => rwa [Request.terms, List.append_nil]
  | clear => exact (hq rfl).elim

theorem extends_answer (d : Dictionary) {q : Request} (hq : q ≠ .clear) :
    Extends (d.answer q).2 d := by
  cases q with
  | encode t => exact extends_encode d t
  | encodeTriple t => exact extends_encodeTriple d t
  | lookup _ | decode _ | decodeRow _ => exact fun _ _ h ↦ h
  | clear => exact (hq rfl).elim

/-- A number that is issued can be looked up. -/
theorem lookup?_answer (d : Dictionary) (q : Request) :
    ∀ i ∈ q.numbers (d.answer q).1, (d.answer q).2.lookup? i.1 = some i.2 := by
  cases q with
  | encode t =>
    intro i hi
    obtain rfl := List.mem_singleton.mp hi
    exact lookup?_encode_self d t
  | encodeTriple t =>
    obtain ⟨hs, hp, ho⟩ := rowOf?_eq_some_iff.mp (rowOf?_encodeTriple d t)
    intro i hi
    simp only [Request.numbers, List.mem_cons, List.not_mem_nil, or_false] at hi
    rcases hi with rfl | rfl | rfl
    · exact hs
    · exact hp
    · exact ho
  | lookup _ | decode _ | decodeRow _ | clear => exact fun i hi ↦ (List.not_mem_nil hi).elim

theorem rowOf?_answer (d : Dictionary) (q : Request) :
    ∀ p ∈ q.rows (d.answer q).1, (d.answer q).2.rowOf? p.1 = some p.2 := by
  cases q with
  | encodeTriple t =>
    intro p hp
    obtain rfl := List.mem_singleton.mp hp
    exact rowOf?_encodeTriple d t
  | encode _ | lookup _ | decode _ | decodeRow _ | clear =>
    exact fun p hp ↦ (List.not_mem_nil hp).elim

/-! ## Runs -/

/-- The dictionary has the terms that have been encoded since the last clear, in the order of their
first encoding, and knows them by the numbers that have been issued. -/
structure Keeps (d : Dictionary) (es : List Event) : Prop where
  valid : d.Valid
  terms : d.terms.toList = (encoded es).eraseDups
  issued : ∀ i ∈ issued es, d.lookup? i.1 = some i.2
  rows : ∀ p ∈ issuedRows es, d.rowOf? p.1 = some p.2

theorem keeps_of_sinceClear (h : sinceClear es = []) : empty.Keeps es where
  valid := valid_empty
  terms := by rw [encoded, h]; rfl
  issued := by simp [Event.issued, h]
  rows := by simp [issuedRows, h]

theorem Keeps.answer (h : d.Keeps es) (q : Request) :
    (d.answer q).2.Keeps (es ++ [⟨q, (d.answer q).1⟩]) := by
  -- A clear ends all that has been issued; any other request adds to it.
  by_cases hq : q = .clear
  · subst hq
    exact keeps_of_sinceClear (sinceClear_append_clear es _)
  · have hsince := sinceClear_append_singleton es (e := ⟨q, (d.answer q).1⟩) hq
    refine ⟨h.valid.answer q, ?_, ?_, ?_⟩
    · rw [encoded, hsince, List.flatMap_append, List.flatMap_singleton]
      exact terms_answer h.valid h.terms hq
    · rw [Event.issued, hsince, List.flatMap_append, List.flatMap_singleton, List.forall_mem_append]
      exact ⟨fun i hi ↦ extends_answer d hq _ _ (h.issued i hi), lookup?_answer d q⟩
    · rw [issuedRows, hsince, List.flatMap_append, List.flatMap_singleton, List.forall_mem_append]
      exact ⟨fun p hp ↦ (extends_answer d hq).rowOf? (h.rows p hp), rowOf?_answer d q⟩

theorem keeps_after (qs : List Request) : (empty.after qs).Keeps (empty.trace qs) := by
  induction qs using List.reverseRecOn with
  | nil => exact keeps_of_sinceClear rfl
  | append_singleton qs q ih =>
    rw [after_append_singleton, trace_append_singleton]
    exact ih.answer q

namespace Keeps

variable (h : d.Keeps es)
include h

theorem size_eq : d.size = (encoded es).toFinset.card := by
  rw [h.valid.size_eq_card, h.terms]
  congr 1
  ext t
  rw [List.mem_toFinset, List.mem_toFinset, List.mem_eraseDups]

theorem decode?_eq (id : UInt32) : d.decode? id = (encoded es).eraseDups[id.toNat]? := by
  rw [decode?, ← Array.getElem?_toList, h.terms]

/-- Below the capacity a number is the place of its term. -/
theorem toNat_eq_idxOf (hsize : d.size ≤ capacity) {i : Term × UInt32} (hi : i ∈ Event.issued es) :
    i.2.toNat = d.terms.toList.idxOf i.1 := by
  obtain ⟨k, hk, hid⟩ := (h.valid.lookup?_eq_some_iff _ _).mp (h.issued i hi)
  rw [← hid, toNat_ofNat_of_getElem? hk hsize]
  rw [← Array.getElem?_toList] at hk
  obtain ⟨hlt, hget⟩ := List.getElem?_eq_some_iff.mp hk
  rw [← hget, h.valid.nodup.idxOf_getElem]

theorem dense (hsize : d.size ≤ capacity) :
    ((Event.issued es).map (·.2.toNat)).eraseDups = List.range d.size := by
  have hplaces : (Event.issued es).map (·.2.toNat) = (encoded es).map (d.terms.toList.idxOf ·) := by
    rw [← map_issued, List.map_map]
    exact List.map_congr_left fun i hi ↦ h.toNat_eq_idxOf hsize hi
  have hinj : ∀ s ∈ encoded es, ∀ t ∈ encoded es,
      d.terms.toList.idxOf s = d.terms.toList.idxOf t → s = t := by
    intro s hs t _ hst
    exact (List.idxOf_inj (by rwa [h.terms, List.mem_eraseDups])).mp hst
  rw [hplaces, eraseDups_map hinj, ← h.terms, map_idxOf_self h.valid.nodup]
  rfl

end Keeps

theorem Valid.lookup?_eq_some_iff_decode? (h : d.Valid) (hsize : d.size ≤ capacity) (t : Term)
    (id : UInt32) : d.lookup? t = some id ↔ d.decode? id = some t := by
  constructor
  · exact h.decode?_of_lookup? hsize
  · intro hid
    exact (h.lookup?_eq_some_iff t id).mpr ⟨id.toNat, hid, UInt32.ofNat_toNat⟩

/-- What a dictionary keeps to, given what has happened to it. -/
structure Numbering (d : Dictionary) (es : List Event) : Prop where
  /-- The numbers that have been issued since the last clear are `0, 1, …` in the order in which
  they have first been issued, as many as there are terms. -/
  dense : ((issued es).map (·.2.toNat)).eraseDups = List.range d.size
  size_eq : d.size = (encoded es).toFinset.card
  /-- A number is the place of its term in the order of their first encoding. -/
  decode?_eq : ∀ id, d.decode? id = (encoded es).eraseDups[id.toNat]?
  decode?_eq_none_iff : ∀ id, d.decode? id = none ↔ d.size ≤ id.toNat
  lookup?_eq_some_iff : ∀ t id, d.lookup? t = some id ↔ d.decode? id = some t
  /-- A known term is encoded by the number that has been issued for it, and nothing changes. -/
  encode_eq : ∀ i ∈ issued es, d.encode i.1 = (i.2, d)
  decode?_issued : ∀ i ∈ issued es, d.decode? i.2 = some i.1
  decodeRow?_issued : ∀ p ∈ issuedRows es, d.decodeRow? p.2 = some p.1

/-- Behind a run of requests that has encoded no more than 2^32 terms since its last clear, terms
and numbers stand for each other, and whatever has been issued since that clear, be it long ago,
means what it meant. -/
theorem numbering_after {qs : List Request}
    (hcard : (encoded (empty.trace qs)).toFinset.card ≤ capacity) :
    (empty.after qs).Numbering (empty.trace qs) := by
  have h := keeps_after qs
  have hsize : (empty.after qs).size ≤ capacity := h.size_eq ▸ hcard
  exact
    { dense := h.dense hsize
      size_eq := h.size_eq
      decode?_eq := h.decode?_eq
      decode?_eq_none_iff := fun id ↦ Array.getElem?_eq_none_iff
      lookup?_eq_some_iff := h.valid.lookup?_eq_some_iff_decode? hsize
      encode_eq := fun i hi ↦ encode_of_lookup? (h.issued i hi)
      decode?_issued := fun i hi ↦ h.valid.decode?_of_lookup? hsize (h.issued i hi)
      decodeRow?_issued := fun p hp ↦ h.valid.decodeRow?_of_rowOf? hsize (h.rows p hp) }

/-- Triples with one term in several places, terms of either kind with one text, and a clear behind
which other numbers are issued for them. -/
def renumbered : List Request :=
  [.encode (.iri "b"), .encodeTriple ⟨.iri "a", .iri "p", .literal "a"⟩, .decode 1, .clear,
    .decode 0, .encodeTriple ⟨.iri "p", .iri "p", .iri "a"⟩, .lookup (.literal "a"),
    .encode (.iri "a"), .encodeTriple ⟨.literal "a", .iri "p", .literal "a"⟩, .decode 3,
    .decodeRow ⟨1, 0, 1⟩]

theorem numbering_after_renumbered :
    (encoded (empty.trace renumbered)).toFinset.card ≤ capacity ∧
      (empty.after renumbered).Numbering (empty.trace renumbered) ∧
      issued (empty.trace renumbered) =
        [(.iri "p", 0), (.iri "p", 0), (.iri "a", 1), (.iri "a", 1), (.literal "a", 2),
          (.iri "p", 0), (.literal "a", 2)] ∧
      issuedRows (empty.trace renumbered) =
        [(⟨.iri "p", .iri "p", .iri "a"⟩, ⟨0, 0, 1⟩),
          (⟨.literal "a", .iri "p", .literal "a"⟩, ⟨2, 0, 2⟩)] := by
  have hcard : (encoded (empty.trace renumbered)).toFinset.card ≤ capacity := by decide +kernel
  exact ⟨hcard, numbering_after hcard, by decide +kernel, by decide +kernel⟩

end Dictionary

end TripleIndex
