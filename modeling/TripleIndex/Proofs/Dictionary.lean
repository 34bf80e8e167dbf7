import TripleIndex.Dictionary
import Mathlib.Algebra.GroupWithZero.Nat
import Mathlib.Data.List.Nodup
import Mathlib.Data.Finset.Card
import Mathlib.Data.Finset.Dedup

/-!
# What dictionaries know

A dictionary is valid when its two halves agree: a term has the number of its place in the list of
terms, cut down to 32 bits, and no term is listed twice.  Every dictionary that is made by encoding
is valid, however many terms it has; numbers are distinct, and decode to their terms, as long as
there are at most 2^32 of them.

Encoding only ever adds to what a dictionary knows (`Dictionary.Extends`), so a row keeps its
meaning in every later dictionary.
-/

namespace TripleIndex

namespace Triple

/-- The three terms, subject first. -/
def terms (t : Triple) : List Term := [t.subject, t.predicate, t.object]

end Triple

/-- The terms that occur in some triples. -/
def termsOf (ts : List Triple) : Finset Term := (ts.flatMap Triple.terms).toFinset

theorem termsOf_append (ts us : List Triple) : termsOf (ts ++ us) = termsOf ts ∪ termsOf us := by
  simp [termsOf, List.toFinset_append]

namespace Dictionary

/-- The numbers of a dictionary are the places of its terms, and no term has two places. -/
structure Valid (d : Dictionary) : Prop where
  nodup : d.terms.toList.Nodup
  lookup?_eq_some_iff : ∀ t id, d.lookup? t = some id ↔ ∃ k, d.terms[k]? = some t ∧ .ofNat k = id

/-- How many terms the numbers suffice for. -/
def capacity : Nat := 2 ^ 32

theorem valid_empty : Valid empty where
  nodup := List.nodup_nil
  lookup?_eq_some_iff t id := by simp [lookup?, empty]

variable {d : Dictionary}

/-! ## One term -/

theorem Valid.lookup?_isSome_iff (h : d.Valid) (t : Term) : (d.lookup? t).isSome ↔ t ∈ d.terms := by
  rw [Option.isSome_iff_exists, Array.mem_iff_getElem?]
  simp only [h.lookup?_eq_some_iff]
  constructor
  · rintro ⟨_, k, hk, _⟩
    exact ⟨k, hk⟩
  · rintro ⟨k, hk⟩
    exact ⟨_, k, hk, rfl⟩

theorem encode_of_lookup? {t : Term} {id : UInt32} (h : d.lookup? t = some id) :
    d.encode t = (id, d) := by
  rw [lookup?] at h
  simp only [encode, h]

theorem encode_of_lookup?_eq_none {t : Term} (h : d.lookup? t = none) :
    d.encode t = (.ofNat d.terms.size, ⟨d.ids.insert t (.ofNat d.terms.size), d.terms.push t⟩) := by
  rw [lookup?] at h
  simp only [encode, h]

theorem Valid.encode (h : d.Valid) (t : Term) : (d.encode t).2.Valid := by
  cases ht : d.lookup? t with
  | some id => rwa [encode_of_lookup? ht]
  | none =>
    have hnot : t ∉ d.terms := by rw [← h.lookup?_isSome_iff, ht]; simp
    rw [encode_of_lookup?_eq_none ht]
    refine ⟨?_, fun s id ↦ ?_⟩
    · rw [Array.toList_push, ← List.concat_eq_append]
      exact h.nodup.concat (by simpa using hnot)
    · have hold := h.lookup?_eq_some_iff s id
      rw [lookup?] at hold
      simp only [lookup?, Std.TreeMap.getElem?_insert, Std.LawfulEqCmp.compare_eq_iff_eq,
        Array.getElem?_push]
      by_cases hs : t = s
      · subst hs
        rw [if_pos rfl]
        constructor
        · rintro ⟨⟩
          exact ⟨d.terms.size, if_pos rfl, rfl⟩
        · rintro ⟨k, hk, rfl⟩
          by_cases hsize : k = d.terms.size
          · rw [hsize]
          · rw [if_neg hsize] at hk
            exact absurd (Array.mem_of_getElem? hk) hnot
      · rw [if_neg hs, hold]
        refine exists_congr fun k ↦ and_congr_left fun _ ↦ ?_
        by_cases hsize : k = d.terms.size
        · simp [hsize, hs]
        · rw [if_neg hsize]

theorem lookup?_encode_self (d : Dictionary) (t : Term) :
    (d.encode t).2.lookup? t = some (d.encode t).1 := by
  cases ht : d.lookup? t with
  | some id => rw [encode_of_lookup? ht, ht]
  | none => simp [encode_of_lookup?_eq_none ht, lookup?]

theorem mem_terms_encode (h : d.Valid) {s t : Term} :
    s ∈ (d.encode t).2.terms ↔ s ∈ d.terms ∨ s = t := by
  cases ht : d.lookup? t with
  | some id =>
    have hmem : t ∈ d.terms := (h.lookup?_isSome_iff t).mp (by rw [ht]; rfl)
    rw [encode_of_lookup? ht]
    exact ⟨.inl, fun hs ↦ hs.elim (fun hs ↦ hs) (· ▸ hmem)⟩
  | none => simp [encode_of_lookup?_eq_none ht]

/-! ## Decoding -/

/-- Below the capacity a number stands for one place only. -/
theorem toNat_ofNat_of_getElem? {t : Term} {k : Nat} (hk : d.terms[k]? = some t)
    (hsize : d.size ≤ capacity) : (UInt32.ofNat k).toNat = k := by
  obtain ⟨hlt, _⟩ := Array.getElem?_eq_some_iff.mp hk
  rw [UInt32.toNat_ofNat']
  exact Nat.mod_eq_of_lt (lt_of_lt_of_le hlt hsize)

theorem Valid.decode?_of_lookup? (h : d.Valid) (hsize : d.size ≤ capacity) {t : Term} {id : UInt32}
    (ht : d.lookup? t = some id) : d.decode? id = some t := by
  obtain ⟨k, hk, rfl⟩ := (h.lookup?_eq_some_iff t id).mp ht
  rw [decode?, toNat_ofNat_of_getElem? hk hsize, hk]

theorem Valid.eq_of_lookup?_eq (h : d.Valid) (hsize : d.size ≤ capacity) {s t : Term} {id : UInt32}
    (hs : d.lookup? s = some id) (ht : d.lookup? t = some id) : s = t := by
  have hd := h.decode?_of_lookup? hsize hs
  rw [h.decode?_of_lookup? hsize ht] at hd
  exact (Option.some.inj hd).symm

/-- The terms of a valid dictionary, counted. -/
theorem Valid.size_eq_card (h : d.Valid) : d.size = d.terms.toList.toFinset.card := by
  rw [List.toFinset_card_of_nodup h.nodup]
  rfl

/-! ## Growing -/

/-- Everything that one dictionary knows, another one knows, too. -/
def Extends (e d : Dictionary) : Prop := ∀ t id, d.lookup? t = some id → e.lookup? t = some id

theorem Extends.trans {c d e : Dictionary} (h : Extends e d) (h' : Extends d c) : Extends e c :=
  fun t id ht ↦ h t id (h' t id ht)

theorem extends_encode (d : Dictionary) (t : Term) : Extends (d.encode t).2 d := by
  intro s id hs
  cases ht : d.lookup? t with
  | some _ => rwa [encode_of_lookup? ht]
  | none =>
    have hne : t ≠ s := fun he ↦ by rw [he, hs] at ht; cases ht
    rw [encode_of_lookup?_eq_none ht]
    rw [lookup?] at hs
    simp [lookup?, Std.TreeMap.getElem?_insert, hne, hs]

/-! ## Rows -/

/-- The row of a triple whose terms the dictionary knows. -/
def rowOf? (d : Dictionary) (t : Triple) : Option Row := do
  let s ← d.lookup? t.subject
  let p ← d.lookup? t.predicate
  let o ← d.lookup? t.object
  return ⟨s, p, o⟩

theorem rowOf?_eq_some_iff {t : Triple} {r : Row} :
    d.rowOf? t = some r ↔ d.lookup? t.subject = some r.subject ∧
      d.lookup? t.predicate = some r.predicate ∧ d.lookup? t.object = some r.object := by
  cases r
  simp only [rowOf?, Option.bind_eq_bind, Option.bind_eq_some_iff, Option.pure_def,
    Option.some.injEq, Row.mk.injEq]
  constructor
  · rintro ⟨_, hs, _, hp, _, ho, rfl, rfl, rfl⟩
    exact ⟨hs, hp, ho⟩
  · rintro ⟨hs, hp, ho⟩
    exact ⟨_, hs, _, hp, _, ho, rfl, rfl, rfl⟩

theorem Extends.rowOf? {e d : Dictionary} (h : Extends e d) {t : Triple} {r : Row}
    (ht : d.rowOf? t = some r) : e.rowOf? t = some r := by
  obtain ⟨hs, hp, ho⟩ := rowOf?_eq_some_iff.mp ht
  exact rowOf?_eq_some_iff.mpr ⟨h _ _ hs, h _ _ hp, h _ _ ho⟩

theorem extends_encodeTriple (d : Dictionary) (t : Triple) : Extends (d.encodeTriple t).2 d :=
  (extends_encode _ t.object).trans ((extends_encode _ t.predicate).trans (extends_encode d _))

theorem Valid.encodeTriple (h : d.Valid) (t : Triple) : (d.encodeTriple t).2.Valid :=
  ((h.encode t.subject).encode t.predicate).encode t.object

/-- Numbers given to the first terms of a triple survive the numbering of the others. -/
theorem rowOf?_encodeTriple (d : Dictionary) (t : Triple) :
    (d.encodeTriple t).2.rowOf? t = some (d.encodeTriple t).1 :=
  let s := d.encode t.subject
  let p := s.2.encode t.predicate
  rowOf?_eq_some_iff.mpr
    ⟨extends_encode _ _ _ _ (extends_encode _ _ _ _ (lookup?_encode_self d t.subject)),
      extends_encode _ _ _ _ (lookup?_encode_self s.2 t.predicate),
      lookup?_encode_self p.2 t.object⟩

theorem mem_terms_encodeTriple (h : d.Valid) {s : Term} {t : Triple} :
    s ∈ (d.encodeTriple t).2.terms ↔ s ∈ d.terms ∨ s ∈ t.terms := by
  simp only [Dictionary.encodeTriple, mem_terms_encode ((h.encode _).encode _),
    mem_terms_encode (h.encode _), mem_terms_encode h, Triple.terms, List.mem_cons,
    List.not_mem_nil, or_false, or_assoc]

theorem Valid.decodeRow?_of_rowOf? (h : d.Valid) (hsize : d.size ≤ capacity) {t : Triple} {r : Row}
    (ht : d.rowOf? t = some r) : d.decodeRow? r = some t := by
  obtain ⟨hs, hp, ho⟩ := rowOf?_eq_some_iff.mp ht
  simp [decodeRow?, h.decode?_of_lookup? hsize hs, h.decode?_of_lookup? hsize hp,
    h.decode?_of_lookup? hsize ho]

end Dictionary

end TripleIndex
