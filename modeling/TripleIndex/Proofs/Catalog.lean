import TripleIndex.Proofs.Consistency
import TripleIndex.Proofs.Loading

/-!
# Catalogs stay indexed

A catalog looks entries up by their places, and changes places and entries in two operations, each
of which may replace what is there or fail half-way.  Whatever entries are added and whatever logs
are loaded, in any order and from any storage, the places remain an index of the entries by their
ids (`Entries.Indexed`), so that a place that is remembered can be trusted.  An addition changes
nothing but the one entry that it files (`Entries.Takes`).
-/

namespace TripleIndex

open Text

namespace Entries

/-- The places are an index of the entries, which are filed under the ids that belong to them. -/
structure Indexed (es : Entries) : Prop where
  id_eq : ∀ e ∈ es.toList, e.id = e.identifier.rendering
  nodup_ids : (es.toList.map (·.id)).Nodup
  /-- There are places for the ids of the entries and for no others. -/
  has_iff : ∀ id, es.has id = true ↔ id ∈ es.toList.map (·.id)
  /-- A place is the one where the entry stands, and so inside the list. -/
  position_iff : ∀ id k, es.positions[id]? = some k ↔ ∃ h : k < es.size, es.items[k].id = id
  isSome_get? : ∀ id, (es.get? id).isSome = es.has id
  get?_eq_some_iff : ∀ id e, es.get? id = some e ↔ e ∈ es.toList ∧ e.id = id

/-- Entries become others by taking one entry in: it is filed, the places remain where they are,
and so do the entries with other ids. -/
structure Takes (es fs : Entries) (e : Entry) : Prop where
  get? : fs.get? e.identifier.rendering = some e.keyed
  position : ∀ id, es.has id = true ∨ id ≠ e.identifier.rendering →
    fs.positions[id]? = es.positions[id]?
  others : ∀ (k : Nat) (x : Entry), x.id ≠ e.identifier.rendering →
    (fs.toList[k]? = some x ↔ es.toList[k]? = some x)

variable {es : Entries}

theorem Valid.indexed (h : es.Valid) : es.Indexed where
  id_eq _ he := h.id_eq he
  nodup_ids := h.nodup_ids
  has_iff id := by rw [h.has_iff, List.mem_map]
  position_iff id k := by
    rw [h.position_iff]
    constructor
    · rintro ⟨e, he, hid⟩
      obtain ⟨hk, rfl⟩ := Array.getElem?_eq_some_iff.mp he
      exact ⟨hk, hid⟩
    · rintro ⟨hk, hid⟩
      exact ⟨_, Array.getElem?_eq_getElem hk, hid⟩
  isSome_get? id := by
    rw [Bool.eq_iff_iff, Option.isSome_iff_exists, h.has_iff]
    simp only [h.get?_eq_some_iff]
  get?_eq_some_iff _ _ := h.get?_eq_some_iff

theorem positions_put {e : Entry} {id : String}
    (hid : es.has id = true ∨ id ≠ e.identifier.rendering) :
    (es.put e).positions[id]? = es.positions[id]? := by
  cases hhas : es.has e.keyed.id with
  | true => rw [positions_put_of_has hhas]
  | false =>
    have hne : e.keyed.id ≠ id := by
      rintro rfl
      rcases hid with hid | hid
      · rw [hhas] at hid
        cases hid
      · exact hid rfl
    rw [positions_put_of_not_has hhas, Std.TreeMap.getElem?_insert, if_neg]
    rwa [Std.LawfulEqCmp.compare_eq_iff_eq]

theorem Valid.getElem?_put (h : es.Valid) {e x : Entry} (hx : x.id ≠ e.identifier.rendering)
    (k : Nat) : (es.put e).toList[k]? = some x ↔ es.toList[k]? = some x := by
  cases hhas : es.has e.keyed.id with
  | true =>
    rw [h.toList_put_of_has hhas, List.getElem?_map, Option.map_eq_some_iff]
    constructor
    · rintro ⟨y, hy, hyx⟩
      split at hyx
      · exact absurd (congrArg Entry.id hyx).symm hx
      · rwa [← hyx]
    · exact fun hk ↦ ⟨x, hk, if_neg hx⟩
  | false =>
    rw [toList_put_of_not_has hhas, List.getElem?_append]
    split
    · rfl
    · rename_i hk
      rw [List.getElem?_eq_none (Nat.le_of_not_lt hk), List.getElem?_singleton]
      split
      · simpa using fun hkeyed ↦ hx (congrArg Entry.id hkeyed).symm
      · rfl

theorem Valid.takes_put (h : es.Valid) (e : Entry) : es.Takes (es.put e) e where
  get? := h.get?_put e
  position _ := positions_put
  others k _ hx := h.getElem?_put hx k

end Entries

namespace Catalog

/-- What may be done to a catalog, through any access. -/
inductive Change where
  | load (a : Access)
  | add (a : Access) (e : Entry)

/-- The catalog behind a change.  If loading fails, it is the old one. -/
def change (c : Catalog) : Change → Catalog
  | .load a =>
    match c.load a with
    | .ok d => d
    | .error _ => c
  | .add a e => (c.add a e).2.1

def after (c : Catalog) (changes : List Change) : Catalog := changes.foldl change c

variable {c d : Catalog} {a b : Access} {e : Entry} {replaced : Bool}

theorem add_eq_ok_iff : c.add a e = (.ok replaced, d, b) ↔
    a.append c.key (Log.octets e.keyed) = (.ok (), b) ∧
      replaced = c.entries.has e.identifier.rendering ∧
        d = { c with entries := c.entries.put e } := by
  rw [add]
  generalize a.append c.key (Log.octets e.keyed) = written
  obtain ⟨done, access⟩ := written
  cases done with
  | error f => simp
  | ok u =>
    simp only [Prod.mk.injEq, Except.ok.injEq, true_and, Entry.keyed_id, eq_comm (a := replaced),
      eq_comm (a := d)]
    tauto

theorem add_eq_error {f : Error} (h : c.add a e = (.error f, d, b)) : d = c := by
  rw [add] at h
  generalize a.append c.key (Log.octets e.keyed) = written at h
  obtain ⟨done, access⟩ := written
  cases done with
  | error g => cases h; rfl
  | ok u => cases h

theorem valid_change (h : c.entries.Valid) (x : Change) : (c.change x).entries.Valid := by
  cases x with
  | load a =>
    rw [change]
    cases hload : c.load a with
    | error f => exact h
    | ok d =>
      obtain ⟨es, hes, rfl⟩ := map_eq_ok_iff.mp hload
      exact Index.valid_of_replay hes
  | add a e =>
    rw [change]
    generalize hadded : c.add a e = added
    obtain ⟨done, d, b⟩ := added
    cases done with
    | error f => rwa [add_eq_error hadded]
    | ok replaced =>
      obtain ⟨-, -, rfl⟩ := add_eq_ok_iff.mp hadded
      exact h.put e

theorem valid_after (h : c.entries.Valid) (changes : List Change) :
    (c.after changes).entries.Valid := by
  induction changes generalizing c with
  | nil => exact h
  | cons x changes ih => exact ih (valid_change h x)

theorem valid_create {key : String} (h : create key = .ok c) : c.entries.Valid := by
  rw [create] at h
  split at h
  · cases h
  · cases h
    exact Entries.valid_empty

/-- Behind any changes to a new catalog its places are an index of its entries.  An addition then
succeeds as soon as its record is appended to the log.  It tells whether it has replaced an entry,
and takes in the one that it is about; an addition that fails leaves the catalog as it is. -/
theorem indexed_after {key : String} (h : create key = .ok c) (changes : List Change) :
    (c.after changes).entries.Indexed ∧ ∀ (a : Access) (e : Entry),
      (∀ b, a.append (c.after changes).key (Log.octets e.keyed) = (.ok (), b) →
        ∃ replaced d, (c.after changes).add a e = (.ok replaced, d, b)) ∧
      (∀ replaced d b, (c.after changes).add a e = (.ok replaced, d, b) →
        replaced = (c.after changes).entries.has e.identifier.rendering ∧
          (c.after changes).entries.Takes d.entries e) ∧
      ∀ f d b, (c.after changes).add a e = (.error f, d, b) → d = c.after changes := by
  have hvalid := valid_after (valid_create h) changes
  refine ⟨hvalid.indexed, fun a e ↦ ⟨fun b happend ↦ ?_, fun replaced d b hadd ↦ ?_,
    fun f d b ↦ add_eq_error⟩⟩
  · exact ⟨_, _, add_eq_ok_iff.mpr ⟨happend, rfl, rfl⟩⟩
  · obtain ⟨-, hreplaced, rfl⟩ := add_eq_ok_iff.mp hadd
    exact ⟨hreplaced, hvalid.takes_put e⟩

/-- An entry that comes with an id which belongs to another one. -/
def misfiled (name other : String) : Entry := ⟨"M." ++ other, { kind := "M", name := name }, []⟩

/-- Additions to a catalog that has not been loaded, then loads that fail, each in its own way, a
load of another log, and an addition that is refused. -/
def trials : List Change :=
  [.add { storage := .memory {} } (misfiled "a" "b"),
    .load (finding [0xC3]),
    .load (finding (Utf8.encode ['{', '}'])),
    .load { storage := .memory {}, refused := [.check] },
    .add { storage := .memory {} } (misfiled "b" "a"),
    .load (finding rekeyed),
    .add { storage := .memory {} } (misfiled "c" "a"),
    .add { storage := .memory {}, refused := [.append] } (misfiled "d" "a")]

theorem indexed_after_trials :
    ∃ c, create "index.jsonl" = .ok c ∧
      (c.after (trials.take 5)).entries.toList.map (·.id) = ["M.a", "M.b"] ∧
      (c.after trials).entries.toList.map (·.id) = ["M.a", "M.b", "M.c"] ∧
      (c.after trials).entries.Indexed ∧
      ∃ d b, (c.after trials).add { storage := .memory {} } (misfiled "b" "c") = (.ok true, d, b) ∧
        (c.after trials).entries.Takes d.entries (misfiled "b" "c") := by
  have hcreate : create "index.jsonl" = .ok { key := "index.jsonl" } := rfl
  obtain ⟨hindexed, hadditions⟩ := indexed_after hcreate trials
  obtain ⟨hsucceeds, htakes, -⟩ := hadditions { storage := .memory {} } (misfiled "b" "c")
  have hhas : (Catalog.after { key := "index.jsonl" } trials).entries.has
      (misfiled "b" "c").identifier.rendering = true := by decide +kernel
  obtain ⟨replaced, d, hadd⟩ := hsucceeds _ rfl
  obtain ⟨hreplaced, hd⟩ := htakes replaced d _ hadd
  obtain rfl : replaced = true := hreplaced.trans hhas
  exact ⟨_, hcreate, by decide +kernel, by decide +kernel, hindexed, d, _, hadd, hd⟩

end Catalog

end TripleIndex
