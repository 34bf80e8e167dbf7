import TripleIndex.Proofs.Entries
import TripleIndex.Proofs.Session
import TripleIndex.Proofs.TripleStore

/-!
# Indexes follow their entries

An index derives a store of triples and a table of subjects from its entries, along two paths: a new
entry is taken up behind what is there, and everything is taken up afresh when an entry has been
replaced or the log has been read.  Both paths lead to the same place, as if all entries had been
taken up in order (`Index.Consistent`), and so it is behind every run of events.

What this comes to is spelled out by `Index.Represents`, which tells every derived structure by the
entries alone.
-/

namespace TripleIndex

/-! ## Tables of subjects -/

namespace SubjectTable

theorem find_file (m : SubjectTable) (id k : String) (ts : List Triple) :
    (m.file id ts).find k =
      if id = k then (m.find id).insertMany (ts.map (·.subject)) else m.find k := by
  simp only [file, find, Std.TreeMap.getD_insert, Std.LawfulEqCmp.compare_eq_iff_eq]

theorem mem_find_file {m : SubjectTable} {id k : String} {ts : List Triple} {t : Term} :
    t ∈ (m.file id ts).find k ↔ t ∈ m.find k ∨ id = k ∧ ∃ u ∈ ts, u.subject = t := by
  rw [find_file]
  split
  · rename_i h
    simp [h, Std.TreeSet.mem_insertMany_list]
  · rename_i h
    simp [h]

theorem mem_file {m : SubjectTable} {id k : String} {ts : List Triple} :
    k ∈ m.file id ts ↔ k ∈ m ∨ id = k := by
  simp [file, Std.TreeMap.mem_insert, or_comm]

/-- The table that comes of filing the triples of entries, one after the other. -/
def ofEntries (ns : Namespaces) (es : List Entry) : SubjectTable :=
  es.foldl (fun m e ↦ m.file e.id (e.triples ns)) ∅

theorem ofEntries_append_singleton (ns : Namespaces) (es : List Entry) (e : Entry) :
    ofEntries ns (es ++ [e]) = (ofEntries ns es).file e.id (e.triples ns) := by
  simp [ofEntries]

theorem mem_ofEntries {ns : Namespaces} {es : List Entry} {id : String} :
    id ∈ ofEntries ns es ↔ ∃ e ∈ es, e.id = id := by
  induction es using List.reverseRecOn with
  | nil => simp [ofEntries]
  | append_singleton es e ih => simp [ofEntries_append_singleton, mem_file, ih, or_and_right,
      exists_or]

theorem mem_find_ofEntries {ns : Namespaces} {es : List Entry} {id : String} {t : Term} :
    t ∈ (ofEntries ns es).find id ↔ ∃ e ∈ es, e.id = id ∧ ∃ u ∈ e.triples ns, u.subject = t := by
  induction es using List.reverseRecOn with
  | nil => simp [ofEntries, find]
  | append_singleton es e ih =>
    simp [ofEntries_append_singleton, mem_find_file, ih, or_and_right, exists_or]

end SubjectTable

/-! ## Taking entries up -/

namespace Index

/-- The triples of all entries, in order and as often as they are stated. -/
def triples (i : Index) : List Triple := i.entries.flatMap (·.triples i.namespaces)

/-- The derived structures are what taking all entries up in order makes of them. -/
structure Consistent (i : Index) : Prop where
  entries : i.catalog.entries.Valid
  store : i.store = TripleStore.empty.insertMany i.triples
  subjects : i.subjects = .ofEntries i.namespaces i.entries

theorem foldl_take (i : Index) (es : List Entry) :
    es.foldl take i =
      { i with
        store := i.store.insertMany (es.flatMap (·.triples i.namespaces))
        subjects := es.foldl (fun m e ↦ m.file e.id (e.triples i.namespaces)) i.subjects } := by
  induction es generalizing i with
  | nil => rfl
  | cons e es ih =>
    rw [List.foldl_cons, ih, List.flatMap_cons, TripleStore.insertMany_append]
    rfl

theorem rebuild_eq (i : Index) :
    i.rebuild =
      { i with
        store := TripleStore.empty.insertMany i.triples
        subjects := .ofEntries i.namespaces i.entries } := by
  rw [rebuild, foldl_take]
  rfl

@[simp] theorem rebuild_namespaces (i : Index) : i.rebuild.namespaces = i.namespaces := by
  rw [rebuild_eq]

@[simp] theorem rebuild_catalog (i : Index) : i.rebuild.catalog = i.catalog := by
  rw [rebuild_eq]

theorem consistent_rebuild {i : Index} (h : i.catalog.entries.Valid) : i.rebuild.Consistent := by
  rw [rebuild_eq]
  exact ⟨h, rfl, rfl⟩

/-- Taking up everything afresh changes nothing. -/
theorem Consistent.rebuild_eq_self {i : Index} (h : i.Consistent) : i.rebuild = i := by
  rw [rebuild_eq, ← h.store, ← h.subjects]

/-- The index behind a recorded addition. -/
def enter (i : Index) (e : Entry) : Index :=
  let next := { i with catalog := { i.catalog with entries := i.catalog.entries.put e } }
  if i.catalog.entries.has e.keyed.id then next.rebuild else next.takeFiled e.id

/-- Taking up the one entry that is new makes what a rebuild makes. -/
theorem Consistent.takeFiled_put {i : Index} (h : i.Consistent) {e : Entry} (he : e.keyed = e)
    (hnew : i.catalog.entries.has e.id = false) {c : Catalog}
    (hc : c.entries = i.catalog.entries.put e) :
    { i with catalog := c }.takeFiled e.id = { i with catalog := c }.rebuild := by
  have hvalid : c.entries.Valid := hc ▸ h.entries.put e
  have hlist : c.entries.toList = i.entries ++ [e] := by
    rw [hc, Entries.toList_put_of_not_has (by rwa [he]), he]
    rfl
  have hget : c.entries.get? e.id = some e :=
    hvalid.get?_eq_some_iff.mpr ⟨by simp [hlist], rfl⟩
  have htriples : ({ i with catalog := c } : Index).triples =
      i.triples ++ e.triples i.namespaces := by
    simp [triples, Index.entries, hlist]
  have hentries : ({ i with catalog := c } : Index).entries = i.entries ++ [e] := hlist
  rw [rebuild_eq, htriples, hentries, TripleStore.insertMany_append,
    SubjectTable.ofEntries_append_singleton, ← h.store, ← h.subjects]
  simp only [takeFiled, hget]
  rfl

/-- Both paths of an addition lead to the same place. -/
theorem Consistent.enter_eq_rebuild {i : Index} (h : i.Consistent) {e : Entry} (he : e.keyed = e) :
    i.enter e =
      { i with catalog := { i.catalog with entries := i.catalog.entries.put e } }.rebuild := by
  rw [enter]
  dsimp only
  split
  · rfl
  · rename_i hnew
    rw [Bool.not_eq_true, he] at hnew
    exact h.takeFiled_put he hnew rfl

/-! ## Loading and adding -/

theorem eq_of_create {s : Settings} {i : Index} (h : create s = .ok i) :
    i = { namespaces := s.namespaces, catalog := { key := s.indexKey } } := by
  obtain ⟨c, hc, rfl⟩ := map_eq_ok_iff.mp h
  rw [Catalog.create] at hc
  split at hc <;> cases hc
  rfl

theorem create_eq_ok {s : Settings} (h : checkIndexKey s.indexKey = .ok ()) :
    create s = .ok { namespaces := s.namespaces, catalog := { key := s.indexKey } } := by
  rw [create, Catalog.create, h]
  rfl

theorem consistent_create {s : Settings} {i : Index} (h : create s = .ok i) : i.Consistent := by
  rw [eq_of_create h]
  exact ⟨Entries.valid_empty, rfl, rfl⟩

theorem load_eq_ok_iff {i j : Index} {a : Access} :
    i.load a = .ok j ↔ ∃ es, i.catalog.replay a = .ok es ∧
      { i with catalog := { i.catalog with entries := es, loaded := true } }.rebuild = j := by
  simp only [load, Catalog.load, map_eq_ok_iff]
  constructor
  · rintro ⟨_, ⟨es, hes, rfl⟩, rfl⟩
    exact ⟨es, hes, rfl⟩
  · rintro ⟨es, hes, rfl⟩
    exact ⟨_, ⟨es, hes, rfl⟩, rfl⟩

theorem loaded_of_ensureLoaded {i j : Index} {a : Access} (h : i.ensureLoaded a = .ok j) :
    j.catalog.loaded = true := by
  rw [ensureLoaded] at h
  split at h
  · rename_i hloaded
    cases h
    exact hloaded
  · obtain ⟨es, -, rfl⟩ := load_eq_ok_iff.mp h
    rw [rebuild_catalog]

theorem load_of_contains_eq_error {i : Index} {a : Access} {f : StorageFault}
    (h : a.contains i.catalog.key = .error f) : i.load a = .error (.storage f) := by
  rw [load, Catalog.load, Catalog.replay, h]
  rfl

theorem valid_of_replay {c : Catalog} {a : Access} {es : Entries} (h : c.replay a = .ok es) :
    es.Valid := by
  rw [Catalog.replay] at h
  split at h
  · cases h
  · cases h
    exact Entries.valid_empty
  · split at h
    · cases h
    · obtain ⟨list, -, rfl⟩ := map_eq_ok_iff.mp h
      exact Entries.valid_ofList list

theorem consistent_of_load {i j : Index} {a : Access} (h : i.load a = .ok j) : j.Consistent := by
  obtain ⟨es, hes, rfl⟩ := load_eq_ok_iff.mp h
  exact consistent_rebuild (valid_of_replay hes)

theorem Consistent.ensureLoaded {i j : Index} {a : Access} (hi : i.Consistent)
    (h : i.ensureLoaded a = .ok j) : j.Consistent := by
  rcases eq_or_load_of_ensureLoaded h with rfl | h
  · exact hi
  · exact consistent_of_load h

/-- An addition loads the index, appends to the log, and then records the entry. -/
theorem add_eq (i : Index) (a : Access) (s : Submission) :
    i.add a s =
      match i.ensureLoaded a with
      | .error e => (.error e, i, a)
      | .ok j =>
        let written := a.append j.catalog.key (Log.octets (.ofSubmission s))
        match written.1 with
        | .error f => (.error (.storage f), j, written.2)
        | .ok () => (.ok (), j.enter (.ofSubmission s), written.2) := by
  rw [add]
  cases i.ensureLoaded a with
  | error e => rfl
  | ok j =>
    simp only [Catalog.add, Entry.keyed_ofSubmission]
    cases (a.append j.catalog.key (Log.octets (.ofSubmission s))).1 with
    | error f => rfl
    | ok u =>
      simp only [enter, Entry.keyed_ofSubmission]
      by_cases hhas : j.catalog.entries.has (Entry.ofSubmission s).id = true
      · simp only [hhas, if_true]
      · rw [Bool.not_eq_true] at hhas
        simp only [hhas, Bool.false_eq_true, if_false]

theorem eq_of_add {i i' : Index} {a a' : Access} {s : Submission}
    (h : i.add a s = (.ok (), i', a')) : ∃ j, i.ensureLoaded a = .ok j ∧
      a.append j.catalog.key (Log.octets (.ofSubmission s)) = (.ok (), a') ∧
      i' = j.enter (.ofSubmission s) := by
  rw [add_eq] at h
  cases hj : i.ensureLoaded a with
  | error e => simp [hj] at h
  | ok j =>
    generalize hwritten : a.append j.catalog.key (Log.octets (.ofSubmission s)) = written at h
    obtain ⟨done, b⟩ := written
    cases done with
    | error f => simp [hj, hwritten] at h
    | ok _ =>
      obtain ⟨rfl, rfl⟩ : j.enter (.ofSubmission s) = i' ∧ b = a' := by
        simpa [hj, hwritten] using h
      exact ⟨j, rfl, hwritten, rfl⟩

theorem Consistent.enter {i : Index} (h : i.Consistent) {e : Entry} (he : e.keyed = e) :
    (i.enter e).Consistent := by
  rw [h.enter_eq_rebuild he]
  exact consistent_rebuild (h.entries.put e)

theorem Consistent.add {i : Index} {a : Access} {s : Submission} (h : i.Consistent) :
    (i.add a s).2.1.Consistent := by
  rw [add_eq]
  cases hj : i.ensureLoaded a with
  | error e => exact h
  | ok j =>
    dsimp only
    cases (a.append j.catalog.key (Log.octets (.ofSubmission s))).1 with
    | error f => exact h.ensureLoaded hj
    | ok u => exact (h.ensureLoaded hj).enter (Entry.keyed_ofSubmission s)

/-- What an index has been opened with: its namespaces and the key of its log. -/
def opening (i : Index) : Namespaces × String := (i.namespaces, i.catalog.key)

theorem rebuild_opening (i : Index) : i.rebuild.opening = i.opening := by
  rw [opening, rebuild_namespaces, rebuild_catalog]
  rfl

theorem opening_of_load {i j : Index} {a : Access} (h : i.load a = .ok j) :
    j.opening = i.opening := by
  obtain ⟨es, -, rfl⟩ := load_eq_ok_iff.mp h
  exact rebuild_opening _

theorem opening_of_ensureLoaded {i j : Index} {a : Access} (h : i.ensureLoaded a = .ok j) :
    j.opening = i.opening := by
  rcases eq_or_load_of_ensureLoaded h with rfl | h
  · rfl
  · exact opening_of_load h

/-- Loading does not change where the log is. -/
theorem key_of_ensureLoaded {i j : Index} {a : Access} (h : i.ensureLoaded a = .ok j) :
    j.catalog.key = i.catalog.key := congrArg Prod.snd (opening_of_ensureLoaded h)

theorem enter_opening (i : Index) (e : Entry) : (i.enter e).opening = i.opening := by
  rw [enter]
  dsimp only
  split
  · exact rebuild_opening _
  · rw [takeFiled]
    split <;> rfl

/-- Taking an entry up does not change what is filed. -/
theorem enter_entries (i : Index) (e : Entry) :
    (i.enter e).catalog.entries = i.catalog.entries.put e := by
  rw [enter]
  dsimp only
  split
  · rw [rebuild_catalog]
  · rw [takeFiled]
    split <;> rfl

theorem enter_loaded (i : Index) (e : Entry) :
    (i.enter e).catalog.loaded = i.catalog.loaded := by
  rw [enter]
  dsimp only
  split
  · rw [rebuild_catalog]
  · rw [takeFiled]
    split <;> rfl

theorem add_opening (i : Index) (a : Access) (s : Submission) :
    (i.add a s).2.1.opening = i.opening := by
  rw [add_eq]
  cases hj : i.ensureLoaded a with
  | error e => rfl
  | ok j =>
    dsimp only
    cases (a.append j.catalog.key (Log.octets (.ofSubmission s))).1 with
    | error f => exact opening_of_ensureLoaded hj
    | ok u => exact (enter_opening j _).trans (opening_of_ensureLoaded hj)

/-! ## Runs -/

theorem opening_after {s : Settings} {x : Session} (hx : x.Opens s) (events : List Event) :
    (x.after events).index.opening = (s.namespaces, s.indexKey) := by
  refine Session.after_induction (P := fun i ↦ i.opening = (s.namespaces, s.indexKey))
    (fun hi h ↦ (opening_of_load h).trans hi) (fun hi ↦ (add_opening _ _ _).trans hi) ?_ events
  rw [eq_of_create hx]
  rfl

theorem namespaces_after {s : Settings} {x : Session} (hx : x.Opens s) (events : List Event) :
    (x.after events).index.namespaces = s.namespaces :=
  congrArg Prod.fst (opening_after hx events)

theorem key_after {s : Settings} {x : Session} (hx : x.Opens s) (events : List Event) :
    (x.after events).index.catalog.key = s.indexKey :=
  congrArg Prod.snd (opening_after hx events)

theorem consistent_after {s : Settings} {x : Session} (hx : x.Opens s) (events : List Event) :
    (x.after events).index.Consistent :=
  Session.after_induction (fun _ h ↦ consistent_of_load h) Consistent.add (consistent_create hx)
    events

/-! ## What the derived structures say -/

/-- Every derived structure of an index, told by its entries. -/
structure Represents (i : Index) : Prop where
  /-- The rows decode to the triples of all entries. -/
  rows : i.store.rows.toList.map i.store.dictionary.decodeRow? = i.triples.map some
  /-- The table has the ids of the entries, once each. -/
  ids : i.subjects.keys.Perm (i.entries.map (·.id))
  subjects : ∀ e ∈ i.entries, ∃ c, i.subjects[e.id]? = some c ∧
    ∀ t, t ∈ c ↔ ∃ u ∈ e.triples i.namespaces, u.subject = t
  /-- The dictionary lists the terms of these triples, once each. -/
  terms : ∀ t, t ∈ i.store.dictionary.terms ↔ t ∈ termsOf i.triples
  terms_nodup : i.store.dictionary.terms.toList.Nodup
  lookup : ∀ t, (i.store.dictionary.lookup? t).isSome ↔ t ∈ termsOf i.triples
  sizes : i.sizes =
    ⟨i.entries.length, (i.entries.map (·.statements.length)).sum, (termsOf i.triples).card⟩

variable {i : Index}

theorem Consistent.holds (h : i.Consistent) : i.store.Holds i.triples := by
  rw [h.store]
  exact TripleStore.holds_empty.insertMany i.triples

/-- An entry has the id to itself, so the table holds its subjects and no others under it. -/
theorem Consistent.mem_find_subjects (h : i.Consistent) {e : Entry} (he : e ∈ i.entries)
    {t : Term} : t ∈ i.subjects.find e.id ↔ ∃ u ∈ e.triples i.namespaces, u.subject = t := by
  rw [h.subjects, SubjectTable.mem_find_ofEntries]
  constructor
  · rintro ⟨x, hx, hid, hu⟩
    rwa [← List.inj_on_of_nodup_map h.entries.nodup_ids hx he hid]
  · intro hu
    exact ⟨e, he, rfl, hu⟩

theorem Consistent.mem_subjects (h : i.Consistent) {id : String} :
    id ∈ i.subjects ↔ ∃ e ∈ i.entries, e.id = id := by
  rw [h.subjects, SubjectTable.mem_ofEntries]

theorem length_triples (i : Index) :
    i.triples.length = (i.entries.map (·.statements.length)).sum := by
  simp [triples, List.length_flatMap, Entry.triples]

theorem Consistent.represents (h : i.Consistent)
    (hcard : (termsOf i.triples).card ≤ Dictionary.capacity) : i.Represents where
  rows := h.holds.decode_rows hcard
  ids := by
    refine (List.perm_ext_iff_of_nodup Std.TreeMap.nodup_keys h.entries.nodup_ids).mpr fun id ↦ ?_
    rw [Std.TreeMap.mem_keys, h.mem_subjects, List.mem_map]
    rfl
  subjects e he := by
    have hmem : e.id ∈ i.subjects := h.mem_subjects.mpr ⟨e, he, rfl⟩
    refine ⟨i.subjects[e.id], Std.TreeMap.getElem?_eq_some_getElem hmem, fun t ↦ ?_⟩
    rw [← h.mem_find_subjects he, SubjectTable.find, Std.TreeMap.getD_eq_getD_getElem?,
      Std.TreeMap.getElem?_eq_some_getElem hmem]
    rfl
  terms := h.holds.mem_terms
  terms_nodup := h.holds.valid.nodup
  lookup := h.holds.lookup?_isSome_iff
  sizes := by
    rw [sizes, h.holds.size_eq, h.holds.termCount_eq, length_triples]
    rfl

/-- Behind every run of events, whatever storage was met and whatever failed, the derived structures
of an index say what its entries say and nothing else. -/
theorem represents_after {s : Settings} {x : Session} (hx : x.Opens s) (events : List Event)
    (hcard : (termsOf (x.after events).index.triples).card ≤ Dictionary.capacity) :
    (x.after events).index.namespaces = s.namespaces ∧ (x.after events).index.Represents ∧
      ((x.after events).index.catalog.loaded = true → ∀ a,
        (x.after events).index.stats a =
          (.ok (x.after events).index.sizes, (x.after events).index)) := by
  refine ⟨namespaces_after hx events, (consistent_after hx events).represents hcard, ?_⟩
  intro hloaded a
  rw [stats, ask_eq_ok_iff]
  exact ⟨ensureLoaded_of_loaded hloaded a, rfl⟩

/-- Two entries, the first of which is then replaced by one with fewer triples, and a reload. -/
def replacing : List Event := [
  .perform (.add ⟨{ kind := "M", name := "a" },
    [⟨"ex:a", "type", "Message"⟩, ⟨"ex:a", "ex:p", "1"⟩]⟩),
  .perform (.add ⟨{ kind := "M", name := "b" }, [⟨"ex:a", "ex:p", "ex:b"⟩]⟩),
  .perform (.add ⟨{ kind := "M", name := "a" }, [⟨"ex:c", "type", "\"Message\""⟩]⟩),
  .perform .load]

theorem card_termsOf_replacing :
    (termsOf (Session.blank.after replacing).index.triples).card ≤ Dictionary.capacity := by
  decide +kernel

theorem represents_after_replacing :
    Session.blank.Opens {} ∧
      (termsOf (Session.blank.after replacing).index.triples).card ≤ Dictionary.capacity ∧
      (Session.blank.after replacing).index.Represents :=
  ⟨Session.opens_blank, card_termsOf_replacing,
    (represents_after Session.opens_blank replacing card_termsOf_replacing).2.1⟩

end Index

end TripleIndex
