import TripleIndex.Entries
import Mathlib.Data.List.Induction
import Mathlib.Data.List.Nodup

/-!
# Lists of entries are keyed

The places that a list of entries remembers are the places where the ids stand, and every entry has
the id that belongs to its identifier.  Putting keeps both, so an id is found once or not at all,
and an entry with a new id goes behind the others.

A list that is put together from nothing holds the newest of the entries that it has been given
(`toList_ofList`).  Its places have been noted in the order of what it holds, so two such lists are
equal as soon as they hold the same (`ofList_eq_of_toList_eq`).
-/

namespace TripleIndex.Entries

/-- The remembered places are right, and ids belong to their identifiers. -/
structure Valid (es : Entries) : Prop where
  keyed : ∀ e ∈ es.items, e.keyed = e
  position_iff : ∀ id k,
    es.positions[id]? = some k ↔ ∃ e : Entry, es.items[k]? = some e ∧ e.id = id

theorem valid_empty : Valid empty where
  keyed e he := by simp [empty] at he
  position_iff id k := by simp [empty]

variable {es : Entries}

theorem Valid.put (h : es.Valid) (e : Entry) : (es.put e).Valid := by
  rw [Entries.put]
  split
  · rename_i k hk
    obtain ⟨old, hold, hid⟩ := (h.position_iff _ _).mp hk
    obtain ⟨hlt, -⟩ := Array.getElem?_eq_some_iff.mp hold
    refine ⟨fun x hx ↦ ?_, fun id j ↦ ?_⟩
    · rcases Array.mem_or_eq_of_mem_setIfInBounds hx with hx | rfl
      · exact h.keyed x hx
      · exact e.keyed_keyed
    · rw [h.position_iff, Array.getElem?_setIfInBounds]
      by_cases hjk : k = j
      · subst hjk
        rw [hold, if_pos rfl, if_pos hlt]
        simp only [Option.some.injEq, exists_eq_left', hid]
      · rw [if_neg hjk]
  · rename_i hnone
    have hnew : ∀ x ∈ es.items, x.id ≠ e.keyed.id := by
      intro x hx hid
      obtain ⟨k, hk⟩ := Array.mem_iff_getElem?.mp hx
      rw [(h.position_iff _ k).mpr ⟨x, hk, hid⟩] at hnone
      cases hnone
    refine ⟨fun x hx ↦ ?_, fun id k ↦ ?_⟩
    · rcases Array.mem_push.mp hx with hx | rfl
      · exact h.keyed x hx
      · exact e.keyed_keyed
    · simp only [Std.TreeMap.getElem?_insert, Std.LawfulEqCmp.compare_eq_iff_eq,
        Array.getElem?_push]
      by_cases hid : e.keyed.id = id
      · rw [if_pos hid]
        constructor
        · rintro ⟨⟩
          exact ⟨e.keyed, if_pos rfl, hid⟩
        · rintro ⟨x, hx, hxid⟩
          by_cases hk : k = es.items.size
          · rw [hk]
          · rw [if_neg hk] at hx
            exact absurd (hxid.trans hid.symm) (hnew x (Array.mem_of_getElem? hx))
      · rw [if_neg hid, h.position_iff]
        by_cases hk : k = es.items.size
        · subst hk
          simpa using hid
        · rw [if_neg hk]

theorem Valid.putMany (h : es.Valid) (list : List Entry) : (es.putMany list).Valid := by
  induction list generalizing es with
  | nil => exact h
  | cons e list ih => exact ih (h.put e)

theorem valid_ofList (list : List Entry) : (ofList list).Valid := valid_empty.putMany list

theorem Valid.has_iff (h : es.Valid) (id : String) :
    es.has id = true ↔ ∃ e ∈ es.toList, e.id = id := by
  rw [has, Std.TreeMap.contains_eq_isSome_getElem?, Option.isSome_iff_exists]
  simp only [h.position_iff, toList, Array.mem_toList_iff, Array.mem_iff_getElem?]
  constructor
  · rintro ⟨k, e, hk, hid⟩
    exact ⟨e, ⟨k, hk⟩, hid⟩
  · rintro ⟨e, ⟨k, hk⟩, hid⟩
    exact ⟨k, e, hk, hid⟩

/-- An id stands at one place only. -/
theorem Valid.nodup_ids (h : es.Valid) : (es.toList.map (·.id)).Nodup := by
  rw [List.nodup_iff_injective_get]
  intro j k hjk
  have hplace : ∀ n : Fin (es.toList.map (·.id)).length,
      es.positions[(es.toList.map (·.id)).get n]? = some n.val := by
    intro n
    have hn : n.val < es.items.size := by simpa [toList] using n.isLt
    refine (h.position_iff _ _).mpr ⟨es.items[n.val], Array.getElem?_eq_getElem hn, ?_⟩
    rw [List.get_eq_getElem, List.getElem_map]
    rfl
  have hj := hplace j
  rw [hjk, hplace k] at hj
  exact Fin.ext (Option.some.inj hj).symm

theorem Valid.id_eq (h : es.Valid) {e : Entry} (he : e ∈ es.toList) :
    e.id = e.identifier.rendering := by
  rw [← h.keyed e (by simpa [toList] using he)]
  rfl

theorem Valid.get?_eq_some_iff (h : es.Valid) {id : String} {e : Entry} :
    es.get? id = some e ↔ e ∈ es.toList ∧ e.id = id := by
  simp only [get?, Option.bind_eq_bind, Option.bind_eq_some_iff, h.position_iff, toList,
    Array.mem_toList_iff, Array.mem_iff_getElem?]
  constructor
  · rintro ⟨k, ⟨x, hx, rfl⟩, hk⟩
    obtain rfl : x = e := Option.some.inj (hx.symm.trans hk)
    exact ⟨⟨k, hk⟩, rfl⟩
  · rintro ⟨⟨k, hk⟩, hid⟩
    exact ⟨k, ⟨e, hk, hid⟩, hk⟩

theorem position_eq_none {id : String} (h : es.has id = false) : es.positions[id]? = none := by
  rw [has, Std.TreeMap.contains_eq_isSome_getElem?] at h
  exact Option.not_isSome_iff_eq_none.mp (by rw [h]; exact Bool.false_ne_true)

theorem exists_position {id : String} (h : es.has id = true) : ∃ k, es.positions[id]? = some k := by
  rwa [has, Std.TreeMap.contains_eq_isSome_getElem?, Option.isSome_iff_exists] at h

/-- An entry with a new id goes behind the others. -/
theorem toList_put_of_not_has {e : Entry} (h : es.has e.keyed.id = false) :
    (es.put e).toList = es.toList ++ [e.keyed] := by
  rw [put, position_eq_none h]
  exact Array.toList_push

theorem positions_put_of_has {e : Entry} (h : es.has e.keyed.id = true) :
    (es.put e).positions = es.positions := by
  obtain ⟨k, hk⟩ := exists_position h
  rw [put, hk]

theorem positions_put_of_not_has {e : Entry} (h : es.has e.keyed.id = false) :
    (es.put e).positions = es.positions.insert e.keyed.id es.items.size := by
  rw [put, position_eq_none h]

/-- An entry takes the place of the one with its id. -/
theorem Valid.toList_put_of_has (h : es.Valid) {e : Entry} (hhas : es.has e.keyed.id = true) :
    (es.put e).toList = es.toList.map fun x ↦ if x.id = e.keyed.id then e.keyed else x := by
  obtain ⟨k, hk⟩ := exists_position hhas
  obtain ⟨old, hold, hid⟩ := (h.position_iff _ _).mp hk
  rw [Entries.put, hk]
  refine List.ext_getElem? fun j ↦ ?_
  simp only [toList, Array.toList_setIfInBounds, List.getElem?_map, List.getElem?_set,
    Array.getElem?_toList, Array.length_toList]
  by_cases hj : k = j
  · subst hj
    obtain ⟨hlt, -⟩ := Array.getElem?_eq_some_iff.mp hold
    rw [if_pos rfl, if_pos hlt, hold, Option.map_some, if_pos hid]
  · rw [if_neg hj]
    cases hx : es.items[j]? with
    | none => rfl
    | some x =>
      have hne : x.id ≠ e.keyed.id := by
        intro hxid
        have hplace := (h.position_iff e.keyed.id j).mpr ⟨x, hx, hxid⟩
        rw [hk] at hplace
        exact hj (Option.some.inj hplace)
      rw [Option.map_some, if_neg hne]

/-- An entry with an id that is there leaves the ids as they stand. -/
theorem Valid.map_id_put (h : es.Valid) {e : Entry} (hhas : es.has e.keyed.id = true) :
    (es.put e).toList.map (·.id) = es.toList.map (·.id) := by
  rw [h.toList_put_of_has hhas, List.map_map]
  refine List.map_congr_left fun x _ ↦ ?_
  by_cases hx : x.id = e.keyed.id
  · rw [Function.comp_apply, if_pos hx, hx]
  · rw [Function.comp_apply, if_neg hx]

/-- What has been put is found under its id. -/
theorem Valid.get?_put (h : es.Valid) (e : Entry) : (es.put e).get? e.keyed.id = some e.keyed := by
  refine (h.put e).get?_eq_some_iff.mpr ⟨?_, rfl⟩
  cases hhas : es.has e.keyed.id with
  | false =>
    rw [toList_put_of_not_has hhas]
    exact List.mem_append_right _ List.mem_cons_self
  | true =>
    obtain ⟨old, hold, hid⟩ := (h.has_iff _).mp hhas
    rw [h.toList_put_of_has hhas, List.mem_map]
    exact ⟨old, hold, if_pos hid⟩

end TripleIndex.Entries

/-! ## The newest entries -/

namespace TripleIndex.Entry

/-- The last of some entries with an id. -/
def last? (es : List Entry) (id : String) : Option Entry :=
  es.reverse.find? fun e ↦ e.identifier.rendering = id

/-- One entry per rendering of an identifier: in the order in which the renderings came first, and
each as it came last. -/
def newest (es : List Entry) : List Entry :=
  (es.map (·.identifier.rendering)).eraseDups.filterMap (last? es)

theorem last?_append_singleton (es : List Entry) (e : Entry) (id : String) :
    last? (es ++ [e]) id = if e.identifier.rendering = id then some e else last? es id := by
  simp only [last?, List.reverse_append, List.reverse_singleton, List.singleton_append,
    List.find?_cons]
  by_cases h : e.identifier.rendering = id <;> simp [h]

theorem rendering_of_last? {es : List Entry} {e : Entry} {id : String} (h : last? es id = some e) :
    e.identifier.rendering = id := by
  simpa using List.find?_some h

theorem mem_of_last? {es : List Entry} {e : Entry} {id : String} (h : last? es id = some e) :
    e ∈ es :=
  List.mem_reverse.mp (List.mem_of_find?_eq_some h)

theorem last?_eq_none_iff {es : List Entry} {id : String} :
    last? es id = none ↔ id ∉ es.map (·.identifier.rendering) := by
  simp [last?]

theorem exists_last? {es : List Entry} {id : String}
    (h : id ∈ es.map (·.identifier.rendering)) : ∃ e, last? es id = some e :=
  Option.ne_none_iff_exists'.mp fun hnone ↦ last?_eq_none_iff.mp hnone h

/-- Every rendering is there once, in the order in which they came first. -/
theorem map_rendering_newest (es : List Entry) :
    (newest es).map (·.identifier.rendering) = (es.map (·.identifier.rendering)).eraseDups := by
  have hid : ∀ id ∈ (es.map (·.identifier.rendering)).eraseDups,
      (last? es id).map (·.identifier.rendering) = some id := by
    intro id hid
    obtain ⟨e, he⟩ := exists_last? (List.mem_eraseDups.mp hid)
    rw [he, Option.map_some, rendering_of_last? he]
  rw [newest, List.map_filterMap, List.filterMap_congr hid]
  exact List.filterMap_some

theorem mem_of_mem_newest {es : List Entry} {e : Entry} (h : e ∈ newest es) : e ∈ es := by
  obtain ⟨id, -, he⟩ := List.mem_filterMap.mp h
  exact mem_of_last? he

theorem newest_append_singleton (es : List Entry) (e : Entry) :
    newest (es ++ [e]) =
      if e.identifier.rendering ∈ es.map (·.identifier.rendering) then
        (newest es).map fun x ↦
          if x.identifier.rendering = e.identifier.rendering then e else x
      else newest es ++ [e] := by
  rw [newest, List.map_append, List.map_singleton, List.eraseDups_append]
  by_cases hmem : e.identifier.rendering ∈ es.map (·.identifier.rendering)
  · have hnone : [e.identifier.rendering].removeAll (es.map (·.identifier.rendering)) = [] := by
      simpa [List.removeAll] using hmem
    rw [if_pos hmem, hnone, List.eraseDups_nil, List.append_nil, newest, List.map_filterMap]
    refine List.filterMap_congr fun id hid ↦ ?_
    obtain ⟨x, hx⟩ := exists_last? (List.mem_eraseDups.mp hid)
    rw [last?_append_singleton, hx, Option.map_some, rendering_of_last? hx]
    simp only [eq_comm (a := id)]
    split <;> rfl
  · have hone : [e.identifier.rendering].removeAll (es.map (·.identifier.rendering)) =
        [e.identifier.rendering] := by
      simpa [List.removeAll] using hmem
    rw [if_neg hmem, hone, List.filterMap_append]
    have hold : ∀ id ∈ (es.map (·.identifier.rendering)).eraseDups,
        last? (es ++ [e]) id = last? es id := by
      intro id hid
      have hne : e.identifier.rendering ≠ id := by
        rintro rfl
        exact hmem (List.mem_eraseDups.mp hid)
      rw [last?_append_singleton, if_neg hne]
    rw [List.filterMap_congr hold, List.eraseDups_cons]
    simp [newest, last?_append_singleton]

theorem newest_of_nodup {es : List Entry} (h : (es.map (·.identifier.rendering)).Nodup) :
    newest es = es := by
  induction es using List.reverseRecOn with
  | nil => rfl
  | append_singleton es e ih =>
    rw [List.map_append, List.map_singleton, List.nodup_append] at h
    obtain ⟨hes, -, hdisjoint⟩ := h
    have hnew : e.identifier.rendering ∉ es.map (·.identifier.rendering) := fun hmem ↦
      hdisjoint _ hmem _ List.mem_cons_self rfl
    rw [newest_append_singleton, if_neg hnew, ih hes]

/-- Records that come again as a whole change nothing. -/
theorem newest_append_self (es : List Entry) : newest (es ++ es) = newest es := by
  have hnone : (es.map (·.identifier.rendering)).removeAll
      (es.map (·.identifier.rendering)) = [] := by
    simp [List.removeAll]
  have hlast : last? (es ++ es) = last? es := by
    funext id
    rw [last?, last?, List.reverse_append, List.find?_append, Option.or_self]
  rw [newest, hlast, List.map_append, List.eraseDups_append, hnone, List.eraseDups_nil,
    List.append_nil, newest]

end TripleIndex.Entry

namespace TripleIndex.Entries

theorem mem_ids_ofList_iff {es : List Entry} {id : String}
    (h : (ofList es).toList = (Entry.newest es).map Entry.keyed) :
    (ofList es).has id = true ↔ id ∈ es.map (·.identifier.rendering) := by
  rw [(valid_ofList es).has_iff, h, ← List.mem_eraseDups, ← Entry.map_rendering_newest]
  simp

/-- A list of entries holds the newest of those that have been put into it, keyed. -/
theorem toList_ofList (es : List Entry) :
    (ofList es).toList = (Entry.newest es).map Entry.keyed := by
  induction es using List.reverseRecOn with
  | nil => rfl
  | append_singleton es e ih =>
    have hput : ofList (es ++ [e]) = (ofList es).put e := putMany_append empty es [e]
    rw [hput, Entry.newest_append_singleton]
    split
    · rename_i hmem
      rw [(valid_ofList es).toList_put_of_has ((mem_ids_ofList_iff ih).mpr hmem), ih,
        List.map_map, List.map_map]
      refine List.map_congr_left fun x _ ↦ ?_
      exact (apply_ite Entry.keyed _ _ _).symm
    · rename_i hmem
      have hnew : (ofList es).has e.keyed.id = false :=
        Bool.eq_false_iff.mpr fun hhas ↦ hmem ((mem_ids_ofList_iff ih).mp hhas)
      rw [toList_put_of_not_has hnew, ih, List.map_append, List.map_singleton]

/-- The places of some ids, each noted where it stands. -/
def notedPlaces (ids : List String) : Std.TreeMap String Nat :=
  ids.zipIdx.foldl (fun places p ↦ places.insert p.1 p.2) ∅

/-- The places that a list of entries remembers have been noted in the order of the entries. -/
theorem positions_ofList (list : List Entry) :
    (ofList list).positions = notedPlaces ((ofList list).toList.map (·.id)) := by
  induction list using List.reverseRecOn with
  | nil => rfl
  | append_singleton list e ih =>
    have hput : ofList (list ++ [e]) = (ofList list).put e := putMany_append empty list [e]
    rw [hput]
    cases hhas : (ofList list).has e.keyed.id with
    | true => rw [(valid_ofList list).map_id_put hhas, positions_put_of_has hhas, ih]
    | false =>
      rw [toList_put_of_not_has hhas, positions_put_of_not_has hhas, ih, List.map_append,
        notedPlaces, notedPlaces, List.zipIdx_append, List.foldl_append]
      simp [toList]

/-- Lists that have been put together from entries are the same if they hold the same. -/
theorem ofList_eq_of_toList_eq {l m : List Entry} (h : (ofList l).toList = (ofList m).toList) :
    ofList l = ofList m := by
  have hitems : (ofList l).items = (ofList m).items := Array.toList_inj.mp h
  have hpositions : (ofList l).positions = (ofList m).positions := by
    rw [positions_ofList, positions_ofList, h]
  calc ofList l = ⟨(ofList l).items, (ofList l).positions⟩ := rfl
    _ = ofList m := by rw [hitems, hpositions]

theorem nodup_rendering_newest (list : List Entry) :
    ((Entry.newest list).map (·.identifier.rendering)).Nodup := by
  have h := (valid_ofList list).nodup_ids
  rwa [toList_ofList, List.map_map] at h

theorem ofList_append_self (list : List Entry) : ofList (list ++ list) = ofList list := by
  refine ofList_eq_of_toList_eq ?_
  rw [toList_ofList, toList_ofList, Entry.newest_append_self]

/-- Putting the entries of such a list together again gives the list. -/
theorem ofList_toList_ofList (list : List Entry) : ofList (ofList list).toList = ofList list := by
  have hnodup : (((Entry.newest list).map Entry.keyed).map (·.identifier.rendering)).Nodup := by
    rw [List.map_map]
    exact nodup_rendering_newest list
  refine ofList_eq_of_toList_eq ?_
  rw [toList_ofList, toList_ofList, Entry.newest_of_nodup hnodup, List.map_map]
  rfl

end TripleIndex.Entries
