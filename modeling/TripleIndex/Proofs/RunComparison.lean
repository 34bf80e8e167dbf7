import TripleIndex.Proofs.Failure
import TripleIndex.Proofs.Files
import TripleIndex.Proofs.Replay
import TripleIndex.Proofs.Respelling

/-!
# Runs with respelled terms

Two runs whose additions and questions differ in nothing but spelling get the same answers
(`Session.trace_respelled`).

* **Indexes.**  What an index answers depends on the readings of its entries (`Index.readings`), in
  which only the terms of statements are left and not their texts.  Indexes with the same readings
  answer respelled questions alike, and respelled additions lead to the same readings
  (`Index.Alike`).
* **Storages.**  The logs of the two runs differ from the first addition that is recorded, and from
  then on they are not read any more.  Until then the two sessions are the same, for a failed
  addition leaves the same behind whatever was to be added.  From then on an append to the key
  succeeds unless it is refused (`Storage.append_of_keeps`), so additions still fail in both runs or
  in none.
-/

namespace TripleIndex

/-! ## Readings -/

/-- What the answers of an index depend on, of an entry. -/
structure Reading where
  id : String
  identifier : Identifier
  triples : List Triple

def Entry.reading (ns : Namespaces) (e : Entry) : Reading := ⟨e.id, e.identifier, e.triples ns⟩

namespace Index

def readings (i : Index) : List Reading := i.entries.map (·.reading i.namespaces)

theorem triples_eq_flatMap_readings (i : Index) : i.triples = i.readings.flatMap (·.triples) := by
  rw [readings, List.flatMap_map]
  rfl

theorem ofEntries_eq_foldl_readings (i : Index) :
    SubjectTable.ofEntries i.namespaces i.entries =
      i.readings.foldl (fun m r ↦ m.file r.id r.triples) ∅ := by
  rw [readings, List.foldl_map]
  rfl

theorem Consistent.has_iff (h : Consistent i) (id : String) :
    i.catalog.entries.has id = true ↔ ∃ r ∈ i.readings, r.id = id := by
  rw [h.entries.has_iff, readings]
  constructor
  · rintro ⟨e, he, hid⟩
    exact ⟨_, List.mem_map_of_mem he, hid⟩
  · rintro ⟨r, hr, hid⟩
    obtain ⟨e, he, rfl⟩ := List.mem_map.mp hr
    exact ⟨e, he, hid⟩

/-- An addition puts the reading of the new entry in the place of the one with its id, or behind the
others. -/
theorem Consistent.readings_enter (h : Consistent i) {e : Entry} (he : e.keyed = e) :
    (i.enter e).readings =
      if i.catalog.entries.has e.id then
        i.readings.map fun r ↦ if r.id = e.id then e.reading i.namespaces else r
      else i.readings ++ [e.reading i.namespaces] := by
  have hns : (i.enter e).namespaces = i.namespaces := congrArg Prod.fst (i.enter_opening e)
  rw [readings, hns, Index.entries, enter_entries]
  split
  · rename_i hhas
    rw [h.entries.toList_put_of_has (by rwa [he]), he, List.map_map, readings, List.map_map]
    refine List.map_congr_left fun x _ ↦ ?_
    exact apply_ite (Entry.reading i.namespaces) _ _ _
  · rename_i hhas
    rw [Bool.not_eq_true] at hhas
    rw [Entries.toList_put_of_not_has (by rwa [he]), he, List.map_append]
    rfl

/-! ## Alike indexes -/

/-- Two indexes under a table of namespaces that read alike. -/
structure Alike (ns : Namespaces) (i j : Index) : Prop where
  consistent_left : i.Consistent
  consistent_right : j.Consistent
  namespaces_left : i.namespaces = ns
  namespaces_right : j.namespaces = ns
  key : i.catalog.key = j.catalog.key
  readings : i.readings = j.readings

namespace Alike

variable {ns : Namespaces} {i j : Index}

theorem refl (h : i.Consistent) (hns : i.namespaces = ns) : Alike ns i i :=
  ⟨h, h, hns, hns, rfl, rfl⟩

theorem store (h : Alike ns i j) : i.store = j.store := by
  rw [h.consistent_left.store, h.consistent_right.store, triples_eq_flatMap_readings, h.readings,
    ← triples_eq_flatMap_readings]

theorem subjects (h : Alike ns i j) : i.subjects = j.subjects := by
  rw [h.consistent_left.subjects, h.consistent_right.subjects, ofEntries_eq_foldl_readings,
    h.readings, ← ofEntries_eq_foldl_readings]

theorem has (h : Alike ns i j) (id : String) :
    i.catalog.entries.has id = j.catalog.entries.has id := by
  rw [Bool.eq_iff_iff, h.consistent_left.has_iff, h.consistent_right.has_iff, h.readings]

theorem identifiers (h : Alike ns i j) :
    i.entries.map (·.identifier) = j.entries.map (·.identifier) := by
  have hmap (k : Index) : k.entries.map (·.identifier) = k.readings.map (·.identifier) := by
    rw [Index.readings, List.map_map]
    rfl
  rw [hmap, hmap, h.readings]

theorem sizes (h : Alike ns i j) : i.sizes = j.sizes := by
  have hlength (k : Index) : k.catalog.entries.size = k.readings.length := by
    rw [Index.readings, List.length_map]
    rfl
  rw [Index.sizes, Index.sizes, hlength, hlength, h.readings, h.store]

/-- The entries about some subjects are told by their ids. -/
theorem about (h : Alike ns i j) (wanted : Std.TreeSet Term) :
    (i.entries.filter (i.isAbout wanted)).map (·.identifier) =
      (j.entries.filter (j.isAbout wanted)).map (·.identifier) := by
  have habout (k : Index) : (k.entries.filter (k.isAbout wanted)).map (·.identifier) =
      (k.readings.filter fun r ↦ (k.subjects.find r.id).any wanted.contains).map
        (·.identifier) := by
    rw [Index.readings, List.filter_map, List.map_map]
    rfl
  rw [habout, habout, h.readings, h.subjects]

theorem matching (h : Alike ns i j) {p q : Pattern} (hpq : ns.pattern p = ns.pattern q)
    (f : Filter) : i.matching p f = j.matching q f := by
  rw [Index.matching, Index.matching, h.namespaces_left, h.namespaces_right, hpq, h.store]
  dsimp only
  rw [h.about]

theorem typed (h : Alike ns i j) {s t : Option String} (hst : ns.term? s = ns.term? t) :
    i.typed s = j.typed t := by
  rw [Index.typed, Index.typed, h.namespaces_left, h.namespaces_right, hst, h.store]

theorem enter (h : Alike ns i j) {d e : Entry} (hd : d.keyed = d) (he : e.keyed = e)
    (hread : d.reading ns = e.reading ns) : Alike ns (i.enter d) (j.enter e) := by
  have hid : d.id = e.id := congrArg Reading.id hread
  refine ⟨h.consistent_left.enter hd, h.consistent_right.enter he, ?_, ?_, ?_, ?_⟩
  · exact (congrArg Prod.fst (i.enter_opening d)).trans h.namespaces_left
  · exact (congrArg Prod.fst (j.enter_opening e)).trans h.namespaces_right
  · calc (i.enter d).catalog.key
        = i.catalog.key := congrArg Prod.snd (i.enter_opening d)
      _ = j.catalog.key := h.key
      _ = (j.enter e).catalog.key := (congrArg Prod.snd (j.enter_opening e)).symm
  · rw [h.consistent_left.readings_enter hd, h.consistent_right.readings_enter he,
      h.namespaces_left, h.namespaces_right, hread, hid, h.has, h.readings]

end Alike

end Index

/-! ## Respelled operations -/

/-- The same addition or question with terms that may be spelled otherwise. -/
inductive Operation.Respells (ns : Namespaces) : Operation → Operation → Prop
  | add {ss ts : List Statement} (identifier : Identifier)
      (h : List.Forall₂ (Statement.Respells ns) ss ts) :
      Respells ns (.add ⟨identifier, ss⟩) (.add ⟨identifier, ts⟩)
  | query {p q : Pattern} (f : Filter) (h : p.Respells ns q) : Respells ns (.query p f) (.query q f)
  | typedSubjects {s t : Option String} (h : Option.Rel ns.Respells s t) :
      Respells ns (.typedSubjects s) (.typedSubjects t)
  | has (id : String) : Respells ns (.has id) (.has id)
  | identifiers : Respells ns .identifiers .identifiers
  | stats : Respells ns .stats .stats

namespace Session

/-- Two sessions that answer alike from here on: the same session, or loaded indexes that read alike
over storages that both have a log to append to. -/
structure Alike (ns : Namespaces) (x y : Session) : Prop where
  index : x.index.Alike ns y.index
  parted : x = y ∨ (x.index.catalog.loaded = true ∧ y.index.catalog.loaded = true) ∧
    x.access.refused = y.access.refused ∧
      (∃ octets, x.access.storage.Keeps x.index.catalog.key octets) ∧
      ∃ octets, y.access.storage.Keeps y.index.catalog.key octets

namespace Alike

variable {ns : Namespaces} {x y : Session}

theorem refl (h : x.index.Consistent) (hns : x.index.namespaces = ns) : Alike ns x x :=
  ⟨.refl h hns, .inl rfl⟩

/-- Questions that alike indexes answer alike are answered alike, also when loading fails, and leave
the sessions alike. -/
theorem ask (h : Alike ns x y) {α : Type} {answer answer' : Index → α}
    (hanswer : ∀ i j, Index.Alike ns i j → answer i = answer' j) :
    (x.index.ask x.access answer).1 = (y.index.ask y.access answer').1 ∧
      Alike ns ⟨(x.index.ask x.access answer).2, x.access⟩
        ⟨(y.index.ask y.access answer').2, y.access⟩ := by
  obtain ⟨hindex, rfl | hparted⟩ := h
  · rw [Index.ask, Index.ask]
    cases hj : x.index.ensureLoaded x.access with
    | error e => exact ⟨rfl, hindex, .inl rfl⟩
    | ok j =>
      have hns : j.namespaces = x.index.namespaces :=
        congrArg Prod.fst (Index.opening_of_ensureLoaded hj)
      have hsame := Index.Alike.refl (hindex.consistent_left.ensureLoaded hj)
        (hns.trans hindex.namespaces_left)
      exact ⟨congrArg Except.ok (hanswer j j hsame), hsame, .inl rfl⟩
  · rw [Index.ask, Index.ask, Index.ensureLoaded_of_loaded hparted.1.1,
      Index.ensureLoaded_of_loaded hparted.1.2]
    exact ⟨congrArg Except.ok (hanswer _ _ hindex), hindex, .inr hparted⟩

/-- What two recorded additions of the same reading leave. -/
theorem of_recorded {i j : Index} {a b a' b' : Access} {u v : Submission}
    (hindex : Index.Alike ns i j) (hi : i.catalog.loaded = true) (hj : j.catalog.loaded = true)
    (hrefused : a.refused = b.refused)
    (hread : (Entry.ofSubmission u).reading ns = (Entry.ofSubmission v).reading ns)
    (ha : a.append i.catalog.key (Log.octets (.ofSubmission u)) = (.ok (), a'))
    (hb : b.append j.catalog.key (Log.octets (.ofSubmission v)) = (.ok (), b')) :
    Alike ns ⟨i.enter (.ofSubmission u), a'⟩ ⟨j.enter (.ofSubmission v), b'⟩ := by
  obtain ⟨hrefused_left, happend_left⟩ := Access.append_eq_ok ha
  obtain ⟨hrefused_right, happend_right⟩ := Access.append_eq_ok hb
  refine ⟨hindex.enter (Entry.keyed_ofSubmission u) (Entry.keyed_ofSubmission v) hread, .inr ?_⟩
  refine ⟨⟨?_, ?_⟩, ?_, ?_, ?_⟩
  · exact (Index.enter_loaded i _).trans hi
  · exact (Index.enter_loaded j _).trans hj
  · exact hrefused_left.trans (hrefused.trans hrefused_right.symm)
  · rw [show (i.enter (.ofSubmission u)).catalog.key = _ from
      congrArg Prod.snd (i.enter_opening _)]
    exact ⟨_, Storage.keeps_of_append happend_left⟩
  · rw [show (j.enter (.ofSubmission v)).catalog.key = _ from
      congrArg Prod.snd (j.enter_opening _)]
    exact ⟨_, Storage.keeps_of_append happend_right⟩

/-- Additions of the same reading are recorded both or neither, and leave the sessions alike. -/
theorem add (h : Alike ns x y) {u v : Submission}
    (hread : (Entry.ofSubmission u).reading ns = (Entry.ofSubmission v).reading ns) :
    (x.index.add x.access u).1 = (y.index.add y.access v).1 ∧
      Alike ns ⟨(x.index.add x.access u).2.1, (x.index.add x.access u).2.2⟩
        ⟨(y.index.add y.access v).2.1, (y.index.add y.access v).2.2⟩ := by
  obtain ⟨hindex, rfl | ⟨⟨hx, hy⟩, hrefused, ⟨os, hkeeps⟩, os', hkeeps'⟩⟩ := h
  · -- The same session: one addition fails like the other.
    obtain ⟨i, a⟩ := x
    have hopening := i.add_opening a u
    have hconsistent := hindex.consistent_left.add (a := a) (s := u)
    generalize hadd : i.add a u = r at hopening hconsistent
    obtain ⟨done, i', a'⟩ := r
    cases done with
    | error e =>
      rw [Index.add_of_add_eq_error hadd v]
      exact ⟨rfl, .refl hconsistent ((congrArg Prod.fst hopening).trans hindex.namespaces_left)⟩
    | ok _ =>
      obtain ⟨j, hj, happend, rfl⟩ := Index.eq_of_add hadd
      generalize hadd' : i.add a v = r'
      obtain ⟨done, i'', a''⟩ := r'
      cases done with
      | error e =>
        rw [Index.add_of_add_eq_error hadd' u] at hadd
        cases hadd
      | ok _ =>
        obtain ⟨j', hj', happend', rfl⟩ := Index.eq_of_add hadd'
        obtain rfl : j = j' := Except.ok.inj (hj.symm.trans hj')
        have hloaded := Index.loaded_of_ensureLoaded hj
        have hns : j.namespaces = i.namespaces :=
          congrArg Prod.fst (Index.opening_of_ensureLoaded hj)
        have hsame := Index.Alike.refl (hindex.consistent_left.ensureLoaded hj)
          (hns.trans hindex.namespaces_left)
        exact ⟨rfl, of_recorded hsame hloaded hloaded rfl hread happend happend'⟩
  · -- Parted sessions: what is not refused is appended.
    rw [Index.add_eq, Index.add_eq, Index.ensureLoaded_of_loaded hx,
      Index.ensureLoaded_of_loaded hy]
    dsimp only
    by_cases hpermit : .append ∈ x.access.refused
    · rw [Access.append_of_mem hpermit, Access.append_of_mem (hrefused ▸ hpermit), hindex.key]
      exact ⟨rfl, hindex, .inr ⟨⟨hx, hy⟩, hrefused, ⟨os, hkeeps⟩, os', hkeeps'⟩⟩
    · obtain ⟨a', ha⟩ :=
        Access.append_of_keeps hpermit hkeeps (Log.octets (Entry.ofSubmission u))
      obtain ⟨b', hb⟩ :=
        Access.append_of_keeps (hrefused ▸ hpermit) hkeeps' (Log.octets (Entry.ofSubmission v))
      rw [ha, hb]
      exact ⟨rfl, of_recorded hindex hx hy hrefused hread ha hb⟩

/-- An operation and a respelled one get the same answer and leave the sessions alike. -/
theorem step (h : Alike ns x y) (hns : ns.Conventional) {o o' : Operation}
    (ho : o.Respells ns o') :
    (o.perform x.index x.access).1 = (o'.perform y.index y.access).1 ∧
      Alike ns (x.step (.perform o)) (y.step (.perform o')) := by
  have hask {α : Type} {answer answer' : Index → α} (make : α → Answer)
      (hanswer : ∀ i j, Index.Alike ns i j → answer i = answer' j) :
      (x.index.ask x.access answer).1.map make = (y.index.ask y.access answer').1.map make ∧
        Alike ns ⟨(x.index.ask x.access answer).2, x.access⟩
          ⟨(y.index.ask y.access answer').2, y.access⟩ := by
    obtain ⟨hfirst, hrest⟩ := h.ask hanswer
    exact ⟨congrArg _ hfirst, hrest⟩
  cases ho with
  | add identifier hst =>
    have hread : ∀ {ss ts}, List.Forall₂ (Statement.Respells ns) ss ts →
        (Entry.ofSubmission ⟨identifier, ss⟩).reading ns =
          (Entry.ofSubmission ⟨identifier, ts⟩).reading ns := by
      intro ss ts hst
      exact congrArg (Reading.mk identifier.rendering identifier) (hns.map_triple_eq hst)
    obtain ⟨hfirst, hrest⟩ := h.add (hread hst)
    exact ⟨congrArg (·.map fun _ ↦ Answer.done) hfirst, hrest⟩
  | query f hpq => exact hask _ fun i j hij ↦ hij.matching (hns.pattern_eq hpq) f
  | typedSubjects hst => exact hask _ fun i j hij ↦ hij.typed (hns.term?_eq hst)
  | has id => exact hask _ fun i j hij ↦ hij.has id
  | identifiers => exact hask _ fun i j hij ↦ hij.identifiers
  | stats => exact hask _ fun i j hij ↦ hij.sizes

theorem trace (h : Alike ns x y) (hns : ns.Conventional) {os os' : List Operation}
    (hos : List.Forall₂ (Operation.Respells ns) os os') :
    (x.trace os).map Prod.snd = (y.trace os').map Prod.snd := by
  induction hos generalizing x y with
  | nil => rfl
  | cons ho _ ih =>
    obtain ⟨hanswer, hstep⟩ := h.step hns ho
    rw [Session.trace, Session.trace, List.map_cons, List.map_cons, hanswer, ih hstep]

end Alike

/-- Whatever the storage holds and refuses, a run of additions and questions gets the answers that
the run gets in which terms are spelled otherwise. -/
theorem trace_respelled {s : Settings} {x : Session} (hx : x.Opens s)
    (hns : s.namespaces.Conventional) {os os' : List Operation}
    (hos : List.Forall₂ (Operation.Respells s.namespaces) os os') :
    (x.trace os).map Prod.snd = (x.trace os').map Prod.snd := by
  have hopening : x.index.namespaces = s.namespaces := by rw [Index.eq_of_create hx]
  exact (Alike.refl (Index.consistent_create hx) hopening).trace hns hos

/-- The standard table with an empty prefix and another one. -/
def widened : Settings where
  namespaces := .insertMany .standard [("", "http://a.invalid/"), ("b", "https://b.invalid/#")]

theorem conventional_widened : widened.namespaces.Conventional where
  additions := ⟨_, rfl, by decide⟩
  rdf := by decide +kernel

/-- Additions with prefixed names, then questions. -/
def abbreviating : List Operation := [
  .add ⟨{ kind := "M", name := "a" }, [⟨"b:x", "type", ":Message"⟩, ⟨"::x", "@type", "null"⟩]⟩,
  .add ⟨{ kind := "M", name := "b" }, [⟨"b:x", "ex:p", "_"⟩]⟩,
  .query { subject := some "b:x", predicate := some "rdf:type", object := some "*" } {},
  .typedSubjects (some ":Message"),
  .stats]

/-- The same with IRIs in full and other spellings of what gives a type. -/
def expanding : List Operation := [
  .add ⟨{ kind := "M", name := "a" }, [
    ⟨"https://b.invalid/#x", "http://www.w3.org/1999/02/22-rdf-syntax-ns#type",
      "http://a.invalid/Message"⟩,
    ⟨"http://a.invalid/:x", "rdf:type", "null"⟩]⟩,
  .add ⟨{ kind := "M", name := "b" }, [⟨"b:x", "https://example.invalid/p", "_"⟩]⟩,
  .query { subject := some "https://b.invalid/#x", predicate := some "type", object := some "*" }
    {},
  .typedSubjects (some "http://a.invalid/Message"),
  .stats]

theorem respells_expanding :
    List.Forall₂ (Operation.Respells widened.namespaces) abbreviating expanding := by
  have hb : widened.namespaces.expand? "b" = some "https://b.invalid/#" := by decide +kernel
  have hempty : widened.namespaces.expand? "" = some "http://a.invalid/" := by decide +kernel
  have hex : widened.namespaces.expand? "ex" = some "https://example.invalid/" := by
    decide +kernel
  have hx : widened.namespaces.Respells "b:x" "https://b.invalid/#x" :=
    .rel _ _ (.intro "x" hb (by decide))
  have hmessage : widened.namespaces.Respells ":Message" "http://a.invalid/Message" :=
    .rel _ _ (.intro "Message" hempty (by decide))
  have hcolon : widened.namespaces.Respells "::x" "http://a.invalid/:x" :=
    .rel _ _ (.intro ":x" hempty (by decide))
  have hp : widened.namespaces.RespellsPredicate "ex:p" "https://example.invalid/p" :=
    .rel _ _ (.inl (.intro "p" hex (by decide)))
  have htype : ∀ s ∈ typeSpellings, ∀ t ∈ typeSpellings,
      widened.namespaces.RespellsPredicate s t := fun s hs t ht ↦ .rel _ _ (.inr ⟨hs, ht⟩)
  refine .cons (.add _ ?first) (.cons (.add _ ?second) (.cons (.query {} ?pattern)
    (.cons (.typedSubjects (.some hmessage)) (.cons .stats .nil))))
  case first =>
    refine .cons ⟨hx, htype _ (by decide) _ (by decide), hmessage⟩ (.cons ?_ .nil)
    exact ⟨hcolon, htype _ (by decide) _ (by decide), .refl _⟩
  case second => exact .cons ⟨.refl _, hp, .refl _⟩ .nil
  case pattern => exact ⟨.some hx, .some (htype _ (by decide) _ (by decide)), .some (.refl _)⟩

/-- Both runs find both entries about the resource, and its type. -/
theorem trace_respelled_expanding :
    ∃ x : Session, x.Opens widened ∧ widened.namespaces.Conventional ∧
      List.Forall₂ (Operation.Respells widened.namespaces) abbreviating expanding ∧
      (x.trace abbreviating).map Prod.snd = (x.trace expanding).map Prod.snd ∧
      (x.after (expanding.map .perform)).index.typed (some ":Message") =
        [("https://b.invalid/#x", "http://a.invalid/Message")] := by
  have hx : Opens widened
      ⟨{ namespaces := widened.namespaces, catalog := { key := "index.jsonl" } },
        { storage := .memory {} }⟩ := rfl
  exact ⟨_, hx, conventional_widened, respells_expanding,
    trace_respelled hx conventional_widened respells_expanding, by decide +kernel⟩

end Session

end TripleIndex
