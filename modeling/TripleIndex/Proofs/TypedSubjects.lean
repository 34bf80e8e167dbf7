import TripleIndex.Proofs.Query

/-!
# Typed subjects

The listing of typed subjects, told by the triples in the order of entries: a text is listed when
some triple gives its subject a type, and it is listed with the text of the type that the last such
triple gives (`Index.ListsTypes`).  Subjects with the same text share a line, whichever kinds of
terms they are.

What counts is where an entry stands, and not when it came: an entry that takes another one's place
does not get ahead of those behind it (`lastType_append_iff`).
-/

namespace TripleIndex

/-- The triple gives its subject a type: the one that a filter spells, if it spells one. -/
def Triple.GivesType (ns : Namespaces) (type? : Option String) (t : Triple) : Prop :=
  t.predicate = rdfType ∧ ∀ s, type? = some s → isWildcard (some s) = false → t.object = ns.term s

/-- The last triple that gives a type to a subject with this text gives a type with that text. -/
def LastType (ns : Namespaces) (type? : Option String) (ts : List Triple) (text type : String) :
    Prop :=
  ∃ before t behind, ts = before ++ t :: behind ∧
    t.GivesType ns type? ∧ t.subject.value = text ∧ t.object.value = type ∧
    ∀ u ∈ behind, u.GivesType ns type? → u.subject.value ≠ text

section

variable {ns : Namespaces} {type? : Option String} {ts us : List Triple} {t : Triple}
  {text type : String}

/-- The pattern of the listing matches the triples that give a type. -/
theorem matches_typing_iff :
    (⟨none, some rdfType, ns.term? type?⟩ : TermPattern).Matches t ↔ t.GivesType ns type? := by
  constructor
  · rintro ⟨-, hpredicate, hobject⟩
    refine ⟨hpredicate rdfType rfl, ?_⟩
    intro s hs hspelled
    apply hobject
    rw [Namespaces.term?, hs, spelled, Option.filter_some, hspelled]
    rfl
  · rintro ⟨hpredicate, hobject⟩
    refine ⟨?subject, ?predicate, ?object⟩
    case subject =>
      intro u hu
      cases hu
    case predicate =>
      intro u hu
      cases hu
      exact hpredicate
    case object =>
      intro u hu
      obtain ⟨s, hs, rfl⟩ := Option.map_eq_some_iff.mp hu
      obtain ⟨htype, hspelled⟩ := Option.filter_eq_some_iff.mp hs
      exact hobject s htype (by simpa using hspelled)

/-- Where a list that ends in a member is cut at a member: at this one or before it. -/
theorem cut_of_concat_eq {α : Type} {l before behind : List α} {a b : α}
    (h : l ++ [a] = before ++ b :: behind) :
    (behind = [] ∧ l = before ∧ a = b) ∨
      ∃ rest, behind = rest ++ [a] ∧ l = before ++ b :: rest := by
  rcases List.eq_nil_or_concat behind with rfl | ⟨rest, c, rfl⟩
  · obtain ⟨hl, hab⟩ := List.append_inj' h rfl
    exact .inl ⟨rfl, hl, List.singleton_inj.mp hab⟩
  · rw [List.concat_eq_append, ← List.cons_append, ← List.append_assoc] at h
    obtain ⟨hl, hac⟩ := List.append_inj' h rfl
    rw [List.singleton_inj.mp hac]
    exact .inr ⟨rest, List.concat_eq_append, hl⟩

theorem not_lastType_nil : ¬ LastType ns type? [] text type := by
  rintro ⟨before, t, behind, hnil, -⟩
  simp at hnil

/-- A triple behind the others has the last word about its own subject. -/
theorem lastType_concat_of_subject (hgives : t.GivesType ns type?)
    (htext : t.subject.value = text) :
    LastType ns type? (ts ++ [t]) text type ↔ t.object.value = type := by
  constructor
  · rintro ⟨before, u, behind, hts, hu, hutext, rfl, hbehind⟩
    rcases cut_of_concat_eq hts with ⟨-, -, rfl⟩ | ⟨rest, rfl, -⟩
    · rfl
    · exact absurd htext (hbehind t (by simp) hgives)
  · rintro rfl
    exact ⟨ts, t, [], rfl, hgives, htext, rfl, fun u hu ↦ absurd hu List.not_mem_nil⟩

/-- A triple behind the others has no word about other subjects. -/
theorem lastType_concat_of_not_subject (h : ¬ (t.GivesType ns type? ∧ t.subject.value = text)) :
    LastType ns type? (ts ++ [t]) text type ↔ LastType ns type? ts text type := by
  constructor
  · rintro ⟨before, u, behind, hts, hu, hutext, htype, hbehind⟩
    rcases cut_of_concat_eq hts with ⟨-, -, rfl⟩ | ⟨rest, rfl, rfl⟩
    · exact absurd ⟨hu, hutext⟩ h
    · refine ⟨before, u, rest, rfl, hu, hutext, htype, ?_⟩
      intro w hw
      exact hbehind w (List.mem_append_left _ hw)
  · rintro ⟨before, u, behind, rfl, hu, hutext, htype, hbehind⟩
    refine ⟨before, u, behind ++ [t], by simp, hu, hutext, htype, ?_⟩
    intro w hw hgives hwtext
    rcases List.mem_append.mp hw with hw | hw
    · exact hbehind w hw hgives hwtext
    · obtain rfl := List.mem_singleton.mp hw
      exact h ⟨hgives, hwtext⟩

/-- Where a subject has a type from, the last one is among them. -/
theorem exists_lastType_iff :
    (∃ type, LastType ns type? ts text type) ↔
      ∃ t ∈ ts, t.GivesType ns type? ∧ t.subject.value = text := by
  constructor
  · rintro ⟨type, before, t, behind, rfl, hgives, htext, -⟩
    exact ⟨t, by simp, hgives, htext⟩
  · intro h
    induction ts using List.reverseRecOn with
    | nil =>
      obtain ⟨t, ht, -⟩ := h
      cases ht
    | append_singleton ts t ih =>
      by_cases ht : t.GivesType ns type? ∧ t.subject.value = text
      · exact ⟨_, (lastType_concat_of_subject ht.1 ht.2).mpr rfl⟩
      · obtain ⟨u, hu, hgives⟩ := h
        have hold : u ∈ ts := by
          rcases List.mem_append.mp hu with hu | hu
          · exact hu
          · rw [List.mem_singleton.mp hu] at hgives
            exact absurd hgives ht
        obtain ⟨type, htype⟩ := ih ⟨u, hold, hgives⟩
        exact ⟨type, (lastType_concat_of_not_subject ht).mpr htype⟩

/-- Triples that stand behind others, and give the subject a type, decide. -/
theorem lastType_append_iff (h : ∃ u ∈ us, u.GivesType ns type? ∧ u.subject.value = text) :
    LastType ns type? (ts ++ us) text type ↔ LastType ns type? us text type := by
  induction us using List.reverseRecOn with
  | nil =>
    obtain ⟨u, hu, -⟩ := h
    cases hu
  | append_singleton us t ih =>
    rw [← List.append_assoc]
    by_cases ht : t.GivesType ns type? ∧ t.subject.value = text
    · rw [lastType_concat_of_subject ht.1 ht.2, lastType_concat_of_subject ht.1 ht.2]
    · rw [lastType_concat_of_not_subject ht, lastType_concat_of_not_subject ht]
      apply ih
      obtain ⟨type, htype⟩ := exists_lastType_iff.mpr h
      exact exists_lastType_iff.mp ⟨type, (lastType_concat_of_not_subject ht).mp htype⟩

/-- A table into which triples have been entered in order says the last that was entered. -/
theorem getElem?_typing_iff :
    ((ts.filter ((⟨none, some rdfType, ns.term? type?⟩ : TermPattern).Matches ·)).foldl
      (fun m t ↦ m.insert t.subject.value t.object.value)
      (∅ : Std.TreeMap String String))[text]? = some type ↔ LastType ns type? ts text type := by
  induction ts using List.reverseRecOn with
  | nil => simp [not_lastType_nil]
  | append_singleton ts t ih =>
    rw [List.filter_append, List.foldl_append]
    by_cases hgives : t.GivesType ns type?
    · have hmatch := decide_eq_true (matches_typing_iff.mpr hgives)
      rw [List.filter_singleton, hmatch, cond_true, List.foldl_cons, List.foldl_nil,
        Std.TreeMap.getElem?_insert]
      by_cases htext : t.subject.value = text
      · rw [if_pos (Std.LawfulEqCmp.compare_eq_iff_eq.mpr htext), Option.some.injEq,
          lastType_concat_of_subject hgives htext]
      · rw [if_neg (htext ∘ Std.LawfulEqCmp.compare_eq_iff_eq.mp), ih,
          lastType_concat_of_not_subject fun h ↦ htext h.2]
    · have hmatch := decide_eq_false (hgives ∘ matches_typing_iff.mp)
      rw [List.filter_singleton, hmatch, cond_false, List.foldl_nil, ih,
        lastType_concat_of_not_subject fun h ↦ hgives h.1]

end

namespace Index

/-- Pairs that list the subjects to which some triples give a type. -/
structure ListsTypes (ns : Namespaces) (type? : Option String) (ts : List Triple)
    (pairs : List (String × String)) : Prop where
  /-- The texts stand in order, and once each. -/
  sorted : (pairs.map (·.1)).Pairwise (· < ·)
  mem_keys_iff : ∀ text, text ∈ pairs.map (·.1) ↔
    ∃ t ∈ ts, t.GivesType ns type? ∧ t.subject.value = text
  mem_iff : ∀ text type, (text, type) ∈ pairs ↔ LastType ns type? ts text type

variable {i : Index}

theorem Consistent.mem_typed_iff (h : i.Consistent)
    (hcard : (termsOf i.triples).card ≤ Dictionary.capacity) {type? : Option String}
    {text type : String} :
    (text, type) ∈ i.typed type? ↔ LastType i.namespaces type? i.triples text type := by
  rw [typed, h.holds.query_eq hcard, Std.TreeMap.mem_toList_iff_getElem?_eq_some,
    getElem?_typing_iff]

theorem Consistent.listsTypes (h : i.Consistent)
    (hcard : (termsOf i.triples).card ≤ Dictionary.capacity) (type? : Option String) :
    ListsTypes i.namespaces type? i.triples (i.typed type?) where
  sorted := by
    have hsorted : (i.typed type?).Pairwise fun p q ↦ compare p.1 q.1 = .lt :=
      Std.TreeMap.ordered_keys_toList
    rw [List.pairwise_map]
    exact hsorted.imp compareOfLessAndEq_eq_lt.mp
  mem_keys_iff text := by
    rw [← exists_lastType_iff, List.mem_map]
    constructor
    · rintro ⟨⟨_, type⟩, hpair, rfl⟩
      exact ⟨type, (h.mem_typed_iff hcard).mp hpair⟩
    · rintro ⟨type, hlast⟩
      exact ⟨(text, type), (h.mem_typed_iff hcard).mpr hlast, rfl⟩
  mem_iff _ _ := h.mem_typed_iff hcard

/-- An entry whose identifier is filed takes its place, and the others keep theirs. -/
theorem Consistent.entries_enter (h : i.Consistent) {pre post : List Entry} {old new : Entry}
    (hentries : i.entries = pre ++ old :: post) (hkeyed : new.keyed = new)
    (hid : new.id = old.id) : (i.enter new).entries = pre ++ new :: post := by
  have hnodup : ((pre ++ old :: post).map (·.id)).Nodup := hentries ▸ h.entries.nodup_ids
  rw [List.map_append, List.map_cons, List.nodup_middle, List.nodup_cons, List.mem_append] at hnodup
  obtain ⟨hother, -⟩ := hnodup
  have hhas : i.catalog.entries.has new.keyed.id = true := by
    rw [h.entries.has_iff, hkeyed, hid]
    refine ⟨old, ?_, rfl⟩
    change old ∈ i.entries
    rw [hentries]
    simp
  have hkeep : ∀ x ∈ pre ++ post, (if x.id = new.id then new else x) = x := by
    intro x hx
    refine if_neg fun heq ↦ hother ?_
    rw [← hid, ← heq, ← List.mem_append, ← List.map_append]
    exact List.mem_map_of_mem hx
  calc (i.enter new).entries
      = i.entries.map fun x ↦ if x.id = new.id then new else x := by
        rw [Index.entries, enter_entries, h.entries.toList_put_of_has hhas, hkeyed]
        rfl
    _ = pre ++ new :: post := by
        rw [hentries, List.map_append, List.map_cons, if_pos hid.symm,
          List.map_congr_left fun x hx ↦ hkeep x (List.mem_append_left _ hx),
          List.map_congr_left fun x hx ↦ hkeep x (List.mem_append_right _ hx), List.map_id',
          List.map_id']

theorem typedSubjects_of_loaded (h : i.catalog.loaded = true) (a : Access)
    (type? : Option String) : i.typedSubjects a type? = (.ok (i.typed type?), i) :=
  ask_eq_ok_iff.mpr ⟨ensureLoaded_of_loaded h a, rfl⟩

/-- Behind every run of events, a loaded index lists the typed subjects of its entries, each with
its last type in the order of entries.  When an entry is then replaced, those behind it still
decide about the subjects to which they give types. -/
theorem typedSubjects_after {s : Settings} {x : Session} (hx : x.Opens s) (events : List Event)
    (hloaded : (x.after events).index.catalog.loaded = true)
    (hcard : (termsOf (x.after events).index.triples).card ≤ Dictionary.capacity)
    (type? : Option String) (a : Access) :
    (∃ pairs, (x.after events).index.typedSubjects a type? =
        (.ok pairs, (x.after events).index) ∧
      ListsTypes s.namespaces type? (x.after events).index.triples pairs) ∧
    ∀ pre old post u j b, (x.after events).index.entries = pre ++ old :: post →
      u.identifier.rendering = old.id → (x.after events).index.add a u = (.ok (), j, b) →
      (termsOf j.triples).card ≤ Dictionary.capacity →
      j.entries = pre ++ .ofSubmission u :: post ∧
      ∃ pairs, j.typedSubjects b type? = (.ok pairs, j) ∧
        ListsTypes s.namespaces type? j.triples pairs ∧
        ∀ text, (∃ t ∈ post.flatMap (·.triples s.namespaces),
            t.GivesType s.namespaces type? ∧ t.subject.value = text) →
          ∀ type, (text, type) ∈ pairs ↔
            LastType s.namespaces type? (post.flatMap (·.triples s.namespaces)) text type := by
  have hconsistent := consistent_after hx events
  have hns := namespaces_after hx events
  generalize (x.after events).index = i at hloaded hcard hconsistent hns ⊢
  rw [← hns]
  refine ⟨⟨_, typedSubjects_of_loaded hloaded a type?, hconsistent.listsTypes hcard type?⟩, ?_⟩
  intro pre old post u j b hentries hid hadd hcard'
  obtain ⟨k, hk, -, rfl⟩ := eq_of_add hadd
  rw [ensureLoaded_of_loaded hloaded] at hk
  cases hk
  have hkeyed := Entry.keyed_ofSubmission u
  have hentered := hconsistent.entries_enter hentries hkeyed hid
  have hnext := hconsistent.enter hkeyed
  have hsame : (i.enter (.ofSubmission u)).namespaces = i.namespaces :=
    congrArg Prod.fst (enter_opening i _)
  have hlists := hnext.listsTypes hcard' type?
  rw [hsame] at hlists
  refine ⟨hentered, _, typedSubjects_of_loaded ?_ b type?, hlists, ?_⟩
  · rw [enter_loaded, hloaded]
  · intro text htext type
    have hsplit : (i.enter (.ofSubmission u)).triples =
        (pre ++ [Entry.ofSubmission u]).flatMap (Entry.triples i.namespaces) ++
          post.flatMap (·.triples i.namespaces) := by
      rw [triples, hentered, hsame, ← List.flatMap_append, List.append_assoc, List.singleton_append]
    rw [hlists.mem_iff, hsplit, lastType_append_iff htext]

/-- Two entries that type the same text, the one as an IRI and the other as a literal. -/
def typing : List Event := [
  .perform (.add ⟨{ kind := "M", name := "a" }, [⟨"http://s", "type", "early"⟩]⟩),
  .perform (.add ⟨{ kind := "M", name := "b" }, [⟨"\"http://s\"", "@type", "late"⟩]⟩)]

/-- A submission that replaces the first of the two. -/
def retyping : Submission := ⟨{ kind := "M", name := "a" }, [⟨"http://s", "type", "newer"⟩]⟩

/-- The second entry still decides about the text when the first one has been replaced. -/
theorem typedSubjects_after_retyping :
    ∃ j b pairs, (Session.blank.after typing).index.add (Session.blank.after typing).access
        retyping = (.ok (), j, b) ∧
      j.typedSubjects b none = (.ok pairs, j) ∧ ("http://s", "late") ∈ pairs := by
  have hloaded : (Session.blank.after typing).index.catalog.loaded = true := by decide +kernel
  have hcard : (termsOf (Session.blank.after typing).index.triples).card ≤ Dictionary.capacity := by
    decide +kernel
  obtain ⟨-, hreplaced⟩ := typedSubjects_after Session.opens_blank typing hloaded hcard none
    (Session.blank.after typing).access
  obtain ⟨j, b, hadd, hcard'⟩ : ∃ j b, (Session.blank.after typing).index.add
      (Session.blank.after typing).access retyping = (.ok (), j, b) ∧
      (termsOf j.triples).card ≤ Dictionary.capacity := by
    refine ⟨_, _, Prod.ext ?_ rfl, ?_⟩
    · decide +kernel
    · decide +kernel
  let second : Entry :=
    .ofSubmission ⟨{ kind := "M", name := "b" }, [⟨"\"http://s\"", "@type", "late"⟩]⟩
  let given : Triple := ⟨.literal "http://s", rdfType, .literal "late"⟩
  obtain ⟨-, pairs, hpairs, -, hlast⟩ :=
    hreplaced [] _ [second] retyping j b rfl rfl hadd hcard'
  have hgiven : [second].flatMap (·.triples Namespaces.standard) = [given] := by
    decide +kernel
  have hgives : given.GivesType Namespaces.standard none := by
    refine ⟨rfl, ?_⟩
    intro s hs
    cases hs
  rw [hgiven] at hlast
  refine ⟨j, b, pairs, hadd, hpairs, ?_⟩
  rw [hlast "http://s" ⟨given, List.mem_singleton_self _, hgives, rfl⟩]
  exact ⟨[], given, [], rfl, hgives, rfl, rfl, fun u hu ↦ absurd hu List.not_mem_nil⟩

end Index

end TripleIndex
