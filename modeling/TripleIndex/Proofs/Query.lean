import TripleIndex.Proofs.Consistency

/-!
# Queries read the entries

The answer to a pattern, told by the entries alone: an entry is found when it has a triple whose
subject is the subject of some triple, of whichever entry, that the pattern matches
(`Entry.Answers`).  Numbers, posting lists and tables of subjects are no part of this reading, and
neither is the way the index came by its entries.
-/

namespace TripleIndex

/-- The entry has a triple about the subject of a triple that the pattern matches. -/
def Entry.Answers (ns : Namespaces) (es : List Entry) (p : Pattern) (e : Entry) : Prop :=
  ∃ s ∈ e.statements, ∃ x ∈ es, ∃ u ∈ x.statements,
    (ns.triple s).subject = (ns.triple u).subject ∧ (ns.pattern p).Matches (ns.triple u)

instance (ns : Namespaces) (es : List Entry) (p : Pattern) (e : Entry) :
    Decidable (e.Answers ns es p) :=
  inferInstanceAs (Decidable (∃ s ∈ e.statements, ∃ x ∈ es, ∃ u ∈ x.statements, _))

/-- Identifiers of the entries that answer a pattern, in the order of entries. -/
def answersOf (ns : Namespaces) (es : List Entry) (p : Pattern) : List Identifier :=
  (es.filter fun e ↦ e.Answers ns es p).map (·.identifier)

theorem any_iff {α : Type} {cmp : α → α → Ordering} [Std.TransCmp cmp] [Std.LawfulEqCmp cmp]
    {s : Std.TreeSet α cmp} {p : α → Bool} : s.any p = true ↔ ∃ a ∈ s, p a = true := by
  have hrun : s.any p =
      match (ForIn.forIn (m := Id) s (none, ()) fun a (_ : Option Bool × Unit) ↦
        if p a then pure (.done (some true, ())) else pure (.yield (none, ()))).run.1 with
      | some b => b
      | none => false := by
    simp only [Std.TreeSet.any, Std.TreeMap.any, Std.DTreeMap.any, Std.DTreeMap.Internal.Impl.any,
      Id.run_bind]
    simp only [ForIn.forIn, Std.TreeSet.forIn, Std.TreeMap.forIn, Std.DTreeMap.forIn,
      Std.DTreeMap.Internal.Impl.forIn]
    split <;> rename_i h <;> simp only [h] <;> rfl
  have hlist : s.any p = s.toList.any p := by
    rw [hrun, Std.TreeSet.forIn_eq_forIn_toList]
    induction s.toList with
    | nil => rfl
    | cons a as ih =>
      rw [List.forIn_cons, List.any_cons]
      by_cases ha : p a = true
      · simp [ha]
      · simp only [ha, Bool.false_eq_true, if_false, Bool.false_or]
        exact ih
  simp only [hlist, List.any_eq_true, Std.TreeSet.mem_toList]

namespace Filter

@[simp] theorem apply_nil (f : Filter) : f.apply [] = [] := by
  obtain ⟨pre, limit, maxTokens⟩ := f
  have hprefix : byPrefix pre [] = [] := by cases pre <;> rfl
  have hlimit : byLimit limit [] = [] := by cases limit <;> simp [byLimit]
  have htokens : byTokens maxTokens [] = [] := by cases maxTokens <;> simp [byTokens, withinBudget]
  rw [apply, hprefix, hlimit, htokens]

end Filter

namespace Index

variable {i : Index}

theorem mem_triples {t : Triple} :
    t ∈ i.triples ↔ ∃ e ∈ i.entries, ∃ s ∈ e.statements, i.namespaces.triple s = t := by
  simp [triples, Entry.triples]

/-- The subjects that a query collects are those of the triples that the pattern matches. -/
theorem mem_wanted_iff {p : Pattern} {t : Term} :
    t ∈ Std.TreeSet.ofList ((i.triples.filter ((i.namespaces.pattern p).Matches ·)).map
        (·.subject)) ↔
      ∃ x ∈ i.entries, ∃ u ∈ x.statements, t = (i.namespaces.triple u).subject ∧
        (i.namespaces.pattern p).Matches (i.namespaces.triple u) := by
  simp only [Std.TreeSet.mem_ofList, List.contains_iff_mem, List.mem_map, List.mem_filter,
    mem_triples, decide_eq_true_eq]
  constructor
  · rintro ⟨_, ⟨⟨x, hx, u, hu, rfl⟩, hmatch⟩, rfl⟩
    exact ⟨x, hx, u, hu, rfl, hmatch⟩
  · rintro ⟨x, hx, u, hu, rfl, hmatch⟩
    exact ⟨_, ⟨⟨x, hx, u, hu, rfl⟩, hmatch⟩, rfl⟩

theorem Consistent.isAbout_iff (h : i.Consistent) {e : Entry} (he : e ∈ i.entries) (p : Pattern) :
    i.isAbout (.ofList ((i.triples.filter ((i.namespaces.pattern p).Matches ·)).map (·.subject))) e
      = true ↔ e.Answers i.namespaces i.entries p := by
  simp only [isAbout, any_iff, Std.TreeSet.contains_iff_mem, h.mem_find_subjects he, mem_wanted_iff,
    Entry.triples, List.mem_map]
  constructor
  · rintro ⟨_, ⟨_, ⟨s, hs, rfl⟩, rfl⟩, x, hx, u, hu, heq, hmatch⟩
    exact ⟨s, hs, x, hx, u, hu, heq, hmatch⟩
  · rintro ⟨s, hs, x, hx, u, hu, heq, hmatch⟩
    exact ⟨_, ⟨_, ⟨s, hs, rfl⟩, rfl⟩, x, hx, u, hu, heq, hmatch⟩

/-- Looking at no entry, when no triple matches, misses none. -/
theorem answersOf_eq_nil {p : Pattern}
    (h : i.triples.filter ((i.namespaces.pattern p).Matches ·) = []) :
    answersOf i.namespaces i.entries p = [] := by
  rw [answersOf, List.map_eq_nil_iff, List.filter_eq_nil_iff]
  intro e _
  rw [decide_eq_true_eq]
  rintro ⟨s, -, x, hx, u, hu, -, hmatch⟩
  have hmem := mem_triples.mpr ⟨x, hx, u, hu, rfl⟩
  exact List.filter_eq_nil_iff.mp h _ hmem (decide_eq_true hmatch)

theorem Consistent.matching_eq (h : i.Consistent)
    (hcard : (termsOf i.triples).card ≤ Dictionary.capacity) (p : Pattern) (f : Filter) :
    i.matching p f = f.apply (answersOf i.namespaces i.entries p) := by
  rw [matching, h.holds.query_eq hcard]
  dsimp only
  split
  · rename_i hempty
    rw [answersOf_eq_nil (List.isEmpty_iff.mp hempty), Filter.apply_nil]
  · have hfilter : ∀ e ∈ i.entries, _ = decide (e.Answers i.namespaces i.entries p) :=
      fun e he ↦ Bool.eq_iff_iff.mpr ((h.isAbout_iff he p).trans decide_eq_true_iff.symm)
    rw [List.filter_congr hfilter, answersOf]

theorem query_of_loaded (h : i.catalog.loaded = true) (a : Access) (p : Pattern) (f : Filter) :
    i.query a p f = (.ok (i.matching p f), i) :=
  ask_eq_ok_iff.mpr ⟨ensureLoaded_of_loaded h a, rfl⟩

/-- Behind every run of events, a query that succeeds answers as reading the entries does. -/
theorem query_after {s : Settings} {x : Session} (hx : x.Opens s) (events : List Event)
    {p : Pattern} {f : Filter} {found : List Identifier} {j : Index}
    (hquery : (x.after events).index.query (x.after events).access p f = (.ok found, j))
    (hcard : (termsOf j.triples).card ≤ Dictionary.capacity) :
    found = f.apply (answersOf s.namespaces j.entries p) := by
  obtain ⟨hj, rfl⟩ := ask_eq_ok_iff.mp hquery
  have hns : j.namespaces = s.namespaces :=
    (congrArg Prod.fst (opening_of_ensureLoaded hj)).trans (namespaces_after hx events)
  rw [((consistent_after hx events).ensureLoaded hj).matching_eq hcard, hns]

/-- The entry that was replaced is no longer about the subject that the other one is about. -/
theorem query_after_replacing :
    ∃ found, Session.blank.Opens {} ∧
      (Session.blank.after replacing).index.query (Session.blank.after replacing).access
        { subject := some "ex:a" } {} = (.ok found, (Session.blank.after replacing).index) ∧
      (termsOf (Session.blank.after replacing).index.triples).card ≤ Dictionary.capacity ∧
      found.map (·.rendering) = ["M.b"] ∧
      found = Filter.apply {} (answersOf .standard (Session.blank.after replacing).index.entries
        { subject := some "ex:a" }) := by
  have hloaded : (Session.blank.after replacing).index.catalog.loaded = true := by decide +kernel
  have hquery := query_of_loaded hloaded (Session.blank.after replacing).access
    { subject := some "ex:a" } {}
  exact ⟨_, Session.opens_blank, hquery, card_termsOf_replacing, by decide +kernel,
    query_after Session.opens_blank replacing hquery card_termsOf_replacing⟩

end Index

end TripleIndex
