import TripleIndex.Proofs.Query

/-!
# General and special patterns

A pattern widens another one when each of its positions is free, however that is spelled, or is
spelled as in the other one (`Pattern.Widens`).  Whatever a pattern matches, a wider one matches as
well, so the answers of a pattern stand, in order, among those of a wider one.

The text of a statement reads differently in a log and in a pattern: there every text spells a term,
here some texts leave the position free.  So the pattern that is spelled like a statement may ask
for less than the statement says, but it never misses it.
-/

namespace TripleIndex

/-! ## Positions -/

theorem spelled_of_isWildcard {position : Option String} (h : isWildcard position = true) :
    spelled position = none := by
  cases position with
  | none => rfl
  | some s => simp [spelled, h]

theorem mem_of_mem_spelled {position : Option String} {s : String} (h : s ∈ spelled position) :
    position = some s := (Option.filter_eq_some_iff.mp h).1

/-- A position that asks for a term asks for the one that its text spells. -/
theorem eq_of_mem_map_spelled {s : String} {resolve : String → Term} {t : Term}
    (h : t ∈ (spelled (some s)).map resolve) : resolve s = t := by
  obtain ⟨u, hu, rfl⟩ := Option.map_eq_some_iff.mp h
  cases mem_of_mem_spelled hu
  rfl

/-- A position that is free or spelled alike asks for nothing that the other one does not ask
for. -/
theorem mem_map_spelled_of_wider {p q : Option String} (hwide : isWildcard q = true ∨ q = p)
    {resolve : String → Term} {t : Term} (h : t ∈ (spelled q).map resolve) :
    t ∈ (spelled p).map resolve := by
  rcases hwide with hfree | rfl
  · rw [spelled_of_isWildcard hfree] at h
    cases h
  · exact h

/-! ## Patterns -/

namespace Pattern

/-- Each position is free or as it is in the other pattern. -/
structure Widens (q p : Pattern) : Prop where
  subject : isWildcard q.subject = true ∨ q.subject = p.subject
  predicate : isWildcard q.predicate = true ∨ q.predicate = p.predicate
  object : isWildcard q.object = true ∨ q.object = p.object

/-- Every position is free. -/
structure Free (q : Pattern) : Prop where
  subject : isWildcard q.subject = true
  predicate : isWildcard q.predicate = true
  object : isWildcard q.object = true

/-- A free pattern is wider than any other. -/
theorem Free.widens {q : Pattern} (h : q.Free) (p : Pattern) : q.Widens p :=
  ⟨.inl h.subject, .inl h.predicate, .inl h.object⟩

/-- Whatever a pattern matches, a wider one matches. -/
theorem Widens.matches {p q : Pattern} (h : q.Widens p) {ns : Namespaces} {t : Triple}
    (ht : (ns.pattern p).Matches t) : (ns.pattern q).Matches t := by
  obtain ⟨hsubject, hpredicate, hobject⟩ := ht
  refine ⟨?subject, ?predicate, ?object⟩
  case subject =>
    intro u hu
    exact hsubject u (mem_map_spelled_of_wider h.subject hu)
  case predicate =>
    intro u hu
    exact hpredicate u (mem_map_spelled_of_wider h.predicate hu)
  case object =>
    intro u hu
    exact hobject u (mem_map_spelled_of_wider h.object hu)

end Pattern

/-- A pattern that is spelled like a statement matches what the statement says. -/
theorem Statement.toPattern_matches (ns : Namespaces) (s : Statement) :
    (ns.pattern s.toPattern).Matches (ns.triple s) := by
  refine ⟨?subject, ?predicate, ?object⟩ <;> intro t ht <;> exact eq_of_mem_map_spelled ht

/-- A free pattern matches everything: it is wider than the pattern spelled like the statement. -/
theorem Pattern.Free.matches_triple {q : Pattern} (h : q.Free) (ns : Namespaces) (s : Statement) :
    (ns.pattern q).Matches (ns.triple s) := (h.widens s.toPattern).matches (s.toPattern_matches ns)

/-! ## Entries -/

namespace Entry

variable {ns : Namespaces} {es : List Entry} {e : Entry}

theorem Answers.of_widens {p q : Pattern} (hwide : q.Widens p) (h : e.Answers ns es p) :
    e.Answers ns es q := by
  obtain ⟨s, hs, x, hx, u, hu, heq, hmatch⟩ := h
  exact ⟨s, hs, x, hx, u, hu, heq, hwide.matches hmatch⟩

/-- An entry answers every pattern that matches a triple of its own. -/
theorem answers_of_matches (he : e ∈ es) {s : Statement} (hs : s ∈ e.statements) {p : Pattern}
    (h : (ns.pattern p).Matches (ns.triple s)) : e.Answers ns es p :=
  ⟨s, hs, e, he, s, hs, rfl, h⟩

theorem answers_iff_of_free (he : e ∈ es) {q : Pattern} (hfree : q.Free) :
    e.Answers ns es q ↔ e.statements ≠ [] := by
  constructor
  · rintro ⟨s, hs, -⟩
    exact List.ne_nil_of_mem hs
  · intro hne
    obtain ⟨s, hs⟩ := List.exists_mem_of_ne_nil _ hne
    exact answers_of_matches he hs (hfree.matches_triple ns s)

end Entry

section answersOf

variable (ns : Namespaces) (es : List Entry)

theorem answersOf_sublist_of_widens {p q : Pattern} (hwide : q.Widens p) :
    (answersOf ns es p).Sublist (answersOf ns es q) := by
  refine List.Sublist.map _ (List.monotone_filter_right es ?_)
  intro e he
  rw [decide_eq_true_eq] at he ⊢
  exact he.of_widens hwide

variable {es}

theorem mem_answersOf_toPattern {e : Entry} (he : e ∈ es) {s : Statement}
    (hs : s ∈ e.statements) : e.identifier ∈ answersOf ns es s.toPattern := by
  refine List.mem_map_of_mem (List.mem_filter.mpr ⟨he, decide_eq_true ?_⟩)
  exact Entry.answers_of_matches he hs (s.toPattern_matches ns)

theorem answersOf_of_free {q : Pattern} (hfree : q.Free) :
    answersOf ns es q = (es.filter (·.statements ≠ [])).map (·.identifier) := by
  rw [answersOf, List.filter_congr]
  intro e he
  exact decide_eq_decide.mpr (Entry.answers_iff_of_free he hfree)

end answersOf

/-! ## Queries -/

namespace Index

/-- Behind every run of events, an index that is loaded finds every entry by each of its statements,
finds no less by a wider pattern, and finds whatever states anything by a free one. -/
theorem query_general {s : Settings} {x : Session} (hx : x.Opens s) (events : List Event)
    (hloaded : (x.after events).index.catalog.loaded = true)
    (hcard : (termsOf (x.after events).index.triples).card ≤ Dictionary.capacity) (a : Access) :
    ∃ answer : Pattern → List Identifier,
      (∀ p, (x.after events).index.query a p {} = (.ok (answer p), (x.after events).index)) ∧
      (∀ e ∈ (x.after events).index.entries, ∀ u ∈ e.statements,
        e.identifier ∈ answer u.toPattern) ∧
      (∀ p q : Pattern, q.Widens p → (answer p).Sublist (answer q)) ∧
      ∀ q : Pattern, q.Free → answer q =
        ((x.after events).index.entries.filter (·.statements ≠ [])).map (·.identifier) := by
  have hquery : ∀ p, (x.after events).index.query a p {} =
      (.ok (answersOf (x.after events).index.namespaces (x.after events).index.entries p),
        (x.after events).index) := by
    intro p
    rw [query_of_loaded hloaded, (consistent_after hx events).matching_eq hcard]
    rfl
  refine ⟨_, hquery, ?_, ?_, ?_⟩
  · intro e he u hu
    exact mem_answersOf_toPattern _ he hu
  · intro p q hwide
    exact answersOf_sublist_of_widens _ _ hwide
  · intro q hfree
    exact answersOf_of_free _ hfree

/-- An entry about texts that leave a position of a pattern free, one that states nothing, one that
is replaced, and a reload. -/
def stating : List Event := [
  .perform (.add ⟨{ kind := "M", name := "a" }, [⟨"?", "", "NULL"⟩, ⟨"ex:a", "type", "*"⟩]⟩),
  .perform (.add ⟨{ kind := "M", name := "b" }, []⟩),
  .perform (.add ⟨{ kind := "M", name := "c" }, [⟨"ex:c", "ex:p", "1"⟩]⟩),
  .perform (.add ⟨{ kind := "M", name := "c" }, [⟨"ex:a", "ex:p", "2"⟩]⟩),
  .perform .load]

/-- The pattern that is spelled like the first statement is free, and finds whatever states
anything.  What has a text that is one star for its type is found among what has any type, and what
the replaced entry said is not found. -/
theorem query_general_stating :
    ∃ answer : Pattern → List Identifier,
      (∀ p, (Session.blank.after stating).index.query { storage := .memory {} } p {} =
        (.ok (answer p), (Session.blank.after stating).index)) ∧
      (answer (Statement.toPattern ⟨"?", "", "NULL"⟩)).map (·.rendering) = ["M.a", "M.c"] ∧
      (answer { predicate := some "type", object := some "\"*\"" }).Sublist
        (answer { predicate := some "type", object := some "*" }) ∧
      answer { predicate := some "ex:p", object := some "1" } = [] := by
  have hloaded : (Session.blank.after stating).index.catalog.loaded = true := by decide +kernel
  have hcard : (termsOf (Session.blank.after stating).index.triples).card ≤
      Dictionary.capacity := by decide +kernel
  obtain ⟨answer, hquery, -, hwide, hfree⟩ :=
    query_general Session.opens_blank stating hloaded hcard { storage := .memory {} }
  have hmatching : ∀ p, answer p = (Session.blank.after stating).index.matching p {} := by
    intro p
    have h := (hquery p).symm.trans (query_of_loaded hloaded _ p {})
    exact Except.ok.inj (congrArg Prod.fst h)
  refine ⟨answer, hquery, ?_, ?_, ?_⟩
  · rw [hfree _ ⟨by decide, by decide, by decide⟩]
    decide +kernel
  · exact hwide _ _ ⟨.inr rfl, .inr rfl, .inl (by decide)⟩
  · rw [hmatching]
    decide +kernel

end Index

end TripleIndex
