import TripleIndex.Command.Run
import TripleIndex.Proofs.FilterOrder
import TripleIndex.Proofs.Query

/-!
# What a query line prints

An answer is printed as one block per identifier (`page`): a heading with its number, and the
triples of the entry that is looked up by its rendering.  There is a notice for an identifier
without such an entry or without triples, but it is never printed.  An identifier comes from an
entry, which is filed under its rendering, and an entry that is found is about some subject, so that
it has a triple (`Index.Consistent.exists_matching_eq`).  This does not depend on how many terms
there are.
-/

namespace TripleIndex

namespace Index

variable {i : Index}

theorem Consistent.statements_ne_nil (h : i.Consistent) {wanted : Std.TreeSet Term} {e : Entry}
    (he : e ∈ i.entries) (habout : i.isAbout wanted e = true) : e.statements ≠ [] := by
  obtain ⟨t, ht, -⟩ := any_iff.mp habout
  obtain ⟨u, hu, -⟩ := (h.mem_find_subjects he).mp ht
  rintro hnone
  rw [Entry.triples, hnone] at hu
  cases hu

/-- What a pattern finds are identifiers of entries with statements. -/
theorem Consistent.exists_matching_eq (h : i.Consistent) (p : Pattern) (f : Filter) :
    ∃ es : List Entry, i.matching p f = es.map (·.identifier) ∧
      ∀ e ∈ es, e ∈ i.entries ∧ e.statements ≠ [] := by
  rw [matching]
  dsimp only
  split
  · exact ⟨[], rfl, by simp⟩
  · obtain ⟨es, hes, heq⟩ := List.sublist_map_iff.mp (f.apply_sublist _)
    refine ⟨es, heq, fun e he ↦ ?_⟩
    obtain ⟨hmem, habout⟩ := List.mem_filter.mp (hes.subset he)
    exact ⟨hmem, h.statements_ne_nil hmem habout⟩

theorem Consistent.get?_of_mem (h : i.Consistent) {e : Entry} (he : e ∈ i.entries) :
    i.catalog.entries.get? e.identifier.rendering = some e :=
  h.entries.get?_eq_some_iff.mpr ⟨he, h.entries.id_eq he⟩

end Index

theorem Entry.text_eq (ns : Namespaces) (e : Entry) :
    e.text ns = e.statements.flatMap fun s ↦ (ns.triple s).line ++ ['\n'] := by
  rw [text, triples, Triple.lines, List.flatMap_map]

theorem Entry.text_ne_nil {ns : Namespaces} {e : Entry} (h : e.statements ≠ []) :
    e.text ns ≠ [] := by
  obtain ⟨s, rest, hs⟩ := List.exists_cons_of_ne_nil h
  simp [Entry.text, Entry.triples, Triple.lines, hs]

namespace Command

/-- What is printed of some entries: for each in turn a line with its number from one and its
rendering, an empty line, a line for each of its statements and another empty line. -/
def page (ns : Namespaces) (es : List Entry) : List Char :=
  (es.zipIdx 1).flatMap fun p ↦
    ("# " ++ p.2.repr ++ ": " ++ p.1.identifier.rendering ++ "\n\n").toList ++
      ((p.1.statements.flatMap fun s ↦ (ns.triple s).line ++ ['\n']) ++ ['\n'])

theorem heading_eq (number : Nat) (i : Identifier) :
    heading number i = ("# " ++ number.repr ++ ": " ++ i.rendering ++ "\n\n").toList := by
  simp [heading, Nat.repr, Identifier.rendering]

theorem page_ne_noResults (ns : Namespaces) {es : List Entry} (h : es ≠ []) :
    page ns es ≠ "No results\n".toList := by
  obtain ⟨e, rest, rfl⟩ := List.exists_cons_of_ne_nil h
  intro heq
  have hfirst : (page ns (e :: rest)).head? = some '#' := by simp [page]
  rw [heq] at hfirst
  exact absurd hfirst (by decide)

variable {x : Index}

theorem graph_eq {i : Identifier} {e : Entry}
    (hentry : x.catalog.entries.get? i.rendering = some e) (hne : e.statements ≠ []) :
    graph x i = e.text x.namespaces ++ ['\n'] := by
  have hsome : e.statements.isEmpty = false := List.isEmpty_eq_false_iff.mpr hne
  simp [graph, hentry, hsome]

theorem results_eq_page {es : List Entry} (hne : es ≠ [])
    (hes : ∀ e ∈ es, x.catalog.entries.get? e.identifier.rendering = some e ∧ e.statements ≠ []) :
    results x (es.map (·.identifier)) = page x.namespaces es := by
  have hresults : results x (es.map (·.identifier)) =
      ((es.map (·.identifier)).zipIdx 1).flatMap fun p ↦ heading p.2 p.1 ++ graph x p.1 := by
    obtain ⟨e, rest, rfl⟩ := List.exists_cons_of_ne_nil hne
    rfl
  rw [hresults, List.zipIdx_map, List.flatMap_map, page]
  refine List.flatMap_congr fun p hp ↦ ?_
  obtain ⟨hentry, hsome⟩ := hes p.1 (List.fst_mem_of_mem_zipIdx hp)
  rw [Prod.map_fst, Prod.map_snd, id_eq, heading_eq, graph_eq hentry hsome,
    Entry.text_eq]

/-- Whatever an index has met, a line that parses is answered by a page, once the index can be
loaded: of the very entries that the query finds, each of which has something to print. -/
theorem answerLine_after {s : Settings} {x : Session} (hx : x.Opens s) (events : List Event)
    {line : String} {q : Statement} (hparse : QueryLine.parse line = .ok q) (f : Filter)
    {y : Index} (hload : (x.after events).index.ensureLoaded (x.after events).access = .ok y) :
    ∃ is text,
      (x.after events).index.query (x.after events).access q.toPattern f = (.ok is, y) ∧
      answerLine f line (x.after events).index (x.after events).access = (.ok text, y) ∧
      (text = "No results\n".toList ↔ is = []) ∧
      (is ≠ [] → ∃ es : List Entry, is = es.map (·.identifier) ∧ text = page s.namespaces es ∧
        ∀ e ∈ es, y.catalog.entries.get? e.identifier.rendering = some e ∧
          e.statements ≠ [] ∧ e.text s.namespaces ≠ []) := by
  have hy : y.Consistent := (Index.consistent_after hx events).ensureLoaded hload
  have hns : y.namespaces = s.namespaces :=
    (congrArg Prod.fst (Index.opening_of_ensureLoaded hload)).trans
      (Index.namespaces_after hx events)
  have hanswer : answerLine f line (x.after events).index (x.after events).access =
      (.ok (results y (y.matching q.toPattern f)), y) := by
    rw [answerLine, hparse]
    exact Index.ask_eq_ok_iff.mpr ⟨hload, rfl⟩
  obtain ⟨es, hfound, hes⟩ := hy.exists_matching_eq q.toPattern f
  have hfiled : ∀ e ∈ es, y.catalog.entries.get? e.identifier.rendering = some e ∧
      e.statements ≠ [] := fun e he ↦ ⟨hy.get?_of_mem (hes e he).1, (hes e he).2⟩
  have hpage (hne : es ≠ []) : results y (y.matching q.toPattern f) = page s.namespaces es := by
    rw [hfound, results_eq_page hne hfiled, hns]
  refine ⟨_, _, Index.ask_eq_ok_iff.mpr ⟨hload, rfl⟩, hanswer, ?_, fun hne ↦ ?_⟩
  · constructor
    · intro hnone
      by_contra hne
      have hsome : es ≠ [] := fun hempty ↦ hne (by rw [hfound, hempty]; rfl)
      exact page_ne_noResults _ hsome ((hpage hsome).symm.trans hnone)
    · intro hempty
      rw [hempty]
      rfl
  · have hsome : es ≠ [] := fun hempty ↦ hne (by rw [hfound, hempty]; rfl)
    exact ⟨es, hfound, hpage hsome, fun e he ↦
      ⟨(hfiled e he).1, (hfiled e he).2, Entry.text_ne_nil (hfiled e he).2⟩⟩

/-- Two entries with a triple each. -/
def printed : List Char :=
  "# 1: M.a\n\n".toList ++
  "<https://example.invalid/c> ".toList ++
  "<http://www.w3.org/1999/02/22-rdf-syntax-ns#type> \"Message\" .\n\n".toList ++
  "# 2: M.b\n\n".toList ++
  "<https://example.invalid/a> ".toList ++
  "<https://example.invalid/p> <https://example.invalid/b> .\n\n".toList

/-- Of the entry that was replaced the new triple is printed. -/
theorem answerLine_after_replacing :
    ∃ is, Session.blank.Opens {} ∧ QueryLine.parse "? ? ?" = .ok ⟨"?", "?", "?"⟩ ∧
      (Session.blank.after Index.replacing).index.ensureLoaded
          (Session.blank.after Index.replacing).access =
        .ok (Session.blank.after Index.replacing).index ∧
      is.map (·.rendering) = ["M.a", "M.b"] ∧
      answerLine {} "? ? ?" (Session.blank.after Index.replacing).index
          (Session.blank.after Index.replacing).access =
        (.ok printed, (Session.blank.after Index.replacing).index) ∧
      ∃ es : List Entry, is = es.map (·.identifier) ∧ printed = page .standard es ∧
        ∀ e ∈ es, e.text .standard ≠ [] := by
  have hparse : QueryLine.parse "? ? ?" = .ok ⟨"?", "?", "?"⟩ := by decide +kernel
  have hloaded : (Session.blank.after Index.replacing).index.catalog.loaded = true := by
    decide +kernel
  have hload := Index.ensureLoaded_of_loaded hloaded (Session.blank.after Index.replacing).access
  obtain ⟨is, text, hquery, hanswer, -, hpage⟩ :=
    answerLine_after Session.opens_blank Index.replacing hparse {} hload
  have hfound : (Session.blank.after Index.replacing).index.matching
      (Statement.toPattern ⟨"?", "?", "?"⟩) {} = is := by
    rw [Index.query_of_loaded hloaded] at hquery
    exact Except.ok.inj (Prod.mk.inj hquery).1
  have hrendered : is.map (·.rendering) = ["M.a", "M.b"] := by
    rw [← hfound]
    decide +kernel
  have hne : is ≠ [] := by
    rintro rfl
    cases hrendered
  have hprinted : (answerLine {} "? ? ?" (Session.blank.after Index.replacing).index
      (Session.blank.after Index.replacing).access).1.toOption = some printed := by
    decide +kernel
  have htext : text = printed := by
    rw [hanswer] at hprinted
    simpa only [Except.toOption, Option.some.injEq] using hprinted
  subst htext
  obtain ⟨es, hes, hpaged, hfiled⟩ := hpage hne
  exact ⟨is, Session.opens_blank, hparse, hload, hrendered, hanswer, es, hes, hpaged,
    fun e he ↦ (hfiled e he).2.2⟩

end Command

end TripleIndex
