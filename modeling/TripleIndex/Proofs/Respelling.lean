import TripleIndex.Proofs.PatternLine
import Mathlib.Data.List.Forall2
import Mathlib.Data.Option.Defs
import Mathlib.Logic.Relation

/-!
# Respelled terms

One term has many spellings: a prefixed name and the IRI that it abbreviates, and the spellings of
the predicate that gives a type.  Under a conventional table (`Namespaces.Conventional`), texts that
are turned into each other spell the same term and are free in a pattern or not, both of them
(`Conventional.term_eq`, `Conventional.predicate_eq`).

The order of the rules of resolution asks for what is called conventional.  A prefix must not begin
with a quote, for the text between quotes comes first; the schemes of the web must not be prefixes,
and namespaces have to be addresses of the web, for a prefix comes before the scheme.
-/

namespace TripleIndex

def rdfNamespace : String := "http://www.w3.org/1999/02/22-rdf-syntax-ns#"

/-- Spellings of the predicate that gives a resource its type. -/
def typeSpellings : List String := ["type", "@type", "rdf:type", rdfNamespace ++ "type"]

namespace Namespaces

/-! ## Conventional tables -/

/-- A prefix that takes no other spelling's place, for a namespace on the web. -/
structure Regular (pre iri : String) : Prop where
  quote : pre.toList.head? ≠ some '"'
  http : pre ≠ "http"
  https : pre ≠ "https"
  address : isWebAddress iri.toList = true

instance (pre iri : String) : Decidable (Regular pre iri) :=
  decidable_of_iff
    (pre.toList.head? ≠ some '"' ∧ pre ≠ "http" ∧ pre ≠ "https" ∧ isWebAddress iri.toList = true)
    ⟨fun h ↦ ⟨h.1, h.2.1, h.2.2.1, h.2.2.2⟩, fun h ↦ ⟨h.quote, h.http, h.https, h.address⟩⟩

/-- The standard table with regular additions, in which `rdf` is what it was. -/
structure Conventional (ns : Namespaces) : Prop where
  additions : ∃ pairs, ns = standard.insertMany pairs ∧ ∀ pair ∈ pairs, Regular pair.1 pair.2
  rdf : ns.expand? "rdf" = some rdfNamespace

theorem mem_of_expand?_insertMany {ns : Namespaces} {pairs : List (String × String)}
    {pre iri : String} (h : (ns.insertMany pairs).expand? pre = some iri) :
    (pre, iri) ∈ pairs ∨ ns.expand? pre = some iri := by
  induction pairs generalizing ns with
  | nil => exact .inr h
  | cons pair pairs ih =>
    have hrest : ((ns.insert pair.1 pair.2).insertMany pairs).expand? pre = some iri := h
    rcases ih hrest with hmem | hfirst
    · exact .inl (List.mem_cons_of_mem pair hmem)
    · rw [expand?_insert] at hfirst
      split at hfirst
      · rename_i hpre
        obtain rfl := Option.some.inj hfirst
        subst hpre
        exact .inl List.mem_cons_self
      · exact .inr hfirst

theorem regular_standardPairs : ∀ pair ∈ standardPairs, Regular pair.1 pair.2 := by decide

variable {ns : Namespaces}

namespace Conventional

theorem regular (h : ns.Conventional) {pre iri : String} (hpre : ns.expand? pre = some iri) :
    Regular pre iri := by
  obtain ⟨pairs, rfl, hpairs⟩ := h.additions
  rcases mem_of_expand?_insertMany hpre with hmem | hstandard
  · exact hpairs _ hmem
  · rcases mem_of_expand?_insertMany hstandard with hmem | hempty
    · exact regular_standardPairs _ hmem
    · exact absurd hempty (by simp [expand?, empty])

theorem expand?_http (h : ns.Conventional) : ns.expand? "http" = none := by
  rw [Option.eq_none_iff_forall_ne_some]
  intro iri hiri
  exact (h.regular hiri).http rfl

theorem expand?_https (h : ns.Conventional) : ns.expand? "https" = none := by
  rw [Option.eq_none_iff_forall_ne_some]
  intro iri hiri
  exact (h.regular hiri).https rfl

end Conventional

/-! ## Texts -/

/-- One text is a prefixed name, the other one is what it abbreviates. -/
inductive Abbreviates (ns : Namespaces) : String → String → Prop
  | intro {pre iri : String} (rest : String) (hpre : ns.expand? pre = some iri)
      (hcolon : ':' ∉ pre.toList) : ns.Abbreviates (pre ++ ":" ++ rest) (iri ++ rest)

/-- Texts that are turned into each other by abbreviating and expanding. -/
def Respells (ns : Namespaces) : String → String → Prop := Relation.EqvGen ns.Abbreviates

/-- For a predicate, the spellings of its being a type are turned into each other, too. -/
def RespellsPredicate (ns : Namespaces) : String → String → Prop :=
  Relation.EqvGen fun s t ↦ ns.Abbreviates s t ∨ s ∈ typeSpellings ∧ t ∈ typeSpellings

/-- What single steps keep is kept by any number of them in either direction. -/
theorem eq_of_eqvGen {α β : Type} {r : α → α → Prop} {f : α → β} (hr : ∀ a b, r a b → f a = f b)
    {a b : α} (h : Relation.EqvGen r a b) : f a = f b :=
  congrArg (Quot.lift f hr) (Quot.eqvGen_sound h)

theorem unquote?_eq_none {cs : List Char} (h : cs.head? ≠ some '"') : unquote? cs = none := by
  rw [unquote?]
  rintro cs rfl
  exact h rfl

/-- A text with a colon is no spelling of a free position. -/
theorem isWildcard_of_colon {s : String} (h : ':' ∈ s.toList) : isWildcard (some s) = false := by
  have hnone : ∀ word ∈ wildcards, ':' ∉ word.toList := by decide
  rw [isWildcard, List.contains_eq_mem, decide_eq_false_iff_not]
  intro hmem
  exact hnone s hmem h

/-- A text with a colon is a predicate in the way it is any other term. -/
theorem predicate_of_colon {s : String} (h : ':' ∈ s.toList) : ns.predicate s = ns.term s := by
  rw [predicate, if_neg]
  rintro (rfl | rfl)
  · exact absurd h (by decide)
  · exact absurd h (by decide)

theorem colon_mem_of_isWebAddress {s : String} (h : isWebAddress s.toList = true) :
    ':' ∈ s.toList := by
  have hprefix : "http://".toList <+: s.toList ∨ "https://".toList <+: s.toList := by
    simpa [isWebAddress] using h
  rcases hprefix with hprefix | hprefix
  · exact hprefix.subset (by decide)
  · exact hprefix.subset (by decide)

theorem isWebAddress_append {s : String} (h : isWebAddress s.toList = true) (t : String) :
    isWebAddress (s ++ t).toList = true := by
  rw [isWebAddress, Bool.or_eq_true, List.isPrefixOf_iff_prefix, List.isPrefixOf_iff_prefix] at h ⊢
  rw [String.toList_append]
  exact h.imp (·.trans (List.prefix_append _ _)) (·.trans (List.prefix_append _ _))

/-! ## Resolution -/

namespace Conventional

variable {s t : String}

/-- A prefixed name spells the IRI that it abbreviates. -/
theorem term_name (h : ns.Conventional) {pre iri : String} (hpre : ns.expand? pre = some iri)
    (hcolon : ':' ∉ pre.toList) (rest : String) :
    ns.term (pre ++ ":" ++ rest) = .iri (iri ++ rest) := by
  have htext : (pre ++ ":" ++ rest).toList = pre.toList ++ ':' :: rest.toList := by simp
  have hquote : unquote? (pre.toList ++ ':' :: rest.toList) = none := by
    refine unquote?_eq_none ?_
    have hhead := (h.regular hpre).quote
    cases hcs : pre.toList with
    | nil => simp
    | cons c cs =>
      rw [hcs] at hhead
      exact hhead
  have hexpand : ns.expandName? (pre.toList ++ ':' :: rest.toList) = some (iri ++ rest) := by
    rw [expandName?_append_colon _ hcolon, String.ofList_toList, String.ofList_toList, hpre]
    rfl
  rw [term, htext, hquote, hexpand]

theorem term_address (h : ns.Conventional) (hs : isWebAddress s.toList = true) :
    ns.term s = .iri s := term_of_isWebAddress h.expand?_http h.expand?_https hs

/-- A prefixed name and what it abbreviates are the same term, and never free. -/
theorem resolves_abbreviates (h : ns.Conventional) (hst : ns.Abbreviates s t) :
    ns.term s = ns.term t ∧ ns.predicate s = ns.predicate t ∧
      isWildcard (some s) = false ∧ isWildcard (some t) = false := by
  obtain @⟨pre, iri, rest, hpre, hcolon⟩ := hst
  have haddress := isWebAddress_append (h.regular hpre).address rest
  have hterm := (h.term_name hpre hcolon rest).trans (h.term_address haddress).symm
  have hname : ':' ∈ (pre ++ ":" ++ rest).toList := by simp
  have hiri := colon_mem_of_isWebAddress haddress
  refine ⟨hterm, ?_, isWildcard_of_colon hname, isWildcard_of_colon hiri⟩
  rw [predicate_of_colon hname, predicate_of_colon hiri, hterm]

/-- Whichever way it is spelled, it is the predicate that gives a type. -/
theorem predicate_typeSpellings (h : ns.Conventional) (hs : s ∈ typeSpellings) :
    ns.predicate s = rdfType := by
  simp only [typeSpellings, List.mem_cons, List.not_mem_nil, or_false] at hs
  obtain rfl | rfl | rfl | rfl := hs
  · exact if_pos (.inl rfl)
  · exact if_pos (.inr rfl)
  · exact (predicate_of_colon (by decide)).trans (h.term_name h.rdf (by decide) "type")
  · exact (predicate_of_colon (by decide)).trans (h.term_address (by decide))

theorem isWildcard_typeSpellings : ∀ s ∈ typeSpellings, isWildcard (some s) = false := by decide

theorem term_eq (h : ns.Conventional) (hst : ns.Respells s t) : ns.term s = ns.term t := by
  refine eq_of_eqvGen ?_ hst
  intro a b hab
  exact (h.resolves_abbreviates hab).1

theorem isWildcard_eq (h : ns.Conventional) (hst : ns.Respells s t) :
    isWildcard (some s) = isWildcard (some t) := by
  refine eq_of_eqvGen (f := fun s ↦ isWildcard (some s)) (fun a b hab ↦ ?_) hst
  obtain ⟨-, -, ha, hb⟩ := h.resolves_abbreviates hab
  exact ha.trans hb.symm

theorem predicate_eq (h : ns.Conventional) (hst : ns.RespellsPredicate s t) :
    ns.predicate s = ns.predicate t := by
  refine eq_of_eqvGen ?_ hst
  rintro a b (hab | ⟨ha, hb⟩)
  · exact (h.resolves_abbreviates hab).2.1
  · rw [h.predicate_typeSpellings ha, h.predicate_typeSpellings hb]

theorem isWildcard_eq_of_predicate (h : ns.Conventional) (hst : ns.RespellsPredicate s t) :
    isWildcard (some s) = isWildcard (some t) := by
  refine eq_of_eqvGen (f := fun s ↦ isWildcard (some s)) ?_ hst
  rintro a b (hab | ⟨ha, hb⟩)
  · obtain ⟨-, -, ha, hb⟩ := h.resolves_abbreviates hab
    exact ha.trans hb.symm
  · exact (isWildcard_typeSpellings a ha).trans (isWildcard_typeSpellings b hb).symm

end Conventional

end Namespaces

/-! ## Statements and patterns -/

/-- The same statement with texts that may be spelled otherwise. -/
structure Statement.Respells (ns : Namespaces) (s t : Statement) : Prop where
  subject : ns.Respells s.subject t.subject
  predicate : ns.RespellsPredicate s.predicate t.predicate
  object : ns.Respells s.object t.object

/-- The same pattern with texts that may be spelled otherwise. -/
structure Pattern.Respells (ns : Namespaces) (p q : Pattern) : Prop where
  subject : Option.Rel ns.Respells p.subject q.subject
  predicate : Option.Rel ns.RespellsPredicate p.predicate q.predicate
  object : Option.Rel ns.Respells p.object q.object

/-- Positions ask for the same if their texts are free alike and resolve alike. -/
theorem map_spelled_eq {r : String → String → Prop} {resolve : String → Term}
    (hfree : ∀ {s t}, r s t → isWildcard (some s) = isWildcard (some t))
    (hresolve : ∀ {s t}, r s t → resolve s = resolve t) {p q : Option String}
    (h : Option.Rel r p q) : (spelled p).map resolve = (spelled q).map resolve := by
  cases h with
  | none => rfl
  | some hst =>
    rw [spelled, spelled, Option.filter_some, Option.filter_some, hfree hst]
    split
    · exact congrArg some (hresolve hst)
    · rfl

namespace Namespaces.Conventional

variable {ns : Namespaces}

theorem triple_eq (h : ns.Conventional) {s t : Statement} (hst : s.Respells ns t) :
    ns.triple s = ns.triple t := by
  rw [triple, triple, h.term_eq hst.subject, h.predicate_eq hst.predicate, h.term_eq hst.object]

theorem map_triple_eq (h : ns.Conventional) {ss ts : List Statement}
    (hst : List.Forall₂ (Statement.Respells ns) ss ts) : ss.map ns.triple = ts.map ns.triple := by
  induction hst with
  | nil => rfl
  | cons hst _ ih => rw [List.map_cons, List.map_cons, h.triple_eq hst, ih]

theorem term?_eq (h : ns.Conventional) {s t : Option String} (hst : Option.Rel ns.Respells s t) :
    ns.term? s = ns.term? t := map_spelled_eq h.isWildcard_eq h.term_eq hst

theorem pattern_eq (h : ns.Conventional) {p q : Pattern} (hpq : p.Respells ns q) :
    ns.pattern p = ns.pattern q := by
  have hpredicate := map_spelled_eq h.isWildcard_eq_of_predicate h.predicate_eq hpq.predicate
  rw [pattern, pattern, map_spelled_eq h.isWildcard_eq h.term_eq hpq.subject, hpredicate,
    map_spelled_eq h.isWildcard_eq h.term_eq hpq.object]

end Namespaces.Conventional

end TripleIndex
