import TripleIndex.Proofs.QueryLine
import TripleIndex.Resolution

/-!
# Patterns as query lines

A pattern of terms is written as a line: a free position as a question mark, a literal between
quotes, an address of the web as it stands, with blanks in between.  Read as a query and resolved,
the line asks for that pattern again (`TermPattern.exists_parse_line`), whatever the literals look
like: between quotes nothing is a mark of a free position, a prefixed name, an address or an alias.

What cannot be written is a literal with a quote in it, and an IRI that is no address, that holds a
blank or a quote, or that a prefix of the table captures.
-/

namespace TripleIndex

open Text QueryLine

namespace QueryLine

variable {as bs cs : List Char}

/-- An uncut text with blanks behind it is a piece, and the rest is cut as if it stood alone. -/
theorem pieces_uncut_append (has : Uncut as) (hne : as ≠ []) (hblank : allBlank bs = true)
    (hgap : bs ≠ []) : pieces (as ++ (bs ++ cs)) = as :: pieces cs := by
  cases bs with
  | nil => exact (hgap rfl).elim
  | cons b bs =>
    obtain ⟨hb, hbs⟩ := Bool.and_eq_true_iff.mp hblank
    rw [List.cons_append, pieces_append_gap has.balanced hb, has.pieces_eq hne,
      pieces_blanks_append hbs, List.singleton_append]

theorem parse_of_pieces {line : String} {s p o : List Char} (h : Balanced line.toList)
    (hpieces : pieces line.toList = [s, p, o]) :
    parse line = .ok ⟨String.ofList s, String.ofList p, String.ofList o⟩ := by
  have hterms : terms (trim line.toList) = [s, p, o] := by rw [terms_trim h, hpieces]
  have hne : (trim line.toList).isEmpty = false := by
    by_contra hempty
    rw [Bool.not_eq_false, List.isEmpty_iff] at hempty
    rw [hempty, terms] at hterms
    cases hterms
  have heven : (trim line.toList).count '"' % 2 = 0 :=
    Nat.even_iff.mp ((balanced_trim_iff line.toList).mpr h)
  simp [parse, hne, heven, hterms]

end QueryLine

namespace Term

/-- A literal without quotes, or an address of the web with neither blanks nor quotes. -/
def Typeable : Term → Prop
  | literal v => '"' ∉ v.toList
  | iri v => ("http://".toList <+: v.toList ∨ "https://".toList <+: v.toList) ∧
      ∀ c ∈ v.toList, isBlank c = false ∧ c ≠ '"'

instance : DecidablePred Typeable
  | literal v => inferInstanceAs (Decidable ('"' ∉ v.toList))
  | iri v => @instDecidableAnd (_ ∨ _) (∀ c ∈ v.toList, _) inferInstance (List.decidableBAll _ _)

/-- A literal is typed between quotes, an address as it stands. -/
def typed : Term → List Char
  | literal v => '"' :: v.toList ++ ['"']
  | iri v => v.toList

variable {t : Term}

/-- The first character of a typed term begins no reserved word. -/
theorem exists_typed_eq_cons (h : t.Typeable) :
    ∃ c cs, t.typed = c :: cs ∧ (c = '"' ∨ c = 'h') := by
  cases t with
  | literal v => exact ⟨_, _, rfl, .inl rfl⟩
  | iri v =>
    obtain ⟨⟨rest, hrest⟩ | ⟨rest, hrest⟩, -⟩ := h
    · exact ⟨'h', _, hrest.symm, .inr rfl⟩
    · exact ⟨'h', _, hrest.symm, .inr rfl⟩

theorem typed_ne_nil (h : t.Typeable) : t.typed ≠ [] := by
  obtain ⟨c, cs, hcons, -⟩ := exists_typed_eq_cons h
  rw [hcons]
  exact List.cons_ne_nil _ _

theorem uncut_typed (h : t.Typeable) : Uncut t.typed := by
  cases t with
  | literal v => exact uncut_quoted h
  | iri v => exact uncut_of_bare fun c hc ↦ isBare_iff.mpr (h.2 c hc)

/-- A word that begins with another character is not what is typed for a term. -/
theorem ofList_typed_ne (h : t.Typeable) {word : String}
    (hword : ∀ c cs, word.toList = c :: cs → c ≠ '"' ∧ c ≠ 'h') : String.ofList t.typed ≠ word := by
  intro heq
  obtain ⟨c, cs, hcons, hc⟩ := exists_typed_eq_cons h
  have hfirst : word.toList = c :: cs := by rw [← heq, String.toList_ofList, hcons]
  obtain ⟨hquote, hh⟩ := hword c cs hfirst
  exact hc.elim hquote hh

theorem isWildcard_typed (h : t.Typeable) : isWildcard (some (String.ofList t.typed)) = false := by
  have hreserved : ∀ word ∈ wildcards, ∀ c cs, word.toList = c :: cs → c ≠ '"' ∧ c ≠ 'h' := by
    simp [wildcards]
  rw [isWildcard, List.contains_eq_mem, decide_eq_false_iff_not]
  intro hmem
  exact ofList_typed_ne h (hreserved _ hmem) rfl

end Term

namespace Namespaces

variable {ns : Namespaces} {t : Term}

theorem unquote?_quoted (cs : List Char) : unquote? ('"' :: cs ++ ['"']) = some cs := by
  simp [unquote?]

/-- What stands before the first colon is looked up. -/
theorem expandName?_append_colon (pre : List Char) {rest : List Char} (hcolon : ':' ∉ pre) :
    ns.expandName? (pre ++ ':' :: rest) =
      (ns.expand? (String.ofList pre)).map (· ++ String.ofList rest) := by
  have hall : ∀ c ∈ pre, decide (c ≠ ':') = true := by
    intro c hc
    refine decide_eq_true ?_
    rintro rfl
    exact hcolon hc
  have hcut : cutColon? (pre ++ ':' :: rest) = some (pre, rest) := by
    rw [cutColon?, List.dropWhile_append_of_pos hall, List.takeWhile_append_of_pos hall]
    simp
  rw [expandName?, hcut]
  cases h : ns.expand? (String.ofList pre) <;> simp [h]

/-- A text with a scheme of the web is an IRI as it stands, unless its scheme is a prefix of the
table. -/
theorem term_of_isWebAddress (hhttp : ns.expand? "http" = none) (hhttps : ns.expand? "https" = none)
    {s : String} (h : isWebAddress s.toList = true) : ns.term s = .iri s := by
  have hprefix : "http://".toList <+: s.toList ∨ "https://".toList <+: s.toList := by
    simpa [isWebAddress] using h
  have hquote : unquote? s.toList = none := by
    obtain ⟨rest, hrest⟩ | ⟨rest, hrest⟩ := hprefix
    · rw [← hrest]
      rfl
    · rw [← hrest]
      rfl
  have hnone : ns.expandName? s.toList = none := by
    obtain ⟨rest, hrest⟩ | ⟨rest, hrest⟩ := hprefix
    · rw [← hrest]
      change ns.expandName? ("http".toList ++ ':' :: '/' :: '/' :: rest) = none
      rw [expandName?_append_colon _ (by decide), String.ofList_toList, hhttp]
      rfl
    · rw [← hrest]
      change ns.expandName? ("https".toList ++ ':' :: '/' :: '/' :: rest) = none
      rw [expandName?_append_colon _ (by decide), String.ofList_toList, hhttps]
      rfl
  rw [term, hquote, hnone, h]
  rfl

theorem term_typed (hhttp : ns.expand? "http" = none) (hhttps : ns.expand? "https" = none)
    (h : t.Typeable) : ns.term (String.ofList t.typed) = t := by
  cases t with
  | literal v =>
    rw [term, String.toList_ofList, Term.typed, unquote?_quoted]
    exact congrArg Term.literal (String.ofList_toList)
  | iri v =>
    rw [Term.typed, String.ofList_toList]
    exact term_of_isWebAddress hhttp hhttps (by simpa [isWebAddress] using h.1)

theorem predicate_typed (hhttp : ns.expand? "http" = none) (hhttps : ns.expand? "https" = none)
    (h : t.Typeable) : ns.predicate (String.ofList t.typed) = t := by
  have hbare : String.ofList t.typed ≠ "type" := Term.ofList_typed_ne h (by simp)
  have hat : String.ofList t.typed ≠ "@type" := Term.ofList_typed_ne h (by simp)
  rw [predicate, if_neg (not_or.mpr ⟨hbare, hat⟩), term_typed hhttp hhttps h]

end Namespaces

namespace TermPattern

/-! ## Positions -/

/-- What is typed for a position of a pattern. -/
def typedPosition (position : Option Term) : List Char := (position.map Term.typed).getD ['?']

/-- Every bound position has a term that can be typed. -/
structure Typeable (p : TermPattern) : Prop where
  subject : ∀ t ∈ p.subject, t.Typeable
  predicate : ∀ t ∈ p.predicate, t.Typeable
  object : ∀ t ∈ p.object, t.Typeable

variable {position : Option Term}

theorem uncut_typedPosition (h : ∀ t ∈ position, t.Typeable) : Uncut (typedPosition position) := by
  cases position with
  | none => exact uncut_of_bare (List.forall_mem_singleton.mpr rfl)
  | some t => exact Term.uncut_typed (h t rfl)

theorem typedPosition_ne_nil (h : ∀ t ∈ position, t.Typeable) : typedPosition position ≠ [] := by
  cases position with
  | none => exact List.cons_ne_nil _ _
  | some t => exact Term.typed_ne_nil (h t rfl)

/-- A typed position is free or bound as it was. -/
theorem spelled_typedPosition (h : ∀ t ∈ position, t.Typeable) :
    spelled (some (String.ofList (typedPosition position))) =
      position.map fun t ↦ String.ofList t.typed := by
  cases position with
  | none => rfl
  | some t =>
    change spelled (some (String.ofList t.typed)) = _
    rw [spelled, Option.filter_some, Term.isWildcard_typed (h t rfl)]
    rfl

theorem map_spelled_typedPosition {resolve : String → Term} (h : ∀ t ∈ position, t.Typeable)
    (hresolve : ∀ t : Term, t.Typeable → resolve (String.ofList t.typed) = t) :
    (spelled (some (String.ofList (typedPosition position)))).map resolve = position := by
  rw [spelled_typedPosition h]
  cases position with
  | none => rfl
  | some t => exact congrArg some (hresolve t (h t rfl))

/-! ## Lines -/

/-- The blanks of a line with three positions. -/
structure Spacing where
  before : List Char := []
  first : List Char := [' ']
  second : List Char := [' ']
  behind : List Char := []
  before_blank : allBlank before = true := by decide
  first_blank : allBlank first = true := by decide
  second_blank : allBlank second = true := by decide
  behind_blank : allBlank behind = true := by decide
  first_ne : first ≠ [] := by decide
  second_ne : second ≠ [] := by decide

/-- A pattern, typed with given blanks. -/
def line (p : TermPattern) (w : Spacing) : String :=
  String.ofList (w.before ++ (typedPosition p.subject ++ (w.first ++
    (typedPosition p.predicate ++ (w.second ++ (typedPosition p.object ++ w.behind))))))

variable {p : TermPattern}

theorem Typeable.pieces_line (h : p.Typeable) (w : Spacing) :
    pieces (p.line w).toList =
      [typedPosition p.subject, typedPosition p.predicate, typedPosition p.object] := by
  have hlast := uncut_typedPosition h.object
  rw [line, String.toList_ofList, pieces_blanks_append w.before_blank,
    pieces_uncut_append (uncut_typedPosition h.subject) (typedPosition_ne_nil h.subject)
      w.first_blank w.first_ne,
    pieces_uncut_append (uncut_typedPosition h.predicate) (typedPosition_ne_nil h.predicate)
      w.second_blank w.second_ne,
    pieces_append_blanks hlast.balanced w.behind_blank,
    hlast.pieces_eq (typedPosition_ne_nil h.object)]

theorem Typeable.balanced_line (h : p.Typeable) (w : Spacing) : Balanced (p.line w).toList := by
  rw [line, String.toList_ofList, balanced_append_iff (balanced_of_allBlank w.before_blank),
    balanced_append_iff (uncut_typedPosition h.subject).balanced,
    balanced_append_iff (balanced_of_allBlank w.first_blank),
    balanced_append_iff (uncut_typedPosition h.predicate).balanced,
    balanced_append_iff (balanced_of_allBlank w.second_blank),
    balanced_append_iff (uncut_typedPosition h.object).balanced]
  exact balanced_of_allBlank w.behind_blank

/-- A pattern that has been typed as a line is what the line asks for. -/
theorem exists_parse_line {ns : Namespaces} (hhttp : ns.expand? "http" = none)
    (hhttps : ns.expand? "https" = none) (h : p.Typeable) (w : Spacing) :
    ∃ s, QueryLine.parse (p.line w) = .ok s ∧ ns.pattern s.toPattern = p := by
  refine ⟨_, parse_of_pieces (h.balanced_line w) (h.pieces_line w), ?_⟩
  have hterm (t : Term) (ht : t.Typeable) : ns.term (String.ofList t.typed) = t :=
    Namespaces.term_typed hhttp hhttps ht
  have hpredicate (t : Term) (ht : t.Typeable) : ns.predicate (String.ofList t.typed) = t :=
    Namespaces.predicate_typed hhttp hhttps ht
  rw [Namespaces.pattern, Statement.toPattern, map_spelled_typedPosition h.subject hterm,
    map_spelled_typedPosition h.predicate hpredicate, map_spelled_typedPosition h.object hterm]

/-- Literals that look like an alias and like a mark of a free position, one of them with a line
feed, and an address that ends in a word with a colon. -/
def lookalikes : TermPattern where
  subject := some (.iri "https://schema.org/rdf:type")
  predicate := some (.literal "type")
  object := some (.literal "?\n")

theorem exists_parse_line_lookalikes :
    Namespaces.standard.expand? "http" = none ∧ Namespaces.standard.expand? "https" = none ∧
      lookalikes.Typeable ∧
      ∃ s, QueryLine.parse (lookalikes.line { first := ['\t', ' '], behind := ['\n'] }) = .ok s ∧
        Namespaces.standard.pattern s.toPattern = lookalikes := by
  have hhttp : Namespaces.standard.expand? "http" = none := by decide +kernel
  have hhttps : Namespaces.standard.expand? "https" = none := by decide +kernel
  have htypeable : lookalikes.Typeable := by
    constructor <;> (rintro t ⟨⟩; decide +kernel)
  exact ⟨hhttp, hhttps, htypeable, exists_parse_line hhttp hhttps htypeable _⟩

end TermPattern

end TripleIndex
