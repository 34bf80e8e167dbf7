import TripleIndex.NTriples
import TripleIndex.Proofs.Iri
import TripleIndex.Proofs.Lines
import Mathlib.Algebra.Ring.Nat
import Mathlib.Data.List.Basic

/-!
# Lines of triples

Triples are written one behind the other, each with a full stop and a line feed.  Whether the text
has one line per triple depends on nothing but the IRIs (`Triple.lines_lines`): control characters
are escaped in a literal, in N-Triples and in a display alike, while an IRI is written as it is.

A valid IRI has no control character, so a triple that N-Triples can express stands on one line.
Any other triple is displayed, and a feed in one of its IRIs breaks the line in two.
-/

namespace TripleIndex

open Text

/-! ## Control characters -/

/-- The characters in front of the space; feeds and returns are among them. -/
def IsControl (c : Char) : Prop := c.toNat < 0x20

instance : DecidablePred IsControl := fun c ↦ inferInstanceAs (Decidable (c.toNat < 0x20))

variable {c d : Char}

theorem IsControl.not_isVisible (h : IsControl c) : ¬ Iri.IsVisible c := by
  simp only [IsControl, Iri.IsVisible] at h ⊢
  omega

theorem not_isControl_of_isVisible (h : Iri.IsVisible c) : ¬ IsControl c := fun hc ↦
  hc.not_isVisible h

theorem isVisible_digitChar {n : Nat} (h : n < 16) :
    Iri.IsVisible n.digitChar ∧ Iri.IsVisible n.digitChar.toUpper := by
  have hdigit : ∀ m : Fin 16, Iri.IsVisible m.val.digitChar ∧
      Iri.IsVisible m.val.digitChar.toUpper := by decide
  exact hdigit ⟨n, h⟩

theorem isVisible_of_mem_hexDigits {n : Nat} (h : c ∈ hexDigits n) : Iri.IsVisible c := by
  induction n using Nat.strongRecOn with
  | ind n ih =>
    rw [hexDigits, Nat.toDigits_eq_if (by decide)] at h
    split at h
    · rename_i hlt
      rw [List.mem_singleton.mp h]
      exact (isVisible_digitChar hlt).1
    · rcases List.mem_append.mp h with h | h
      · exact ih (n / 16) (by omega) h
      · rw [List.mem_singleton.mp h]
        exact (isVisible_digitChar (Nat.mod_lt n (by decide))).1

theorem isVisible_of_mem_fourHex {n : Nat} (h : c ∈ fourHex upperHex n) : Iri.IsVisible c := by
  simp only [fourHex, upperHex, List.mem_cons, List.not_mem_nil, or_false] at h
  rcases h with rfl | rfl | rfl | rfl
  all_goals exact (isVisible_digitChar (Nat.mod_lt _ (by decide))).2

theorem not_isControl_of_mem_pair {x y : Char} (hx : ¬ IsControl x) (hy : ¬ IsControl y)
    (h : c ∈ [x, y]) : ¬ IsControl c := by
  rcases List.mem_pair.mp h with rfl | rfl
  · exact hx
  · exact hy

/-- N-Triples escapes control characters in literals. -/
theorem not_isControl_of_mem_escape (h : c ∈ NTriples.escape d) : ¬ IsControl c := by
  unfold NTriples.escape at h
  split_ifs at h with hb ht hn hf hr hquote hcode
  iterate 5 exact not_isControl_of_mem_pair (by decide) (by decide) h
  · refine not_isControl_of_mem_pair (by decide) ?_ h
    rcases hquote with rfl | rfl <;> decide
  · rcases List.mem_append.mp h with h | h
    · exact not_isControl_of_mem_pair (by decide) (by decide) h
    · exact not_isControl_of_isVisible (isVisible_of_mem_fourHex h)
  · rw [List.mem_singleton.mp h]
    exact fun hd ↦ hcode (.inl hd)

/-- A display escapes them as well. -/
theorem not_isControl_of_mem_displayChar (h : c ∈ Term.displayChar d) : ¬ IsControl c := by
  unfold Term.displayChar at h
  split_ifs at h with ht hr hn hquote hprintable
  iterate 3 exact not_isControl_of_mem_pair (by decide) (by decide) h
  · refine not_isControl_of_mem_pair (by decide) ?_ h
    rcases hquote with rfl | rfl | rfl <;> decide
  · rw [List.mem_singleton.mp h]
    exact Nat.not_lt.mpr hprintable.1
  · simp only [List.mem_append, List.mem_cons, List.not_mem_nil, or_false] at h
    rcases h with ((rfl | rfl | rfl) | h) | rfl
    · decide
    · decide
    · decide
    · exact not_isControl_of_isVisible (isVisible_of_mem_hexDigits h)
    · decide

/-! ## Terms and triples -/

namespace Term

/-- What a term puts into a line as it is. -/
def raw : Term → List Char
  | iri v => v.toList
  | literal _ => []

/-- However literals are escaped, control characters come from IRIs alone. -/
theorem count_quoted {escaped : Char → List Char}
    (hescaped : ∀ d, ∀ c ∈ escaped d, ¬ IsControl c) (hc : IsControl c) (cs : List Char) :
    ('"' :: cs.flatMap escaped ++ ['"']).count c = 0 := by
  refine List.count_eq_zero.mpr fun h ↦ ?_
  simp only [List.cons_append, List.mem_cons, List.mem_append, List.mem_flatMap, List.not_mem_nil,
    or_false] at h
  rcases h with rfl | ⟨d, -, hd⟩ | rfl
  · exact absurd hc (by decide)
  · exact hescaped d c hd hc
  · exact absurd hc (by decide)

theorem count_bracketed (hc : IsControl c) (cs : List Char) :
    ('<' :: cs ++ ['>']).count c = cs.count c := by
  have hopen : '<' ≠ c := by
    rintro rfl
    exact absurd hc (by decide)
  have hclose : '>' ≠ c := by
    rintro rfl
    exact absurd hc (by decide)
  rw [List.count_append, List.count_cons_of_ne hopen, List.count_cons_of_ne hclose]
  rfl

theorem count_ntriples (hc : IsControl c) (t : Term) :
    (NTriples.term t).count c = t.raw.count c := by
  cases t with
  | iri v => exact count_bracketed hc v.toList
  | literal v => exact count_quoted (fun _ _ ↦ not_isControl_of_mem_escape) hc v.toList

theorem count_display (hc : IsControl c) (t : Term) : t.display.count c = t.raw.count c := by
  cases t with
  | iri v => exact count_bracketed hc v.toList
  | literal v => exact count_quoted (fun _ _ ↦ not_isControl_of_mem_displayChar) hc v.toList

theorem visible_of_isValidIri {t : Term} (h : t.isValidIri = true) : Iri.Visible t.raw := by
  cases t with
  | iri v => exact Iri.visible_of_isAbsolute h
  | literal v => cases h

theorem visible_raw {t : Term} (h : (t.isValidIri || !t.isIri) = true) : Iri.Visible t.raw := by
  cases t with
  | iri v => exact visible_of_isValidIri (by simpa [isIri] using h)
  | literal v => exact Iri.visible_nil

end Term

namespace Triple

/-- The texts of the IRIs of a triple. -/
def raw (t : Triple) : List Char := t.subject.raw ++ t.predicate.raw ++ t.object.raw

/-- Three terms with a full stop behind them. -/
theorem count_sentence {spell : Term → List Char} (hc : IsControl c)
    (hspell : ∀ u, (spell u).count c = u.raw.count c) (t : Triple) :
    (spell t.subject ++ ' ' :: spell t.predicate ++ ' ' :: spell t.object ++ [' ', '.']).count c =
      t.raw.count c := by
  have hspace : ' ' ≠ c := by
    rintro rfl
    exact absurd hc (by decide)
  have hstop : '.' ≠ c := by
    rintro rfl
    exact absurd hc (by decide)
  simp only [List.count_append, List.count_cons_of_ne hspace, List.count_cons_of_ne hstop,
    List.count_nil, hspell, raw, Nat.add_zero]

/-- The control characters of a line are those of the IRIs. -/
theorem count_line (hc : IsControl c) (t : Triple) : t.line.count c = t.raw.count c := by
  rw [line]
  split
  · exact count_sentence hc (Term.count_ntriples hc) t
  · exact count_sentence hc (Term.count_display hc) t

theorem visible_of_isExpressible {t : Triple} (h : t.isExpressible = true) :
    Iri.Visible t.raw := by
  simp only [isExpressible, Bool.and_eq_true] at h
  exact ((Term.visible_of_isValidIri h.1.1).append (Term.visible_of_isValidIri h.1.2)).append
    (Term.visible_raw h.2)

theorem exists_line_eq (t : Triple) : ∃ sentence, t.line = sentence ++ [' ', '.'] := by
  rw [line]
  split
  · exact ⟨_, rfl⟩
  · exact ⟨_, rfl⟩

/-! ## Texts of triples -/

variable {ts : List Triple}

theorem lines_append_singleton (ts : List Triple) (t : Triple) :
    lines (ts ++ [t]) = lines ts ++ t.line ++ ['\n'] := by
  simp [lines]

theorem openLine_lines (ts : List Triple) : openLine '\n' (lines ts) = [] := by
  induction ts using List.reverseRecOn with
  | nil => rfl
  | append_singleton ts t _ =>
    rw [lines_append_singleton]
    exact openLine_append_feed _

theorem count_lines (ts : List Triple) :
    (lines ts).count '\n' = ts.length + (ts.map (·.raw.count '\n')).sum := by
  induction ts with
  | nil => rfl
  | cons t ts ih =>
    have hcons : lines (t :: ts) = t.line ++ ['\n'] ++ lines ts := List.flatMap_cons
    rw [hcons, List.count_append, List.count_append, ih, count_line (by decide), List.map_cons,
      List.sum_cons, List.length_cons, List.count_singleton_self]
    omega

/-- Without a feed in any IRI, cutting the text gives back the lines it was made of. -/
theorem lines_lines_of_notMem (h : ∀ t ∈ ts, '\n' ∉ t.raw) :
    Text.lines (lines ts) = ts.map line := by
  induction ts with
  | nil => rfl
  | cons t ts ih =>
    obtain ⟨ht, hts⟩ := List.forall_mem_cons.mp h
    have hfeed : '\n' ∉ t.line := by
      rw [← List.count_eq_zero, count_line (by decide), List.count_eq_zero]
      exact ht
    have hstop : t.line.getLast? = some '.' := by
      obtain ⟨sentence, hline⟩ := t.exists_line_eq
      rw [hline]
      simp
    have hcut : Text.lines (t.line ++ '\n' :: lines ts) = _ :=
      linesOf_line_append hfeed (lines ts)
    have hcons : lines (t :: ts) = t.line ++ '\n' :: lines ts := by
      simp [lines]
    rw [hcons, hcut, LineCut.withoutReturn_of_getLast? hstop (by decide), List.map_cons, ← ih hts]
    rfl

/-- Every line ends with a full stop behind a space, and its control characters are those of the
IRIs; a triple that N-Triples can express has none.  The text has one line per triple, and one more
for every feed in an IRI, so it is cut into the lines of the triples exactly if no IRI has any. -/
theorem lines_lines (ts : List Triple) :
    (∀ t ∈ ts, (∃ sentence, t.line = sentence ++ [' ', '.']) ∧
      (∀ c, IsControl c → (c ∈ t.line ↔ c ∈ t.raw)) ∧
      (t.isExpressible = true → ∀ c, IsControl c → c ∉ t.line)) ∧
    (Text.lines (lines ts)).length = ts.length + (ts.map (·.raw.count '\n')).sum ∧
    (Text.lines (lines ts) = ts.map line ↔ ∀ t ∈ ts, '\n' ∉ t.raw) := by
  have hlength : (Text.lines (lines ts)).length =
      ts.length + (ts.map (·.raw.count '\n')).sum := by
    rw [Text.lines, length_linesOf, openLine_lines, if_pos rfl, count_lines, Nat.add_zero]
  have hmem (t : Triple) {c : Char} (hc : IsControl c) : c ∈ t.line ↔ c ∈ t.raw := by
    rw [← List.count_pos_iff, count_line hc, List.count_pos_iff]
  refine ⟨fun t _ ↦ ⟨t.exists_line_eq, fun c hc ↦ hmem t hc, fun hexpressible c hc h ↦ ?_⟩,
    hlength, fun heq ↦ ?_, lines_lines_of_notMem⟩
  · exact hc.not_isVisible (visible_of_isExpressible hexpressible c ((hmem t hc).mp h))
  · -- A feed more is a line more than there are triples.
    rw [heq, List.length_map] at hlength
    have hsum : (ts.map (·.raw.count '\n')).sum = 0 := by omega
    intro t ht
    rw [← List.count_eq_zero]
    exact List.sum_eq_zero_iff_forall_eq_nat.mp hsum _ (List.mem_map_of_mem ht)

/-- A feed behind a prefix gets into the IRI that is abbreviated. -/
example :
    (Text.lines (lines [Namespaces.standard.triple ⟨"ex:a\nb", "type", "x"⟩])).length = 2 := by
  decide +kernel

end Triple

end TripleIndex
