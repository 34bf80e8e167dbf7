import TripleIndex.QueryLine
import Mathlib.Algebra.Ring.Parity
import Mathlib.Data.List.Infix
import Mathlib.Data.List.TakeWhile

/-!
# Where a query line is cut

A gap is a blank that an even number of quotes stand in front of, and the pieces of a text are what
stands between its gaps.  Terms are found from the left, run by run, and nothing of this kind is
counted on the way; still, they are the pieces that are not empty (`terms_eq_pieces`), if the quotes
of the text pair up.

Two facts about a term carry the proof.  Its own quotes pair up, so that what stands behind it is
cut as if it stood alone, and none of its blanks is a gap (`Uncut`).  And it ends in front of a
blank or with the text, because a quote that nothing closes would be an odd one.
-/

namespace TripleIndex

open Text

namespace QueryLine

/-! ## Gaps and pieces -/

/-- The characters of a text, each with what stands in front of it. -/
def fronted (cs : List Char) : List (List Char × Char) := cs.inits.zip cs

/-- A blank that an even number of quotes stand in front of. -/
def isGap (r : List Char × Char) : Bool := isBlank r.2 && decide (Even (r.1.count '"'))

/-- What stands between the gaps of a text, character for character. -/
def between (cs : List Char) : List (List Char) :=
  ((fronted cs).splitOnP isGap).map fun piece ↦ piece.map Prod.snd

/-- What stands between the gaps, where that is not empty. -/
def pieces (cs : List Char) : List (List Char) := (between cs).filter (· ≠ [])

/-- The quotes of a text pair up. -/
def Balanced (cs : List Char) : Prop := Even (cs.count '"')

variable {as bs cs : List Char} {b : Char}

theorem balanced_nil : Balanced [] := by simp [Balanced]

theorem balanced_append_iff (h : Balanced as) : Balanced (as ++ bs) ↔ Balanced bs := by
  rw [Balanced, Balanced, List.count_append, Nat.even_add]
  exact ⟨fun hiff ↦ hiff.mp h, fun hbs ↦ iff_of_true h hbs⟩

theorem ne_quote_of_isBlank (h : isBlank b = true) : b ≠ '"' := by
  rintro rfl
  cases h

theorem balanced_of_allBlank (h : allBlank cs = true) : Balanced cs := by
  have hnone : '"' ∉ cs := by
    intro hmem
    exact ne_quote_of_isBlank (List.all_eq_true.mp h _ hmem) rfl
  rw [Balanced, List.count_eq_zero_of_not_mem hnone]
  exact Even.zero

theorem fronted_cons (a : Char) (cs : List Char) :
    fronted (a :: cs) = ([], a) :: (fronted cs).map fun r ↦ (a :: r.1, r.2) := by
  rw [fronted, List.inits_cons, List.zip_cons_cons, List.zip_map_left]
  rfl

theorem fronted_append (as bs : List Char) :
    fronted (as ++ bs) = fronted as ++ (fronted bs).map fun r ↦ (as ++ r.1, r.2) := by
  induction as with
  | nil => simp [fronted]
  | cons a as ih =>
    rw [List.cons_append, fronted_cons, ih, fronted_cons, List.map_append, List.map_map,
      List.cons_append]
    rfl

theorem map_snd_fronted (cs : List Char) : (fronted cs).map Prod.snd = cs :=
  List.map_snd_zip (by simp)

/-- Behind a text whose quotes pair up, gaps are the gaps of what stands there. -/
theorem isGap_behind (h : Balanced as) (r : List Char × Char) :
    isGap (as ++ r.1, r.2) = isGap r := by
  simp only [isGap]
  congr 2
  exact propext (balanced_append_iff h)

theorem splitOnP_map {α β : Type} (f : α → β) (p : β → Bool) (as : List α) :
    (as.map f).splitOnP p = (as.splitOnP (p ∘ f)).map (List.map f) := by
  induction as with
  | nil => simp
  | cons a as ih =>
    rw [List.map_cons, List.splitOnP_cons_eq_if_modifyHead, List.splitOnP_cons_eq_if_modifyHead, ih]
    simp only [Function.comp_apply]
    split
    · rfl
    · cases as.splitOnP (p ∘ f) <;> rfl

/-- A gap cuts a text in two, and each half is cut as if it stood alone. -/
theorem between_append_gap (h : Balanced as) (hb : isBlank b = true) :
    between (as ++ b :: bs) = between as ++ between bs := by
  have hgap : isGap (as, b) = true := by
    rw [isGap, hb, Bool.true_and]
    exact decide_eq_true h
  have hbehind : Balanced (as ++ [b]) := by
    refine (balanced_append_iff h).mpr ?_
    rw [Balanced, List.count_singleton, if_neg (by simpa using ne_quote_of_isBlank hb)]
    exact Even.zero
  have hfront : fronted (as ++ b :: bs) =
      fronted as ++ (as, b) :: (fronted bs).map fun r ↦ ((as ++ [b]) ++ r.1, r.2) := by
    rw [fronted_append, fronted_cons, List.map_cons, List.map_map]
    simp [Function.comp_def]
  have hsame : (isGap ∘ fun r : List Char × Char ↦ ((as ++ [b]) ++ r.1, r.2)) = isGap :=
    funext fun r ↦ isGap_behind hbehind r
  rw [between, hfront, List.splitOnP_append_cons _ _ hgap, splitOnP_map, hsame, List.map_append,
    List.map_map]
  congr 1
  refine List.map_congr_left fun piece _ ↦ ?_
  simp [Function.comp_def]

theorem pieces_append_gap (h : Balanced as) (hb : isBlank b = true) :
    pieces (as ++ b :: bs) = pieces as ++ pieces bs := by
  rw [pieces, between_append_gap h hb, List.filter_append, pieces, pieces]

theorem pieces_nil : pieces [] = [] := rfl

theorem pieces_blank_cons (hb : isBlank b = true) : pieces (b :: bs) = pieces bs :=
  pieces_append_gap balanced_nil hb

theorem pieces_blanks_append (h : allBlank as = true) : pieces (as ++ bs) = pieces bs := by
  induction as with
  | nil => rfl
  | cons a as ih =>
    obtain ⟨ha, has⟩ := Bool.and_eq_true_iff.mp h
    rw [List.cons_append, pieces_blank_cons ha, ih has]

theorem pieces_append_blanks (h : Balanced as) (hbs : allBlank bs = true) :
    pieces (as ++ bs) = pieces as := by
  cases bs with
  | nil => rw [List.append_nil]
  | cons b bs =>
    obtain ⟨hb, hblank⟩ := Bool.and_eq_true_iff.mp hbs
    have hnone : pieces bs = [] := by
      rw [← List.append_nil bs, pieces_blanks_append hblank, pieces_nil]
    rw [pieces_append_gap h hb, hnone, List.append_nil]

/-! ## Texts without a gap -/

/-- The quotes of a text pair up, and no blank of it is a gap. -/
structure Uncut (cs : List Char) : Prop where
  balanced : Balanced cs
  noGap : ∀ r ∈ fronted cs, isGap r = false

theorem uncut_nil : Uncut [] := ⟨balanced_nil, by simp [fronted]⟩

theorem Uncut.append (has : Uncut as) (hbs : Uncut bs) : Uncut (as ++ bs) where
  balanced := (balanced_append_iff has.balanced).mpr hbs.balanced
  noGap := by
    intro r hr
    rw [fronted_append, List.mem_append, List.mem_map] at hr
    rcases hr with hr | ⟨q, hq, rfl⟩
    · exact has.noGap r hr
    · rw [isGap_behind has.balanced]
      exact hbs.noGap q hq

/-- An uncut text is the one piece of itself. -/
theorem Uncut.pieces_eq (h : Uncut cs) (hne : cs ≠ []) : pieces cs = [cs] := by
  rw [pieces, between, List.splitOnP_eq_singleton h.noGap, List.map_singleton, map_snd_fronted]
  simp [hne]

theorem isBare_iff {c : Char} : isBare c = true ↔ isBlank c = false ∧ c ≠ '"' := by
  simp [isBare]

theorem uncut_of_bare (h : ∀ c ∈ cs, isBare c = true) : Uncut cs where
  balanced := by
    have hnone : '"' ∉ cs := fun hmem ↦ (isBare_iff.mp (h _ hmem)).2 rfl
    rw [Balanced, List.count_eq_zero_of_not_mem hnone]
    exact Even.zero
  noGap := by
    rintro ⟨before, c⟩ hr
    rw [isGap, (isBare_iff.mp (h c (List.of_mem_zip hr).2)).1, Bool.false_and]

/-- Between two quotes, one quote stands in front of every blank. -/
theorem uncut_quoted (h : '"' ∉ cs) : Uncut ('"' :: cs ++ ['"']) where
  balanced := by
    rw [Balanced, List.cons_append, List.count_cons_self, List.count_append,
      List.count_eq_zero_of_not_mem h]
    decide
  noGap := by
    rintro ⟨before, c⟩ hr
    rw [List.cons_append, fronted_cons, fronted_append, List.map_append, List.mem_cons,
      List.mem_append] at hr
    rcases hr with hfirst | hinside | hlast
    · cases hfirst
      rfl
    · obtain ⟨⟨front, d⟩, hmem, hr⟩ := List.mem_map.mp hinside
      cases hr
      have hfront : '"' ∉ front := by
        intro hq
        have hinit : front <+: cs := (List.mem_inits _ _).mp (List.of_mem_zip hmem).1
        exact h (hinit.subset hq)
      rw [isGap, List.count_cons_self, List.count_eq_zero_of_not_mem hfront]
      simp
    · rw [fronted_cons, List.map_cons, List.map_cons] at hlast
      rcases List.mem_singleton.mp hlast with hr
      cases hr
      rfl

/-! ## Terms -/

theorem dropWhile_ne_quote {mark : Char} {rest : List Char}
    (h : cs.dropWhile (· ≠ '"') = mark :: rest) : mark = '"' := by
  have hhead := List.head?_dropWhile_not (· ≠ '"') cs
  rw [h] at hhead
  simpa using hhead

theorem uncut_of_cutRun? {run rest : List Char} (h : cutRun? cs = some (run, rest)) :
    Uncut run := by
  cases cs with
  | nil => cases h
  | cons c cs =>
    rw [cutRun?] at h
    split at h
    · rename_i hc
      split at h
      · cases h
      · rename_i mark behind hdrop
        cases h
        rw [hc, dropWhile_ne_quote hdrop]
        refine uncut_quoted fun hmem ↦ ?_
        simpa using List.mem_takeWhile_imp hmem
    · split at h
      · rename_i hbare
        cases h
        refine uncut_of_bare ?_
        rintro d (_ | ⟨_, hd⟩)
        · exact hbare
        · exact List.mem_takeWhile_imp hd
      · cases h

/-- Where no run begins, there is a blank, the end, or a quote that nothing closes. -/
theorem isBlank_of_cutRun?_eq_none (h : cutRun? (b :: cs) = none) (hcs : Balanced (b :: cs)) :
    isBlank b = true := by
  rw [cutRun?] at h
  split at h
  · rename_i hquote
    split at h
    · rename_i hdrop
      have hnone : '"' ∉ cs := by
        intro hmem
        have hall := List.dropWhile_eq_nil_iff.mp hdrop '"' hmem
        simp at hall
      rw [Balanced, hquote, List.count_cons_self, List.count_eq_zero_of_not_mem hnone] at hcs
      exact absurd hcs (by decide)
    · cases h
  · rename_i hquote
    split at h
    · cases h
    · rename_i hbare
      rw [isBare_iff] at hbare
      by_contra hblank
      exact hbare ⟨Bool.eq_false_iff.mpr hblank, hquote⟩

theorem uncut_cutTerm (cs : List Char) : Uncut (cutTerm cs).1 := by
  fun_induction cutTerm cs with
  | case1 cs h => exact uncut_nil
  | case2 cs r h more ih => exact (uncut_of_cutRun? h).append ih

theorem cutRun?_cutTerm (cs : List Char) : cutRun? (cutTerm cs).2 = none := by
  fun_induction cutTerm cs with
  | case1 cs h => exact h
  | case2 cs r h more ih => exact ih

/-- A term ends in front of a blank or with the text. -/
theorem cutTerm_behind (h : Balanced cs) :
    (cutTerm cs).2 = [] ∨ ∃ b bs, (cutTerm cs).2 = b :: bs ∧ isBlank b = true := by
  cases hrest : (cutTerm cs).2 with
  | nil => exact .inl rfl
  | cons b bs =>
    have hbalanced : Balanced (b :: bs) := by
      rw [← append_cutTerm cs, balanced_append_iff (uncut_cutTerm cs).balanced, hrest] at h
      exact h
    have hnone := cutRun?_cutTerm cs
    rw [hrest] at hnone
    exact .inr ⟨b, bs, rfl, isBlank_of_cutRun?_eq_none hnone hbalanced⟩

theorem terms_eq_pieces (h : Balanced cs) : terms cs = pieces cs := by
  fun_induction terms cs with
  | case1 => rfl
  | case2 c rest cut hempty ih =>
    -- No term begins here, so there is a blank, and it is a gap.
    have hsplit := append_cutTerm (c :: rest)
    rw [show (cutTerm (c :: rest)).1 = [] from hempty, List.nil_append] at hsplit
    obtain hrest | ⟨b, bs, hrest, hb⟩ := cutTerm_behind h
    · rw [hrest] at hsplit
      cases hsplit
    · rw [hrest] at hsplit
      cases hsplit
      have hblank : Balanced [c] := balanced_of_allBlank (by simpa [allBlank] using hb)
      rw [ih ((balanced_append_iff hblank).mp h), pieces_blank_cons hb]
  | case3 c rest cut hne ih =>
    have huncut : Uncut cut.1 := uncut_cutTerm (c :: rest)
    have hsplit : cut.1 ++ cut.2 = c :: rest := append_cutTerm (c :: rest)
    have hbalanced : Balanced cut.2 := by
      rw [← hsplit, balanced_append_iff huncut.balanced] at h
      exact h
    rw [ih hbalanced, ← hsplit]
    obtain hrest | ⟨b, bs, hrest, hb⟩ := cutTerm_behind h
    · rw [show cut.2 = [] from hrest, List.append_nil, huncut.pieces_eq hne, pieces_nil]
    · rw [show cut.2 = b :: bs from hrest, pieces_append_gap huncut.balanced hb,
        huncut.pieces_eq hne, pieces_blank_cons hb]
      rfl

/-! ## Lines -/

theorem exists_trim (cs : List Char) :
    ∃ before behind, cs = before ++ trim cs ++ behind ∧ allBlank before = true ∧
      allBlank behind = true := by
  refine ⟨cs.takeWhile isBlank, ((cs.dropWhile isBlank).reverse.takeWhile isBlank).reverse,
    ?_, ?_, ?_⟩
  · rw [trim, List.append_assoc, ← List.reverse_append, List.takeWhile_append_dropWhile,
      List.reverse_reverse, List.takeWhile_append_dropWhile]
  · exact List.all_eq_true.mpr fun c hc ↦ List.mem_takeWhile_imp hc
  · rw [allBlank, List.all_reverse]
    exact List.all_eq_true.mpr fun c hc ↦ List.mem_takeWhile_imp hc

theorem isEmpty_trim (cs : List Char) : (trim cs).isEmpty = allBlank cs := by
  rw [Bool.eq_iff_iff, List.isEmpty_iff]
  constructor
  · intro h
    obtain ⟨before, behind, hcs, hbefore, hbehind⟩ := exists_trim cs
    rw [hcs, h, List.append_nil, allBlank_append, hbefore, hbehind]
    rfl
  · intro h
    have hnil : cs.dropWhile isBlank = [] :=
      List.dropWhile_eq_nil_iff.mpr (List.all_eq_true.mp h)
    rw [trim, hnil]
    rfl

theorem balanced_trim_iff (cs : List Char) : Balanced (trim cs) ↔ Balanced cs := by
  obtain ⟨before, behind, hcs, hbefore, hbehind⟩ := exists_trim cs
  conv_rhs => rw [hcs, List.append_assoc, balanced_append_iff (balanced_of_allBlank hbefore)]
  have hzero := balanced_of_allBlank hbehind
  rw [Balanced, Balanced, List.count_append, Nat.even_add]
  exact ⟨fun h ↦ iff_of_true h hzero, fun h ↦ h.mpr hzero⟩

theorem pieces_trim (h : Balanced cs) : pieces (trim cs) = pieces cs := by
  obtain ⟨before, behind, hcs, hbefore, hbehind⟩ := exists_trim cs
  conv_rhs => rw [hcs, List.append_assoc, pieces_blanks_append hbefore,
    pieces_append_blanks ((balanced_trim_iff cs).mpr h) hbehind]

theorem terms_trim (h : Balanced cs) : terms (trim cs) = pieces cs := by
  rw [terms_eq_pieces ((balanced_trim_iff cs).mpr h), pieces_trim h]

/-- A line is blank, or it has an odd quote, or it is cut at its gaps and asks a query if that makes
three pieces. -/
theorem parse_eq_pieces (line : String) :
    parse line =
      (if line.toList.all isBlank then .error .empty
      else if Odd (line.toList.count '"') then .error .openQuote
      else match pieces line.toList with
        | [s, p, o] => .ok ⟨String.ofList s, String.ofList p, String.ofList o⟩
        | ps => .error (.termCount ps.length)) ∧
    ∀ found, (Fault.termCount found).message =
      "Expected 3 parts (subject predicate object), got " ++ found.repr := by
  refine ⟨?_, fun _ ↦ rfl⟩
  have hblank : line.toList.all isBlank = (trim line.toList).isEmpty :=
    (isEmpty_trim line.toList).symm
  have hodd : Odd (line.toList.count '"') ↔ (trim line.toList).count '"' % 2 ≠ 0 := by
    rw [← Nat.not_even_iff_odd, ne_eq, ← Nat.even_iff]
    exact not_congr (balanced_trim_iff line.toList).symm
  rw [parse]
  simp only [hblank, hodd]
  split
  · rfl
  · split
    · rfl
    · rename_i heven
      have hbalanced : Balanced line.toList := by
        rw [← balanced_trim_iff, Balanced, Nat.even_iff]
        exact not_not.mp heven
      have hterms := terms_trim hbalanced
      generalize terms (trim line.toList) = found at hterms ⊢
      subst hterms
      rfl

end QueryLine

end TripleIndex
