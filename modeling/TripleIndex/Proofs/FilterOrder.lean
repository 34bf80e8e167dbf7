import TripleIndex.Proofs.Filter

/-!
# Filters under other bounds

What a filter keeps is the longest initial segment of what it names that stays within its bounds.
Two things follow, and no sum of tokens has to be looked at again.  A list that stays within the
bounds as a whole is kept as a whole, so that a filter keeps everything that it has kept before
(`Filter.apply_apply`).  And where the bounds of one filter reach as far as those of another, what
the second keeps stays within them, too, so that the first can only go on behind it
(`Filter.Loosens.isPrefix_apply`).
-/

namespace TripleIndex

namespace IsLongest

variable {α : Type} {p q : List α → Prop} {l m s t : List α}

theorem eq_self (h : IsLongest p l s) (hl : p l) : s = l :=
  h.initial.eq_of_length_le (h.longest l (List.prefix_refl l) hl)

/-- A longer list and a property that lets more pass make for a longer segment. -/
theorem isPrefix (hs : IsLongest p l s) (ht : IsLongest q m t) (hlm : l <+: m)
    (hpq : p s → q s) : s <+: t :=
  ht.prefix_of (hs.initial.trans hlm) (hpq hs.holds)

end IsLongest

/-! ## Bounds -/

/-- How far a bound lets a size go: as far as it says, and as far as any if it is absent or zero. -/
def reach (bound : Option UInt64) : UInt64 :=
  match bound with
  | none => largestCount
  | some n => if n = 0 then largestCount else n

theorem reach_of_ne_zero {n : UInt64} (h : n ≠ 0) : reach (some n) = n := if_neg h

theorem exists_of_reach_le {bound wider : Option UInt64} (h : reach bound ≤ reach wider)
    {n : UInt64} (hn : n ∈ wider) (hne : n ≠ 0) (htop : n ≠ largestCount) :
    ∃ k ∈ bound, k ≠ 0 ∧ k ≤ n := by
  obtain rfl : wider = some n := hn
  rw [reach_of_ne_zero hne] at h
  have hnot : ¬ largestCount ≤ n := fun hle ↦ htop (UInt64.le_antisymm (le_largestCount n) hle)
  cases bound with
  | none => exact (hnot h).elim
  | some k =>
    rw [reach] at h
    split at h
    · exact (hnot h).elim
    · rename_i hk
      exact ⟨k, rfl, hk, h⟩

namespace Filter

/-! ## Applying a filter again -/

theorem byLimit_eq_self {limit : Option UInt64} {is : List Identifier}
    (h : ∀ n ∈ limit, n ≠ 0 → is.length ≤ n.toNat) : byLimit limit is = is :=
  (isLongest_byLimit limit is).eq_self h

theorem apply_isPrefix_named (f : Filter) (is : List Identifier) : f.apply is <+: f.named is := by
  rw [apply, byPrefix_eq_named]
  exact (isLongest_byTokens f _).initial.trans (isLongest_byLimit f.limit _).initial

/-- A filter drops identifiers and leaves the others in order. -/
theorem apply_sublist (f : Filter) (is : List Identifier) : (f.apply is).Sublist is :=
  (f.apply_isPrefix_named is).sublist.trans List.filter_sublist

theorem length_apply_le (f : Filter) (is : List Identifier) :
    ∀ n ∈ f.limit, n ≠ 0 → (f.apply is).length ≤ n.toNat := by
  intro n hn hne
  rw [apply]
  exact Nat.le_trans (isLongest_byTokens f _).initial.length_le
    ((isLongest_byLimit f.limit _).holds n hn hne)

theorem named_apply (f : Filter) (is : List Identifier) : f.named (f.apply is) = f.apply is := by
  refine List.filter_eq_self.mpr fun i hi ↦ ?_
  exact (List.mem_filter.mp ((f.apply_isPrefix_named is).subset hi)).2

/-- What a filter has kept, it keeps again. -/
theorem apply_apply (f : Filter) (is : List Identifier) : f.apply (f.apply is) = f.apply is := by
  rw [apply, byPrefix_eq_named, named_apply, byLimit_eq_self (f.length_apply_le is)]
  exact (isLongest_byTokens f _).eq_self (isLongest_byTokens f _).holds

/-! ## Loosening bounds -/

/-- A filter with the same prefix, an absent one being as good as an empty one, whose bounds reach
at least as far. -/
structure Loosens (f g : Filter) : Prop where
  pre : g.pre.getD "" = f.pre.getD ""
  limit : reach f.limit ≤ reach g.limit
  maxTokens : reach f.maxTokens ≤ reach g.maxTokens

theorem named_eq_of_pre {f g : Filter} (h : g.pre.getD "" = f.pre.getD "") (is : List Identifier) :
    g.named is = f.named is := by
  have hnames (f : Filter) (i : Identifier) :
      (∀ p ∈ f.pre, p.toList <+: i.rendering.toList) ↔
        (f.pre.getD "").toList <+: i.rendering.toList := by
    cases f.pre <;> simp
  refine List.filter_congr fun i _ ↦ Bool.eq_iff_iff.mpr ?_
  rw [decide_eq_true_iff, decide_eq_true_iff, hnames, hnames, h]

namespace Loosens

variable {f g : Filter} (h : f.Loosens g)
include h

/-- The largest limit is as good as none for a list that is no longer. -/
theorem isPrefix_byLimit {is : List Identifier}
    (hfits : g.limit = some largestCount → is.length ≤ largestCount.toNat) :
    byLimit f.limit is <+: byLimit g.limit is := by
  have hinitial := (isLongest_byLimit f.limit is).initial
  refine (isLongest_byLimit f.limit is).isPrefix (isLongest_byLimit g.limit is)
    (List.prefix_refl is) fun hwithin n hn hne ↦ ?_
  by_cases htop : n = largestCount
  · subst htop
    exact Nat.le_trans hinitial.length_le (hfits hn)
  · obtain ⟨k, hk, hkne, hkn⟩ := exists_of_reach_le h.limit hn hne htop
    exact Nat.le_trans (hwithin k hk hkne) (UInt64.le_iff_toNat_le.mp hkn)

/-- The largest budget is as good as none, because no sum of tokens exceeds it. -/
theorem isPrefix_byTokens {is js : List Identifier} (hinitial : is <+: js) :
    byTokens f.maxTokens is <+: byTokens g.maxTokens js := by
  refine (isLongest_byTokens f is).isPrefix (isLongest_byTokens g js) hinitial
    fun hwithin n hn hne ↦ ?_
  obtain ⟨hn, htop⟩ := mem_maxTokens_effective.mp hn
  obtain ⟨k, hk, hkne, hkn⟩ := exists_of_reach_le h.maxTokens hn hne htop
  have hktop : k ≠ largestCount := by
    rintro rfl
    exact htop (UInt64.le_antisymm (le_largestCount n) hkn)
  exact Nat.le_trans (hwithin k (mem_maxTokens_effective.mpr ⟨hk, hktop⟩) hkne)
    (UInt64.le_iff_toNat_le.mp hkn)

/-- Looser bounds only let the answer go on behind its end. -/
theorem isPrefix_apply {is : List Identifier}
    (hfits : g.limit = some largestCount → is.length ≤ largestCount.toNat) :
    f.apply is <+: g.apply is := by
  rw [apply, apply, byPrefix_eq_named, byPrefix_eq_named, named_eq_of_pre h.pre]
  refine h.isPrefix_byTokens (h.isPrefix_byLimit fun hlimit ↦ ?_)
  exact Nat.le_trans (List.length_filter_le _ is) (hfits hlimit)

end Loosens

/-- A filter changes nothing that it has kept, and one with looser bounds keeps that and maybe more
behind it.  Lengths are counted in the same numbers as limits: no list that can be held is longer
than the largest of them. -/
theorem settled_and_extended (f : Filter) (is : List Identifier) :
    f.apply (f.apply is) = f.apply is ∧
      ∀ g, f.Loosens g → (g.limit = some largestCount → is.length ≤ largestCount.toNat) →
        f.apply is <+: g.apply is :=
  ⟨f.apply_apply is, fun _ h hfits ↦ h.isPrefix_apply hfits⟩

/-- Three identifiers, the second of which alone is over most budgets. -/
def costly : List Identifier := [
  { kind := "a", name := "b", tokens := some 5 },
  { kind := "a", name := "c", tokens := some largestCount },
  { kind := "a", name := "d", tokens := some 1 }]

/-- A limit is raised to the largest count, and a budget is lifted by zero. -/
theorem settled_and_extended_costly :
    Loosens { limit := some 2, maxTokens := some 7 }
        { pre := some "", limit := some largestCount, maxTokens := some 0 } ∧
      (apply { limit := some 2, maxTokens := some 7 } costly).map (·.name) = ["b"] ∧
      (apply { pre := some "", limit := some largestCount, maxTokens := some 0 } costly).map
        (·.name) = ["b", "c", "d"] ∧
      apply { limit := some 2, maxTokens := some 7 } costly <+:
        apply { pre := some "", limit := some largestCount, maxTokens := some 0 } costly := by
  have hloosens : Loosens { limit := some 2, maxTokens := some 7 }
      { pre := some "", limit := some largestCount, maxTokens := some 0 } :=
    ⟨rfl, by decide, by decide⟩
  exact ⟨hloosens, by decide, by decide,
    (settled_and_extended _ costly).2 _ hloosens fun _ ↦ by decide⟩

end Filter

end TripleIndex
