import TripleIndex.Filter
import Mathlib.Algebra.Ring.Nat

/-!
# What a filter keeps

Of the identifiers that its prefix names, a filter keeps the longest initial segment that stays
within its limit and its budget (`Filter.isLongest_apply`).

Tokens are summed up to the largest count and no further.  Such a sum is the exact one as far as
any smaller budget goes (`addTokens_le_iff`).  A budget of the largest count itself is one that it
never exceeds: the filter then keeps everything, however many tokens that takes.
-/

namespace TripleIndex

/-! ## Longest initial segments -/

/-- The longest initial segment of a list with a property. -/
structure IsLongest {α : Type} (p : List α → Prop) (l s : List α) : Prop where
  initial : s <+: l
  holds : p s
  longest : ∀ t, t <+: l → p t → t.length ≤ s.length

namespace IsLongest

variable {α : Type} {p q : List α → Prop} {l s t : List α}

theorem self (h : p l) : IsLongest p l l :=
  ⟨List.prefix_refl l, h, fun _ ht _ ↦ ht.length_le⟩

theorem take (l : List α) (n : Nat) : IsLongest (·.length ≤ n) l (l.take n) where
  initial := List.take_prefix n l
  holds := List.length_take_le n l
  longest t ht hn := by
    rw [List.length_take]
    exact Nat.le_min.mpr ⟨hn, ht.length_le⟩

/-- Every initial segment with the property is one of the longest. -/
theorem prefix_of (h : IsLongest p l s) (ht : t <+: l) (hp : p t) : t <+: s :=
  List.prefix_of_prefix_length_le ht h.initial (h.longest t ht hp)

/-- If a property passes to initial segments, another one may be seen to afterwards. -/
theorem trans (hclosed : ∀ {u v : List α}, u <+: v → p v → p u) (hs : IsLongest p l s)
    (ht : IsLongest q s t) : IsLongest (fun u ↦ p u ∧ q u) l t where
  initial := ht.initial.trans hs.initial
  holds := ⟨hclosed ht.initial hs.holds, ht.holds⟩
  longest u hu hpq := ht.longest u (hs.prefix_of hu hpq.1) hpq.2

theorem congr (h : IsLongest p l s) (hpq : ∀ u, p u ↔ q u) : IsLongest q l s where
  initial := h.initial
  holds := (hpq s).mp h.holds
  longest u hu hq := h.longest u hu ((hpq u).mpr hq)

end IsLongest

/-! ## Budgets -/

/-- The count of tokens at which a sum stops. -/
def largestCount : UInt64 := UInt64.ofNat (UInt64.size - 1)

/-- The exact number of tokens of some identifiers. -/
def totalTokens (is : List Identifier) : Nat := (is.map (·.tokenCount.toNat)).sum

@[simp] theorem totalTokens_nil : totalTokens [] = 0 := rfl

@[simp] theorem totalTokens_cons (i : Identifier) (is : List Identifier) :
    totalTokens (i :: is) = i.tokenCount.toNat + totalTokens is := by
  simp [totalTokens]

theorem le_largestCount (n : UInt64) : n ≤ largestCount := by
  rw [UInt64.le_iff_toNat_le]
  have hlt := n.toNat_lt
  have hlargest : largestCount.toNat = 2 ^ 64 - 1 := rfl
  omega

theorem toNat_addTokens (a b : UInt64) :
    (addTokens a b).toNat = min (a.toNat + b.toNat) largestCount.toNat := by
  have hlargest : largestCount.toNat = UInt64.size - 1 := rfl
  rw [addTokens]
  split
  · rename_i h
    rw [UInt64.toNat_add, Nat.mod_eq_of_lt h]
    omega
  · change largestCount.toNat = _
    omega

/-- Stopping at the largest count does not matter to a smaller budget. -/
theorem addTokens_le_iff {budget : UInt64} (h : budget ≠ largestCount) (a b : UInt64) :
    addTokens a b ≤ budget ↔ a.toNat + b.toNat ≤ budget.toNat := by
  have hle := UInt64.le_iff_toNat_le.mp (le_largestCount budget)
  have hne : budget.toNat ≠ largestCount.toNat := fun heq ↦ h (UInt64.toNat_inj.mp heq)
  rw [UInt64.le_iff_toNat_le, toNat_addTokens]
  omega

theorem withinBudget_largestCount (spent : UInt64) (is : List Identifier) :
    withinBudget largestCount spent is = is := by
  induction is generalizing spent with
  | nil => rfl
  | cons i is ih =>
    rw [withinBudget, if_pos (le_largestCount _), ih]

/-- What a budget below the largest count leaves, after some tokens have been spent. -/
theorem isLongest_withinBudget {budget spent : UInt64} (hbudget : budget ≠ largestCount)
    (hspent : spent ≤ budget) (is : List Identifier) :
    IsLongest (fun s ↦ spent.toNat + totalTokens s ≤ budget.toNat) is
      (withinBudget budget spent is) := by
  induction is generalizing spent with
  | nil => exact .self (UInt64.le_iff_toNat_le.mp hspent)
  | cons i is ih =>
    rw [withinBudget]
    split
    · rename_i hfits
      have hexact := (addTokens_le_iff hbudget spent i.tokenCount).mp hfits
      have hsum : (addTokens spent i.tokenCount).toNat = spent.toNat + i.tokenCount.toNat := by
        have hle := UInt64.le_iff_toNat_le.mp (le_largestCount budget)
        rw [toNat_addTokens]
        omega
      obtain ⟨hinitial, hholds, hlongest⟩ := ih hfits
      rw [hsum] at hholds hlongest
      refine ⟨(List.prefix_cons_inj i).mpr hinitial, ?_, fun t ht htotal ↦ ?_⟩
      · rw [totalTokens_cons, ← Nat.add_assoc]
        exact hholds
      · cases t with
        | nil => exact Nat.zero_le _
        | cons j t =>
          obtain ⟨rfl, htail⟩ := List.cons_prefix_cons.mp ht
          rw [totalTokens_cons, ← Nat.add_assoc] at htotal
          exact Nat.succ_le_succ (hlongest t htail htotal)
    · rename_i hover
      rw [addTokens_le_iff hbudget] at hover
      refine ⟨List.nil_prefix, UInt64.le_iff_toNat_le.mp hspent, fun t ht htotal ↦ ?_⟩
      cases t with
      | nil => exact Nat.le_refl _
      | cons j t =>
        obtain ⟨rfl, -⟩ := List.cons_prefix_cons.mp ht
        rw [totalTokens_cons] at htotal
        omega

namespace Filter

/-! ## Whole filters -/

/-- The identifiers whose renderings begin with the prefix; a prefix that is absent or empty names
them all. -/
def named (f : Filter) (is : List Identifier) : List Identifier :=
  is.filter fun i ↦ ∀ p ∈ f.pre, p.toList <+: i.rendering.toList

/-- Some identifiers stay within the limit and the budget, as far as these bound anything. -/
structure Admits (f : Filter) (is : List Identifier) : Prop where
  length_le : ∀ n ∈ f.limit, n ≠ 0 → is.length ≤ n.toNat
  totalTokens_le : ∀ n ∈ f.maxTokens, n ≠ 0 → totalTokens is ≤ n.toNat

/-- The filter without a budget that the running sum never exceeds. -/
def effective (f : Filter) : Filter :=
  { f with maxTokens := f.maxTokens.filter (· ≠ largestCount) }

theorem mem_maxTokens_effective {f : Filter} {n : UInt64} :
    n ∈ f.effective.maxTokens ↔ n ∈ f.maxTokens ∧ n ≠ largestCount := by
  rw [effective, Option.mem_filter_iff, decide_eq_true_iff]

theorem byPrefix_eq_named (f : Filter) (is : List Identifier) : byPrefix f.pre is = f.named is := by
  obtain ⟨pre, limit, maxTokens⟩ := f
  cases pre with
  | none => exact (List.filter_eq_self.mpr fun i _ ↦ by simp).symm
  | some p =>
    refine List.filter_congr fun i _ ↦ Bool.eq_iff_iff.mpr ?_
    simp [Identifier.rendering]

theorem isLongest_byLimit (limit : Option UInt64) (is : List Identifier) :
    IsLongest (fun s ↦ ∀ n ∈ limit, n ≠ 0 → s.length ≤ n.toNat) is (byLimit limit is) := by
  cases limit with
  | none => exact .self fun _ hn ↦ by cases hn
  | some n =>
    rw [byLimit]
    split
    · rename_i hzero
      refine .self ?_
      rintro m ⟨⟩ hne
      exact (hne hzero).elim
    · rename_i hne
      exact (IsLongest.take is n.toNat).congr fun s ↦ by simp [hne]

theorem isLongest_byTokens (f : Filter) (is : List Identifier) :
    IsLongest (fun s ↦ ∀ n ∈ f.effective.maxTokens, n ≠ 0 → totalTokens s ≤ n.toNat) is
      (byTokens f.maxTokens is) := by
  obtain ⟨pre, limit, maxTokens⟩ := f
  cases maxTokens with
  | none => exact .self fun _ hn ↦ by cases hn
  | some n =>
    rw [byTokens]
    split
    · rename_i hzero
      refine .self fun m hm hne ↦ ?_
      obtain ⟨⟨⟩, -⟩ := mem_maxTokens_effective.mp hm
      exact (hne hzero).elim
    · rename_i hne
      by_cases htop : n = largestCount
      · subst htop
        rw [withinBudget_largestCount]
        refine .self fun m hm ↦ ?_
        obtain ⟨⟨⟩, hm⟩ := mem_maxTokens_effective.mp hm
        exact (hm rfl).elim
      · have hspent : (0 : UInt64) ≤ n := UInt64.le_iff_toNat_le.mpr (Nat.zero_le _)
        refine (isLongest_withinBudget htop hspent is).congr fun s ↦ ?_
        rw [UInt64.toNat_zero, Nat.zero_add]
        refine ⟨fun hs m hm _ ↦ ?_, fun hs ↦ hs n (mem_maxTokens_effective.mpr ⟨rfl, htop⟩) hne⟩
        obtain ⟨⟨⟩, -⟩ := mem_maxTokens_effective.mp hm
        exact hs

/-- What a filter keeps is the longest initial segment, of the identifiers that it names, within
its limit and its budget, where a budget of the largest count is none.  That budget is kept to
exactly if what the filter keeps happens to have no more tokens. -/
theorem isLongest_apply (f : Filter) (is : List Identifier) :
    IsLongest f.effective.Admits (f.named is) (f.apply is) ∧
      (IsLongest f.Admits (f.named is) (f.apply is) ↔
        (f.maxTokens = some largestCount → totalTokens (f.apply is) ≤ largestCount.toNat)) := by
  have heffective : IsLongest f.effective.Admits (f.named is) (f.apply is) := by
    rw [apply, byPrefix_eq_named]
    refine (IsLongest.trans ?_ (isLongest_byLimit _ _) (isLongest_byTokens _ _)).congr
      fun s ↦ ⟨fun h ↦ ⟨h.1, h.2⟩, fun h ↦ ⟨h.length_le, h.totalTokens_le⟩⟩
    exact fun huv hv n hn hne ↦ Nat.le_trans huv.length_le (hv n hn hne)
  have hweaker : ∀ s, f.Admits s → f.effective.Admits s := fun s h ↦
    ⟨h.length_le, fun n hn ↦ h.totalTokens_le n (mem_maxTokens_effective.mp hn).1⟩
  refine ⟨heffective, fun h htop ↦ h.holds.totalTokens_le _ htop (by decide), fun h ↦ ?_⟩
  refine ⟨heffective.initial, ⟨heffective.holds.length_le, fun n hn hne ↦ ?_⟩,
    fun t ht hadmits ↦ heffective.longest t ht (hweaker t hadmits)⟩
  by_cases htop : n = largestCount
  · subst htop
    exact h hn
  · exact heffective.holds.totalTokens_le n (mem_maxTokens_effective.mpr ⟨hn, htop⟩) hne

/-- One token more than the largest budget, and still both identifiers are kept. -/
example : (apply { maxTokens := some largestCount }
    [{ kind := "a", name := "b", tokens := some largestCount },
      { kind := "a", name := "c", tokens := some 1 }]).map (·.name) = ["b", "c"] := by decide

end Filter

end TripleIndex
