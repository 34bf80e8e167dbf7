import TripleIndex.Iri
import Mathlib.Tactic.SplitIfs

/-!
# What an IRI may show

A valid IRI is made of visible characters: every part of the grammar admits none up to the space, so
there are no blanks of ASCII in it and nothing that ends a line (`visible_of_isAbsolute`).

The grammar cuts a text at its reserved characters, so each lemma puts the pieces together again,
with the visible mark between them.
-/

namespace TripleIndex.Iri

open Text

/-- A character beyond the space and the control characters in front of it. -/
def IsVisible (c : Char) : Prop := 0x20 < c.toNat

instance : DecidablePred IsVisible := fun c ↦ inferInstanceAs (Decidable (0x20 < c.toNat))

/-- A text of visible characters. -/
def Visible (cs : List Char) : Prop := ∀ c ∈ cs, IsVisible c

theorem visible_nil : Visible [] := fun _ h ↦ (List.not_mem_nil h).elim

theorem Visible.cons {c : Char} {cs : List Char} (hc : IsVisible c) (hcs : Visible cs) :
    Visible (c :: cs) := List.forall_mem_cons.mpr ⟨hc, hcs⟩

theorem Visible.append {cs ds : List Char} (hcs : Visible cs) (hds : Visible ds) :
    Visible (cs ++ ds) := List.forall_mem_append.mpr ⟨hcs, hds⟩

theorem Visible.of_all {admits : Char → Bool} (h : ∀ c, admits c = true → IsVisible c)
    {cs : List Char} (hcs : cs.all admits = true) : Visible cs := fun c hc ↦
  h c (List.all_eq_true.mp hcs c hc)

/-! ## Characters -/

theorem isVisible_of_isDigit {c : Char} (h : c.isDigit = true) : IsVisible c := by
  have hle : 48 ≤ c.toNat ∧ c.toNat ≤ 57 := by simpa [Char.isDigit, UInt32.le_iff_toNat_le] using h
  simp only [IsVisible]
  omega

theorem isVisible_of_isAlpha {c : Char} (h : c.isAlpha = true) : IsVisible c := by
  simp only [IsVisible]
  rcases (Bool.or_eq_true _ _).mp h with h | h
  · have hle : 'A'.val ≤ c.val ∧ c.val ≤ 'Z'.val := of_decide_eq_true h
    simp only [UInt32.le_iff_toNat_le] at hle
    exact Nat.lt_of_lt_of_le (by decide) hle.1
  · have hle : 'a'.val ≤ c.val := of_decide_eq_true ((Bool.and_eq_true _ _).mp h).1
    rw [UInt32.le_iff_toNat_le] at hle
    exact Nat.lt_of_lt_of_le (by decide) hle

theorem isVisible_of_isAlphanum {c : Char} (h : c.isAlphanum = true) : IsVisible c := by
  rw [Char.isAlphanum, Bool.or_eq_true] at h
  rcases h with h | h
  · exact isVisible_of_isAlpha h
  · exact isVisible_of_isDigit h

theorem isVisible_of_isHex {c : Char} (h : isHex c = true) : IsVisible c := by
  simp only [isHex, hexValue?, Char.le_def, UInt32.le_iff_toNat_le] at h
  simp only [IsVisible, Char.toNat]
  split_ifs at h with hdigit hlower hupper
  · exact Nat.lt_of_lt_of_le (by decide) hdigit.1
  · exact Nat.lt_of_lt_of_le (by decide) hlower.1
  · exact Nat.lt_of_lt_of_le (by decide) hupper.1
  · cases h

theorem isVisible_of_isUnreserved {c : Char} (h : isUnreserved c = true) : IsVisible c := by
  simp only [isUnreserved, Bool.or_eq_true, decide_eq_true_eq] at h
  rcases h with (((h | rfl) | rfl) | rfl) | rfl
  · exact isVisible_of_isAlphanum h
  all_goals decide

theorem isVisible_of_isSubDelim {c : Char} (h : isSubDelim c = true) : IsVisible c := by
  simp only [isSubDelim, Bool.or_eq_true, decide_eq_true_eq] at h
  rcases h with (((((((((rfl | rfl) | rfl) | rfl) | rfl) | rfl) | rfl) | rfl) | rfl) | rfl) | rfl
  all_goals decide

theorem isVisible_of_inName {c : Char} (h : inName c = true) : IsVisible c := by
  simp only [inName, Bool.or_eq_true] at h
  rcases h with (h | h) | h
  · exact isVisible_of_isUnreserved h
  · simp only [isUcs, Bool.or_eq_true, Bool.and_eq_true, decide_eq_true_eq] at h
    simp only [IsVisible]
    omega
  · exact isVisible_of_isSubDelim h

theorem isVisible_of_inUserInfo {c : Char} (h : inUserInfo c = true) : IsVisible c := by
  simp only [inUserInfo, Bool.or_eq_true, decide_eq_true_eq] at h
  rcases h with h | rfl
  · exact isVisible_of_inName h
  · decide

theorem isVisible_of_inPath {c : Char} (h : inPath c = true) : IsVisible c := by
  simp only [inPath, Bool.or_eq_true, decide_eq_true_eq] at h
  rcases h with ((h | rfl) | rfl) | rfl
  · exact isVisible_of_inName h
  all_goals decide

theorem isVisible_of_inFragment {c : Char} (h : inFragment c = true) : IsVisible c := by
  simp only [inFragment, Bool.or_eq_true, decide_eq_true_eq] at h
  rcases h with h | rfl
  · exact isVisible_of_inPath h
  · decide

theorem isVisible_of_inQuery {c : Char} (h : inQuery c = true) : IsVisible c := by
  simp only [inQuery, Bool.or_eq_true] at h
  rcases h with h | h
  · exact isVisible_of_inFragment h
  · simp only [isPrivate, Bool.or_eq_true, Bool.and_eq_true, decide_eq_true_eq] at h
    simp only [IsVisible]
    omega

theorem visible_of_consistsOf {admits : Char → Bool} (h : ∀ c, admits c = true → IsVisible c)
    {cs : List Char} (hcs : consistsOf admits cs = true) : Visible cs := by
  fun_induction consistsOf admits cs with
  | case1 => exact visible_nil
  | case2 a b cs ih =>
    simp only [Bool.and_eq_true] at hcs
    exact .cons (by decide) (.cons (isVisible_of_isHex hcs.1.1)
      (.cons (isVisible_of_isHex hcs.1.2) (ih hcs.2)))
  | case3 c cs _ ih =>
    simp only [Bool.and_eq_true] at hcs
    exact .cons (h c hcs.1) (ih hcs.2)

/-! ## Pieces -/

theorem cutAt_eq_none {mark : Char} {cs ds : List Char} (h : cutAt mark cs = (ds, none)) :
    cs = ds := by
  rw [cutAt] at h
  split at h
  · exact (Prod.mk.inj h).1
  · cases (Prod.mk.inj h).2

theorem cutAt_eq_some {mark : Char} {cs ds rest : List Char}
    (h : cutAt mark cs = (ds, some rest)) : cs = ds ++ mark :: rest := by
  rw [cutAt] at h
  split at h
  · cases (Prod.mk.inj h).2
  · rename_i c behind hdrop
    obtain ⟨rfl, hrest⟩ := Prod.mk.inj h
    obtain rfl := Option.some.inj hrest
    have hc : c = mark := by
      have hhead := List.head?_dropWhile_not (· ≠ mark) cs
      rw [hdrop] at hhead
      simpa using hhead
    subst hc
    rw [← hdrop, List.takeWhile_append_dropWhile]

theorem Visible.intercalate {mark : Char} (hmark : IsVisible mark) {pieces : List (List Char)}
    (h : ∀ piece ∈ pieces, Visible piece) : Visible (List.intercalate [mark] pieces) := by
  induction pieces with
  | nil => exact visible_nil
  | cons p ps ih =>
    obtain ⟨hp, hps⟩ := List.forall_mem_cons.mp h
    cases ps with
    | nil => simpa using hp
    | cons q qs =>
      rw [List.intercalate_cons_cons]
      exact (hp.append (visible_nil.cons hmark)).append (ih hps)

theorem visible_of_splitOn (mark : Char) (hmark : IsVisible mark) {cs : List Char}
    (h : ∀ piece ∈ cs.splitOn mark, Visible piece) : Visible cs := by
  rw [← cs.intercalate_splitOn mark]
  exact .intercalate hmark h

/-! ## Hosts -/

theorem visible_of_isDecOctet {cs : List Char} (h : isDecOctet cs = true) : Visible cs := by
  simp only [isDecOctet, Bool.and_eq_true] at h
  exact .of_all (fun _ ↦ isVisible_of_isDigit) h.1.1.2

theorem visible_of_isIpv4 {cs : List Char} (h : isIpv4 cs = true) : Visible cs := by
  simp only [isIpv4, Bool.and_eq_true, List.all_eq_true] at h
  exact visible_of_splitOn '.' (by decide) fun piece hpiece ↦
    visible_of_isDecOctet (h.2 piece hpiece)

theorem visible_of_isHexGroup {cs : List Char} (h : isHexGroup cs = true) : Visible cs := by
  simp only [isHexGroup, Bool.and_eq_true] at h
  exact .of_all (fun _ ↦ isVisible_of_isHex) h.2

theorem visible_of_countGroups {v4 : Bool} {cs : List Char} {n : Nat}
    (h : countGroups v4 cs = some n) : Visible cs := by
  refine visible_of_splitOn ':' (by decide) ?_
  rw [countGroups] at h
  split at h
  · cases h
  · rename_i last hlast
    obtain ⟨groups, hgroups⟩ := List.getLast?_eq_some_iff.mp hlast
    rw [hgroups, List.dropLast_concat] at h
    rw [hgroups]
    split_ifs at h with hv4 hall
    · simp only [Bool.and_eq_true] at hv4
      refine List.forall_mem_append.mpr ⟨fun piece hpiece ↦ ?_, List.forall_mem_singleton.mpr ?_⟩
      · exact visible_of_isHexGroup (List.all_eq_true.mp hv4.2 piece hpiece)
      · exact visible_of_isIpv4 hv4.1.2
    · exact fun piece hpiece ↦ visible_of_isHexGroup (List.all_eq_true.mp hall piece hpiece)

theorem visible_of_countGroups? {v4 : Bool} {cs : List Char} {n : Nat}
    (h : countGroups? v4 cs = some n) : Visible cs := by
  rw [countGroups?] at h
  split at h
  · rename_i hempty
    rw [List.isEmpty_iff.mp hempty]
    exact visible_nil
  · exact visible_of_countGroups h

theorem cutDoubleColon_eq_some {cs before behind : List Char}
    (h : cutDoubleColon cs = some (before, behind)) : cs = before ++ ':' :: ':' :: behind := by
  fun_induction cutDoubleColon cs generalizing before with
  | case1 => cases h
  | case2 rest =>
    cases h
    rfl
  | case3 c rest _ ih =>
    obtain ⟨⟨first, second⟩, hcut, hpair⟩ := Option.map_eq_some_iff.mp h
    obtain ⟨rfl, rfl⟩ := Prod.mk.inj hpair
    rw [ih hcut, List.cons_append]

theorem visible_of_isIpv6 {cs : List Char} (h : isIpv6 cs = true) : Visible cs := by
  rw [isIpv6] at h
  split at h
  · exact visible_of_countGroups (decide_eq_true_eq.mp h)
  · rename_i before behind hcut
    rw [cutDoubleColon_eq_some hcut]
    split at h
    · rename_i m n hbefore hbehind
      exact (visible_of_countGroups? hbefore).append
        (.cons (by decide) (.cons (by decide) (visible_of_countGroups? hbehind)))
    · cases h

theorem visible_of_isIpvFuture {cs : List Char} (h : isIpvFuture cs = true) : Visible cs := by
  cases cs with
  | nil => exact visible_nil
  | cons v cs =>
    rw [isIpvFuture] at h
    split at h
    · rename_i version text hcut
      simp only [Bool.and_eq_true, Bool.or_eq_true, decide_eq_true_eq] at h
      obtain ⟨⟨⟨⟨hv, -⟩, hversion⟩, -⟩, htext⟩ := h
      rw [cutAt_eq_some hcut]
      refine .cons ?_ (.append (.of_all (fun _ ↦ isVisible_of_isHex) hversion)
        (.cons (by decide) (.of_all (fun c hc ↦ ?_) htext)))
      · rcases hv with rfl | rfl <;> decide
      · simp only [Bool.or_eq_true, decide_eq_true_eq] at hc
        rcases hc with (hc | hc) | rfl
        · exact isVisible_of_isUnreserved hc
        · exact isVisible_of_isSubDelim hc
        · decide
    · cases h

theorem visible_of_isIpLiteral {cs : List Char} (h : isIpLiteral cs = true) : Visible cs := by
  rw [isIpLiteral.eq_def] at h
  split at h
  · exact visible_of_isIpvFuture h
  · exact visible_of_isIpvFuture h
  · exact visible_of_isIpv6 h

theorem visible_of_isPortSuffix {cs : List Char} (h : isPortSuffix cs = true) : Visible cs := by
  cases cs with
  | nil => exact visible_nil
  | cons c cs =>
    simp only [isPortSuffix, Bool.and_eq_true, decide_eq_true_eq] at h
    obtain ⟨rfl, hdigits⟩ := h
    exact .cons (by decide) (.of_all (fun _ ↦ isVisible_of_isDigit) hdigits)

theorem visible_of_isHostPort {cs : List Char} (h : isHostPort cs = true) : Visible cs := by
  rw [isHostPort.eq_def] at h
  split at h
  · split at h
    · rename_i ip rest hcut
      rw [cutAt_eq_some hcut]
      simp only [Bool.and_eq_true] at h
      exact .cons (by decide) (.append (visible_of_isIpLiteral h.1)
        (.cons (by decide) (visible_of_isPortSuffix h.2)))
    · cases h
  · split at h
    · rename_i host port hcut
      rw [cutAt_eq_some hcut]
      simp only [Bool.and_eq_true] at h
      exact .append (visible_of_consistsOf (fun _ ↦ isVisible_of_inName) h.1)
        (.cons (by decide) (.of_all (fun _ ↦ isVisible_of_isDigit) h.2))
    · rename_i host hcut
      rw [cutAt_eq_none hcut]
      exact visible_of_consistsOf (fun _ ↦ isVisible_of_inName) h

/-! ## Whole IRIs -/

theorem visible_of_isAuthority {cs : List Char} (h : isAuthority cs = true) : Visible cs := by
  rw [isAuthority] at h
  split at h
  · rename_i userInfo hostPort hcut
    rw [cutAt_eq_some hcut]
    simp only [Bool.and_eq_true] at h
    exact .append (visible_of_consistsOf (fun _ ↦ isVisible_of_inUserInfo) h.1)
      (.cons (by decide) (visible_of_isHostPort h.2))
  · rename_i hostPort hcut
    rw [cutAt_eq_none hcut]
    exact visible_of_isHostPort h

theorem visible_of_isHierPart {cs : List Char} (h : isHierPart cs = true) : Visible cs := by
  rw [isHierPart.eq_def] at h
  split at h
  · rename_i rest
    simp only [Bool.and_eq_true] at h
    rw [← List.takeWhile_append_dropWhile (p := (· ≠ '/')) (l := rest)]
    exact .cons (by decide) (.cons (by decide) (.append (visible_of_isAuthority h.1)
      (visible_of_consistsOf (fun _ ↦ isVisible_of_inPath) h.2)))
  · exact visible_of_consistsOf (fun _ ↦ isVisible_of_inPath) h

theorem visible_of_isScheme {cs : List Char} (h : isScheme cs = true) : Visible cs := by
  cases cs with
  | nil => exact visible_nil
  | cons c cs =>
    simp only [isScheme, Bool.and_eq_true] at h
    refine .cons (isVisible_of_isAlpha h.1) (.of_all (fun d hd ↦ ?_) h.2)
    simp only [Bool.or_eq_true, decide_eq_true_eq] at hd
    rcases hd with ((hd | rfl) | rfl) | rfl
    · exact isVisible_of_isAlphanum hd
    all_goals decide

/-- A text cut at a mark is visible if both halves are. -/
theorem visible_of_cutAt {mark : Char} (hmark : IsVisible mark) {valid : List Char → Bool}
    (hvalid : ∀ ds, valid ds = true → Visible ds) {cs : List Char}
    (hfirst : Visible (cutAt mark cs).1) (hrest : isOptional valid (cutAt mark cs).2 = true) :
    Visible cs := by
  cases hcut : cutAt mark cs with
  | mk first rest =>
    rw [hcut] at hfirst hrest
    cases rest with
    | none =>
      rw [cutAt_eq_none hcut]
      exact hfirst
    | some rest =>
      rw [cutAt_eq_some hcut]
      exact hfirst.append (.cons hmark (hvalid rest hrest))

/-- A valid IRI shows all its characters. -/
theorem visible_of_isAbsolute {cs : List Char} (h : isAbsolute cs = true) : Visible cs := by
  rw [isAbsolute] at h
  split at h
  · cases h
  · rename_i scheme rest hcut
    simp only [Bool.and_eq_true] at h
    obtain ⟨⟨⟨hscheme, hhier⟩, hquery⟩, hfragment⟩ := h
    rw [cutAt_eq_some hcut]
    refine .append (visible_of_isScheme hscheme) (.cons (by decide) ?_)
    refine visible_of_cutAt (by decide)
      (fun _ ↦ visible_of_consistsOf fun _ ↦ isVisible_of_inFragment) ?_ hfragment
    exact visible_of_cutAt (by decide)
      (fun _ ↦ visible_of_consistsOf fun _ ↦ isVisible_of_inQuery) (visible_of_isHierPart hhier)
      hquery

end TripleIndex.Iri
