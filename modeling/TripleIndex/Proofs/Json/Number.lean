import TripleIndex.Proofs.Json.Spelling

/-!
# Written floats are values

A float is written as `null` or as a number, in one of four layouts: with zeros behind its digits, a
point between them, zeros in front of them, or an exponent behind them.  Whichever it is, the
machine of tokens reads all of it as one number (`run_float`), so that it spells a value wherever it
stands in a text (`exists_spells_float`).

Which float the number is read back as, and whether it is one at all, is a matter of the arithmetic
of floats.  Nothing is said about it here: `reread` names what comes of it.
-/

namespace TripleIndex.Decimal

/-- The multiple that is found is not zero. -/
theorem Interval.nearest?_ne_zero {i : Interval} {k : Int} {c : Nat} (h : i.nearest? k = some c) :
    c ≠ 0 := by
  rintro rfl
  rw [nearest?] at h
  split at h
  · rename_i hbelow _
    split_ifs at h
    · simp [Option.some.inj h] at hbelow
    · exact absurd (Option.some.inj h) (Nat.succ_ne_zero _)
    · simp [Option.some.inj h] at hbelow
    · exact absurd (Option.some.inj h) (Nat.succ_ne_zero _)
  · rename_i hbelow _
    simp [Option.some.inj h] at hbelow
  · exact absurd (Option.some.inj h) (Nat.succ_ne_zero _)
  · cases h

/-- A search that finds nothing has come down to the last power. -/
theorem Interval.search_cases (i : Interval) (k : Int) (n : Nat) :
    (i.search k n).1 ≠ 0 ∨ (i.search k n).2 = k - n := by
  induction n generalizing k with
  | zero =>
    right
    simp [search]
  | succ n ih =>
    rw [search]
    cases hc : i.nearest? k with
    | some c => exact .inl (nearest?_ne_zero hc)
    | none =>
      rcases ih (k - 1) with hne | heq
      · exact .inl hne
      · right
        dsimp only
        rw [heq]
        omega

end TripleIndex.Decimal

namespace TripleIndex.Json

/-! ## Parts of numbers -/

namespace NumberPart

/-- Whatever number is under way in one part, the text takes it on to the other part. -/
def Leads (p q : NumberPart) (cs : List Char) : Prop :=
  ∀ d : NumberDraft, d.part = p → ∃ e : NumberDraft, e.part = q ∧
    ∀ b, Reading.run ⟨.number d, b⟩ cs = ⟨.number e, b⟩

variable {p q r : NumberPart} {cs ds : List Char} {c : Char}

theorem leads_nil (p : NumberPart) : Leads p p [] := fun d hd ↦ ⟨d, hd, fun _ ↦ rfl⟩

theorem Leads.append (h : Leads p q cs) (h' : Leads q r ds) : Leads p r (cs ++ ds) := by
  intro d hd
  obtain ⟨e, he, hrun⟩ := h d hd
  obtain ⟨f, hf, hrun'⟩ := h' e he
  refine ⟨f, hf, ?_⟩
  intro b
  rw [Reading.run_append, hrun, hrun']

/-- A character that the number goes on with. -/
theorem leads_of_step
    (h : ∀ d : NumberDraft, d.part = p → ∃ e : NumberDraft, e.part = q ∧ d.step c = .more e) :
    Leads p q [c] := by
  intro d hd
  obtain ⟨e, he, hstep⟩ := h d hd
  refine ⟨e, he, ?_⟩
  intro b
  rw [Reading.run_cons, Reading.run_nil, Reading.step]
  simp only [Mode.step, Mode.stepNumber, hstep, List.foldl_nil]

theorem exists_digit (h : c.isDigit = true) : ∃ n, digit? c = some n := ⟨_, if_pos h⟩

/-- Digits go on with a part that any digit goes on with. -/
theorem leads_digits (hp : ∀ c, c.isDigit = true → Leads p p [c])
    (hcs : ∀ c ∈ cs, c.isDigit = true) : Leads p p cs := by
  induction cs with
  | nil => exact leads_nil p
  | cons c cs ih =>
    obtain ⟨hc, hrest⟩ := List.forall_mem_cons.mp hcs
    exact (hp c hc).append (ih hrest)

theorem leads_whole (h : c.isDigit = true) : Leads .whole .whole [c] := by
  refine leads_of_step fun d hd ↦ ?_
  obtain ⟨n, hn⟩ := exists_digit h
  exact ⟨d.addWhole n, rfl, by simp [NumberDraft.step, hd, hn]⟩

theorem leads_fraction (h : c.isDigit = true) : Leads .fraction .fraction [c] := by
  refine leads_of_step fun d hd ↦ ?_
  obtain ⟨n, hn⟩ := exists_digit h
  exact ⟨d.addFraction n, rfl, by simp [NumberDraft.step, hd, hn]⟩

theorem leads_exponent (h : c.isDigit = true) : Leads .exponent .exponent [c] := by
  refine leads_of_step fun d hd ↦ ?_
  obtain ⟨n, hn⟩ := exists_digit h
  exact ⟨d.addExponent n, rfl, by simp [NumberDraft.step, hd, hn]⟩

/-- Digits behind a point, one at least. -/
theorem leads_point (hp : p = .zero ∨ p = .whole) (hcs : ∀ c ∈ cs, c.isDigit = true)
    (hne : cs ≠ []) : Leads p .fraction ('.' :: cs) := by
  have hpoint : Leads p .point ['.'] := by
    refine leads_of_step fun d hd ↦ ⟨{ d with part := .point }, rfl, ?_⟩
    rcases hp with rfl | rfl <;>
      simp [NumberDraft.step, hd, NumberDraft.behindDigits, digit?, Char.isDigit]
  cases cs with
  | nil => exact (hne rfl).elim
  | cons c cs =>
    obtain ⟨hc, hrest⟩ := List.forall_mem_cons.mp hcs
    have hfirst : Leads .point .fraction [c] := by
      refine leads_of_step fun d hd ↦ ?_
      obtain ⟨n, hn⟩ := exists_digit hc
      exact ⟨d.addFraction n, rfl, by simp [NumberDraft.step, hd, NumberDraft.required, hn]⟩
    exact hpoint.append (hfirst.append (leads_digits (fun _ ↦ leads_fraction) hrest))

/-- A signed exponent, of one digit at least. -/
theorem leads_mark (hp : p = .zero ∨ p = .whole ∨ p = .fraction) {sign : Char}
    (hsign : sign = '+' ∨ sign = '-') (hcs : ∀ c ∈ cs, c.isDigit = true) (hne : cs ≠ []) :
    Leads p .exponent ('e' :: sign :: cs) := by
  have hmark : Leads p .mark ['e'] := by
    refine leads_of_step fun d hd ↦ ⟨{ d with part := .mark }, rfl, ?_⟩
    rcases hp with rfl | rfl | rfl <;>
      simp [NumberDraft.step, hd, NumberDraft.behindDigits, digit?, Char.isDigit]
  have hsigned : Leads .mark .markSign [sign] := by
    refine leads_of_step fun d hd ↦ ?_
    rcases hsign with rfl | rfl
    · exact ⟨{ d with part := .markSign }, rfl, by simp [NumberDraft.step, hd]⟩
    · exact ⟨{ d with part := .markSign, exponentNegative := true }, rfl,
        by simp [NumberDraft.step, hd]⟩
  cases cs with
  | nil => exact (hne rfl).elim
  | cons c cs =>
    obtain ⟨hc, hrest⟩ := List.forall_mem_cons.mp hcs
    have hfirst : Leads .markSign .exponent [c] := by
      refine leads_of_step fun d hd ↦ ?_
      obtain ⟨n, hn⟩ := exists_digit hc
      exact ⟨d.addExponent n, rfl, by simp [NumberDraft.step, hd, NumberDraft.required, hn]⟩
    exact hmark.append (hsigned.append
      (hfirst.append (leads_digits (fun _ ↦ leads_exponent) hrest)))

end NumberPart

/-! ## Numerals -/

open NumberPart (Leads)

/-- Where a value may stand, with or without a minus sign in front, the text begins a number and
comes to a part of it. -/
structure Numeral (p : NumberPart) (cs : List Char) : Prop where
  begins : ∃ d : NumberDraft, d.part = p ∧
    ∀ b, Reading.run ⟨.between, b⟩ cs = ⟨.number d, b⟩
  signed : Leads .sign p cs

namespace Numeral

variable {p q : NumberPart} {cs ds : List Char}

theorem append (h : Numeral p cs) (h' : Leads p q ds) : Numeral q (cs ++ ds) where
  begins := by
    obtain ⟨d, hd, hrun⟩ := h.begins
    obtain ⟨e, he, hrun'⟩ := h' d hd
    refine ⟨e, he, ?_⟩
    intro b
    rw [Reading.run_append, hrun, hrun']
  signed := h.signed.append h'

theorem zero : Numeral .zero ['0'] where
  begins := ⟨{ part := .zero, whole := [0] }, rfl, fun _ ↦ rfl⟩
  signed := NumberPart.leads_of_step fun d hd ↦
    ⟨{ d with part := .zero, whole := [0] }, rfl, by simp [NumberDraft.step, hd]⟩

/-- Digits of which the first one is not zero. -/
theorem whole {n : Nat} (hn : n < 10) (hne : n ≠ 0) (hcs : ∀ c ∈ cs, c.isDigit = true) :
    Numeral .whole (n.digitChar :: cs) := by
  have hdigit := digit?_digitChar hn
  have hzero : n.digitChar ≠ '0' := by
    have hall : ∀ n : Fin 10, n.val ≠ 0 → n.val.digitChar ≠ '0' := by decide
    exact hall ⟨n, hn⟩ hne
  have hfirst : Numeral .whole [n.digitChar] := by
    refine ⟨⟨{ part := .whole, whole := [n] }, rfl, fun b ↦ ?_⟩, ?_⟩
    · rw [Reading.run_cons, Reading.run_nil, Reading.step_between, Mode.start_digitChar hn hne]
      rfl
    · refine NumberPart.leads_of_step fun d hd ↦ ⟨d.addWhole n, rfl, ?_⟩
      simp [NumberDraft.step, hd, hzero, NumberDraft.required, hdigit]
  exact hfirst.append (NumberPart.leads_digits (fun _ ↦ NumberPart.leads_whole) hcs)

/-- Such digits with a point among them. -/
theorem pointed {n k : Nat} (hn : n < 10) (hne : n ≠ 0) (hcs : ∀ c ∈ cs, c.isDigit = true)
    (hk : cs.drop k ≠ []) : Numeral .fraction (n.digitChar :: cs.take k ++ '.' :: cs.drop k) := by
  have hfront : Numeral .whole (n.digitChar :: cs.take k) :=
    whole hn hne fun c hc ↦ hcs c (List.mem_of_mem_take hc)
  exact hfront.append
    (NumberPart.leads_point (.inr rfl) (fun c hc ↦ hcs c (List.mem_of_mem_drop hc)) hk)

end Numeral

theorem isDigit_of_mem_toDigits {n : Nat} {c : Char} (h : c ∈ Nat.toDigits 10 n) :
    c.isDigit = true := Nat.isDigit_of_mem_toDigits (by decide) (by decide) h

/-- The digits of a number other than zero do not begin with zero. -/
theorem exists_toDigits_eq_cons {n : Nat} (h : n ≠ 0) :
    ∃ m cs, m < 10 ∧ m ≠ 0 ∧ Nat.toDigits 10 n = m.digitChar :: cs := by
  induction n using Nat.strongRecOn with
  | ind n ih =>
    by_cases hn : n < 10
    · exact ⟨n, [], hn, h, Nat.toDigits_of_lt_base hn⟩
    · obtain ⟨m, cs, hm, hne, hdigits⟩ :=
        ih (n / 10) (Nat.div_lt_self (by omega) (by decide)) (by omega)
      refine ⟨m, cs ++ [(n % 10).digitChar], hm, hne, ?_⟩
      rw [Nat.toDigits_eq_if (by decide), if_neg hn, hdigits, List.cons_append]

/-- The exponent that the last layout of a number ends with. -/
theorem leads_exponent_text {p : NumberPart} (hp : p = .zero ∨ p = .whole ∨ p = .fraction)
    (n : Int) : Leads p .exponent
      (['e', if 0 ≤ n then '+' else '-'] ++ Nat.toDigits 10 n.natAbs) := by
  have hsign : (if 0 ≤ n then '+' else '-') = '+' ∨ (if 0 ≤ n then '+' else '-') = '-' := by
    split
    · exact .inl rfl
    · exact .inr rfl
  exact NumberPart.leads_mark hp hsign (fun _ ↦ isDigit_of_mem_toDigits) Nat.toDigits_ne_nil

theorem isDigit_of_mem_replicate {n : Nat} {c : Char} (h : c ∈ List.replicate n '0') :
    c.isDigit = true := by
  rw [List.eq_of_mem_replicate h]
  rfl

/-- A zero far behind the point is spelled with an exponent. -/
theorem numeral_spell_zero {k : Int} (hk : k ≤ -6) : Numeral .exponent (spell 0 k) := by
  have hdigits : Nat.toDigits 10 0 = ['0'] := Nat.toDigits_zero 10
  rw [spell, hdigits]
  simp only [List.length_singleton]
  rw [if_neg (by omega), if_neg (by omega), if_neg (by omega)]
  exact Numeral.zero.append (leads_exponent_text (.inl rfl) _)

/-- In every layout a number is spelled, if its digits do not begin with a zero that others
follow. -/
theorem numeral_spell {c : Nat} {k : Int} (h : c ≠ 0 ∨ k ≤ -6) :
    Numeral .fraction (spell c k) ∨ Numeral .exponent (spell c k) := by
  by_cases hc : c = 0
  · subst hc
    exact .inr (numeral_spell_zero (h.resolve_left fun hne ↦ hne rfl))
  · obtain ⟨m, cs, hm, hne, hdigits⟩ := exists_toDigits_eq_cons hc
    have hall : ∀ d ∈ m.digitChar :: cs, d.isDigit = true := fun d hd ↦
      isDigit_of_mem_toDigits (hdigits ▸ hd)
    obtain ⟨-, hcs⟩ := List.forall_mem_cons.mp hall
    rw [spell, hdigits]
    dsimp only
    split
    · left
      have hmany : ∀ d ∈ cs ++ List.replicate k.toNat '0', d.isDigit = true :=
        List.forall_mem_append.mpr ⟨hcs, fun _ ↦ isDigit_of_mem_replicate⟩
      exact (Numeral.whole hm hne hmany).append
        (NumberPart.leads_point (.inr rfl) (by simp [Char.isDigit]) (by simp))
    · rename_i hwhole
      split
      · -- The point stands behind the first digit or further on, and in front of the last one.
        rename_i hpoint
        left
        obtain ⟨n, hn⟩ : ∃ n, (((m.digitChar :: cs).length : Int) + k).toNat = n + 1 :=
          ⟨(((m.digitChar :: cs).length : Int) + k).toNat - 1, by omega⟩
        have hlast : cs.drop n ≠ [] := by
          intro hnil
          have hlength := List.drop_eq_nil_iff.mp hnil
          rw [List.length_cons] at hn hwhole hpoint
          omega
        rw [hn, List.take_succ_cons, List.drop_succ_cons]
        exact Numeral.pointed hm hne hcs hlast
      · split
        · left
          have hmany : ∀ d ∈ List.replicate (-(((m.digitChar :: cs).length : Int) + k)).toNat '0' ++
              m.digitChar :: cs, d.isDigit = true :=
            List.forall_mem_append.mpr ⟨fun _ ↦ isDigit_of_mem_replicate, hall⟩
          rw [List.append_assoc]
          exact Numeral.zero.append (NumberPart.leads_point (.inl rfl) hmany (by simp))
        · right
          rw [List.append_assoc]
          cases cs with
          | nil =>
            have hone : Numeral .whole [m.digitChar] := Numeral.whole hm hne (by simp)
            exact hone.append (leads_exponent_text (.inr (.inl rfl)) _)
          | cons d ds =>
            have hpoint : Numeral .fraction (m.digitChar :: '.' :: d :: ds) :=
              Numeral.pointed (k := 0) hm hne hcs (List.cons_ne_nil d ds)
            exact hpoint.append (leads_exponent_text (.inr (.inr rfl)) _)

/-! ## Floats -/

theorem isComplete_of_part {d : NumberDraft} (h : d.part = .fraction ∨ d.part = .exponent) :
    d.isComplete = true := by
  rw [NumberDraft.isComplete]
  rcases h with h | h <;> rw [h]

/-- A sign in front of a number belongs to it. -/
theorem Numeral.exists_run {p : NumberPart} {cs : List Char} (h : Numeral p cs) (negative : Prop)
    [Decidable negative] : ∃ d : NumberDraft, d.part = p ∧ ∀ b,
      Reading.run ⟨.between, b⟩ ((if negative then ['-'] else []) ++ cs) = ⟨.number d, b⟩ := by
  split
  · obtain ⟨d, hd, hrun⟩ := h.signed { part := .sign, negative := true } rfl
    exact ⟨d, hd, fun b ↦ hrun b⟩
  · exact h.begins

/-- A float is written as `null`, or as a number that is read to its end. -/
theorem run_float (x : Float) :
    float x = null ∨ ∃ d : NumberDraft, d.isComplete = true ∧ ∀ b,
      Reading.run ⟨.between, b⟩ (float x) = ⟨.number d, b⟩ := by
  have hsigned {p : NumberPart} {cs : List Char} (h : Numeral p cs)
      (hp : p = .fraction ∨ p = .exponent) (negative : Prop) [Decidable negative] :
      ∃ d : NumberDraft, d.isComplete = true ∧ ∀ b,
        Reading.run ⟨.between, b⟩ ((if negative then ['-'] else []) ++ cs) = ⟨.number d, b⟩ := by
    obtain ⟨d, hd, hrun⟩ := h.exists_run negative
    exact ⟨d, isComplete_of_part (hd ▸ hp), hrun⟩
  rw [float]
  split
  · exact .inl rfl
  · right
    dsimp only
    split
    · have hzero : Numeral .fraction ['0', '.', '0'] :=
        Numeral.zero.append (NumberPart.leads_point (.inl rfl) (by simp [Char.isDigit]) (by simp))
      exact hsigned hzero (.inl rfl) _
    · have hshortest := (Decimal.Interval.ofBits x.toBits).search_cases 309 660
      have hlast : (Decimal.shortest x.toBits).1 ≠ 0 ∨ (Decimal.shortest x.toBits).2 ≤ -6 := by
        refine hshortest.imp_right fun h ↦ ?_
        rw [Decimal.shortest, h]
        decide
      rcases numeral_spell hlast with h | h
      · exact hsigned h (.inl rfl) _
      · exact hsigned h (.inr rfl) _

/-- What comes of reading a float that has been written: a number is read as a float, if it is the
number of one, and `null` as none. -/
def reread (x : Float) : Except Fault (Option Float) :=
  decode (Reader.nullable Reader.float) (float x)

theorem closes_null : Closes null .null := by
  intro stack want hwant
  rcases hwant with rfl | rfl <;> rfl

/-- Wherever a float stands in a text, it is the value that is read of it when it stands alone. -/
theorem exists_spells_float (x : Float) :
    ∃ t, Spells (float x) t ∧ Reader.nullable Reader.float t = reread x := by
  rcases run_float x with hnull | ⟨d, hd, hrun⟩
  · refine ⟨.null, ?_, ?_⟩
    · rw [hnull]
      exact closes_null.spells
    · rw [reread, hnull]
      rfl
  · refine ⟨.number d.decimal, ?_, ?_⟩
    · intro stack want c rest hwant hc
      rw [Reading.run_append, hrun, Reading.run_cons, Reading.step_number hd hc]
      rcases hwant with rfl | rfl <;> rfl
    · have hfinish :
          Reading.finish ⟨.number d, .reading [] .value⟩ = (.number d.decimal, false) := by
        simp only [Reading.finish, Mode.finish, hd, if_true]
        rfl
      rw [reread, decode, read_map_some, hrun, hfinish]
      cases Reader.nullable Reader.float (.number d.decimal) <;> rfl

end TripleIndex.Json
