import TripleIndex.Json.Writer
import TripleIndex.Proofs.Json.Reading
import Mathlib.Data.List.Forall2
import Mathlib.Tactic.SplitIfs

/-!
# What written JSON reads as

A text *spells* a tree if the tree is what it adds wherever a value may stand.  A number is over
only with the mark behind it, so the text is looked at in front of a mark (`Spells`).  Strings and
containers are over with their own last character (`Closes`).

The writer's strings spell what they have been made from, whatever characters that holds
(`closes_string`), and its containers spell containers of what their parts spell (`closes_array`,
`closes_object`).
-/

namespace TripleIndex.Decimal

/-! ## Numerals of natural numbers -/

theorem whole_ofNat_of_lt {n : Nat} (h : n < 10) : (ofNat n).whole = [n] := by
  simp [ofNat, Nat.toDigits_of_lt_base h, Nat.toNat_digitChar_sub_48_of_lt_ten h]

theorem whole_ofNat_of_ge {n : Nat} (h : 10 ≤ n) :
    (ofNat n).whole = (ofNat (n / 10)).whole ++ [n % 10] := by
  have hmod : n % 10 < 10 := Nat.mod_lt n (by decide)
  rw [ofNat, Nat.toDigits_eq_if (by decide), if_neg (Nat.not_lt.mpr h), List.map_append,
    List.map_singleton, Nat.toNat_digitChar_sub_48_of_lt_ten hmod]
  rfl

theorem gatherWhole_ofNat {n : Nat} (h : n ≤ gatherLimit) :
    gatherWhole (ofNat n).whole = ⟨n, 0⟩ := by
  induction n using Nat.strongRecOn with
  | ind n ih =>
    by_cases hn : n < 10
    · rw [whole_ofNat_of_lt hn]
      simp [gatherWhole, Gathered.whole, h]
    · have hdiv : n / 10 ≤ gatherLimit := Nat.le_trans (Nat.div_le_self n 10) h
      have hback : n / 10 * 10 + n % 10 = n := by omega
      rw [whole_ofNat_of_ge (Nat.not_lt.mp hn), gatherWhole, List.foldl_append,
        ← gatherWhole, ih (n / 10) (Nat.div_lt_self (by omega) (by decide)) hdiv]
      simp [Gathered.whole, hback, h]

theorem toUInt64?_ofNat (n : UInt64) : (ofNat n.toNat).toUInt64? = some n := by
  have hn : n.toNat ≤ gatherLimit := Nat.le_sub_one_of_lt n.toNat_lt
  rw [toUInt64?, gatherWhole_ofNat hn]
  simp [ofNat, isInteger]

end TripleIndex.Decimal

namespace TripleIndex.Json

/-- The digits of a number other than zero. -/
def NumberDraft.ofNat (n : Nat) : NumberDraft :=
  { part := .whole, whole := (Decimal.ofNat n).whole.reverse }

theorem NumberDraft.decimal_ofNat (n : Nat) : (ofNat n).decimal = Decimal.ofNat n := by
  simp [ofNat, decimal, Decimal.ofNat]

theorem digit?_digitChar {n : Nat} (h : n < 10) : digit? n.digitChar = some n := by
  rw [digit?, Nat.isDigit_digitChar, if_pos (decide_eq_true h),
    Nat.toNat_digitChar_sub_48_of_lt_ten h]

theorem Mode.start_digitChar {n : Nat} (h : n < 10) (hn : n ≠ 0) :
    start n.digitChar = ([], .number { part := .whole, whole := [n] }) := by
  have hall : ∀ n : Fin 10, n.val ≠ 0 →
      start n.val.digitChar = ([], .number { part := .whole, whole := [n.val] }) := by decide
  exact hall ⟨n, h⟩ hn

/-- What may stand behind a value in a container. -/
def IsMark (c : Char) : Prop := c = ',' ∨ c = ']' ∨ c = '\x7d'

namespace Reading

theorem step_between (b : Builder) (c : Char) :
    step ⟨.between, b⟩ c = ⟨(Mode.start c).2, (Mode.start c).1.foldl Builder.step b⟩ := rfl

theorem run_toDigits {n : Nat} (hn : n ≠ 0) (b : Builder) :
    run ⟨.between, b⟩ (Nat.toDigits 10 n) = ⟨.number (.ofNat n), b⟩ := by
  induction n using Nat.strongRecOn with
  | ind n ih =>
    by_cases h : n < 10
    · rw [Nat.toDigits_of_lt_base h, run_cons, run_nil, step_between, Mode.start_digitChar h hn,
        NumberDraft.ofNat, Decimal.whole_ofNat_of_lt h]
      rfl
    · have hge : 10 ≤ n := Nat.not_lt.mp h
      have hmod : n % 10 < 10 := Nat.mod_lt n (by decide)
      rw [Nat.toDigits_eq_if (by decide), if_neg h, run_append,
        ih (n / 10) (Nat.div_lt_self (by omega) (by decide)) (by omega), run_cons, run_nil]
      simp [step, Mode.step, Mode.stepNumber, NumberDraft.ofNat, NumberDraft.step,
        NumberDraft.addWhole, digit?_digitChar hmod, Decimal.whole_ofNat_of_ge hge]

/-- A mark ends a number that may end, and then is read as if it stood between tokens. -/
theorem step_number {d : NumberDraft} (hd : d.isComplete = true) {c : Char} (hc : IsMark c)
    (b : Builder) :
    step ⟨.number d, b⟩ c = step ⟨.between, b.step (.number d.decimal)⟩ c := by
  have hstep : d.step c = .finished := by
    obtain ⟨part, _, _, _, _, _⟩ := d
    rcases hc with rfl | rfl | rfl <;> cases part <;> first | rfl | cases hd
  simp [step, Mode.step, Mode.stepNumber, hstep]

theorem run_natural (n : UInt64) {c : Char} (hc : IsMark c) (rest : List Char) (b : Builder) :
    run ⟨.between, b⟩ (natural n ++ c :: rest) =
      run ⟨.between, b.step (.number (Decimal.ofNat n.toNat))⟩ (c :: rest) := by
  rw [natural, count, run_append, run_cons, run_cons]
  by_cases hn : n.toNat = 0
  · rw [hn, Nat.toDigits_zero, run_cons, run_nil, step_between]
    exact congrArg (run · rest) (step_number rfl hc b)
  · rw [run_toDigits hn, step_number rfl hc, NumberDraft.decimal_ofNat]

end Reading

/-! ## Strings -/

namespace Reading

open Text

theorem hexValue?_lowerHex {n : Nat} (h : n < 16) : hexValue? (lowerHex n) = some n := by
  have hall : ∀ n : Fin 16, hexValue? (lowerHex n.val) = some n.val := by decide
  exact hall ⟨n, h⟩

/-- Four hexadecimal digits behind `\u` make up a unit. -/
theorem run_fourHex (d : StringDraft) {n : Nat} (h : n < 0x10000) (b : Builder) :
    run ⟨.unit d 4 0, b⟩ (fourHex lowerHex n) = ⟨.string (d.addUnit n), b⟩ := by
  have hdigit (m : Nat) : hexValue? (lowerHex (m % 16)) = some (m % 16) :=
    hexValue?_lowerHex (Nat.mod_lt m (by decide))
  have hvalue : ((n / 4096 % 16 * 16 + n / 256 % 16) * 16 + n / 16 % 16) * 16 + n % 16 = n := by
    omega
  simp [fourHex, step, Mode.step, Mode.stepUnit, hdigit, hvalue]

/-- The escape of a character adds the character to a string under way. -/
theorem run_escape (cs : List Char) (c : Char) (b : Builder) :
    run ⟨.string ⟨cs, none, true⟩, b⟩ (escape c) = ⟨.string ⟨c :: cs, none, true⟩, b⟩ := by
  unfold escape
  split_ifs with hquote hb hf hn hr ht hlow
  · rcases hquote with rfl | rfl <;> rfl
  · subst hb; rfl
  · subst hf; rfl
  · subst hn; rfl
  · subst hr; rfl
  · subst ht; rfl
  · have hunit : (⟨cs, none, true⟩ : StringDraft).addUnit c.toNat = ⟨c :: cs, none, true⟩ := by
      have hfirst : ¬ 0xD800 ≤ c.toNat := by omega
      have hsecond : ¬ 0xDC00 ≤ c.toNat := by omega
      simp [StringDraft.addUnit, StringDraft.addChar, hfirst, hsecond, Char.ofNat_toNat]
    rw [run_append, ← hunit]
    exact run_fourHex ⟨cs, none, true⟩ (by omega) b
  · obtain ⟨hq, hs⟩ := not_or.mp hquote
    simp [step, Mode.step, Mode.stepString, hq, hs, hlow, StringDraft.addChar]

theorem run_flatMap_escape (cs ds : List Char) (b : Builder) :
    run ⟨.string ⟨cs, none, true⟩, b⟩ (ds.flatMap escape) =
      ⟨.string ⟨ds.reverse ++ cs, none, true⟩, b⟩ := by
  induction ds generalizing cs with
  | nil => rfl
  | cons d ds ih =>
    rw [List.flatMap_cons, run_append, run_escape, ih]
    simp

theorem run_string (s : String) (b : Builder) :
    run ⟨.between, b⟩ (string s) = ⟨.between, b.step (.string (some s))⟩ := by
  rw [string, List.cons_append, run_cons, run_append]
  change run (run ⟨.string ⟨[], none, true⟩, b⟩ _) _ = _
  rw [run_flatMap_escape]
  simp [step, Mode.step, Mode.stepString, StringDraft.contents]

end Reading

/-! ## Values -/

open Builder (put)

/-- Where a value may stand. -/
def Want.IsValue (w : Want) : Prop := w = .value ∨ w = .valueOrClose

/-- Where a name may stand. -/
def Want.IsName (w : Want) : Prop := w = .name ∨ w = .nameOrClose

/-- In front of a mark, the text has added the tree to what is around it. -/
def Spells (cs : List Char) (t : Tree) : Prop :=
  ∀ stack want c rest, Want.IsValue want → IsMark c →
    Reading.run ⟨.between, .reading stack want⟩ (cs ++ c :: rest) =
      Reading.run ⟨.between, put t stack⟩ (c :: rest)

/-- With its last character, the text has added the tree to what is around it. -/
def Closes (cs : List Char) (t : Tree) : Prop :=
  ∀ stack want, Want.IsValue want →
    Reading.run ⟨.between, .reading stack want⟩ cs = ⟨.between, put t stack⟩

theorem Closes.spells {cs : List Char} {t : Tree} (h : Closes cs t) : Spells cs t := by
  intro stack want c rest hwant _
  rw [Reading.run_append, h stack want hwant]

theorem spells_natural (n : UInt64) : Spells (natural n) (.number (Decimal.ofNat n.toNat)) := by
  intro stack want c rest hwant hc
  rw [Reading.run_natural n hc]
  rcases hwant with rfl | rfl <;> rfl

theorem closes_string (s : String) : Closes (string s) (.string (some s)) := by
  intro stack want hwant
  rw [Reading.run_string]
  rcases hwant with rfl | rfl <;> rfl

/-! ## Containers

Arrays and objects take up their parts alike: a part stands in front of a mark, and behind a comma
another one has to follow. -/

section Parts

variable {β : Type} {frame : List β → Frame} {wants : Want → Prop}

/-- In front of a mark, the text has added a part to the container around it. -/
def Adds (frame : List β → Frame) (wants : Want → Prop) (cs : List Char) (x : β) : Prop :=
  ∀ xs fs want c rest, wants want → IsMark c →
    Reading.run ⟨.between, .reading (frame xs :: fs) want⟩ (cs ++ c :: rest) =
      Reading.run ⟨.between, .reading (frame (x :: xs) :: fs) .next⟩ (c :: rest)

theorem run_intercalate {again : Want} (hagain : wants again)
    (hcomma : ∀ xs fs, Builder.step (.reading (frame xs :: fs) .next) .comma =
      .reading (frame xs :: fs) again)
    {parts : List (List Char)} {xs : List β} (h : List.Forall₂ (Adds frame wants) parts xs)
    (hparts : parts ≠ []) (ys : List β) (fs : List Frame) {want : Want} (hwant : wants want)
    {c : Char} (hc : IsMark c) (rest : List Char) :
    Reading.run ⟨.between, .reading (frame ys :: fs) want⟩
        (List.intercalate [','] parts ++ c :: rest) =
      Reading.run ⟨.between, .reading (frame (xs.reverse ++ ys) :: fs) .next⟩ (c :: rest) := by
  induction h generalizing ys want with
  | nil => exact (hparts rfl).elim
  | @cons p x ps xs hp hps ih =>
    cases ps with
    | nil =>
      cases hps
      rw [List.intercalate_singleton, hp ys fs want c rest hwant hc]
      rfl
    | cons q qs =>
      -- The comma is a mark itself: it ends the part, and asks for another one.
      have hpart := hp ys fs want ',' (List.intercalate [','] (q :: qs) ++ c :: rest) hwant
        (.inl rfl)
      rw [List.intercalate_cons_cons, List.append_assoc, List.append_assoc,
        List.singleton_append, hpart, Reading.run_cons, Reading.step_between]
      change Reading.run ⟨.between, Builder.step (.reading (frame (x :: ys) :: fs) .next) .comma⟩
        _ = _
      rw [hcomma, ih (by simp) (x :: ys) hagain]
      simp

end Parts

theorem Spells.adds {cs : List Char} {t : Tree} (h : Spells cs t) :
    Adds .array Want.IsValue cs t :=
  fun ts fs want c rest hwant hc ↦ h (.array ts :: fs) want c rest hwant hc

theorem closes_array {parts : List (List Char)} {ts : List Tree}
    (h : List.Forall₂ Spells parts ts) : Closes (array parts) (.array ts true) := by
  intro stack want hwant
  have hopen : (⟨.between, .reading stack want⟩ : Reading).step '[' =
      ⟨.between, .reading (.array [] :: stack) .valueOrClose⟩ := by
    rcases hwant with rfl | rfl <;> rfl
  rw [array, enclosed, List.cons_append, Reading.run_cons, hopen]
  cases h with
  | nil => rfl
  | cons hp hps =>
    have hadds := (List.Forall₂.cons hp hps).imp fun _ _ ↦ Spells.adds
    rw [run_intercalate (.inl rfl) (fun _ _ ↦ rfl) hadds (by simp) [] stack (.inr rfl)
      (.inr (.inl rfl))]
    simp [Reading.step_between, Mode.start, Mode.isSpace, Builder.step, Builder.readNext,
      Builder.closeArray]

theorem Spells.adds_member (name : String) {cs : List Char} {t : Tree} (h : Spells cs t) :
    Adds .object Want.IsName (member name cs) (some name, t) := by
  intro ms fs want c rest hwant hc
  have hname : (⟨.between, .reading (.object ms :: fs) want⟩ : Reading).run (string name) =
      ⟨.between, .reading (.member ms (some name) :: fs) .colon⟩ := by
    rw [Reading.run_string]
    rcases hwant with rfl | rfl <;> rfl
  rw [member, List.append_assoc, Reading.run_append, hname, List.cons_append, Reading.run_cons]
  exact h (.member ms (some name) :: fs) .value c rest (.inl rfl) hc

theorem closes_object {parts : List (List Char)} {ms : List Member}
    (h : List.Forall₂ (Adds .object Want.IsName) parts ms) :
    Closes (object parts) (.object ms true) := by
  intro stack want hwant
  have hopen : (⟨.between, .reading stack want⟩ : Reading).step '\x7b' =
      ⟨.between, .reading (.object [] :: stack) .nameOrClose⟩ := by
    rcases hwant with rfl | rfl <;> rfl
  rw [object, enclosed, List.cons_append, Reading.run_cons, hopen]
  cases h with
  | nil => rfl
  | cons hp hps =>
    rw [run_intercalate (.inl rfl) (fun _ _ ↦ rfl) (.cons hp hps) (by simp) [] stack (.inr rfl)
      (.inr (.inr rfl))]
    simp [Reading.step_between, Mode.start, Mode.isSpace, Builder.step, Builder.readNext,
      Builder.closeObject]

/-! ## Documents -/

/-- Blanks of JSON in front of a closed text mean nothing. -/
theorem decode_append_of_closes {α : Type} {reader : Reader α} {blanks cs : List Char} {t : Tree}
    (hblanks : blanks.all Mode.isSpace = true) (h : Closes cs t) :
    decode reader (blanks ++ cs) = reader t := by
  have hfinish : (Reading.run {} (blanks ++ cs)).finish = (t, false) := by
    rw [Reading.run_append, Reading.run_of_all_isSpace hblanks, h [] .value (.inl rfl)]
    rfl
  rw [decode, read_map_some, hfinish]
  cases reader t <;> rfl

theorem Builder.foldl_step_done (t : Tree) (surplus : Bool) (ts : List Token) :
    ∃ surplus', ts.foldl step (.done t surplus) = .done t surplus' := by
  cases ts with
  | nil => exact ⟨surplus, rfl⟩
  | cons token ts =>
    have hdone : ts.foldl step (.done t true) = .done t true := by
      induction ts with
      | nil => rfl
      | cons token ts ih => exact ih
    exact ⟨true, hdone⟩

theorem Reading.builder_run_done {r : Reading} {t : Tree} {surplus : Bool}
    (h : r.builder = .done t surplus) (cs : List Char) :
    ∃ surplus', (r.run cs).builder = .done t surplus' := by
  induction cs generalizing r surplus with
  | nil => exact ⟨surplus, h⟩
  | cons c cs ih =>
    obtain ⟨surplus', hstep⟩ := Builder.foldl_step_done t surplus (r.mode.step (some c)).1
    rw [← h] at hstep
    exact ih hstep

/-- Whatever comes behind a closed text, no other value is read than the one of the text. -/
theorem reader_of_decode_append {α : Type} {reader : Reader α} {cs ds : List Char} {t : Tree}
    {a : α} (h : Closes cs t) (hd : decode reader (cs ++ ds) = .ok a) : reader t = .ok a := by
  obtain ⟨u, hfinish, hu⟩ := decode_eq_ok_iff.mp hd
  have hfirst : (Reading.run {} cs).builder = .done t false := by
    rw [h [] .value (.inl rfl)]
    rfl
  obtain ⟨surplus, hrun⟩ := Reading.builder_run_done hfirst ds
  obtain ⟨surplus', hend⟩ :=
    Builder.foldl_step_done t surplus ((Reading.run {} cs).run ds).mode.finish
  rw [Reading.run_append, Reading.finish, hrun, hend] at hfinish
  obtain rfl : t = u := congrArg Prod.fst hfinish
  exact hu

/-! ## Line feeds

Written JSON stands on one line: a feed in a string is escaped. -/

theorem feed_notMem_escape (c : Char) : '\n' ∉ escape c := by
  unfold escape
  split_ifs with hquote hb hf hn hr ht hlow
  · rcases hquote with rfl | rfl <;> decide
  · decide
  · decide
  · decide
  · decide
  · decide
  · have hdigit : ∀ m : Fin 16, '\n' ≠ Text.lowerHex m.val := by decide
    have hmod (m : Nat) : '\n' ≠ Text.lowerHex (m % 16) :=
      hdigit ⟨m % 16, Nat.mod_lt m (by decide)⟩
    simp [Text.fourHex, hmod]
  · simp [Ne.symm hn]

theorem feed_notMem_string (s : String) : '\n' ∉ string s := by
  simp [string, feed_notMem_escape]

theorem feed_notMem_count (n : Nat) : '\n' ∉ count n := by
  intro h
  have hdigit : '\n'.isDigit = true := Nat.isDigit_of_mem_toDigits (by decide) (by decide) h
  cases hdigit

theorem feed_notMem_natural (n : UInt64) : '\n' ∉ natural n := feed_notMem_count n.toNat

theorem feed_notMem_spell (c : Nat) (k : Int) : '\n' ∉ spell c k := by
  have hdigits : '\n' ∉ Nat.toDigits 10 c := feed_notMem_count c
  have hexponent (n : Nat) : '\n' ∉ Nat.toDigits 10 n := feed_notMem_count n
  unfold spell
  generalize Nat.toDigits 10 c = digits at hdigits ⊢
  dsimp only
  split_ifs with hwhole hpoint hsmall hsign
  · simp [hdigits, List.mem_replicate]
  · have htake (n : Nat) : '\n' ∉ digits.take n := fun h ↦ hdigits (List.mem_of_mem_take h)
    have hdrop (n : Nat) : '\n' ∉ digits.drop n := fun h ↦ hdigits (List.mem_of_mem_drop h)
    simp [htake, hdrop]
  · simp [hdigits, List.mem_replicate]
  -- Whether a point follows the first digit depends on how many there are.
  · rcases digits with _ | ⟨d, _ | ⟨e, ds⟩⟩ <;> simp_all
  · rcases digits with _ | ⟨d, _ | ⟨e, ds⟩⟩ <;> simp_all

theorem feed_notMem_float (x : Float) : '\n' ∉ float x := by
  unfold float
  split
  · decide
  · have hsign (b : Prop) [Decidable b] : '\n' ∉ if b then ['-'] else [] := by split <;> decide
    dsimp only
    split
    · simp [hsign]
    · simp [hsign, feed_notMem_spell]

theorem feed_notMem_intercalate {parts : List (List Char)} (h : ∀ p ∈ parts, '\n' ∉ p) :
    '\n' ∉ List.intercalate [','] parts := by
  induction parts with
  | nil => simp
  | cons p ps ih =>
    obtain ⟨hp, hps⟩ := List.forall_mem_cons.mp h
    cases ps with
    | nil => simpa using hp
    | cons q qs =>
      rw [List.intercalate_cons_cons]
      simp [hp, ih hps]

theorem feed_notMem_array {parts : List (List Char)} (h : ∀ p ∈ parts, '\n' ∉ p) :
    '\n' ∉ array parts := by
  simp [array, enclosed, feed_notMem_intercalate h]

theorem feed_notMem_object {parts : List (List Char)} (h : ∀ p ∈ parts, '\n' ∉ p) :
    '\n' ∉ object parts := by
  simp [object, enclosed, feed_notMem_intercalate h]

theorem feed_notMem_member (name : String) {value : List Char} (h : '\n' ∉ value) :
    '\n' ∉ member name value := by
  simp [member, feed_notMem_string, h]

theorem getLast?_object (parts : List (List Char)) : (object parts).getLast? = some '\x7d' :=
  List.getLast?_concat

end TripleIndex.Json
