import TripleIndex.Json.Reader
import TripleIndex.Text.Blank

/-!
# Reading a JSON text in one pass

The tokens of a text and the tree they build are made one after the other.  Here both machines run
side by side, symbol by symbol, so that a text can be cut anywhere (`Reading.run_append`), and
reading a text is running it and finishing (`read_map_some`).

A text that is one closed container is over with its last mark: the machine is then between two
tokens and the tree is done (`Reading.run_eq_of_finish_closed`).  Whatever token comes behind is
surplus, which is why such a text cannot be continued by another container.
-/

namespace TripleIndex.Json

/-- A text under way: where the machine of tokens stands, and what the tokens have built. -/
structure Reading where
  mode : Mode := .between
  builder : Builder := .reading [] .value

namespace Reading

def step (r : Reading) (c : Char) : Reading :=
  ⟨(r.mode.step (some c)).2, (r.mode.step (some c)).1.foldl Builder.step r.builder⟩

def run (r : Reading) (cs : List Char) : Reading := cs.foldl step r

def finish (r : Reading) : Tree × Bool := (r.mode.finish.foldl Builder.step r.builder).finish

@[simp] theorem run_nil (r : Reading) : r.run [] = r := rfl

@[simp] theorem run_cons (r : Reading) (c : Char) (cs : List Char) :
    r.run (c :: cs) = (r.step c).run cs := rfl

@[simp] theorem run_append (r : Reading) (cs ds : List Char) :
    r.run (cs ++ ds) = (r.run cs).run ds := List.foldl_append

/-- The reading of a text whose tokens have been put aside. -/
def ofTokenizer (t : Tokenizer) : Reading :=
  ⟨t.mode, t.tokens.reverse.foldl Builder.step (.reading [] .value)⟩

theorem ofTokenizer_step (t : Tokenizer) (c : Char) :
    ofTokenizer (t.step (some c)) = (ofTokenizer t).step c := by
  simp [ofTokenizer, Tokenizer.step, step]

theorem ofTokenizer_foldl_step (t : Tokenizer) (cs : List Char) :
    ofTokenizer ((cs.map some).foldl Tokenizer.step t) = (ofTokenizer t).run cs := by
  induction cs generalizing t with
  | nil => rfl
  | cons c cs ih => rw [List.map_cons, List.foldl_cons, ih, ofTokenizer_step, run_cons]

theorem finish_ofTokenizer (t : Tokenizer) :
    (ofTokenizer t).finish = (t.finish.foldl Builder.step (.reading [] .value)).finish := by
  rw [Tokenizer.finish, List.foldl_append]
  rfl

end Reading

theorem read_map_some (cs : List Char) : read (cs.map some) = (Reading.run {} cs).finish := by
  rw [read, tokens, ← Reading.finish_ofTokenizer, Reading.ofTokenizer_foldl_step]
  rfl

theorem decode_eq_ok_iff {α : Type} {reader : Reader α} {cs : List Char} {a : α} :
    decode reader cs = .ok a ↔
      ∃ t, (Reading.run {} cs).finish = (t, false) ∧ reader t = .ok a := by
  rw [decode, read_map_some]
  obtain ⟨t, surplus⟩ := (Reading.run {} cs).finish
  cases h : reader t <;> cases surplus <;> simp [h]

/-! ## Blanks between tokens -/

theorem Reading.step_of_isSpace {c : Char} (h : Mode.isSpace c) (b : Builder) :
    step ⟨.between, b⟩ c = ⟨.between, b⟩ := by
  simp [step, Mode.step, Mode.start, h]

theorem Reading.run_of_all_isSpace {cs : List Char} (h : cs.all Mode.isSpace) (b : Builder) :
    run ⟨.between, b⟩ cs = ⟨.between, b⟩ := by
  induction cs with
  | nil => rfl
  | cons c cs ih =>
    obtain ⟨hc, hcs⟩ := Bool.and_eq_true_iff.mp (List.all_cons ▸ h)
    rw [run_cons, step_of_isSpace hc, ih hcs]

/-! ## Malformed texts -/

namespace Tree

/-- A container that the text closes. -/
def isClosed : Tree → Bool
  | .array _ closed | .object _ closed => closed
  | .null | .bool _ | .number _ | .string _ | .broken => false

end Tree

namespace Builder

/-- The text is not one closed container, however it goes on. -/
def Spoiled : Builder → Prop
  | .reading .. => False
  | .done t surplus => surplus = true ∨ t.isClosed = false

theorem isClosed_abandon {child : Option Tree} (h : ∀ t ∈ child, t.isClosed = false)
    (stack : List Frame) : (abandon child stack).isClosed = false := by
  induction stack generalizing child with
  | nil =>
    cases child with
    | none => rfl
    | some t => exact h t rfl
  | cons f fs ih =>
    cases f <;> exact ih fun t ht ↦ by cases ht; rfl

theorem spoiled_fail (stack : List Frame) : (fail stack).Spoiled :=
  .inr (isClosed_abandon (by simp) stack)

theorem spoiled_step_malformed (b : Builder) : (b.step .malformed).Spoiled := by
  cases b with
  | done t surplus => exact .inl rfl
  | reading stack want => cases want <;> exact spoiled_fail stack

theorem Spoiled.foldl_step {b : Builder} (h : b.Spoiled) (ts : List Token) :
    (ts.foldl step b).Spoiled := by
  induction ts generalizing b with
  | nil => exact h
  | cons t ts ih =>
    cases b with
    | reading stack want => exact h.elim
    | done tree surplus => exact ih (.inl rfl)

theorem spoiled_of_mem {ts : List Token} (h : .malformed ∈ ts) (b : Builder) :
    (ts.foldl step b).Spoiled := by
  obtain ⟨us, vs, rfl⟩ := List.append_of_mem h
  rw [List.foldl_append, List.foldl_cons]
  exact (spoiled_step_malformed _).foldl_step vs

/-- A builder that ends with a closed container and without surplus has been done with it. -/
theorem eq_done_of_finish {b : Builder} {t : Tree} (h : b.finish = (t, false))
    (ht : t.isClosed = true) : b = .done t false := by
  cases b with
  | done tree surplus =>
    obtain ⟨rfl, rfl⟩ := Prod.mk.inj h
    rfl
  | reading stack want =>
    have ha : abandon none stack = t := congrArg Prod.fst h
    rw [← ha, isClosed_abandon (by simp) stack] at ht
    cases ht

theorem not_spoiled_of_finish {b : Builder} {t : Tree} (h : b.finish = (t, false))
    (ht : t.isClosed = true) : ¬ b.Spoiled := by
  rw [eq_done_of_finish h ht]
  rintro (h | h)
  · cases h
  · rw [ht] at h; cases h

/-- A number alone is no closed container, and neither is one behind a value. -/
theorem ne_done_of_step_number (b : Builder) (d : Decimal) {t : Tree} (ht : t.isClosed = true) :
    b.step (.number d) ≠ .done t false := by
  intro h
  have hsound : ¬ (b.step (.number d)).Spoiled :=
    not_spoiled_of_finish (by rw [h]; rfl) ht
  cases b with
  | done tree surplus => exact hsound (.inl rfl)
  | reading stack want =>
    cases want with
    | name | nameOrClose | colon | next => exact hsound (spoiled_fail stack)
    | value | valueOrClose =>
      cases stack with
      | nil => exact hsound (.inr rfl)
      | cons f fs =>
        cases f with
        | array items => cases h
        | object members => exact hsound (spoiled_fail _)
        | member members name => cases h

end Builder

/-! The machine of tokens dies of malformed spots only. -/

namespace Mode

/-- A step that ends the machine reports a malformed spot. -/
def Step.Reports (s : Step) : Prop := s.2 = .dead → .malformed ∈ s.1

theorem reports_fail : Step.Reports fail := fun _ ↦ List.mem_singleton_self _

theorem Step.Reports.ite {p : Prop} [Decidable p] {s t : Step} (hs : s.Reports)
    (ht : t.Reports) : Step.Reports (if p then s else t) := by
  split
  · exact hs
  · exact ht

theorem reports_start (c : Char) : (start c).Reports := by
  unfold start
  -- All branches but the last go on with a live machine.
  repeat refine .ite nofun ?_
  cases digit? c with
  | none => exact reports_fail
  | some n => nofun

theorem reports_stepWord (left : List Char) (token : Token) (c : Char) :
    (stepWord left token c).Reports := by
  cases left with
  | nil => exact reports_fail
  | cons l left => exact .ite (.ite nofun nofun) reports_fail

theorem reports_stepNumber (d : NumberDraft) (c : Char) : (stepNumber d c).Reports := by
  unfold stepNumber
  cases d.step c with
  | more d => nofun
  | finished => exact fun h ↦ List.mem_cons_of_mem _ (reports_start c h)
  | malformed => exact reports_fail

theorem reports_stepString (d : StringDraft) (c : Char) : (stepString d c).Reports :=
  .ite nofun (.ite nofun (.ite reports_fail nofun))

theorem reports_stepEscape (d : StringDraft) (c : Char) : (stepEscape d c).Reports := by
  refine .ite nofun ?_
  cases unescape? c with
  | none => exact reports_fail
  | some e => nofun

theorem reports_stepUnit (d : StringDraft) (left value : Nat) (c : Char) :
    (stepUnit d left value c).Reports := by
  unfold stepUnit
  cases Text.hexValue? c with
  | none => exact reports_fail
  | some n => exact .ite nofun nofun

theorem reports_step {m : Mode} (hm : m ≠ .dead) (c : Char) : (m.step (some c)).Reports := by
  cases m with
  | between => exact reports_start c
  | word left token => exact reports_stepWord left token c
  | number d => exact reports_stepNumber d c
  | string d => exact reports_stepString d c
  | escape d => exact reports_stepEscape d c
  | unit d left value => exact reports_stepUnit d left value c
  | dead => exact (hm rfl).elim

end Mode

namespace Reading

theorem spoiled_step {r : Reading} (h : r.mode = .dead → r.builder.Spoiled) (c : Char)
    (hdead : (r.step c).mode = .dead) : (r.step c).builder.Spoiled := by
  by_cases hm : r.mode = .dead
  · exact (h hm).foldl_step _
  · exact Builder.spoiled_of_mem (Mode.reports_step hm c hdead) _

theorem spoiled_run {r : Reading} (h : r.mode = .dead → r.builder.Spoiled) (cs : List Char) :
    (r.run cs).mode = .dead → (r.run cs).builder.Spoiled := by
  induction cs generalizing r with
  | nil => exact h
  | cons c cs ih => exact ih (spoiled_step h c)

/-- The text of one closed container is over with its last mark. -/
theorem run_eq_of_finish_closed {cs : List Char} {t : Tree}
    (h : (run {} cs).finish = (t, false)) (ht : t.isClosed = true) :
    run {} cs = ⟨.between, .done t false⟩ := by
  have hdead : (run {} cs).mode = .dead → (run {} cs).builder.Spoiled :=
    spoiled_run (fun hm ↦ by cases hm) cs
  generalize run {} cs = r at h hdead ⊢
  obtain ⟨mode, builder⟩ := r
  have hsound : ¬ (mode.finish.foldl Builder.step builder).Spoiled :=
    Builder.not_spoiled_of_finish h ht
  have hdone := Builder.eq_done_of_finish h ht
  cases mode with
  | between => rw [← hdone]; rfl
  | dead => exact (hsound (hdead rfl)).elim
  | number d =>
    cases hc : d.isComplete with
    | true =>
      simp only [Mode.finish, hc, if_true] at hdone
      exact (Builder.ne_done_of_step_number builder _ ht hdone).elim
    | false =>
      simp only [Mode.finish, hc] at hsound
      exact (hsound (Builder.spoiled_of_mem (by simp) _)).elim
  | word | string | escape | unit =>
    exact (hsound (Builder.spoiled_of_mem (List.mem_singleton_self _) _)).elim

/-- What has been spoiled stays so. -/
theorem spoiled_builder_run {r : Reading} (h : r.builder.Spoiled) (cs : List Char) :
    (r.run cs).builder.Spoiled := by
  induction cs generalizing r with
  | nil => exact h
  | cons c cs ih => exact ih (h.foldl_step _)

end Reading

/-! ## Readers of closed containers

Records are read from closed containers only. -/

theorem Reader.closed_of_complete {α δ : Type} {finish : δ → Option α} {closed : Bool} {d : δ}
    {a : α} (h : complete finish closed d = .ok a) : closed = true := by
  cases closed with
  | true => rfl
  | false => cases h

theorem Reader.isClosed_of_record {α δ : Type} {fields : List (Field δ)} {start : δ}
    {finish : δ → Option α} {t : Tree} {a : α} (h : record fields start finish t = .ok a) :
    t.isClosed = true := by
  cases t with
  | object ms closed =>
    cases hd : members fields start ms with
    | error f => simp [record, hd] at h
    | ok d =>
      have hc : complete finish closed d = .ok a := by simpa only [record, hd] using h
      exact closed_of_complete hc
  | array ts closed =>
    cases hd : positions start fields ts with
    | error f => simp [record, hd] at h
    | ok d =>
      have hc : complete finish closed d = .ok a := by simpa only [record, hd] using h
      exact closed_of_complete hc
  | null | bool | number | string | broken => cases h

variable {α : Type} {reader : Reader α}

theorem decode_append_ne_ok (hr : ∀ t a, reader t = .ok a → t.isClosed = true) {cs : List Char}
    (h : (Reading.run {} cs).builder.Spoiled) (ds : List Char) (a : α) :
    decode reader (cs ++ ds) ≠ .ok a := by
  intro hd
  obtain ⟨t, hfinish, ht⟩ := decode_eq_ok_iff.mp hd
  refine Builder.not_spoiled_of_finish hfinish (hr t a ht) (Builder.Spoiled.foldl_step ?_ _)
  rw [Reading.run_append]
  exact Reading.spoiled_builder_run h ds

/-- Behind a text that is read, another container is surplus. -/
theorem decode_append_brace_ne_ok (hr : ∀ t a, reader t = .ok a → t.isClosed = true)
    {cs : List Char} {a : α} (h : decode reader cs = .ok a) (ds : List Char) (b : α) :
    decode reader (cs ++ '\x7b' :: ds) ≠ .ok b := by
  obtain ⟨t, hfinish, ht⟩ := decode_eq_ok_iff.mp h
  rw [List.append_cons]
  refine decode_append_ne_ok hr ?_ ds b
  rw [Reading.run_append, Reading.run_eq_of_finish_closed hfinish (hr t a ht)]
  exact .inl rfl

theorem Mode.start_of_isBlank {c : Char} (hb : Text.isBlank c = true) (hs : isSpace c = false) :
    start c = fail := by
  have hne (d : Char) (hd : Text.isBlank d = false) : c ≠ d := by
    rintro rfl
    rw [hb] at hd
    cases hd
  have hdigit : digit? c = none := by
    rw [digit?, if_neg]
    intro h
    obtain ⟨hlow, hhigh⟩ : 48 ≤ c.toNat ∧ c.toNat ≤ 57 := Char.isDigit_iff_toNat.mp h
    simp only [Text.isBlank, Bool.or_eq_true, Bool.and_eq_true, decide_eq_true_eq] at hb
    omega
  unfold start
  rw [if_neg (by simp [hs])]
  repeat refine (if_neg (hne _ (by rfl))).trans ?_
  rw [hdigit]

/-- A blank that is none of JSON spoils a text that begins with blanks. -/
theorem Reading.spoiled_run_of_allBlank {cs : List Char} (hb : Text.allBlank cs = true)
    (hs : cs.all Mode.isSpace = false) (b : Builder) : (run ⟨.between, b⟩ cs).builder.Spoiled := by
  induction cs with
  | nil => cases hs
  | cons c cs ih =>
    obtain ⟨hc, hcs⟩ : Text.isBlank c = true ∧ Text.allBlank cs = true :=
      Bool.and_eq_true_iff.mp hb
    rw [run_cons]
    cases hspace : Mode.isSpace c with
    | true =>
      rw [step_of_isSpace hspace]
      exact ih hcs (by simpa [hspace] using hs)
    | false =>
      refine spoiled_builder_run ?_ cs
      have hfail : Mode.step .between (some c) = Mode.fail := Mode.start_of_isBlank hc hspace
      rw [step, hfail]
      exact Builder.spoiled_step_malformed b

end TripleIndex.Json
