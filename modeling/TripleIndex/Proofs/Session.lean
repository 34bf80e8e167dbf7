import TripleIndex.Index

/-!
# Sessions

A session is an index together with its access to a storage.  Operations are performed one after
the other; between them the storage may be changed from outside, by whoever else writes to it or
because calls begin or cease to be refused.

An operation does one of few things to the index (`Operation.perform_index`), and no operation but
an addition does anything to the storage.
-/

namespace TripleIndex

theorem map_eq_ok_iff {ε α β : Type} {x : Except ε α} {f : α → β} {b : β} :
    x.map f = .ok b ↔ ∃ a, x = .ok a ∧ f a = b := by
  cases x <;> simp [Except.map]

theorem map_eq_error_iff {ε α β : Type} {x : Except ε α} {f : α → β} {e : ε} :
    x.map f = .error e ↔ x = .error e := by
  cases x <;> simp [Except.map]

theorem eq_ok_of_isOk {ε α : Type} {x : Except ε α} (h : x.isOk = true) : ∃ a, x = .ok a := by
  cases x with
  | ok a => exact ⟨a, rfl⟩
  | error e => cases h

inductive Operation where
  | load
  | add (s : Submission)
  | query (p : Pattern) (f : Filter)
  | has (id : String)
  | get (id : String)
  | identifiers
  | typedSubjects (type? : Option String)
  | stats

/-- What an operation that succeeds gives back. -/
inductive Answer where
  | done
  | flag (b : Bool)
  | entry (e : Option Entry)
  | identifiers (is : List Identifier)
  | types (pairs : List (String × String))
  | stats (s : Stats)

structure Session where
  index : Index
  access : Access

/-- What can happen in a session. -/
inductive Event where
  | perform (o : Operation)
  /-- From now on the index reaches its storage by another access. -/
  | outside (a : Access)

namespace Index

/-- The index behind a question: loaded, unless loading failed. -/
def settle (i : Index) (a : Access) : Index :=
  match i.ensureLoaded a with
  | .ok j => j
  | .error _ => i

theorem ask_snd {α : Type} (i : Index) (a : Access) (answer : Index → α) :
    (i.ask a answer).2 = i.settle a := by
  rw [ask, settle]
  cases i.ensureLoaded a <;> rfl

theorem ask_eq_ok_iff {α : Type} {i j : Index} {a : Access} {answer : Index → α} {b : α} :
    i.ask a answer = (.ok b, j) ↔ i.ensureLoaded a = .ok j ∧ answer j = b := by
  rw [ask]
  split
  · rename_i e he
    simp [he]
  · rename_i k hk
    simp only [hk, Prod.mk.injEq, Except.ok.injEq]
    constructor
    · rintro ⟨rfl, rfl⟩
      exact ⟨rfl, rfl⟩
    · rintro ⟨rfl, rfl⟩
      exact ⟨rfl, rfl⟩

theorem ensureLoaded_of_loaded {i : Index} (h : i.catalog.loaded = true) (a : Access) :
    i.ensureLoaded a = .ok i := by
  rw [ensureLoaded, if_pos h]

theorem ensureLoaded_of_not_loaded {i : Index} (h : i.catalog.loaded = false) (a : Access) :
    i.ensureLoaded a = i.load a := by
  rw [ensureLoaded, h]
  rfl

theorem eq_or_fresh_of_ensureLoaded {i j : Index} {a : Access} (h : i.ensureLoaded a = .ok j) :
    j = i ∨ i.catalog.loaded = false ∧ i.load a = .ok j := by
  cases hloaded : i.catalog.loaded with
  | true =>
    rw [ensureLoaded_of_loaded hloaded] at h
    exact .inl (Except.ok.inj h).symm
  | false =>
    rw [ensureLoaded_of_not_loaded hloaded] at h
    exact .inr ⟨rfl, h⟩

theorem eq_or_load_of_ensureLoaded {i j : Index} {a : Access} (h : i.ensureLoaded a = .ok j) :
    j = i ∨ i.load a = .ok j := (eq_or_fresh_of_ensureLoaded h).imp_right And.right

theorem settle_eq_or_fresh (i : Index) (a : Access) :
    i.settle a = i ∨ i.catalog.loaded = false ∧ i.load a = .ok (i.settle a) := by
  rw [settle]
  cases hj : i.ensureLoaded a with
  | error e => exact .inl rfl
  | ok j => exact eq_or_fresh_of_ensureLoaded hj

theorem settle_eq_or_load (i : Index) (a : Access) :
    i.settle a = i ∨ i.load a = .ok (i.settle a) := (i.settle_eq_or_fresh a).imp_right And.right

end Index

namespace Operation

/-- Performs an operation: its answer, and the index and the access behind it. -/
def perform (o : Operation) (i : Index) (a : Access) : Except Error Answer × Index × Access :=
  match o with
  | .load =>
    match i.load a with
    | .ok j => (.ok .done, j, a)
    | .error e => (.error e, i, a)
  | .add s => let r := i.add a s; (r.1.map fun _ ↦ .done, r.2)
  | .query p f => let r := i.query a p f; (r.1.map .identifiers, r.2, a)
  | .has id => let r := i.has a id; (r.1.map .flag, r.2, a)
  | .get id => let r := i.get? a id; (r.1.map .entry, r.2, a)
  | .identifiers => let r := i.identifiers a; (r.1.map .identifiers, r.2, a)
  | .typedSubjects type? => let r := i.typedSubjects a type?; (r.1.map .types, r.2, a)
  | .stats => let r := i.stats a; (r.1.map .stats, r.2, a)

/-- What becomes of the index: it stays, it is loaded, or it takes an entry in. -/
theorem perform_index (o : Operation) (i : Index) (a : Access) :
    (o.perform i a).2.1 = i ∨ i.load a = .ok (o.perform i a).2.1 ∨
      ∃ s, o = .add s ∧ (o.perform i a).2 = (i.add a s).2 := by
  have hask : ∀ {α : Type} (answer : Index → α),
      (i.ask a answer).2 = i ∨ i.load a = .ok (i.ask a answer).2 := by
    intro α answer
    rw [Index.ask_snd]
    exact i.settle_eq_or_load a
  cases o with
  | load =>
    rw [perform]
    cases hload : i.load a with
    | ok j => exact .inr (.inl rfl)
    | error e => exact .inl rfl
  | add s => exact .inr (.inr ⟨s, rfl, rfl⟩)
  | query p f => exact (hask _).imp_right .inl
  | has id => exact (hask _).imp_right .inl
  | get id => exact (hask _).imp_right .inl
  | identifiers => exact (hask _).imp_right .inl
  | typedSubjects type? => exact (hask _).imp_right .inl
  | stats => exact (hask _).imp_right .inl

end Operation

namespace Session

/-- A session that begins with a new index. -/
def Opens (s : Settings) (x : Session) : Prop := Index.create s = .ok x.index

/-- A session with the standard settings that begins over an empty memory. -/
def blank : Session :=
  ⟨{ namespaces := .standard, catalog := { key := "index.jsonl" } }, { storage := .memory {} }⟩

theorem opens_blank : blank.Opens {} := rfl

def step (x : Session) : Event → Session
  | .perform o => let r := (o.perform x.index x.access).2; ⟨r.1, r.2⟩
  | .outside a => { x with access := a }

/-- The session behind a run of events. -/
def after (x : Session) (events : List Event) : Session := events.foldl step x

@[simp] theorem after_nil (x : Session) : x.after [] = x := rfl

@[simp] theorem after_cons (x : Session) (e : Event) (events : List Event) :
    x.after (e :: events) = (x.step e).after events := rfl

theorem after_append (x : Session) (events more : List Event) :
    x.after (events ++ more) = (x.after events).after more := List.foldl_append

/-- A property of indexes that loading and adding keep holds all along. -/
theorem after_induction {P : Index → Prop} (hload : ∀ {i j a}, P i → i.load a = .ok j → P j)
    (hadd : ∀ {i a s}, P i → P (i.add a s).2.1) {x : Session} (hx : P x.index)
    (events : List Event) : P (x.after events).index := by
  induction events generalizing x with
  | nil => exact hx
  | cons e events ih =>
    refine ih ?_
    cases e with
    | outside a => exact hx
    | perform o =>
      rcases o.perform_index x.index x.access with h | h | ⟨s, -, h⟩
      · exact Eq.mpr (congrArg P h) hx
      · exact hload hx h
      · exact Eq.mpr (congrArg (fun r ↦ P r.1) h) (hadd hx)

end Session

end TripleIndex
