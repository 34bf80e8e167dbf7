import TripleIndex.Record.Entry
import TripleIndex.Proofs.Json.Number

/-!
# Records there and back

The record of an entry is one line that spells a tree, and from this tree the entry is read again
(`Entry.reader_tree`), provided that its identifier has no score.

Scores are floats.  A score stands in the record as some value, and what is read of it is up to the
arithmetic of floats.  Whatever it is, it takes the place of the score, and everything else is read
as it has been written (`Entry.exists_tree`).
-/

namespace TripleIndex

open Json

/-- A member with a text. -/
def Json.textMember (name s : String) : Member := (some name, .string (some s))

theorem Json.adds_textMember (name s : String) :
    Adds .object Want.IsName (member name (string s)) (textMember name s) :=
  (closes_string s).spells.adds_member name

/-- The text of a member that may be left out adds the member, if there is one. -/
theorem Json.adds_member? {α : Type} (name : String) {write : α → List Char} {tree : α → Tree}
    (h : ∀ a, Spells (write a) (tree a)) (value : Option α) :
    List.Forall₂ (Adds .object Want.IsName) (member? name (value.map write))
      (value.map fun a ↦ (some name, tree a)).toList := by
  cases value with
  | none => exact .nil
  | some a => exact .cons ((h a).adds_member name) .nil

namespace Statement

/-- What the record of a statement says. -/
def tree (s : Statement) : Tree :=
  .object [textMember "subject" s.subject, textMember "predicate" s.predicate,
    textMember "object" s.object] true

theorem closes_record (s : Statement) : Closes s.record s.tree :=
  closes_object (.cons (adds_textMember _ _) (.cons (adds_textMember _ _)
    (.cons (adds_textMember _ _) .nil)))

theorem reader_tree (s : Statement) : reader s.tree = .ok s := rfl

theorem feed_notMem_record (s : Statement) : '\n' ∉ s.record := by
  refine feed_notMem_object ?_
  simp [feed_notMem_member, feed_notMem_string]

end Statement

namespace Json.Reader

theorem read_field {δ α : Type} {names : List String} {get : δ → Option α} {set : α → δ → δ}
    {read : Reader α} {t : Tree} {a : α} (h : read t = .ok a) :
    (field names get set read).read t = .ok (set a) := by
  simp [field, h, Except.map]

/-- A member is read into its field, unless that has been read. -/
theorem members_cons {δ : Type} {fields : List (Field δ)} {d : δ} {name : String} {f : Field δ}
    (hfield : fields.find? (fun f ↦ f.names.contains name) = some f) (hfirst : f.isRead d = false)
    {t : Tree} {put : δ → δ} (ht : f.read t = .ok put) (ms : List Member) :
    members fields d ((some name, t) :: ms) = members fields (put d) ms := by
  simp only [members, hfield, hfirst, ht]
  rfl

theorem record_object {δ α : Type} {fields : List (Field δ)} {start d : δ} {finish : δ → Option α}
    {ms : List Member} {a : α} (hms : members fields start ms = .ok d) (hd : finish d = some a) :
    record fields start finish (.object ms true) = .ok a := by
  simp [record, hms, complete, hd]

/-- A member that is left out when there is no value is read into its field if it is there. -/
theorem members_option {δ α : Type} {fields : List (Field δ)} {d : δ} {name : String} {f : Field δ}
    (hfield : fields.find? (fun f ↦ f.names.contains name) = some f) (hfirst : f.isRead d = false)
    {tree : α → Tree} {put : α → δ → δ} (hread : ∀ a, f.read (tree a) = .ok (put a))
    (value : Option α) (ms : List Member) :
    members fields d ((value.map fun a ↦ (some name, tree a)).toList ++ ms) =
      members fields (value.elim d fun a ↦ put a d) ms := by
  cases value with
  | none => rfl
  | some a => exact members_cons hfield hfirst (hread a) ms

theorem list_map {α : Type} {reader : Reader α} {tree : α → Tree}
    (h : ∀ a, reader (tree a) = .ok a) (as : List α) :
    list reader (.array (as.map tree) true) = .ok as := by
  have hitems (acc : List α) : items reader acc (as.map tree) = .ok (acc.reverse ++ as) := by
    induction as generalizing acc with
    | nil => simp [items]
    | cons a as ih => simp [items, h, ih]
  simp [list, hitems]

end Json.Reader

namespace Identifier

/-- What the record of an identifier without a score says. -/
def tree (i : Identifier) : Tree :=
  .object ([textMember "type" i.kind, textMember "name" i.name] ++
    (i.parent.map (textMember "parent")).toList ++
    (i.tokens.map fun n ↦ (some "tokens", .number (Decimal.ofNat n.toNat))).toList) true

/-- What the record says when scores are spelled as given trees. -/
def scoredTree (spelled : Float → Tree) (i : Identifier) : Tree :=
  .object ([textMember "type" i.kind, textMember "name" i.name] ++
    (i.parent.map (textMember "parent")).toList ++
    (i.tokens.map fun n ↦ (some "tokens", .number (Decimal.ofNat n.toNat))).toList ++
    (i.score.map fun x ↦ (some "score", spelled x)).toList) true

variable {i : Identifier} {spelled : Float → Tree}

theorem scoredTree_of_none (h : i.score = none) : i.scoredTree spelled = i.tree := by
  rw [scoredTree, h]
  exact congrArg (Tree.object · true) (List.append_nil _)

theorem closes_scoredTree (h : ∀ x, Spells (float x) (spelled x)) (i : Identifier) :
    Closes i.record (i.scoredTree spelled) := by
  have hnames : List.Forall₂ (Adds .object Want.IsName)
      [member "type" (string i.kind), member "name" (string i.name)]
      [textMember "type" i.kind, textMember "name" i.name] :=
    .cons (adds_textMember _ _) (.cons (adds_textMember _ _) .nil)
  have hparent := adds_member? "parent" (fun s ↦ (closes_string s).spells) i.parent
  have htokens := adds_member? "tokens" spells_natural i.tokens
  have hscore := adds_member? "score" h i.score
  exact closes_object
    (List.rel_append (List.rel_append (List.rel_append hnames hparent) htokens) hscore)

/-- From what the record says, the identifier is read again, with the score that is read. -/
theorem reader_scoredTree (spelled : Float → Tree) (i : Identifier) :
    reader (i.scoredTree spelled) =
      match i.score with
      | none => .ok i
      | some x => (Reader.nullable Reader.float (spelled x)).map fun y ↦ { i with score := y } := by
  obtain ⟨kind, name, parent, tokens, score⟩ := i
  have hparent (s : String) :
      (Reader.field ["parent"] (·.parent) (fun v (d : Draft) ↦ { d with parent := some v })
        (Reader.nullable Reader.string)).read (.string (some s)) =
      .ok fun d ↦ { d with parent := some (some s) } := rfl
  have htokens (n : UInt64) :
      (Reader.field ["tokens"] (·.tokens) (fun v (d : Draft) ↦ { d with tokens := some v })
        (Reader.nullable Reader.natural)).read (.number (Decimal.ofNat n.toNat)) =
      .ok fun d ↦ { d with tokens := some (some n) } := by
    refine Reader.read_field ?_
    simp [Reader.nullable, Reader.natural, Decimal.toUInt64?_ofNat, Except.map]
  -- What comes in front of the score is read as it stands there.
  have hfront (ms : List Member) : Reader.members fields {}
      ([textMember "type" kind, textMember "name" name] ++
        (parent.map (textMember "parent")).toList ++
        (tokens.map fun n ↦ (some "tokens", .number (Decimal.ofNat n.toNat))).toList ++ ms) =
      Reader.members fields ⟨some kind, some name, parent.map some, tokens.map some, none⟩ ms := by
    rw [List.append_assoc, List.append_assoc, List.cons_append, List.cons_append, List.nil_append,
      textMember, textMember, Reader.members_cons rfl rfl rfl, Reader.members_cons rfl rfl rfl,
      funext fun s ↦ show textMember "parent" s = (some "parent", .string (some s)) from rfl,
      Reader.members_option rfl rfl hparent, Reader.members_option rfl _ htokens]
    · cases parent <;> cases tokens <;> rfl
    · cases parent <;> rfl
  rw [reader, scoredTree, Reader.record, hfront]
  cases score with
  | none => cases parent <;> cases tokens <;> rfl
  | some x =>
    have hscore : Reader.members fields
        ⟨some kind, some name, parent.map some, tokens.map some, none⟩
        [(some "score", spelled x)] =
        (Reader.nullable Reader.float (spelled x)).map fun y ↦
          ⟨some kind, some name, parent.map some, tokens.map some, some y⟩ := by
      cases hread : Reader.nullable Reader.float (spelled x) with
      | error f => simp [Reader.members, fields, Reader.field, hread, Except.map]
      | ok y => simp [Reader.members, fields, Reader.field, hread, Except.map]
    simp only [Option.map_some, Option.toList_some, hscore]
    cases Reader.nullable Reader.float (spelled x) with
    | error f => rfl
    | ok y => cases parent <;> cases tokens <;> rfl

theorem closes_record (h : i.score = none) : Closes i.record i.tree := by
  choose spelled hspelled _ using exists_spells_float
  rw [← scoredTree_of_none h]
  exact closes_scoredTree hspelled i

theorem reader_tree (h : i.score = none) : reader i.tree = .ok i := by
  have hread := reader_scoredTree (fun _ ↦ .null) i
  rwa [scoredTree_of_none h, h] at hread

/-- What comes of an identifier that is written and read again.  Its score may have become another
one or none, or may be no number that can be read. -/
def reread (i : Identifier) : Except Fault Identifier :=
  match i.score with
  | none => .ok i
  | some x => (Json.reread x).map fun y ↦ { i with score := y }

theorem reread_of_none (h : i.score = none) : i.reread = .ok i := by
  rw [reread, h]

theorem exists_tree (i : Identifier) : ∃ t, Closes i.record t ∧ reader t = i.reread := by
  choose spelled hspelled hread using exists_spells_float
  refine ⟨_, closes_scoredTree hspelled i, ?_⟩
  rw [reader_scoredTree, reread]
  cases i.score with
  | none => rfl
  | some x => exact congrArg (Except.map _) (hread x)

theorem feed_notMem_record (i : Identifier) : '\n' ∉ i.record := by
  refine feed_notMem_object ?_
  cases i.parent <;> cases i.tokens <;> cases i.score <;>
    simp [member?, feed_notMem_member, feed_notMem_string, feed_notMem_natural, feed_notMem_float]

end Identifier

namespace Entry

/-- What the record of an entry says, about an identifier of which some tree is said. -/
def treeWith (identifier : Tree) (e : Entry) : Tree :=
  .object [textMember "id" e.id, (some "identifier", identifier),
    (some "triples", .array (e.statements.map Statement.tree) true)] true

/-- What the record of an entry says. -/
def tree (e : Entry) : Tree := e.treeWith e.identifier.tree

theorem closes_treeWith {t : Tree} {e : Entry} (h : Closes e.identifier.record t) :
    Closes e.record (e.treeWith t) := by
  have hstatements : List.Forall₂ Spells (e.statements.map Statement.record)
      (e.statements.map Statement.tree) := by
    rw [List.forall₂_map_left_iff, List.forall₂_map_right_iff, List.forall₂_same]
    exact fun s _ ↦ s.closes_record.spells
  exact closes_object (.cons (adds_textMember _ _)
    (.cons (h.spells.adds_member _)
      (.cons ((closes_array hstatements).spells.adds_member _) .nil)))

/-- The entry is read as soon as its identifier is. -/
theorem reader_treeWith (t : Tree) (e : Entry) :
    reader (e.treeWith t) = (Identifier.reader t).map fun i ↦ { e with identifier := i } := by
  have hstatements : Reader.list Statement.reader (.array (e.statements.map Statement.tree) true) =
      .ok e.statements := Reader.list_map Statement.reader_tree e.statements
  cases hread : Identifier.reader t with
  | error f =>
    rw [reader, treeWith, Reader.record, textMember, Reader.members_cons rfl rfl rfl]
    simp [Reader.members, fields, Reader.field, hread, Except.map]
  | ok i =>
    refine Reader.record_object (d := ⟨e.id, i, e.statements⟩) ?_ rfl
    rw [textMember, Reader.members_cons rfl rfl rfl,
      Reader.members_cons rfl rfl (Reader.read_field hread),
      Reader.members_cons rfl rfl (Reader.read_field hstatements)]
    rfl

theorem closes_record {e : Entry} (h : e.identifier.score = none) : Closes e.record e.tree :=
  closes_treeWith (Identifier.closes_record h)

/-- From what its record says, the entry is read again. -/
theorem reader_tree {e : Entry} (h : e.identifier.score = none) : reader e.tree = .ok e := by
  rw [tree, reader_treeWith, Identifier.reader_tree h]
  rfl

/-- What comes of an entry that is written and read again. -/
def reread (e : Entry) : Except Fault Entry :=
  e.identifier.reread.map fun i ↦ { e with identifier := i }

theorem reread_of_none {e : Entry} (h : e.identifier.score = none) : e.reread = .ok e := by
  rw [reread, Identifier.reread_of_none h]
  rfl

theorem exists_tree (e : Entry) : ∃ t, Closes e.record t ∧ reader t = e.reread := by
  obtain ⟨t, hcloses, hread⟩ := e.identifier.exists_tree
  refine ⟨_, closes_treeWith hcloses, ?_⟩
  rw [reader_treeWith, hread, reread]

theorem decode_record (e : Entry) : Json.decode reader e.record = e.reread := by
  obtain ⟨t, hcloses, hread⟩ := e.exists_tree
  have hdecode : Json.decode reader ([] ++ e.record) = reader t :=
    Json.decode_append_of_closes rfl hcloses
  rw [List.nil_append] at hdecode
  rw [hdecode, hread]

theorem feed_notMem_record (e : Entry) : '\n' ∉ e.record := by
  refine feed_notMem_object ?_
  have harray : '\n' ∉ array (e.statements.map Statement.record) :=
    feed_notMem_array (by simp [Statement.feed_notMem_record])
  simp [feed_notMem_member, feed_notMem_string, Identifier.feed_notMem_record, harray]

end Entry

end TripleIndex
