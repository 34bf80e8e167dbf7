import TripleIndex.Catalog
import TripleIndex.Proofs.Entries
import TripleIndex.Proofs.Layout
import TripleIndex.Proofs.Session
import TripleIndex.Proofs.Storage
import Mathlib.Data.List.Forall2

/-!
# Loading a catalog

A catalog is loaded from all of its log or not at all: the octets have to be text, and every line
that is not blank a record.  Of the records with one rendering the last one counts, at the place of
the first one, and under the id that belongs to it.

Hence the log may be written twice, one behind the other, or be replaced by the records of the
entries alone: the same catalog is loaded from it (`Catalog.load_of_finds`).
-/

namespace TripleIndex

open Text

theorem mapM_eq_ok_iff_forall₂ {ε α β : Type} {f : α → Except ε β} {as : List α} {bs : List β} :
    as.mapM f = .ok bs ↔ List.Forall₂ (fun a b ↦ f a = .ok b) as bs := by
  induction as generalizing bs with
  | nil => cases bs <;> simp [pure, Except.pure]
  | cons a as ih =>
    rw [List.mapM_cons, List.forall₂_cons_left_iff]
    constructor
    · intro h
      cases ha : f a with
      | error e => rw [ha] at h; cases h
      | ok b =>
        cases has : as.mapM f with
        | error e => rw [ha, has] at h; cases h
        | ok cs => rw [ha, has] at h; cases h; exact ⟨b, cs, rfl, ih.mp has, rfl⟩
    · rintro ⟨b, cs, hb, hcs, rfl⟩
      rw [hb, ih.mpr hcs]
      rfl

theorem exists_forall₂_iff {α β : Type} {r : α → β → Prop} {as : List α} :
    (∃ bs, List.Forall₂ r as bs) ↔ ∀ a ∈ as, ∃ b, r a b := by
  constructor
  · rintro ⟨bs, h⟩
    induction h with
    | nil => simp
    | cons hab _ ih => exact List.forall_mem_cons.mpr ⟨⟨_, hab⟩, ih⟩
  · intro h
    induction as with
    | nil => exact ⟨[], .nil⟩
    | cons a as ih =>
      obtain ⟨⟨b, hb⟩, has⟩ := List.forall_mem_cons.mp h
      obtain ⟨bs, hbs⟩ := ih has
      exact ⟨b :: bs, .cons hb hbs⟩

namespace Log

variable {α : Type} {reader : Json.Reader α} {octets more : List UInt8} {as bs : List α}
  {es : List Entry}

/-! ## Which logs are read -/

/-- The records that the lines of a text hold, one per line that is not blank. -/
def Holds (cs : List Char) (es : List Entry) : Prop :=
  List.Forall₂ (fun l e ↦ Json.decode Entry.reader l = .ok e) (recordLines cs) es

theorem readLine_eq_ok_iff {l : List Char} {a : α} :
    readLine reader l = .ok a ↔ Json.decode reader l = .ok a := by
  rw [readLine]
  cases Json.decode reader l <;> simp

theorem read_eq_ok_iff_forall₂ : read reader octets = .ok as ↔ ∃ cs, octets = Utf8.encode cs ∧
    List.Forall₂ (fun l a ↦ Json.decode reader l = .ok a) (recordLines cs) as := by
  simp only [read_eq_ok_iff, Utf8.decode_eq_ok_iff_eq_encode, mapM_eq_ok_iff_forall₂,
    readLine_eq_ok_iff]

theorem read_eq_ok_iff_holds :
    read Entry.reader octets = .ok es ↔ ∃ cs, octets = Utf8.encode cs ∧ Holds cs es :=
  read_eq_ok_iff_forall₂

theorem exists_records_iff {cs : List Char} :
    (∃ as, List.Forall₂ (fun l a ↦ Json.decode reader l = .ok a) (recordLines cs) as) ↔
      ∀ l ∈ lines cs, allBlank l = false → ∃ a, Json.decode reader l = .ok a := by
  rw [exists_forall₂_iff]
  simp [recordLines]

theorem exists_holds_iff {cs : List Char} :
    (∃ es, Holds cs es) ↔
      ∀ l ∈ lines cs, allBlank l = false → ∃ e, Json.decode Entry.reader l = .ok e :=
  exists_records_iff

/-! ## Logs behind logs -/

/-- The log is empty, or ends with a line feed. -/
def IsClosed (octets : List UInt8) : Prop := octets = [] ∨ octets.getLast? = some 10

theorem openLine_of_isClosed {cs : List Char} (h : IsClosed (Utf8.encode cs)) :
    openLine '\n' cs = [] := by
  rw [openLine_eq_nil_iff]
  cases cs using List.reverseRecOn with
  | nil => exact .inl rfl
  | append_singleton init c =>
    have hc : (String.utf8EncodeChar c).getLast? = some 10 := by
      rw [IsClosed, Utf8.encode_append, Utf8.encode, Utf8.encode, List.flatMap_singleton] at h
      rcases h with h | h
      · exact (String.utf8EncodeChar_ne_nil (List.append_eq_nil_iff.mp h).2).elim
      · rwa [List.getLast?_append_of_ne_nil _ String.utf8EncodeChar_ne_nil] at h
    rw [Utf8.getLast?_utf8EncodeChar_feed_iff.mp hc]
    exact .inr List.getLast?_concat

/-- Behind a closed text the lines of another one are what they are alone. -/
theorem recordLines_append {cs : List Char} (h : openLine '\n' cs = []) (ds : List Char) :
    recordLines (cs ++ ds) = recordLines cs ++ recordLines ds := by
  rw [recordLines, lines, linesOf_append h, List.filter_append]
  rfl

/-- A log is read behind a closed one as if it stood alone. -/
theorem read_append_of_isClosed (hclosed : IsClosed octets) (h : read reader octets = .ok as)
    (hmore : read reader more = .ok bs) : read reader (octets ++ more) = .ok (as ++ bs) := by
  obtain ⟨cs, rfl, has⟩ := read_eq_ok_iff_forall₂.mp h
  obtain ⟨ds, rfl, hbs⟩ := read_eq_ok_iff_forall₂.mp hmore
  refine read_eq_ok_iff_forall₂.mpr ⟨cs ++ ds, (Utf8.encode_append cs ds).symm, ?_⟩
  rw [recordLines_append (openLine_of_isClosed hclosed)]
  exact List.rel_append has hbs

theorem recordLines_flatMap_line (es : List Entry) :
    recordLines (es.flatMap line) = es.map Entry.record :=
  recordLines_of_laidOut (laidOut_flatMap_line es)

theorem flatMap_octets (es : List Entry) : es.flatMap Log.octets = Utf8.encode (es.flatMap line) :=
  List.flatMap_assoc.symm

/-- What is read of the records of some entries, one per line, are these entries as each of them is
read again. -/
theorem read_flatMap_octets_iff {fs : List Entry} :
    read Entry.reader (es.flatMap Log.octets) = .ok fs ↔
      List.Forall₂ (fun e f ↦ e.reread = .ok f) es fs := by
  rw [flatMap_octets, read, Utf8.decode_encode]
  simp only [recordLines_flatMap_line, mapM_eq_ok_iff_forall₂, readLine_eq_ok_iff,
    List.forall₂_map_left_iff, Entry.decode_record]

/-- The records of some entries, one per line, are a log of them. -/
theorem read_flatMap_octets (hes : ∀ e ∈ es, e.identifier.score = none) :
    read Entry.reader (es.flatMap Log.octets) = .ok es := by
  rw [read_flatMap_octets_iff, List.forall₂_same]
  exact fun e he ↦ Entry.reread_of_none (hes e he)

end Log

namespace Catalog

variable {c d : Catalog} {a : Access} {octets : List UInt8}

/-- What is replayed is all that the access finds. -/
theorem replay_of_finds (h : a.Finds c.key octets) :
    c.replay a = (Log.read Entry.reader octets).map Entries.ofList := by
  rw [replay, h.contains, h.read]
  rfl

theorem load_eq_ok_iff (h : a.Finds c.key octets) :
    c.load a = .ok d ↔ ∃ es, Log.read Entry.reader octets = .ok es ∧
      d = { c with entries := .ofList es, loaded := true } := by
  simp only [load, replay_of_finds h, map_eq_ok_iff, exists_exists_and_eq_and, eq_comm (a := d)]

/-- A log is loaded exactly if its octets are text in which every line that is not blank is a
record.  The entries are then the newest of the records, each under the id that belongs to it.
A closed log that is written twice, and the log of the entries alone, load the same catalog. -/
theorem load_of_finds (h : a.Finds c.key octets) :
    ((∃ d, c.load a = .ok d) ↔ ∃ cs, octets = Utf8.encode cs ∧
      ∀ l ∈ lines cs, allBlank l = false → ∃ e, Json.decode Entry.reader l = .ok e) ∧
    ∀ d, c.load a = .ok d → ∃ cs es, octets = Utf8.encode cs ∧ Log.Holds cs es ∧
      d.entries.toList = (Entry.newest es).map Entry.keyed ∧
      (Log.IsClosed octets → ∀ b : Access, b.Finds c.key (octets ++ octets) → c.load b = .ok d) ∧
      ((∀ e ∈ es, e.identifier.score = none) → ∀ b : Access,
        b.Finds c.key (d.entries.toList.flatMap Log.octets) → c.load b = .ok d) := by
  constructor
  · simp only [load_eq_ok_iff h, ← Log.exists_holds_iff]
    constructor
    · rintro ⟨-, es, hread, -⟩
      obtain ⟨cs, hcs, hes⟩ := Log.read_eq_ok_iff_holds.mp hread
      exact ⟨cs, hcs, es, hes⟩
    · rintro ⟨cs, hcs, es, hes⟩
      exact ⟨_, es, Log.read_eq_ok_iff_holds.mpr ⟨cs, hcs, hes⟩, rfl⟩
  · intro d hd
    obtain ⟨es, hread, rfl⟩ := (load_eq_ok_iff h).mp hd
    obtain ⟨cs, hcs, hes⟩ := Log.read_eq_ok_iff_holds.mp hread
    refine ⟨cs, es, hcs, hes, Entries.toList_ofList es, fun hclosed b hb ↦ ?_,
      fun hscore b hb ↦ ?_⟩
    · have htwice := Log.read_append_of_isClosed hclosed hread hread
      refine (load_eq_ok_iff hb).mpr ⟨es ++ es, htwice, ?_⟩
      rw [Entries.ofList_append_self]
    · have hcompact : ∀ e ∈ (Entries.ofList es).toList, e.identifier.score = none := by
        intro e he
        rw [Entries.toList_ofList] at he
        obtain ⟨x, hx, rfl⟩ := List.mem_map.mp he
        exact hscore x (Entry.mem_of_mem_newest hx)
      refine (load_eq_ok_iff hb).mpr ⟨_, Log.read_flatMap_octets hcompact, ?_⟩
      rw [Entries.ofList_toList_ofList]

/-- Two records of one identifier, the first of which has the id of the record in between, which
comes behind a blank line. -/
def rekeyed : List UInt8 :=
  Utf8.encode (Entry.record ⟨"M.b", { kind := "M", name := "a" }, [⟨"ex:a", "type", "x"⟩]⟩ ++
    ['\n', '\u00A0', '\r', '\n'] ++ Entry.record ⟨"M.b", { kind := "M", name := "b" }, []⟩ ++
    ['\r', '\n'] ++
    Entry.record ⟨"", { kind := "M", name := "a", parent := some "undefined" }, []⟩ ++ ['\n'])

/-- A memory that has octets under the usual key. -/
def finding (octets : List UInt8) : Access where
  storage := .memory (Memory.put {} "index.jsonl" octets)

theorem finds_finding (octets : List UInt8) : (finding octets).Finds "index.jsonl" octets := by
  have hreads : (finding octets).Reads := ⟨List.not_mem_nil, List.not_mem_nil⟩
  exact hreads.finds (Storage.keeps_memory ((Memory.read_put _ _ _ _).trans (if_pos rfl)))

theorem load_of_finds_rekeyed :
    (finding rekeyed).Finds "index.jsonl" rekeyed ∧ Log.IsClosed rekeyed ∧
      ∃ d, load { key := "index.jsonl" } (finding rekeyed) = .ok d ∧
        d.entries.toList.map (·.id) = ["M.a", "M.b"] ∧
        load { key := "index.jsonl" } (finding (rekeyed ++ rekeyed)) = .ok d ∧
        (∃ cs es, rekeyed = Utf8.encode cs ∧ Log.Holds cs es ∧
          d.entries.toList = (Entry.newest es).map Entry.keyed) := by
  have hfinds := finds_finding rekeyed
  have hclosed : Log.IsClosed rekeyed := .inr (by decide +kernel)
  have hload : (load { key := "index.jsonl" } (finding rekeyed)).map
      (·.entries.toList.map (·.id)) = .ok ["M.a", "M.b"] := by decide +kernel
  obtain ⟨d, hd, hids⟩ := map_eq_ok_iff.mp hload
  obtain ⟨cs, es, hcs, hes, hnewest, htwice, -⟩ :=
    (load_of_finds (c := { key := "index.jsonl" }) hfinds).2 d hd
  exact ⟨hfinds, hclosed, d, hd, hids, htwice hclosed _ (finds_finding _),
    cs, es, hcs, hes, hnewest⟩

end Catalog

end TripleIndex
