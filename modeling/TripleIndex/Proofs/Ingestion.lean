import TripleIndex.Command.Run
import TripleIndex.Proofs.Replay
import TripleIndex.Proofs.Service

/-!
# Records from a file and from a request

A record comes into the index along two ways: the command line ingests it from a file, and the
service takes it from the body of a request.  Behind both there is one addition, and what becomes of
it depends on the storage and on what the index has been opened with, not on the index at hand
(`Index.add_congr`).

The two ways part before the addition.  The service refuses an identifier without a kind or without
a name, and the command line asks nothing of it: it files such a record wherever it would file any
other one (`Command.run_ingest_respond`).

What is one record is the same on both ways (`Submission.read_record`, `Http.readBody_filing`).
-/

namespace TripleIndex

open Text

/-! ## What becomes of an addition -/

namespace Index

variable {i j x y : Index} {a b : Access} {u : Submission}

/-- Whether an addition is recorded, and the access that it leaves: it is if the index is loaded and
the log can be appended to, and otherwise no octets have changed. -/
inductive Filing (i : Index) (a : Access) (u : Submission) : Bool → Access → Prop where
  | filed {b : Access} (hload : (i.ensureLoaded a).isOk = true)
      (happend : a.append i.catalog.key (Log.octets (.ofSubmission u)) = (.ok (), b)) :
      Filing i a u true b
  | refused {b : Access} (hcause : (i.ensureLoaded a).isOk = false ∨
        ∃ f, a.append i.catalog.key (Log.octets (.ofSubmission u)) = (.error f, b))
      (hfiled : ∀ key, b.storage.filed? key = a.storage.filed? key)
      (hkept : ∀ key octets, a.storage.Keeps key octets → b.storage.Keeps key octets) :
      Filing i a u false b

theorem filing_add (i : Index) (a : Access) (u : Submission) :
    i.Filing a u (i.add a u).1.isOk (i.add a u).2.2 := by
  generalize hadd : i.add a u = r
  obtain ⟨done, i', b⟩ := r
  cases done with
  | ok _ =>
    obtain ⟨j, hj, happend, -⟩ := eq_of_add hadd
    rw [key_of_ensureLoaded hj] at happend
    exact .filed (by rw [hj]; rfl) happend
  | error e =>
    have hspares := Session.spares_of_add hadd
    refine .refused ?_ hspares.filed hspares.kept
    rcases add_eq_error hadd with ⟨hload, -, -⟩ | ⟨f, -, hj, happend⟩
    · exact .inl (by rw [hload]; rfl)
    · rw [key_of_ensureLoaded hj] at happend
      exact .inr ⟨f, happend⟩

/-- What loading comes to depends on what the index has been opened with and on nothing else of
it. -/
theorem load_congr (h : x.opening = y.opening) : x.load a = y.load a := by
  obtain ⟨ns, ⟨key, es, loaded⟩, store, subjects⟩ := x
  obtain ⟨ns', ⟨key', es', loaded'⟩, store', subjects'⟩ := y
  obtain ⟨rfl, rfl⟩ : ns = ns' ∧ key = key' := Prod.mk.inj h
  have hreplay : (⟨key, es, loaded⟩ : Catalog).replay a =
      (⟨key, es', loaded'⟩ : Catalog).replay a := rfl
  rw [load, load, Catalog.load, Catalog.load, hreplay]
  cases (⟨key, es', loaded'⟩ : Catalog).replay a with
  | error e => rfl
  | ok entries => exact congrArg Except.ok ((rebuild_eq _).trans (rebuild_eq _).symm)

/-- An index that is loaded adds what one adds that has yet to be loaded, provided that it could be
loaded again. -/
theorem add_congr (h : x.opening = y.opening) (hy : y.catalog.loaded = false)
    (hx : x.catalog.loaded = true → (x.load a).isOk = true) :
    (x.add a u).1 = (y.add a u).1 ∧ (x.add a u).2.2 = (y.add a u).2.2 := by
  rw [add_eq, add_eq, ensureLoaded_of_not_loaded hy]
  cases hloaded : x.catalog.loaded with
  | false =>
    rw [ensureLoaded_of_not_loaded hloaded, load_congr h]
    cases hload : y.load a with
    | error e => exact ⟨rfl, rfl⟩
    | ok j =>
      dsimp only
      cases (a.append j.catalog.key (Log.octets (.ofSubmission u))).1 <;> exact ⟨rfl, rfl⟩
  | true =>
    obtain ⟨j, hj⟩ := eq_ok_of_isOk (hx hloaded)
    have hkey : j.catalog.key = x.catalog.key := congrArg Prod.snd (opening_of_load hj)
    rw [ensureLoaded_of_loaded hloaded, ← load_congr h, hj]
    dsimp only
    rw [hkey]
    cases (a.append x.catalog.key (Log.octets (.ofSubmission u))).1 <;> exact ⟨rfl, rfl⟩

end Index

/-! ## The two ways -/

namespace Http

variable {r : Request} {x : Index} {a : Access} {u : Submission}

/-- A request that is posted to where entries are posted is answered there. -/
theorem respond_of_post (hmethod : r.method = "POST")
    (hpath : (Target.ofText r.target).path = "/api/graph/items".toList) :
    respond r x a = (responseOf (answerItems r x a), (answerItems r x a).2) := by
  have hroute : Route.ofPath? "/api/graph/items".toList = some .items := by decide
  rw [respond, hmethod, hpath, hroute]
  rfl

/-- An identifier without a kind or without a name is refused before the index is asked. -/
theorem respond_of_empty (hmethod : r.method = "POST")
    (hpath : (Target.ofText r.target).path = "/api/graph/items".toList)
    (hbody : readBody Submission.reader r = .ok u)
    (hempty : u.identifier.kind = "" ∨ u.identifier.name = "") :
    (respond r x a).1.status = 400 ∧ (respond r x a).2 = (x, a) := by
  have hcheck : ∃ s, Identifier.checkNonempty u.identifier.kind u.identifier.name =
      .error (.settings s) := by
    rw [Identifier.checkNonempty]
    split
    · exact ⟨_, rfl⟩
    · rename_i hkind
      exact ⟨_, if_pos (hempty.resolve_left hkind)⟩
  obtain ⟨s, hs⟩ := hcheck
  rw [respond_of_post hmethod hpath, answerItems, hbody]
  dsimp only
  rw [hs]
  exact ⟨rfl, rfl⟩

/-- Any other record is added. -/
theorem respond_of_nonempty (hmethod : r.method = "POST")
    (hpath : (Target.ofText r.target).path = "/api/graph/items".toList)
    (hbody : readBody Submission.reader r = .ok u) (hkind : u.identifier.kind ≠ "")
    (hname : u.identifier.name ≠ "") :
    ((respond r x a).1.status = 201 ↔ (x.add a u).1.isOk = true) ∧
      (respond r x a).2 = (x.add a u).2 := by
  rw [respond_of_post hmethod hpath, answerItems, hbody]
  simp only [checkNonempty_of_ne hkind hname]
  cases hadd : (x.add a u).1 with
  | ok _ => exact ⟨⟨fun _ ↦ rfl, fun _ ↦ rfl⟩, rfl⟩
  | error e =>
    refine ⟨⟨fun h ↦ (Refusal.status_response_ne _ h).elim, fun h ↦ ?_⟩, rfl⟩
    cases h

end Http

namespace Command

variable {words : List String} {octets : List UInt8} {files : FileTree} {v : Invocation}
  {file : String} {x y : Index} {u : Submission} {r : Http.Request}

theorem exists_of_index (h : v.index files = .ok y) :
    ∃ ns, y = { namespaces := ns, catalog := { key := v.indexKey } } := by
  rw [Invocation.index] at h
  cases hns : knownNamespaces v.namespaces files with
  | error e => simp [hns] at h
  | ok ns =>
    rw [hns] at h
    exact ⟨ns, Index.eq_of_create h⟩

theorem loaded_of_index (h : v.index files = .ok y) : y.catalog.loaded = false := by
  obtain ⟨ns, rfl⟩ := exists_of_index h
  rfl

/-- Ingesting a file with one record is adding it to a new index. -/
theorem run_ingest (input : List UInt8) (hwords : Invocation.parse words = .ok v)
    (haction : v.action = .ingest file) (hfile : files.read (Path.ofString file) = .ok octets)
    (hrecord : Log.read Submission.reader octets = .ok [u]) (hindex : v.index files = .ok y) :
    ((run words input files).1.exit = .success ↔ (y.add (v.access files) u).1.isOk = true) ∧
      (run words input files).2 = filesOf (y.add (v.access files) u).2.2 files := by
  rw [run, hwords]
  simp only [perform, hindex, haction, hfile, ingest, hrecord, Index.addMany]
  cases hadd : (y.add (v.access files) u).1 with
  | ok _ => exact ⟨⟨fun _ ↦ rfl, fun _ ↦ rfl⟩, rfl⟩
  | error e =>
    refine ⟨⟨fun h ↦ ?_, fun h ↦ ?_⟩, rfl⟩
    · cases h
    · cases h

/-- A file with one record is ingested, and the record is posted to a service over the same files
with the same settings.  Nothing but an identifier without a kind or without a name makes a
difference: the command line does with it what it does with any other, the service refuses it. -/
theorem run_ingest_respond (input : List UInt8) (hwords : Invocation.parse words = .ok v)
    (haction : v.action = .ingest file) (hfile : files.read (Path.ofString file) = .ok octets)
    (hrecord : Log.read Submission.reader octets = .ok [u]) (hindex : v.index files = .ok y)
    (hmethod : r.method = "POST")
    (hpath : (Http.Target.ofText r.target).path = "/api/graph/items".toList)
    (hbody : Http.readBody Submission.reader r = .ok u) (hopening : x.opening = y.opening)
    (hlog : x.catalog.loaded = true → (x.load (v.access files)).isOk = true) :
    ∃ filed b, y.Filing (v.access files) u filed b ∧
      ((run words input files).1.exit = .success ↔ filed = true) ∧
      (run words input files).2 = filesOf b files ∧
      if u.identifier.kind = "" ∨ u.identifier.name = "" then
        (Http.respond r x (v.access files)).1.status = 400 ∧
          (Http.respond r x (v.access files)).2 = (x, v.access files)
      else
        ((Http.respond r x (v.access files)).1.status = 201 ↔ filed = true) ∧
          (Http.respond r x (v.access files)).2.2 = b := by
  obtain ⟨hexit, hfiles⟩ := run_ingest input hwords haction hfile hrecord hindex
  refine ⟨_, _, y.filing_add (v.access files) u, hexit, hfiles, ?_⟩
  split
  · rename_i hempty
    exact Http.respond_of_empty hmethod hpath hbody hempty
  · rename_i hnonempty
    rw [not_or] at hnonempty
    obtain ⟨hstatus, hrest⟩ := Http.respond_of_nonempty (x := x) (a := v.access files) hmethod
      hpath hbody hnonempty.1 hnonempty.2
    obtain ⟨hdone, haccess⟩ := Index.add_congr (u := u) hopening (loaded_of_index hindex) hlog
    rw [hdone] at hstatus
    exact ⟨hstatus, (congrArg Prod.snd hrest).trans haccess⟩

/-- A record whose identifier has no kind. -/
def kindless : Submission := ⟨{ kind := "", name := "b" }, [⟨"ex:a", "type", "Message"⟩]⟩

/-- A tree with a file that holds a record. -/
def filesWith (u : Submission) : FileTree :=
  FileTree.set {} ["in.jsonl".toList] (.file (Utf8.encode (u.record ++ Log.LineEnd.feed.text)))

/-- The command line files the record, and the service refuses it. -/
theorem run_ingest_respond_kindless :
    ∃ v y, Invocation.parse ["ingest", "in.jsonl"] = .ok v ∧ v.action = .ingest "in.jsonl" ∧
      (filesWith kindless).read (Path.ofString "in.jsonl") =
        .ok (Utf8.encode (kindless.record ++ Log.LineEnd.feed.text)) ∧
      Log.read Submission.reader (Utf8.encode (kindless.record ++ Log.LineEnd.feed.text)) =
        .ok [kindless] ∧
      v.index (filesWith kindless) = .ok y ∧
      Http.readBody Submission.reader (.filing kindless) = .ok kindless ∧
      (y.asLoaded.load (v.access (filesWith kindless))).isOk = true ∧
      (run ["ingest", "in.jsonl"] [] (filesWith kindless)).1.exit = .success ∧
      (run ["ingest", "in.jsonl"] [] (filesWith kindless)).2.read
          (Path.ofString "data/graphs/index.jsonl") =
        .ok (Log.octets (.ofSubmission kindless)) ∧
      (Http.respond (.filing kindless) y.asLoaded (v.access (filesWith kindless))).1.status = 400 ∧
      (Http.respond (.filing kindless) y.asLoaded (v.access (filesWith kindless))).2 =
        (y.asLoaded, v.access (filesWith kindless)) := by
  have hwords : Invocation.parse ["ingest", "in.jsonl"] =
      .ok ⟨"data/graphs", "index.jsonl", none, .ingest "in.jsonl"⟩ := by decide +kernel
  have hfile : (filesWith kindless).read (Path.ofString "in.jsonl") =
      .ok (Utf8.encode (kindless.record ++ Log.LineEnd.feed.text)) := by decide +kernel
  have hrecord := Submission.read_record (u := kindless) rfl .feed
  have hbody := Http.readBody_filing (u := kindless) rfl (by decide +kernel)
  have hload : (Session.blank.index.asLoaded.load
      (Invocation.access ⟨"data/graphs", "index.jsonl", none, .ingest "in.jsonl"⟩
        (filesWith kindless))).isOk = true := by decide +kernel
  obtain ⟨_, _, -, -, -, hrefused⟩ :=
    run_ingest_respond [] (r := .filing kindless) (x := Session.blank.index.asLoaded) hwords rfl
      hfile hrecord rfl rfl (by decide +kernel) hbody rfl fun _ ↦ hload
  rw [if_pos (.inl rfl)] at hrefused
  exact ⟨_, _, hwords, rfl, hfile, hrecord, rfl, hbody, hload, by decide +kernel,
    by decide +kernel, hrefused.1, hrefused.2⟩

end Command

end TripleIndex
